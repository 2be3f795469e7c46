import MetricFormula.Proofs.Grammar.Stability
import MetricFormula.Proofs.Token.LineBreaks

/-!
# Line breaks in canonical text

The canonical text of a tree is a single line, unless the tree has an event with a line break in its name or in a
modifier. No formula has such an event that does not have a backslash directly before a line break.
-/

namespace MetricFormula

theorem Binary64.lineBreak_not_mem_positional (d : Decimal) : '\n' ∉ positional d := by
  have hdigits : '\n' ∉ Nat.toDigits 10 d.digits := fun h => absurd (isDigit_of_mem_digits h) (by decide)
  unfold positional
  dsimp only
  split
  · simp [hdigits]
  · split
    · simp only [List.mem_append, List.mem_cons, not_or]
      exact ⟨fun h => hdigits (List.mem_of_mem_take h), by decide, fun h => hdigits (List.mem_of_mem_drop h)⟩
    · simp [hdigits]

theorem Binary64.lineBreak_not_mem_text (x : Binary64) : '\n' ∉ x.text := by
  have hsign (negative : Bool) : '\n' ∉ signText negative := by cases negative <;> decide
  cases x with
  | nan => decide
  | infinite negative => cases negative <;> decide
  | finite negative u _ =>
      rw [text, List.mem_append, not_or]
      exact ⟨hsign negative, lineBreak_not_mem_positional _⟩

theorem Operator.lineBreak_not_mem_symbol (op : Operator) : '\n' ∉ op.symbol.toList := by cases op <;> decide

theorem Builtin.lineBreak_not_mem_name (f : Builtin) : '\n' ∉ f.name.toList := by cases f <;> decide

namespace Expr

/-- Some event of the tree has a line break in its name or in a modifier. -/
def HasLineBreak (e : Expr) : Prop := ∃ r ∈ e.events, '\n' ∈ r.chars

theorem lineBreak_mem_grouped {parens : Bool} {cs : List Char} : '\n' ∈ grouped parens cs ↔ '\n' ∈ cs := by
  cases parens <;> simp [grouped]

mutual

theorem lineBreak_mem_text (e : Expr) : '\n' ∈ e.text ↔ ∃ r ∈ e.events, '\n' ∈ r.chars := by
  cases e with
  | literal x => simp [text, events, x.lineBreak_not_mem_text]
  | event r => simp [text, events, r.lineBreak_mem_text]
  | binary op l r =>
      have hl := lineBreak_mem_text l
      have hr := lineBreak_mem_text r
      simp [text, events, lineBreak_mem_grouped, hl, hr, op.lineBreak_not_mem_symbol, or_and_right, exists_or]
  | call f as =>
      have has := lineBreak_mem_argumentsText as
      simp [text, events, has, f.lineBreak_not_mem_name]
  | conditional v t o =>
      have hv := lineBreak_mem_text v
      have ht := lineBreak_mem_text t
      have ho := lineBreak_mem_text o
      simp [text, events, lineBreak_mem_grouped, hv, ht, ho, or_and_right, exists_or]

theorem lineBreak_mem_argumentsText (as : List Expr) :
    '\n' ∈ argumentsText as ↔ ∃ r ∈ eventsList as, '\n' ∈ r.chars := by
  cases as with
  | nil => simp [argumentsText, eventsList]
  | cons a as =>
      have ha := lineBreak_mem_text a
      have has := lineBreak_mem_moreArgumentsText as
      simp [argumentsText, eventsList, ha, has, or_and_right, exists_or]

theorem lineBreak_mem_moreArgumentsText (as : List Expr) :
    '\n' ∈ moreArgumentsText as ↔ ∃ r ∈ eventsList as, '\n' ∈ r.chars := by
  cases as with
  | nil => simp [moreArgumentsText, eventsList]
  | cons a as =>
      have ha := lineBreak_mem_text a
      have has := lineBreak_mem_moreArgumentsText as
      simp [moreArgumentsText, eventsList, ha, has, or_and_right, exists_or]

end

theorem lineBreak_mem_print {e : Expr} : '\n' ∈ e.print.toList ↔ e.HasLineBreak := by
  rw [print, String.toList_ofList, lineBreak_mem_text, HasLineBreak]

theorem events_negated (e : Expr) : e.negated.events = e.events := by
  cases e <;> simp [negated, events]

end Expr

/-! ## Formulas -/

mutual

/-- Every event of a formula is the event of a token. -/
theorem Phrase.exists_chars {k n ts e} (h : Phrase k n ts e) : ∀ r ∈ e.events, ∃ t ∈ ts, t.chars = r.chars := by
  match h with
  | .plain h => exact h.exists_chars
  | .conditional hv ht ho =>
      intro r hr
      simp only [Expr.events, List.mem_append, List.mem_cons] at hr ⊢
      rcases hr with (hr | hr) | hr
      · obtain ⟨t, ht, heq⟩ := hv.exists_chars r hr
        exact ⟨t, .inl ht, heq⟩
      · obtain ⟨t, ht, heq⟩ := ht.exists_chars r hr
        exact ⟨t, .inr (.inr (.inl ht)), heq⟩
      · obtain ⟨t, ht, heq⟩ := ho.exists_chars r hr
        exact ⟨t, .inr (.inr (.inr (.inr ht))), heq⟩
  | .binary _ hl hr' =>
      intro r hr
      simp only [Expr.events, List.mem_append, List.mem_cons] at hr ⊢
      rcases hr with hr | hr
      · obtain ⟨t, ht, heq⟩ := hl.exists_chars r hr
        exact ⟨t, .inl ht, heq⟩
      · obtain ⟨t, ht, heq⟩ := hr'.exists_chars r hr
        exact ⟨t, .inr (.inr ht), heq⟩
  | .tighter _ _ h => exact h.exists_chars
  | .sign h =>
      intro r hr
      rw [Expr.events_negated] at hr
      obtain ⟨t, ht, heq⟩ := h.exists_chars r hr
      exact ⟨t, List.mem_cons_of_mem _ ht, heq⟩
  | .number => exact nofun
  | .event => exact fun r hr => ⟨_, List.mem_cons_self, congrArg Event.chars (List.mem_singleton.mp hr).symm⟩
  | .name _ =>
      intro r hr
      cases List.mem_singleton.mp hr
      exact ⟨_, List.mem_cons_self, by simp [Token.chars, Event.chars, Event.bare]⟩
  | .group h =>
      intro r hr
      obtain ⟨t, ht, heq⟩ := h.exists_chars r hr
      exact ⟨t, List.mem_cons_of_mem _ (List.mem_append_left _ ht), heq⟩
  | .call _ h _ _ =>
      intro r hr
      obtain ⟨t, ht, heq⟩ := h.exists_chars r hr
      exact ⟨t, List.mem_cons_of_mem _ (List.mem_cons_of_mem _ (List.mem_append_left _ ht)), heq⟩

theorem Arguments.exists_chars {n ts as} (h : Arguments n ts as) :
    ∀ r ∈ Expr.eventsList as, ∃ t ∈ ts, t.chars = r.chars := by
  match h with
  | .last h =>
      intro r hr
      rw [Expr.eventsList, Expr.eventsList, List.append_nil] at hr
      exact h.exists_chars r hr
  | .more h hs =>
      intro r hr
      simp only [Expr.eventsList, List.mem_append, List.mem_cons] at hr ⊢
      rcases hr with hr | hr
      · obtain ⟨t, ht, heq⟩ := h.exists_chars r hr
        exact ⟨t, .inl ht, heq⟩
      · obtain ⟨t, ht, heq⟩ := hs.exists_chars r hr
        exact ⟨t, .inr (.inr ht), heq⟩

end

theorem escapesLineBreak_of_parse {text : String} {t : Expr} (h : parse text = .ok t) (hbreak : t.HasLineBreak) :
    EscapesLineBreak text.toList := by
  obtain ⟨r, hr, hmem⟩ := hbreak
  obtain ⟨ls, hls, hformula⟩ := parse_eq_ok.mp h
  obtain ⟨x, hx, hchars⟩ := (Parser.formula_sound hformula).1.exists_chars r hr
  obtain ⟨l, hl, rfl⟩ := List.mem_map.mp hx
  obtain ⟨before, ws, after, htext, -, htoken⟩ := (Lexer.lex_lexed hls).place hl
  have hescapes := htoken.escapesLineBreak (hchars ▸ hmem)
  exact hescapes.trans ⟨before, after, by rw [htext, List.append_assoc]⟩

theorem Expr.HasLineBreak.of_simplify {e : Expr} (h : e.simplify.HasLineBreak) : e.HasLineBreak := by
  obtain ⟨r, hr, hmem⟩ := h
  exact ⟨r, (Expr.events_simplify_sublist e).subset hr, hmem⟩

/-- Canonical text has a line break exactly if the simplified formula has an event with one. -/
theorem lineBreak_mem_canonicalize {text c : String} (h : canonicalize text = .ok c) :
    '\n' ∈ c.toList ↔ ∃ t, parse text = .ok t ∧ t.simplify.HasLineBreak := by
  obtain ⟨t, hparse, rfl⟩ := canonicalize_eq_ok.mp h
  rw [Expr.lineBreak_mem_print]
  constructor
  · exact fun hbreak => ⟨t, hparse, hbreak⟩
  · rintro ⟨t', hparse', hbreak⟩
    cases hparse.symm.trans hparse'
    exact hbreak

end MetricFormula
