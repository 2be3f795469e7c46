import MetricFormula.Proofs.Grammar.RoundTrip
import MetricFormula.Proofs.Grammar.Unambiguous

/-!
# The trees that are read back

The canonical text of a tree is read as an equal tree exactly if the tree is well formed and within the limits.
-/

namespace MetricFormula

namespace Expr

/-! ## Trees equal to a well-formed one -/

theorem length_of_equalList {as bs : List Expr} (h : equalList as bs) : as.length = bs.length := by
  induction as generalizing bs with
  | nil =>
      obtain rfl := nil_equalList.mp h
      rfl
  | cons a as ih =>
      obtain ⟨b, bs, rfl, -, hs⟩ := cons_equalList.mp h
      rw [List.length_cons, List.length_cons, ih hs]

theorem events_only_of_equalList {as bs : List Expr} (h : equalList as bs) (has : ∀ a ∈ as, ∃ e, a = .event e) :
    ∀ b ∈ bs, ∃ e, b = .event e := by
  induction as generalizing bs with
  | nil =>
      obtain rfl := nil_equalList.mp h
      exact nofun
  | cons a as ih =>
      obtain ⟨b, bs, rfl, hab, hs⟩ := cons_equalList.mp h
      obtain ⟨⟨e, ha⟩, hall⟩ := List.forall_mem_cons.mp has
      rw [ha] at hab
      exact List.forall_mem_cons.mpr ⟨⟨e, event_beq.mp hab⟩, ih hs hall⟩

mutual

theorem WellFormed.of_beq {a b : Expr} (h : a == b) (ha : a.WellFormed) : b.WellFormed := by
  match a with
  | .literal x =>
      obtain ⟨y, rfl, hxy⟩ := literal_beq.mp h
      exact Binary64.isFinite_of_beq hxy ha
  | .event e =>
      obtain rfl := event_beq.mp h
      exact ha
  | .binary op l r =>
      obtain ⟨l', r', rfl, hl, hr⟩ := binary_beq.mp h
      exact ⟨WellFormed.of_beq hl ha.1, WellFormed.of_beq hr ha.2⟩
  | .call f as =>
      obtain ⟨bs, rfl, hs⟩ := call_beq.mp h
      obtain ⟨hlen, hevent, has⟩ := ha
      exact ⟨(length_of_equalList hs).symm.trans hlen, fun hf => events_only_of_equalList hs (hevent hf),
        WellFormedList.of_equalList hs has⟩
  | .conditional v t o =>
      obtain ⟨v', t', o', rfl, hv, ht, ho⟩ := conditional_beq.mp h
      exact ⟨WellFormed.of_beq hv ha.1, WellFormed.of_beq ht ha.2.1, WellFormed.of_beq ho ha.2.2⟩

theorem WellFormedList.of_equalList {as bs : List Expr} (h : equalList as bs) (has : WellFormedList as) :
    WellFormedList bs := by
  match as with
  | [] =>
      obtain rfl := nil_equalList.mp h
      trivial
  | a :: as =>
      obtain ⟨b, bs, rfl, hab, hs⟩ := cons_equalList.mp h
      exact ⟨WellFormed.of_beq hab has.1, WellFormedList.of_equalList hs has.2⟩

end

theorem Named.of_beq {a b : Expr} (h : a == b) (ha : a.Named) : b.Named := by
  rw [Named, ← events_of_beq h]
  exact ha

/-! ## Reading canonical text -/

theorem parse_print_of_nesting {t : Expr} (h : t.WellFormed) (hn : t.Named) (hdepth : t.depth ≤ maxDepth)
    (hnest : t.nesting < maxNesting) : parse t.print = .ok t := by
  obtain ⟨ls, hls, htokens⟩ := lex_print h hn
  have hphrase : Phrase 0 maxNesting t.tokens t := (canonical_tokens t h hn (Nat.le_sub_one_of_lt hnest)).formula
  exact parse_eq_ok.mpr ⟨ls, hls, Parser.formula_complete (htokens ▸ hphrase) hdepth⟩

/-- No other tree is read from the canonical text of a well-formed one. -/
theorem eq_of_parse_print {t t' : Expr} (h : t.WellFormed) (hn : t.Named) (hparse : parse t.print = .ok t') :
    t' = t ∧ t.depth ≤ maxDepth ∧ t.nesting < maxNesting := by
  obtain ⟨ls, hls, htokens⟩ := lex_print h hn
  obtain ⟨ls', hls', hformula⟩ := parse_eq_ok.mp hparse
  obtain rfl : ls' = ls := Except.ok.inj (hls'.symm.trans hls)
  obtain ⟨hphrase, hdepth⟩ := Parser.formula_sound hformula
  have hfits := hphrase.fits (lex_wellFormed hls)
  rw [htokens] at hphrase
  obtain rfl := hphrase.unique (canonical_tokens t h hn (Nat.le_refl _)).formula
  exact ⟨rfl, hdepth, hfits.lt⟩

end Expr

/-- A tree that was read is well formed and within the limits. -/
theorem wellFormed_of_parse {text : String} {t : Expr} (h : parse text = .ok t) :
    t.WellFormed ∧ t.Named ∧ t.depth ≤ maxDepth ∧ t.nesting < maxNesting := by
  obtain ⟨ls, hls, hformula⟩ := parse_eq_ok.mp h
  obtain ⟨hphrase, hdepth⟩ := Parser.formula_sound hformula
  have htokens := lex_wellFormed hls
  obtain ⟨hwell, hnamed⟩ := hphrase.wellFormed htokens
  exact ⟨hwell, hnamed, hdepth, (hphrase.fits htokens).lt⟩

/-- A tree survives printing and reading exactly if it is well formed with a name for every event, is not too tall, and
its canonical text opens no more levels than there are, the level of the formula included. -/
theorem parse_print_iff (t : Expr) :
    (∃ t', parse t.print = .ok t' ∧ t' == t) ↔
      (t.WellFormed ∧ t.Named) ∧ t.depth ≤ maxDepth ∧ t.nesting + 1 ≤ maxNesting := by
  constructor
  · rintro ⟨t', hparse, hequal⟩
    obtain ⟨hwell, hnamed, -, -⟩ := wellFormed_of_parse hparse
    have hwell := hwell.of_beq hequal
    have hnamed := hnamed.of_beq hequal
    obtain ⟨-, hdepth, hnest⟩ := Expr.eq_of_parse_print hwell hnamed hparse
    exact ⟨⟨hwell, hnamed⟩, hdepth, hnest⟩
  · rintro ⟨⟨hwell, hnamed⟩, hdepth, hnest⟩
    exact ⟨t, Expr.parse_print_of_nesting hwell hnamed hdepth hnest, Expr.beq_self t hwell.finite⟩

end MetricFormula
