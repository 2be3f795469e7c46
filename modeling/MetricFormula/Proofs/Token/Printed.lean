import MetricFormula.Expr.Printer
import MetricFormula.Proofs.Token.Completeness

/-! Printed names, modifiers and events are read back, whatever characters they are made of. -/

namespace MetricFormula

/-- Whether the text of a name has an escaped character. -/
def escapes (name : String) : Bool :=
  match name.toList with
  | [] => false
  | c :: cs => !(isWordStart c && !isReserved name && cs.all isWordChar)

/-- The token that the text of an event is read as. -/
def Event.token (e : Event) : Token := if e.isBare && !escapes e.name then .word e.name else .event e

theorem Written.mono {p q : Char → Bool} (hpq : ∀ c, p c → q c) {cs ws : List Char} (h : Written p cs ws) :
    Written q cs ws := by
  induction h with
  | nil => exact .nil
  | plain hc _ ih => exact .plain (hpq _ hc) ih
  | escaped _ ih => exact .escaped ih

theorem wordText_cons_of_pos {c : Char} (hc : isWordChar c) (cs : List Char) : wordText (c :: cs) = c :: wordText cs := by
  simp [wordText, escaped, hc]

theorem wordText_cons_of_neg {c : Char} (hc : ¬isWordChar c) (cs : List Char) :
    wordText (c :: cs) = '\\' :: c :: wordText cs := by
  simp [wordText, escaped, hc]

theorem written_wordText (cs : List Char) : Written isWordChar cs (wordText cs) := by
  induction cs with
  | nil => exact .nil
  | cons c cs ih =>
      by_cases hc : isWordChar c
      · rw [wordText_cons_of_pos hc]; exact .plain hc ih
      · rw [wordText_cons_of_neg hc]; exact .escaped ih

theorem cons_contains_escape {c : Char} (hc : c ≠ '\\') (cs : List Char) :
    (c :: cs).contains '\\' = cs.contains '\\' := by
  rw [List.contains_cons, beq_eq_false_iff_ne.mpr hc.symm, Bool.false_or]

/-- A backslash stands in the text only where a character needs it. -/
theorem contains_wordText (cs : List Char) : (wordText cs).contains '\\' = !cs.all isWordChar := by
  induction cs with
  | nil => rfl
  | cons c cs ih =>
      by_cases hc : isWordChar c
      · rw [wordText_cons_of_pos hc, cons_contains_escape (ne_of_isWordChar hc (by decide)), ih, List.all_cons, hc,
          Bool.true_and]
      · simp [wordText_cons_of_neg hc, hc]

namespace Lexer

variable {name : String} {m : Modifier} {ms : List Modifier}

theorem nameText_of_pos {c : Char} {cs : List Char} (h : name.toList = c :: cs)
    (hc : isWordStart c && !isReserved name) : nameText name = c :: wordText cs := by
  simp only [nameText, h, escaped, hc, if_true, List.singleton_append]

theorem nameText_of_neg {c : Char} {cs : List Char} (h : name.toList = c :: cs)
    (hc : ¬(isWordStart c && !isReserved name)) : nameText name = '\\' :: c :: wordText cs := by
  simp only [nameText, h, escaped, hc]
  rfl

theorem nameText_written (h : name ≠ "") : NameText name.toList (nameText name) := by
  obtain ⟨c, cs, hname⟩ := List.exists_cons_of_ne_nil (mt String.toList_eq_nil_iff.mp h)
  rw [hname]
  by_cases hc : isWordStart c && !isReserved name
  · rw [nameText_of_pos hname hc]; exact .plain (Bool.and_eq_true_iff.mp hc).1 (written_wordText cs)
  · rw [nameText_of_neg hname hc]; exact .escaped (written_wordText cs)

theorem contains_nameText (h : name ≠ "") : (nameText name).contains '\\' = escapes name := by
  obtain ⟨c, cs, hname⟩ := List.exists_cons_of_ne_nil (mt String.toList_eq_nil_iff.mp h)
  rw [escapes, hname]
  by_cases hc : isWordStart c && !isReserved name
  · have hne : c ≠ '\\' := by rintro rfl; exact absurd (Bool.and_eq_true_iff.mp hc).1 (by decide)
    rw [nameText_of_pos hname hc, cons_contains_escape hne, contains_wordText]
    simp [hc]
  · rw [nameText_of_neg hname hc]
    simp [hc]

theorem termWord_wordText {s : String} (h : Writable s) : TermWord s (wordText s.toList) :=
  ⟨h, (written_wordText s.toList).mono fun _ => isTermChar_of_isWordChar⟩

theorem termText_text (hm : m.WellFormed) : TermText m m.text := by
  obtain ⟨key, value⟩ := m
  cases value with
  | none =>
      rw [Modifier.text, List.append_nil]
      exact .flag (termWord_wordText hm.key)
  | some v => exact .pair (termWord_wordText hm.key) .escaped (termWord_wordText (hm.value v rfl))

theorem termsText_text (hms : ∀ m ∈ ms, m.WellFormed) : TermsText ms (modifiersText ms ++ ['@']) := by
  induction ms with
  | nil => exact .close
  | cons m ms ih =>
      obtain ⟨hm, hms⟩ := List.forall_mem_cons.mp hms
      have hmore := TermsText.more .escaped (termText_text hm) (ih hms)
      simpa only [modifiersText, List.cons_append, List.nil_append, List.append_assoc] using hmore

theorem blockText_text (hms : ∀ m' ∈ m :: ms, m'.WellFormed) :
    BlockText m ms (m.text ++ (modifiersText ms ++ ['@'])) := by
  obtain ⟨hm, hms⟩ := List.forall_mem_cons.mp hms
  exact .terms (termText_text hm) (termsText_text hms)

theorem ofWord_of_not_reserved {s : String} (h : isReserved s = false) : Token.ofWord s = .word s := by
  simp only [isReserved, Bool.or_eq_false_iff, beq_eq_false_iff_ne] at h
  rw [Token.ofWord, if_neg h.1.1, if_neg h.1.2]

theorem isReserved_of_not_escapes {s : String} (hs : s ≠ "") (h : escapes s = false) : isReserved s = false := by
  unfold escapes at h
  split at h
  · rename_i hnil
    exact absurd (String.toList_eq_nil_iff.mp hnil) hs
  · simp only [Bool.not_eq_false', Bool.and_eq_true, Bool.not_eq_true'] at h
    exact h.1.2

theorem referenceText_bare (h : name ≠ "") : ReferenceText (Event.bare name).token (nameText name) := by
  have hname := nameText_written h
  have hesc := contains_nameText h
  rw [Event.token]
  by_cases hmem : '\\' ∈ nameText name
  · rw [List.contains_iff_mem.mpr hmem] at hesc
    simpa [Event.bare, ← hesc] using ReferenceText.escaped hname hmem
  · rw [← List.contains_iff_mem, Bool.not_eq_true] at hmem
    rw [hmem] at hesc
    have hword := ReferenceText.word hname (by simpa using hmem)
    rw [String.ofList_toList, ofWord_of_not_reserved (isReserved_of_not_escapes h hesc.symm)] at hword
    simpa [Event.bare, Event.isBare, ← hesc] using hword

/-- The text of an event is a spelling of its token. -/
theorem referenceText_text {e : Event} (he : e.WellFormed) (hname : e.name ≠ "") : ReferenceText e.token e.text := by
  obtain ⟨name, ms, q⟩ := e
  have hchars : String.ofList name.toList = name := String.ofList_toList
  have hwritten := nameText_written hname
  cases ms with
  | nil => cases q with
    | none =>
        rw [Event.text, List.append_nil]
        exact referenceText_bare hname
    | some q =>
        have hlist : ListText (.bare (String.ofList name.toList)) (':' :: ("R".toList ++ [])) ⟨name, [], some q⟩ := by
          rw [hchars]
          exact .item (.flag (by decide) (by decide)) .qualifier .nil
        exact .list hwritten hlist
  | cons m ms =>
      have hblock := blockText_text he.modifiers
      have htail (ws : List Char) (h : TailText ⟨name, m :: ms, none⟩ ws ⟨name, m :: ms, q⟩) :
          ReferenceText (.event ⟨name, m :: ms, q⟩)
            (nameText name ++ '@' :: (m.text ++ (modifiersText ms ++ ['@']) ++ ws)) :=
        .block hwritten hblock he.distinct (by rwa [hchars])
      cases q with
      | none => simpa [Event.token, Event.text, Event.isBare] using htail [] (.list .nil)
      | some q => simpa [Event.token, Event.text, Event.isBare] using htail ['R'] (.retired .nil)

end Lexer

end MetricFormula
