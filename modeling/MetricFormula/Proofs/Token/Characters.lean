import MetricFormula.Token.Lexer

/-! The classes of characters that names and modifiers are made of. -/

namespace MetricFormula

theorem toNat_of_isAlpha {c : Char} (h : c.isAlpha) :
    65 ≤ c.toNat ∧ c.toNat ≤ 90 ∨ 97 ≤ c.toNat ∧ c.toNat ≤ 122 := by
  have hupper : c.isUpper = decide (c.val ≥ 'A'.val ∧ c.val ≤ 'Z'.val) := rfl
  have hlower : c.isLower = (decide (c.val ≥ 'a'.val) && decide (c.val ≤ 'z'.val)) := rfl
  rcases Bool.or_eq_true_iff.mp h with h | h
  · rw [hupper] at h
    simp only [decide_eq_true_eq, ge_iff_le, UInt32.le_iff_toNat_le] at h
    exact .inl h
  · rw [hlower] at h
    simp only [Bool.and_eq_true, decide_eq_true_eq, ge_iff_le, UInt32.le_iff_toNat_le] at h
    exact .inr h

theorem isDigit_iff {c : Char} : c.isDigit ↔ 48 ≤ c.toNat ∧ c.toNat ≤ 57 := by
  have hdigit : c.isDigit = (decide (c.val ≥ '0'.val) && decide (c.val ≤ '9'.val)) := rfl
  rw [hdigit]
  simp only [Bool.and_eq_true, decide_eq_true_eq, ge_iff_le, UInt32.le_iff_toNat_le]
  exact Iff.rfl

theorem toNat_of_isWordChar {c : Char} (h : isWordChar c) :
    48 ≤ c.toNat ∧ c.toNat ≤ 57 ∨ 65 ≤ c.toNat ∧ c.toNat ≤ 90 ∨ 97 ≤ c.toNat ∧ c.toNat ≤ 122 ∨ c.toNat = 95 ∨
      c.toNat = 46 := by
  simp only [isWordChar, Bool.or_eq_true, beq_iff_eq] at h
  rcases h with (h | rfl) | rfl
  · rcases Bool.or_eq_true_iff.mp h with h | h
    · exact .inr ((toNat_of_isAlpha h).imp_right .inl)
    · exact .inl (isDigit_iff.mp h)
  · exact .inr (.inr (.inr (.inl rfl)))
  · exact .inr (.inr (.inr (.inr rfl)))

theorem toNat_of_isWordStart {c : Char} (h : isWordStart c) :
    65 ≤ c.toNat ∧ c.toNat ≤ 90 ∨ 97 ≤ c.toNat ∧ c.toNat ≤ 122 ∨ c.toNat = 95 ∨ c.toNat = 35 := by
  simp only [isWordStart, Bool.or_eq_true, beq_iff_eq] at h
  rcases h with (h | rfl) | rfl
  · exact (toNat_of_isAlpha h).imp_right .inl
  · exact .inr (.inr (.inl rfl))
  · exact .inr (.inr (.inr rfl))

theorem ne_of_isWordChar {c d : Char} (h : isWordChar c) (hd : isWordChar d = false) : c ≠ d := by
  rintro rfl; rw [h] at hd; cases hd

/-- Blanks are neither the characters of ASCII that can be seen nor letters. -/
theorem isBlank_of_toNat {c : Char} (h : 33 ≤ c.toNat ∧ c.toNat ≤ 126) : isBlank c = false := by
  simp only [isBlank, blankRanges, List.any_cons, List.any_nil, Bool.or_false, Bool.or_eq_false_iff,
    Bool.and_eq_false_iff, decide_eq_false_iff_not]
  omega

theorem isBlank_of_isWordChar {c : Char} (h : isWordChar c) : isBlank c = false := by
  have := toNat_of_isWordChar h
  exact isBlank_of_toNat (by omega)

theorem isBlank_of_isWordStart {c : Char} (h : isWordStart c) : isBlank c = false := by
  have := toNat_of_isWordStart h
  exact isBlank_of_toNat (by omega)

theorem isWordChar_of_isDigit {c : Char} (h : c.isDigit) : isWordChar c := by
  simp [isWordChar, Char.isAlphanum, h]

/-- No numeral begins with the first character of a word. -/
theorem startsAt_of_isWordStart {c : Char} (h : isWordStart c) (cs : List Char) :
    Numeral.startsAt (c :: cs) = false := by
  have hnat := toNat_of_isWordStart h
  unfold Numeral.startsAt
  split
  · rename_i heq; cases heq; exact absurd h (by decide)
  · rename_i heq
    cases heq
    rw [← Bool.not_eq_true, isDigit_iff]
    omega
  · rfl

theorem startsAt_of_isDigit {c : Char} (h : c.isDigit) (cs : List Char) : Numeral.startsAt (c :: cs) := by
  unfold Numeral.startsAt
  split
  · rename_i heq; cases heq; cases h
  · rename_i heq; cases heq; exact h
  · rename_i heq; cases heq

namespace Lexer

theorem isTermChar_of_isWordChar {c : Char} (h : isWordChar c) : isTermChar c := by
  simp only [isTermChar, Bool.and_eq_true, bne_iff_ne, isBlank_of_isWordChar h, Bool.not_false, and_true]
  exact ⟨⟨⟨ne_of_isWordChar h (by decide), ne_of_isWordChar h (by decide)⟩, ne_of_isWordChar h (by decide)⟩,
    ne_of_isWordChar h (by decide)⟩

theorem isWordChar_of_isKeyChar {c : Char} (h : isKeyChar c) : isWordChar c := by
  unfold isKeyChar at h
  unfold isWordChar
  rw [h]
  rfl

theorem all_isWordChar {cs : List Char} (h : cs.all isKeyChar) : cs.all isWordChar :=
  List.all_eq_true.mpr fun c hc => isWordChar_of_isKeyChar (List.all_eq_true.mp h c hc)

end Lexer

end MetricFormula
