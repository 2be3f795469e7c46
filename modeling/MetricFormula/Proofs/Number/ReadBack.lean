import MetricFormula.Proofs.Number.Spelling

/-! The text of a finite number is a numeral for it. -/

namespace MetricFormula

namespace Numeral

variable {ds fs rest : List Char}

theorem scan_digits (hd : ∀ c ∈ ds, c.isDigit) (hr : EndsNumeral rest) : scan (ds ++ rest) = (⟨ds, [], 0⟩, rest) := by
  have hread := scan_complete (.parts (n := ⟨ds, [], 0⟩) hd .none .none) hr
  rwa [List.append_nil, List.append_nil] at hread

theorem scan_point (hd : ∀ c ∈ ds, c.isDigit) (hf : ∀ c ∈ fs, c.isDigit) (hne : fs ≠ []) (hr : EndsNumeral rest) :
    scan (ds ++ '.' :: fs ++ rest) = (⟨ds, fs, 0⟩, rest) := by
  have hread := scan_complete (.parts (n := ⟨ds, fs, 0⟩) hd (.digits ⟨hne, hf⟩) .none) hr
  rwa [List.append_nil] at hread

end Numeral

namespace Decimal

theorem toBinary64_sign {d : Decimal} {n m : Bool} {u : Nat} {h : Binary64.Representable u}
    (hd : d.toBinary64 n = .finite m u h) : m = n := by
  have hzero : Binary64.zero n = .finite m u h → m = n := by intro hz; cases hz; rfl
  have hratio (a b : Nat) : Binary64.ofRatio n a b = .finite m u h → m = n := by
    unfold Binary64.ofRatio
    split
    · intro hz; cases hz; rfl
    · intro hz; cases hz
  unfold toBinary64 at hd
  split at hd
  · exact hzero hd
  · split at hd
    · split at hd
      · cases hd
      · exact hratio _ _ hd
    · split at hd
      · exact hzero hd
      · exact hratio _ _ hd

theorem toBinary64_of_readsAs {d : Decimal} {u : Nat} (h : Binary64.Representable u) (hd : d.readsAs u) :
    d.toBinary64 false = .finite false u h := by
  unfold readsAs at hd
  split at hd
  · rename_i n v hv heq
    cases toBinary64_sign heq
    cases beq_iff_eq.mp hd
    exact heq
  · cases hd

/-- Zeros written at the end do not change the value that a decimal reads as. -/
theorem toBinary64_ofNat {n k u : Nat} (hd : (Decimal.mk n (.ofNat k)).readsAs u) (negative : Bool) :
    (Decimal.mk (Nat.pow 10 k * n) 0).toBinary64 negative = (Decimal.mk n (.ofNat k)).toBinary64 negative := by
  rcases Nat.eq_zero_or_pos n with rfl | hn
  · simp [toBinary64]
  · have hk : k ≤ 310 := by
      apply Nat.le_of_not_lt
      intro hk
      simp [readsAs, toBinary64, Nat.ne_of_gt hn, hk] at hd
    have hne : Nat.pow 10 k * n ≠ 0 := Nat.ne_of_gt (Nat.mul_pos (Nat.pow_pos (by decide)) hn)
    simp only [toBinary64, hne, Nat.ne_of_gt hn, if_false, Nat.not_lt.mpr hk]
    simp [Nat.mul_comm n]

end Decimal

namespace Binary64

theorem isDigit_of_mem_digits {n : Nat} {c : Char} (h : c ∈ Nat.toDigits 10 n) : c.isDigit :=
  Nat.isDigit_of_mem_toDigits (by decide) (by decide) h

theorem isDigit_of_mem_zeros {k : Nat} {c : Char} (h : c ∈ List.replicate k '0') : c.isDigit := by
  rw [List.eq_of_mem_replicate h]; decide

theorem positional_head (d : Decimal) : ∃ c cs, positional d = c :: cs ∧ c.isDigit := by
  obtain ⟨c, cs, hc⟩ := List.exists_cons_of_ne_nil (Nat.toDigits_ne_nil (n := d.digits) (b := 10))
  have hdigit : c.isDigit := isDigit_of_mem_digits (n := d.digits) (by rw [hc]; simp)
  unfold positional
  dsimp only
  rw [hc]
  split
  · exact ⟨c, _, rfl, hdigit⟩
  · split
    · rename_i k hk _
      obtain ⟨j, hj⟩ : ∃ j, (c :: cs).length - (k + 1) = j + 1 := ⟨(c :: cs).length - (k + 1) - 1, by omega⟩
      rw [hj]
      exact ⟨c, _, rfl, hdigit⟩
    · exact ⟨'0', _, rfl, by decide⟩

/-- A decimal that reads as a number is read as that number where its digits are written out. -/
theorem scan_positional {d : Decimal} {u : Nat} (h : Representable u) (hd : d.readsAs u) {rest : List Char}
    (hr : EndsNumeral rest) :
    ∃ n : Numeral, Numeral.scan (positional d ++ rest) = (n, rest) ∧ n.toBinary64 false = .finite false u h := by
  obtain ⟨digits, exponent⟩ := d
  have hvalue : digitsValue (Nat.toDigits 10 digits) = digits := Nat.ofDigitChars_ten_toDigits
  have hread := Decimal.toBinary64_of_readsAs h hd
  cases exponent with
  | ofNat k =>
      refine ⟨⟨Nat.toDigits 10 digits ++ List.replicate k '0', [], 0⟩, ?_, ?_⟩
      · apply Numeral.scan_digits _ hr
        intro c hc
        rcases List.mem_append.mp hc with hc | hc
        · exact isDigit_of_mem_digits hc
        · exact isDigit_of_mem_zeros hc
      · rw [← hread, ← Decimal.toBinary64_ofNat hd]
        have hpadded : digitsValue (Nat.toDigits 10 digits ++ List.replicate k '0') = Nat.pow 10 k * digits := by
          rw [digitsValue, Nat.ofDigitChars_append, Nat.ofDigitChars_replicate_zero]
          exact congrArg _ hvalue
        simp only [Numeral.toBinary64, Numeral.decimal, List.append_nil, hpadded]
        rfl
  | negSucc k =>
      rw [← hread]
      by_cases hk : k + 1 < (Nat.toDigits 10 digits).length
      · refine ⟨⟨(Nat.toDigits 10 digits).take ((Nat.toDigits 10 digits).length - (k + 1)),
          (Nat.toDigits 10 digits).drop ((Nat.toDigits 10 digits).length - (k + 1)), 0⟩, ?_, ?_⟩
        · simp only [positional, hk, if_true]
          refine Numeral.scan_point (fun c hc => isDigit_of_mem_digits (List.mem_of_mem_take hc))
            (fun c hc => isDigit_of_mem_digits (List.mem_of_mem_drop hc)) (fun hnil => ?_) hr
          have := congrArg List.length hnil
          simp only [List.length_drop, List.length_nil] at this
          omega
        · have hlen : (Nat.toDigits 10 digits).length - ((Nat.toDigits 10 digits).length - (k + 1)) = k + 1 := by omega
          simp only [Numeral.toBinary64, Numeral.decimal, List.take_append_drop, hvalue, List.length_drop, hlen]
          rfl
      · refine ⟨⟨['0'], List.replicate (k + 1 - (Nat.toDigits 10 digits).length) '0' ++ Nat.toDigits 10 digits, 0⟩,
          ?_, ?_⟩
        · simp only [positional, hk, if_false]
          have hzero : ∀ c ∈ ['0'], c.isDigit := List.forall_mem_singleton.mpr rfl
          refine Numeral.scan_point hzero (fun c hc => ?_) ?_ hr
          · rcases List.mem_append.mp hc with hc | hc
            · exact isDigit_of_mem_zeros hc
            · exact isDigit_of_mem_digits hc
          · simp [Nat.toDigits_ne_nil]
        · have hlen : k + 1 - (Nat.toDigits 10 digits).length + (Nat.toDigits 10 digits).length = k + 1 := by omega
          have hpadded : digitsValue (['0'] ++
              (List.replicate (k + 1 - (Nat.toDigits 10 digits).length) '0' ++ Nat.toDigits 10 digits)) = digits := by
            rw [digitsValue, Nat.ofDigitChars_append, Nat.ofDigitChars_append, Nat.ofDigitChars_replicate_zero]
            exact hvalue
          simp only [Numeral.toBinary64, Numeral.decimal, hpadded, List.length_append, List.length_replicate, hlen]
          rfl

/-- The text of a number without a sign is read back. -/
theorem scan_shortest {u : Nat} (h : Representable u) {rest : List Char} (hr : EndsNumeral rest) :
    ∃ n : Numeral, Numeral.scan (positional (shortest .up u) ++ rest) = (n, rest) ∧
      n.toBinary64 false = .finite false u h :=
  scan_positional h (readsAs_shortest .up h) hr

end Binary64

end MetricFormula
