import MetricFormula.Number.Numeral

/-! How numerals are spelled. Each spelling is read up to its end, if what follows cannot go on with it, and nothing else
is read. -/

namespace MetricFormula

/-- What may follow a numeral without becoming part of it. -/
def EndsNumeral (cs : List Char) : Prop := ∀ c ∈ cs.head?, c.isDigit = false ∧ c ≠ '.' ∧ c ≠ 'e' ∧ c ≠ 'E'

namespace Numeral

structure Digits (ds : List Char) : Prop where
  nonempty : ds ≠ []
  digit : ∀ c ∈ ds, c.isDigit

inductive FractionText : List Char → List Char → Prop where
  | none : FractionText [] []
  | digits {ds} : Digits ds → FractionText ds ('.' :: ds)

inductive SignedText : Int → List Char → Prop where
  | plain {ds} : Digits ds → SignedText (digitsValue ds) ds
  | plus {ds} : Digits ds → SignedText (digitsValue ds) ('+' :: ds)
  | minus {ds} : Digits ds → SignedText (-(digitsValue ds : Int)) ('-' :: ds)

inductive ExponentText : Int → List Char → Prop where
  | none : ExponentText 0 []
  | mark {c x ws} : c = 'e' ∨ c = 'E' → SignedText x ws → ExponentText x (c :: ws)

/-- A numeral as it is written. -/
inductive NumeralText : Numeral → List Char → Prop where
  | parts {n fs es} : (∀ c ∈ n.whole, c.isDigit) → FractionText n.fraction fs → ExponentText n.exponent es →
      NumeralText n (n.whole ++ (fs ++ es))

variable {ds rest : List Char}

/-! ## Completeness -/

theorem takeWhile_digits (hd : ∀ c ∈ ds, c.isDigit) (hr : ∀ c ∈ rest.head?, c.isDigit = false) :
    (ds ++ rest).takeWhile Char.isDigit = ds ∧ (ds ++ rest).dropWhile Char.isDigit = rest := by
  rw [List.takeWhile_append_of_pos hd, List.dropWhile_append_of_pos hd]
  cases rest with
  | nil => simp
  | cons c cs => simp [hr c rfl]

/-- Where digits begin, all of them are taken. -/
theorem Digits.cons (h : Digits ds) (hr : ∀ c ∈ rest.head?, c.isDigit = false) :
    ∃ c cs, ds ++ rest = c :: cs ∧ c.isDigit ∧ c :: cs.takeWhile Char.isDigit = ds ∧ cs.dropWhile Char.isDigit = rest := by
  obtain ⟨c, ds, rfl⟩ := List.exists_cons_of_ne_nil h.nonempty
  obtain ⟨hc, hds⟩ := List.forall_mem_cons.mp h.digit
  obtain ⟨htake, hdrop⟩ := takeWhile_digits hds hr
  exact ⟨c, ds ++ rest, rfl, hc, by rw [htake], hdrop⟩

theorem scanDigits?_complete (h : Digits ds) (hr : ∀ c ∈ rest.head?, c.isDigit = false) :
    scanDigits? (ds ++ rest) = some (digitsValue ds, rest) := by
  obtain ⟨c, cs, heq, hc, htake, hdrop⟩ := h.cons hr
  rw [heq, scanDigits?, if_pos hc, htake, hdrop]

theorem scanSigned?_complete {x : Int} {ws : List Char} (h : SignedText x ws)
    (hr : ∀ c ∈ rest.head?, c.isDigit = false) : scanSigned? (ws ++ rest) = some (x, rest) := by
  cases h with
  | plain hds =>
      obtain ⟨c, cs, heq, hc, -, -⟩ := hds.cons hr
      have hread := scanDigits?_complete hds hr
      rw [heq] at hread ⊢
      unfold scanSigned?
      split
      · rename_i h; cases h; exact absurd hc (by decide)
      · rename_i h; cases h; exact absurd hc (by decide)
      · rw [hread]; rfl
  | plus hds => rw [List.cons_append, scanSigned?, scanDigits?_complete hds hr]; rfl
  | minus hds => rw [List.cons_append, scanSigned?, scanDigits?_complete hds hr]; rfl

theorem scanExponent_complete {x : Int} {ws : List Char} (h : ExponentText x ws) (hr : EndsNumeral rest) :
    scanExponent (ws ++ rest) = (x, rest) := by
  cases h with
  | none =>
      cases rest with
      | nil => rfl
      | cons c cs => obtain ⟨-, -, he, hE⟩ := hr c rfl; simp [scanExponent, he, hE]
  | mark hc hsigned =>
      rw [List.cons_append, scanExponent, if_pos hc, scanSigned?_complete hsigned fun c hc => (hr c hc).1]
      rfl

theorem scanFraction_complete {fs ws : List Char} (h : FractionText fs ws)
    (hr : ∀ c ∈ rest.head?, c.isDigit = false ∧ c ≠ '.') : scanFraction (ws ++ rest) = (fs, rest) := by
  cases h with
  | none =>
      rw [List.nil_append]
      unfold scanFraction
      split
      · exact absurd rfl (hr '.' rfl).2
      · rfl
  | digits hds =>
      obtain ⟨c, cs, heq, hc, htake, hdrop⟩ := hds.cons fun c hc => (hr c hc).1
      rw [List.cons_append, heq, scanFraction, if_pos hc, htake, hdrop]

/-- Neither digits nor a point go on after the first part of a numeral. -/
theorem ExponentText.head {x : Int} {ws : List Char} (h : ExponentText x ws) (hr : EndsNumeral rest) :
    ∀ c ∈ (ws ++ rest).head?, c.isDigit = false ∧ c ≠ '.' := by
  cases h with
  | none => exact fun c hc => ⟨(hr c hc).1, (hr c hc).2.1⟩
  | mark hmark _ => rintro c ⟨⟩; rcases hmark with rfl | rfl <;> decide

theorem FractionText.head {fs ws : List Char} (h : FractionText fs ws) (hr : ∀ c ∈ rest.head?, c.isDigit = false) :
    ∀ c ∈ (ws ++ rest).head?, c.isDigit = false := by
  cases h with
  | none => exact hr
  | digits _ => rintro c ⟨⟩; decide

theorem scan_complete {n : Numeral} {ws : List Char} (h : NumeralText n ws) (hr : EndsNumeral rest) :
    scan (ws ++ rest) = (n, rest) := by
  obtain ⟨hwhole, hfraction, hexponent⟩ := h
  have hends := hexponent.head hr
  obtain ⟨htake, hdrop⟩ := takeWhile_digits hwhole (hfraction.head fun c hc => (hends c hc).1)
  rw [List.append_assoc, List.append_assoc]
  simp only [scan, htake, hdrop, scanFraction_complete hfraction hends, scanExponent_complete hexponent hr]

/-! ## Soundness -/

theorem digits_of_cons {c : Char} (hc : c.isDigit) (cs : List Char) : Digits (c :: cs.takeWhile Char.isDigit) := by
  refine ⟨List.cons_ne_nil _ _, fun d hd => ?_⟩
  rcases List.mem_cons.mp hd with rfl | hd
  · exact hc
  · exact List.all_eq_true.mp List.all_takeWhile _ hd

theorem scanDigits?_sound {cs rest : List Char} {v : Nat} (h : scanDigits? cs = some (v, rest)) :
    ∃ ds, cs = ds ++ rest ∧ Digits ds ∧ digitsValue ds = v := by
  unfold scanDigits? at h
  split at h
  · cases h
  · rename_i c cs
    split at h
    · rename_i hc
      cases h
      exact ⟨_, by rw [List.cons_append, List.takeWhile_append_dropWhile], digits_of_cons hc cs, rfl⟩
    · cases h

theorem scanSigned?_sound {cs rest : List Char} {x : Int} (h : scanSigned? cs = some (x, rest)) :
    ∃ ws, cs = ws ++ rest ∧ SignedText x ws := by
  unfold scanSigned? at h
  split at h
  all_goals
    obtain ⟨⟨v, rest'⟩, hdigits, h⟩ := Option.map_eq_some_iff.mp h
    obtain ⟨ds, rfl, hds, rfl⟩ := scanDigits?_sound hdigits
    cases h
  · exact ⟨_, rfl, .minus hds⟩
  · exact ⟨_, rfl, .plus hds⟩
  · exact ⟨_, rfl, .plain hds⟩

theorem scanExponent_sound {cs rest : List Char} {x : Int} (h : scanExponent cs = (x, rest)) :
    ∃ ws, cs = ws ++ rest ∧ ExponentText x ws := by
  unfold scanExponent at h
  split at h
  · rename_i c cs
    split at h
    · rename_i hc
      cases hsigned : scanSigned? cs with
      | none => rw [hsigned] at h; cases h; exact ⟨[], rfl, .none⟩
      | some r =>
          rw [hsigned] at h
          cases h
          obtain ⟨ws, rfl, hws⟩ := scanSigned?_sound hsigned
          exact ⟨_, rfl, .mark hc hws⟩
    · cases h; exact ⟨[], rfl, .none⟩
  · cases h; exact ⟨[], rfl, .none⟩

theorem scanFraction_sound {cs fs rest : List Char} (h : scanFraction cs = (fs, rest)) :
    ∃ ws, cs = ws ++ rest ∧ FractionText fs ws := by
  unfold scanFraction at h
  split at h
  · rename_i c cs
    split at h
    · rename_i hc
      cases h
      refine ⟨_, ?_, .digits (digits_of_cons hc cs)⟩
      rw [List.cons_append, List.cons_append, List.takeWhile_append_dropWhile]
    · cases h; exact ⟨[], rfl, .none⟩
  · cases h; exact ⟨[], rfl, .none⟩

theorem scan_sound {cs rest : List Char} {n : Numeral} (h : scan cs = (n, rest)) :
    ∃ ws, cs = ws ++ rest ∧ NumeralText n ws := by
  cases hfraction : scanFraction (cs.dropWhile Char.isDigit) with
  | mk fraction rest₁ => cases hexponent : scanExponent rest₁ with
    | mk exponent rest₂ =>
      obtain ⟨fs, hfs, hfraction'⟩ := scanFraction_sound hfraction
      obtain ⟨es, rfl, hexponent'⟩ := scanExponent_sound hexponent
      simp only [scan, hfraction, hexponent] at h
      cases h
      refine ⟨cs.takeWhile Char.isDigit ++ (fs ++ es), ?_,
        .parts (n := ⟨_, fraction, exponent⟩) (fun c hc => ?_) hfraction' hexponent'⟩
      · rw [List.append_assoc, List.append_assoc, ← hfs, List.takeWhile_append_dropWhile]
      · exact List.all_eq_true.mp List.all_takeWhile _ hc

theorem digits_of_startsAt {cs : List Char} (h : startsAt cs) : (scan cs).1.whole ≠ [] ∨ (scan cs).1.fraction ≠ [] := by
  unfold startsAt at h
  split at h
  · exact .inr (by simp [scan, scanFraction, h])
  · exact .inl (by simp [scan, h])
  · cases h

end Numeral

end MetricFormula
