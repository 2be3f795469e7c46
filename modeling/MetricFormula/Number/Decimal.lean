import MetricFormula.Number.Binary64

/-! Decimals, the binary64 number nearest to one, and the shortest decimal that reads back as a given number. -/

namespace MetricFormula

/-- The value `digits * 10 ^ exponent`. -/
structure Decimal where
  digits : Nat
  exponent : Int

namespace Decimal

/-- The number nearest to a decimal. A large exponent is decided by size alone, without forming the power:
`10 ^ 311` lies above every finite number, and `8 ^ k ≤ 10 ^ k` bounds a small value below half a unit. -/
def toBinary64 (d : Decimal) (negative : Bool) : Binary64 :=
  if d.digits = 0 then .zero negative
  else match d.exponent with
    | .ofNat k =>
      if k > 310 then .infinite negative
      else .ofRatio negative (d.digits * Nat.pow 10 k * Binary64.unitsPerOne) 1
    | .negSucc k =>
      if d.digits.log2 + Binary64.scale + 2 ≤ 3 * (k + 1) then .zero negative
      else .ofRatio negative (d.digits * Binary64.unitsPerOne) (Nat.pow 10 (k + 1))

theorem toBinary64_negSucc {n : Nat} (hn : n ≠ 0) (k : Nat) (negative : Bool) :
    (Decimal.mk n (.negSucc k)).toBinary64 negative =
      if n.log2 + Binary64.scale + 2 ≤ 3 * (k + 1) then .zero negative
      else .ofRatio negative (n * Binary64.unitsPerOne) (Nat.pow 10 (k + 1)) := by
  simp [toBinary64, hn]

/-- Whether a decimal reads as a number of `u` units. -/
def readsAs (d : Decimal) (u : Nat) : Bool :=
  match d.toBinary64 false with
  | .finite _ v _ => v == u
  | _ => false

end Decimal

/-- Which of two equally near decimals is taken. -/
inductive Tie where
  | up
  | even

namespace Binary64

/-- `10 ^ k` for a signed `k`, as a quotient. -/
def tenTo : Int → Nat × Nat
  | .ofNat k => (Nat.pow 10 k, 1)
  | .negSucc k => (1, Nat.pow 10 (k + 1))

/-- Zeros between the point and the first digit of `num / den`, a value below one. -/
def leadingZeros (num den : Nat) : Nat → Nat
  | 0 => 0
  | fuel + 1 => if num * 10 < den then leadingZeros (num * 10) den fuel + 1 else 0

/-- The least `k` with `u` units below `10 ^ k`. -/
def magnitude (u : Nat) : Int :=
  if u < unitsPerOne then -(leadingZeros u unitsPerOne 324 : Int) else (Nat.toDigits 10 (u / unitsPerOne)).length

/-- The nearer of two neighbouring grid points that lie around `num / den` grid steps. -/
def nearer (tie : Tie) (num den : Nat) (low high : Decimal) : Decimal :=
  let rest := 2 * (num % den)
  if rest < den then low
  else if den < rest then high
  else match tie with
    | .up => high
    | .even => if low.digits % 2 = 0 then low else high

/-- The decimal with `n` digits that reads as `u` units and is nearest to them, if there is one. -/
def withDigits? (tie : Tie) (u n : Nat) : Option Decimal :=
  let k := magnitude u
  let (up, down) := tenTo (n - k)
  let num := u * up
  let den := unitsPerOne * down
  let t := num / den
  let low : Decimal := ⟨t, k - n⟩
  let high : Decimal := if t + 1 = Nat.pow 10 n then ⟨1, k⟩ else ⟨t + 1, k - n⟩
  match low.readsAs u, high.readsAs u with
  | true, true => some (nearer tie num den low high)
  | true, false => some low
  | false, true => some high
  | false, false => none

/-- All digits of `u` units. -/
def exactDecimal (u : Nat) : Decimal := ⟨u * Nat.pow 5 scale, .negSucc (scale - 1)⟩

/-- Tries `n`, `n + 1`, … digits, and all of them when the tries run out. -/
def shortestFrom (tie : Tie) (u n : Nat) : Nat → Decimal
  | 0 => exactDecimal u
  | fuel + 1 => match withDigits? tie u n with
    | some d => d
    | none => shortestFrom tie u (n + 1) fuel

/-- The decimal of fewest digits that reads as `u` units, of several the nearest. -/
def shortest (tie : Tie) (u : Nat) : Decimal := if u = 0 then ⟨0, 0⟩ else shortestFrom tie u 1 17

/-! ## The shortest decimal reads back -/

theorem readsAs_nearer {tie : Tie} {num den u : Nat} {low high : Decimal} (hl : low.readsAs u)
    (hh : high.readsAs u) : (nearer tie num den low high).readsAs u := by
  unfold nearer
  dsimp only
  split
  · exact hl
  · split
    · exact hh
    · cases tie
      · exact hh
      · dsimp only; split <;> assumption

theorem readsAs_withDigits {tie : Tie} {u n : Nat} {d : Decimal} (h : withDigits? tie u n = some d) :
    d.readsAs u := by
  unfold withDigits? at h
  dsimp only at h
  split at h
  · cases h; exact readsAs_nearer ‹_› ‹_›
  · cases h; assumption
  · cases h; assumption
  · cases h

theorem readsAs_exactDecimal {u : Nat} (hu : u ≠ 0) (h : Representable u) : (exactDecimal u).readsAs u := by
  have hne : u * Nat.pow 5 scale ≠ 0 := Nat.mul_ne_zero hu (Nat.ne_of_gt (Nat.pow_pos (by decide)))
  have hlog : 2 * scale ≤ (u * Nat.pow 5 scale).log2 := by
    rw [Nat.le_log2 hne, Nat.pow_mul]
    exact Nat.le_trans (Nat.pow_le_pow_left (by decide) _) (Nat.le_mul_of_pos_left _ (Nat.pos_of_ne_zero hu))
  have hten : Nat.pow 5 scale * Nat.pow 2 scale = Nat.pow 10 scale := (Nat.mul_pow 5 2 scale).symm
  have hone : u * Nat.pow 5 scale * unitsPerOne = u * Nat.pow 10 scale := by
    rw [unitsPerOne, Nat.mul_assoc, hten]
  have hscale : scale - 1 + 1 = scale := by unfold scale; rfl
  have hpos : 0 < Nat.pow 10 scale := Nat.pow_pos (by decide)
  rw [exactDecimal, Decimal.readsAs, Decimal.toBinary64_negSucc hne, hscale, if_neg (by omega), hone,
    ofRatio_mul _ hpos h]
  simp

theorem readsAs_shortestFrom {tie : Tie} {u : Nat} (hu : u ≠ 0) (h : Representable u) (n : Nat) :
    (fuel : Nat) → (shortestFrom tie u n fuel).readsAs u
  | 0 => readsAs_exactDecimal hu h
  | fuel + 1 => by
    unfold shortestFrom
    split
    · exact readsAs_withDigits ‹_›
    · exact readsAs_shortestFrom hu h (n + 1) fuel

/-- Every number is read back from its shortest decimal. -/
theorem readsAs_shortest (tie : Tie) {u : Nat} (h : Representable u) : (shortest tie u).readsAs u := by
  unfold shortest
  split
  · subst u; rfl
  · exact readsAs_shortestFrom ‹_› h 1 17

end Binary64

end MetricFormula
