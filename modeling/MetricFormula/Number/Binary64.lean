/-! Binary64 numbers. A finite number is a whole number of units of `2 ^ -1074`, and every operation
rounds its exact result once: to the nearest number, a tie to the even one. -/

namespace MetricFormula

namespace Binary64

/-- The unit is `2 ^ -scale`. -/
@[irreducible]
def scale : Nat := 1074

/-- Units in one. -/
def unitsPerOne : Nat := Nat.pow 2 scale

/-- Finite magnitudes lie below this many units. -/
def limit : Nat := Nat.pow 2 2098

/-- Distance, in units, between neighbouring numbers of the size of `u`. -/
def step (u : Nat) : Nat := Nat.pow 2 (u.log2 - 52)

/-- The magnitudes of finite numbers: 53 significant bits, below the limit. -/
def Representable (u : Nat) : Prop := u < limit ∧ step u ∣ u

/-- The whole number nearest to `num / den`, a tie to the even one. -/
def roundHalfEven (num den : Nat) : Nat :=
  if 2 * (num % den) < den ∨ 2 * (num % den) = den ∧ num / den % 2 = 0 then num / den
  else num / den + 1

/-- `num / den` units, rounded to 53 significant bits. -/
def roundUnits (num den : Nat) : Nat :=
  roundHalfEven num (den * step (num / den)) * step (num / den)

theorem roundHalfEven_le (num den : Nat) : roundHalfEven num den ≤ num / den + 1 := by
  unfold roundHalfEven; split <;> omega

/-- At most 53 bits, shifted, are spaced by their own step. -/
theorem step_dvd_shift {m : Nat} (k : Nat) (h : m ≤ Nat.pow 2 53) : step (m * Nat.pow 2 k) ∣ m * Nat.pow 2 k := by
  rw [Nat.pow_eq] at h ⊢
  rcases Nat.eq_zero_or_pos m with rfl | hm
  · simp
  rcases Nat.lt_or_eq_of_le h with h | rfl
  · have hne : m * 2 ^ k ≠ 0 := Nat.ne_of_gt (Nat.mul_pos hm (Nat.two_pow_pos k))
    have : (m * 2 ^ k).log2 < 53 + k := by
      rw [Nat.log2_lt hne, Nat.pow_add]
      exact Nat.mul_lt_mul_of_pos_right h (Nat.two_pow_pos k)
    exact Nat.dvd_trans (Nat.pow_dvd_pow 2 (by omega)) (Nat.dvd_mul_left ..)
  · rw [← Nat.pow_add]
    rw [step, Nat.pow_eq, Nat.log2_two_pow]
    exact Nat.pow_dvd_pow 2 (by omega)

theorem div_step_lt (q : Nat) : q / step q < Nat.pow 2 53 := by
  rw [step, Nat.pow_eq, Nat.pow_eq, Nat.div_lt_iff_lt_mul (Nat.two_pow_pos _), ← Nat.pow_add]
  exact Nat.lt_of_lt_of_le Nat.lt_log2_self (Nat.pow_le_pow_right (by decide) (by omega))

theorem step_dvd_roundUnits (num den : Nat) : step (roundUnits num den) ∣ roundUnits num den := by
  apply step_dvd_shift
  refine Nat.le_trans (roundHalfEven_le ..) ?_
  rw [← Nat.div_div_eq_div_mul]
  exact div_step_lt _

theorem roundHalfEven_mul (n : Nat) {d : Nat} (h : 0 < d) : roundHalfEven (n * d) d = n := by
  simp [roundHalfEven, Nat.mul_mod_left, Nat.mul_div_cancel _ h, h]

/-- A number is its own rounding. -/
theorem roundUnits_mul {u d : Nat} (hd : 0 < d) (h : step u ∣ u) : roundUnits (u * d) d = u := by
  have hs : 0 < step u := Nat.two_pow_pos _
  unfold roundUnits
  rw [Nat.mul_div_cancel _ hd]
  obtain ⟨m, hm⟩ := h
  have : u * d = m * (d * step u) := by
    rw [← Nat.mul_assoc, Nat.mul_right_comm, Nat.mul_comm m, ← hm]
  rw [this, roundHalfEven_mul _ (Nat.mul_pos hd hs), Nat.mul_comm, ← hm]

end Binary64

/-- A binary64 number. -/
inductive Binary64 where
  | nan
  | infinite (negative : Bool)
  | finite (negative : Bool) (units : Nat) (representable : Binary64.Representable units)

namespace Binary64

/-- The number nearest to `num / den` units, infinite from the limit upwards. -/
def ofRatio (negative : Bool) (num den : Nat) : Binary64 :=
  if h : roundUnits num den < limit then
    .finite negative (roundUnits num den) ⟨h, step_dvd_roundUnits num den⟩
  else .infinite negative

theorem ofRatio_mul (negative : Bool) {u d : Nat} (hd : 0 < d) (h : Representable u) :
    ofRatio negative (u * d) d = .finite negative u h := by
  simp [ofRatio, roundUnits_mul hd h.2, h.1]

/-- Zero of either sign. -/
def zero (negative : Bool) : Binary64 := .finite negative 0 ⟨by decide +kernel, Nat.dvd_zero _⟩

def ofNat (n : Nat) : Binary64 := ofRatio false (n * unitsPerOne) 1

instance : OfNat Binary64 0 := ⟨zero false⟩
instance : OfNat Binary64 1 := ⟨ofNat 1⟩

def isFinite : Binary64 → Bool
  | .finite .. => true
  | _ => false

def isZero : Binary64 → Bool
  | .finite _ u _ => u == 0
  | _ => false

/-- Numeric equality: both zeros are equal, and `nan` equals nothing. -/
def equal : Binary64 → Binary64 → Bool
  | .finite n u _, .finite m v _ => u == v && (n == m || u == 0)
  | .infinite n, .infinite m => n == m
  | _, _ => false

instance : BEq Binary64 := ⟨equal⟩

def neg : Binary64 → Binary64
  | .nan => .nan
  | .infinite n => .infinite !n
  | .finite n u h => .finite (!n) u h

/-- Signed number of units. -/
def signed (negative : Bool) (u : Nat) : Int := if negative then -u else u

/-- A zero difference is negative only for `-0 - 0`. -/
def sub : Binary64 → Binary64 → Binary64
  | .finite n u _, .finite m v _ =>
    let d := signed n u - signed m v
    if d = 0 then zero (n && !m) else ofRatio (decide (d < 0)) d.natAbs 1
  | .finite .., .infinite m => .infinite !m
  | .infinite n, .finite .. => .infinite n
  | .infinite n, .infinite m => if n = m then .nan else .infinite n
  | .nan, _ => .nan
  | _, .nan => .nan

/-- `x` times `10 ^ k`, the power rounded to a number of its own first. -/
def scaleUp (x : Binary64) (k : Nat) : Binary64 :=
  match x with
  | .finite n u _ => ofRatio n (u * roundUnits (Nat.pow 10 k * unitsPerOne) 1) unitsPerOne
  | x => x

/-- `x` divided by `10 ^ k`, the power rounded to a number of its own first. -/
def scaleDown (x : Binary64) (k : Nat) : Binary64 :=
  match x with
  | .finite n u _ => ofRatio n (u * unitsPerOne) (roundUnits (Nat.pow 10 k * unitsPerOne) 1)
  | x => x

instance : Neg Binary64 := ⟨neg⟩
instance : Sub Binary64 := ⟨sub⟩

end Binary64

end MetricFormula
