import Mathlib.Algebra.Order.Field.Rat
import Mathlib.Tactic.Ring
import MetricFormula.Proofs.Expr.Equality

/-! The rational numbers that binary64 numbers stand for. -/

namespace MetricFormula.Binary64

/-- The exact value of a finite number. Other numbers have none, and 0 takes its place. -/
def toRat : Binary64 → ℚ
  | .finite n u _ => signed n u / unitsPerOne
  | _ => 0

/-- The difference of two numbers needs no rounding. -/
def SubExact (x y : Binary64) : Prop := (x - y).toRat = x.toRat - y.toRat

instance (x y : Binary64) : Decidable (SubExact x y) := inferInstanceAs (Decidable (_ = _))

theorem unitsPerOne_ne_zero : (unitsPerOne : ℚ) ≠ 0 :=
  Nat.cast_ne_zero.mpr (Nat.ne_of_gt (Nat.two_pow_pos scale))

theorem toRat_congr {x y : Binary64} (h : x == y) : x.toRat = y.toRat := by
  cases x with
  | nan => cases h
  | infinite n => cases y with
    | infinite m => rfl
    | nan => cases h
    | finite m v hv => cases h
  | finite n u hu => cases y with
    | finite m v hv => rw [toRat, toRat, signed_congr h]
    | nan => cases h
    | infinite m => cases h

theorem eq_of_beq_of_not_finite {x y : Binary64} (h : x == y) (hx : x.isFinite = false) : x = y := by
  cases x with
  | nan => cases h
  | finite n u hu => cases hx
  | infinite n => cases y with
    | infinite m =>
        have hnm : n = m := by cases n <;> cases m <;> first | rfl | cases h
        rw [hnm]
    | nan => cases h
    | finite m v hv => cases h

/-- Only finite numbers have a finite difference. -/
theorem isFinite_of_sub {x y : Binary64} (h : (x - y).isFinite) : x.isFinite ∧ y.isFinite := by
  cases x with
  | nan => cases h
  | infinite n => cases y with
    | nan => cases h
    | infinite m => cases n <;> cases m <;> cases h
    | finite m v hv => cases h
  | finite n u hu => cases y with
    | nan => cases h
    | infinite m => cases h
    | finite m v hv => exact ⟨rfl, rfl⟩

theorem toRat_zero : (0 : Binary64).toRat = 0 := by
  change ((signed false 0 : Int) : ℚ) / unitsPerOne = 0
  simp [signed]

theorem representable_unitsPerOne : Representable unitsPerOne := by
  have hstep := step_dvd_shift scale (show 1 ≤ Nat.pow 2 53 by decide)
  rw [Nat.one_mul] at hstep
  exact ⟨by decide +kernel, hstep⟩

theorem one_eq : (1 : Binary64) = .finite false unitsPerOne representable_unitsPerOne := by
  have h := ofRatio_mul false Nat.one_pos representable_unitsPerOne
  rw [Nat.mul_one] at h
  change ofNat 1 = _
  rw [ofNat, Nat.one_mul, h]

theorem toRat_one : (1 : Binary64).toRat = 1 := by
  rw [one_eq, toRat]
  exact div_self unitsPerOne_ne_zero

end MetricFormula.Binary64
