import Mathlib.Data.Finset.Card
import MetricFormula.Proofs.Expr.Preservation
import MetricFormula.Proofs.Number.Value

/-!
# The values of formulas

Simplification keeps the value of a formula, whatever its events count and whatever is taken for true, as long as the
coefficients that it merges have an exact difference.
-/

namespace MetricFormula

/-- A way to give formulas rational values. Only sums, differences, products and a conjunct 1 have the meaning that one
expects; everything else is free. -/
structure Evaluation where
  event : Event → ℚ
  /-- For literals that stand for no number. -/
  nonFinite : Binary64 → ℚ
  operator : Operator → ℚ → ℚ → ℚ
  builtin : Builtin → List ℚ → ℚ
  /-- The functions that ask about the presence of events depend on the events themselves, not on their values. -/
  presence : Builtin → Finset Event → ℚ
  holds : ℚ → Bool
  add (x y : ℚ) : operator .add x y = x + y
  sub (x y : ℚ) : operator .sub x y = x - y
  mul (x y : ℚ) : operator .mul x y = x * y
  and_one (x : ℚ) : operator .and x 1 = x
  one_and (x : ℚ) : operator .and 1 x = x

namespace Evaluation

def literal (m : Evaluation) (x : Binary64) : ℚ := if x.isFinite then x.toRat else m.nonFinite x

mutual

def value (m : Evaluation) : Expr → ℚ
  | .literal x => m.literal x
  | .event e => m.event e
  | .binary op l r => m.operator op (m.value l) (m.value r)
  | .call f as => if f.takesEvent then m.presence f (Expr.eventsList as).toFinset else m.builtin f (m.values as)
  | .conditional v t o => if m.holds (m.value t) then m.value v else m.value o

def values (m : Evaluation) : List Expr → List ℚ
  | [] => []
  | a :: as => m.value a :: m.values as

end

variable (m : Evaluation)

/-- The argument of a well-formed question about presence is one event. -/
theorem value_presence {f : Builtin} (hf : f.takesEvent) (e : Event) :
    m.value (.call f [.event e]) = m.presence f {e} := by
  rw [value, if_pos hf]
  rfl

theorem literal_of_isFinite {x : Binary64} (h : x.isFinite) : m.literal x = x.toRat := if_pos h

/-! ## Equal trees -/

theorem literal_congr {x y : Binary64} (h : x == y) : m.literal x = m.literal y := by
  cases hx : x.isFinite with
  | true =>
      have hy := Binary64.isFinite_of_beq h hx
      rw [m.literal_of_isFinite hx, m.literal_of_isFinite hy, Binary64.toRat_congr h]
  | false => rw [Binary64.eq_of_beq_of_not_finite h hx]

theorem literal_zero {z : Binary64} (h : z == 0) : m.literal z = 0 := by
  have hfinite : (0 : Binary64).isFinite := rfl
  rw [m.literal_congr h, m.literal_of_isFinite hfinite, Binary64.toRat_zero]

theorem literal_one {z : Binary64} (h : z == 1) : m.literal z = 1 := by
  have hfinite : (1 : Binary64).isFinite := by decide +kernel
  rw [m.literal_congr h, m.literal_of_isFinite hfinite, Binary64.toRat_one]

mutual

theorem value_congr {a b : Expr} (h : a == b) : m.value a = m.value b := by
  match a with
  | .literal x =>
      obtain ⟨y, rfl, hxy⟩ := Expr.literal_beq.mp h
      exact m.literal_congr hxy
  | .event e =>
      obtain rfl := Expr.event_beq.mp h
      rfl
  | .binary op l r =>
      obtain ⟨l', r', rfl, hl, hr⟩ := Expr.binary_beq.mp h
      rw [value, value, value_congr hl, value_congr hr]
  | .call f as =>
      obtain ⟨bs, rfl, hs⟩ := Expr.call_beq.mp h
      rw [value, value, Expr.eventsList_of_equalList hs, values_congr hs]
  | .conditional v t o =>
      obtain ⟨v', t', o', rfl, hv, ht, ho⟩ := Expr.conditional_beq.mp h
      rw [value, value, value_congr hv, value_congr ht, value_congr ho]

theorem values_congr {as bs : List Expr} (h : Expr.equalList as bs) : m.values as = m.values bs := by
  match as with
  | [] =>
      obtain rfl := Expr.nil_equalList.mp h
      rfl
  | a :: as =>
      obtain ⟨b, bs, rfl, hab, hs⟩ := Expr.cons_equalList.mp h
      rw [values, values, value_congr hab, values_congr hs]

end

end Evaluation

namespace Expr

/-! ## Merged coefficients -/

/-- The coefficients that a rule merges, if the tree is such a difference. -/
def merged? (op : Operator) (l r : Expr) : Option (Binary64 × Binary64) :=
  match op, scaledEvent? l, scaledEvent? r with
  | .sub, some (a, e), some (b, e') => if e = e' ∧ (a - b).isFinite then some (a, b) else none
  | _, _, _ => none

mutual

/-- The pairs of coefficients that are merged when the tree is simplified. -/
def merges : Expr → List (Binary64 × Binary64)
  | .literal _ | .event _ => []
  | .binary op l r => l.merges ++ r.merges ++ (merged? op l.simplifyPass r.simplifyPass).toList
  | .call _ as => mergesList as
  | .conditional v t o => v.merges ++ t.merges ++ o.merges

def mergesList : List Expr → List (Binary64 × Binary64)
  | [] => []
  | a :: as => a.merges ++ mergesList as

end

theorem merged?_of_normal {op : Operator} {l r : Expr} (h : Normal (.binary op l r)) : merged? op l r = none := by
  unfold merged?
  split
  · rename_i a e b e' hl hr
    rw [scaledEvent?_eq_some] at hl hr
    subst hl hr
    exact if_neg fun hmerge => h _ (.rule (.merge (beq_iff_eq.mpr hmerge.1) hmerge.2))
  · rfl

mutual

/-- A further pass merges nothing. -/
theorem Normal.merges {e : Expr} (h : Normal e) : e.merges = [] := by
  match e with
  | .literal x => rfl
  | .event ev => rfl
  | .binary op l r =>
      obtain ⟨-, hl, hr⟩ := normal_binary_iff.mp h
      rw [Expr.merges, hl.merges, hr.merges, hl.simplifyPass, hr.simplifyPass, merged?_of_normal h]
      rfl
  | .call f as => exact NormalList.mergesList (normal_call_iff.mp h)
  | .conditional v t o =>
      obtain ⟨-, hv, ht, ho⟩ := normal_conditional_iff.mp h
      rw [Expr.merges, hv.merges, ht.merges, ho.merges]
      rfl

theorem NormalList.mergesList {as : List Expr} (h : NormalList as) : mergesList as = [] := by
  match as with
  | [] => rfl
  | a :: as =>
      obtain ⟨ha, has⟩ := normalList_cons_iff.mp h
      rw [Expr.mergesList, ha.merges, has.mergesList]
      rfl

end

end Expr

namespace Evaluation

variable (m : Evaluation)

/-! ## Simplification -/

theorem value_simplifyBinary {op : Operator} {l r : Expr} (h : ∀ a b, Expr.merged? op l r = some (a, b) → a.SubExact b) :
    m.value (Expr.simplifyBinary op l r) = m.operator op (m.value l) (m.value r) := by
  rcases Expr.simplifyBinary_cases op l r with hrule | ⟨heq, -⟩
  · generalize Expr.simplifyBinary op l r = e at hrule
    cases hrule with
    | addZero hz => rw [value, m.literal_zero hz, m.add, add_zero]
    | zeroAdd hz => rw [value, m.literal_zero hz, m.add, zero_add]
    | subZero hz => rw [value, m.literal_zero hz, m.sub, sub_zero]
    | @merge a b ev ev' heq hfinite =>
        obtain ⟨ha, hb⟩ := Binary64.isFinite_of_sub hfinite
        have hexact : (a - b).toRat = a.toRat - b.toRat := h a b (if_pos ⟨eq_of_beq heq, hfinite⟩)
        simp only [value, m.mul, m.sub, m.literal_of_isFinite hfinite, m.literal_of_isFinite ha,
          m.literal_of_isFinite hb, ← eq_of_beq heq, hexact]
        exact sub_mul _ _ _
    | andOne hz => rw [value, m.literal_one hz, m.and_one]
    | oneAnd hz => rw [value, m.literal_one hz, m.one_and]
  · rw [heq, value]

theorem value_simplifyConditional (v t o : Expr) :
    m.value (Expr.simplifyConditional v t o) = m.value (.conditional v t o) := by
  rcases Expr.simplifyConditional_cases v t o with ⟨hrule, heq⟩ | ⟨heq, -⟩
  · rw [heq]
    cases hrule with
    | @collapse w t' _ z z' hz hz' ht =>
        have htest := m.value_congr ht
        simp only [value, m.literal_zero hz, m.literal_zero hz', htest]
        split
        · rfl
        · rfl
  · rw [heq]

mutual

theorem value_simplifyPass (e : Expr) (h : ∀ p ∈ e.merges, p.1.SubExact p.2) : m.value e.simplifyPass = m.value e := by
  match e with
  | .literal x => rfl
  | .event ev => rfl
  | .binary op l r =>
      simp only [Expr.merges, List.mem_append, Option.mem_toList, or_imp, forall_and] at h
      obtain ⟨⟨hl, hr⟩, hroot⟩ := h
      rw [Expr.simplifyPass, m.value_simplifyBinary fun a b hab => hroot (a, b) hab, value, value_simplifyPass l hl,
        value_simplifyPass r hr]
  | .call f as =>
      have hsteps := Expr.steps_call (f := f) (Expr.steps_simplifyPassList as)
      have hevents : (Expr.eventsList (Expr.simplifyPassList as)).toFinset = (Expr.eventsList as).toFinset := by
        ext ev
        rw [List.mem_toFinset, List.mem_toFinset]
        exact ⟨fun hev => (Expr.events_sublist_of_steps hsteps).subset hev,
          fun hev => Expr.events_subset_of_steps hsteps hev⟩
      rw [Expr.simplifyPass, value, value, hevents, values_simplifyPassList as h]
  | .conditional v t o =>
      simp only [Expr.merges, List.mem_append, or_imp, forall_and] at h
      obtain ⟨⟨hv, ht⟩, ho⟩ := h
      rw [Expr.simplifyPass, value_simplifyConditional, value, value, value_simplifyPass v hv, value_simplifyPass t ht,
        value_simplifyPass o ho]

theorem values_simplifyPassList (as : List Expr) (h : ∀ p ∈ Expr.mergesList as, p.1.SubExact p.2) :
    m.values (Expr.simplifyPassList as) = m.values as := by
  match as with
  | [] => rfl
  | a :: as =>
      obtain ⟨ha, has⟩ := List.forall_mem_append.mp h
      rw [Expr.simplifyPassList, values, values, value_simplifyPass a ha, values_simplifyPassList as has]

end

/-- Simplification keeps the value of a formula if every pair of coefficients that it merges has an exact difference. -/
theorem value_simplify (e : Expr) (h : ∀ p ∈ e.merges, p.1.SubExact p.2) : m.value e.simplify = m.value e := by
  have hpass : e.simplify = e.simplifyPass := (Expr.normal_simplifyPass e).settle e.nodeCount
  rw [hpass, m.value_simplifyPass e h]

/-- Every event counts `c`. A conjunction is a product, a disjunction the larger operand, and a comparison 1 or 0. -/
def uniform (c : ℚ) : Evaluation where
  event _ := c
  nonFinite _ := 0
  operator
    | .add, x, y => x + y
    | .sub, x, y => x - y
    | .mul, x, y | .and, x, y => x * y
    | .div, x, y => x / y
    | .less, x, y => if x < y then 1 else 0
    | .greater, x, y => if y < x then 1 else 0
    | .lessEq, x, y => if x ≤ y then 1 else 0
    | .greaterEq, x, y => if y ≤ x then 1 else 0
    | .or, x, y => max x y
  builtin
    | .min, [x, y] => min x y
    | .max, [x, y] => max x y
    | .dRatio, [x, y] => x / y
    | _, _ => 0
  presence _ events := events.card
  holds x := x != 0
  add _ _ := rfl
  sub _ _ := rfl
  mul _ _ := rfl
  and_one := mul_one
  one_and := one_mul

theorem value_simplify_guardedTwice :
    Expr.guardedTwice.merges.length = 1 ∧ (∀ p ∈ Expr.guardedTwice.merges, p.1.SubExact p.2) ∧
      (uniform 3).value Expr.guardedTwice.simplify = (uniform 3).value Expr.guardedTwice ∧
      (uniform 3).value Expr.guardedTwice = 3 := by
  have hexact : ∀ p ∈ Expr.guardedTwice.merges, p.1.SubExact p.2 := by decide +kernel
  exact ⟨by decide +kernel, hexact, (uniform 3).value_simplify _ hexact, by decide +kernel⟩

end Evaluation

end MetricFormula
