import Mathlib.Logic.Relation
import Mathlib.Tactic.ByContra
import MetricFormula.Expr.Simplify
import MetricFormula.Proofs.Expr.Equality

/-!
# Steps of simplification

A step applies one rule at one place of a tree, in any order. Every step makes the tree smaller.
-/

namespace MetricFormula.Expr

open Relation (ReflTransGen)

/-- One of the rules turns a tree as a whole into another. -/
inductive Rule : Expr → Expr → Prop where
  | addZero {x z} : z == 0 → Rule (.binary .add x (.literal z)) x
  | zeroAdd {x z} : z == 0 → Rule (.binary .add (.literal z) x) x
  | subZero {x z} : z == 0 → Rule (.binary .sub x (.literal z)) x
  | merge {a b e e'} : e == e' → (a - b).isFinite →
      Rule (.binary .sub (.binary .mul (.literal a) (.event e)) (.binary .mul (.literal b) (.event e')))
        (.binary .mul (.literal (a - b)) (.event e))
  | collapse {v t t' z z'} : z == 0 → z' == 0 → t == t' →
      Rule (.conditional (.conditional v t (.literal z)) t' (.literal z')) (.conditional v t (.literal z))
  | andOne {x z} : z == 1 → Rule (.binary .and x (.literal z)) x
  | oneAnd {x z} : z == 1 → Rule (.binary .and (.literal z) x) x

mutual

/-- One of the rules applies to a subtree. -/
inductive Step : Expr → Expr → Prop where
  | rule {e e'} : Rule e e' → Step e e'
  | left {op l l' r} : Step l l' → Step (.binary op l r) (.binary op l' r)
  | right {op l r r'} : Step r r' → Step (.binary op l r) (.binary op l r')
  | argument {f as bs} : StepList as bs → Step (.call f as) (.call f bs)
  | value {v v' t o} : Step v v' → Step (.conditional v t o) (.conditional v' t o)
  | test {v t t' o} : Step t t' → Step (.conditional v t o) (.conditional v t' o)
  | otherwise {v t o o'} : Step o o' → Step (.conditional v t o) (.conditional v t o')

inductive StepList : List Expr → List Expr → Prop where
  | head {a b as} : Step a b → StepList (a :: as) (b :: as)
  | tail {a as bs} : StepList as bs → StepList (a :: as) (a :: bs)

end

/-- No step applies. -/
def Normal (e : Expr) : Prop := ∀ e', ¬ Step e e'

def NormalList (as : List Expr) : Prop := ∀ bs, ¬ StepList as bs

/-! ## What steps keep of a tree -/

theorem Rule.nodeCount_lt {e e' : Expr} (h : Rule e e') : e'.nodeCount < e.nodeCount := by
  cases h <;> simp only [nodeCount] <;> omega

mutual

theorem Step.nodeCount_lt {e e' : Expr} (h : Step e e') : e'.nodeCount < e.nodeCount := by
  match h with
  | .rule h => exact h.nodeCount_lt
  | .left h => have := h.nodeCount_lt; simp only [nodeCount]; omega
  | .right h => have := h.nodeCount_lt; simp only [nodeCount]; omega
  | .argument h => have := h.nodeCountList_lt; simp only [nodeCount]; omega
  | .value h => have := h.nodeCount_lt; simp only [nodeCount]; omega
  | .test h => have := h.nodeCount_lt; simp only [nodeCount]; omega
  | .otherwise h => have := h.nodeCount_lt; simp only [nodeCount]; omega

theorem StepList.nodeCountList_lt {as bs : List Expr} (h : StepList as bs) : nodeCountList bs < nodeCountList as := by
  match h with
  | .head h => have := h.nodeCount_lt; simp only [nodeCountList]; omega
  | .tail h => have := h.nodeCountList_lt; simp only [nodeCountList]; omega

end

theorem nodeCount_le_of_steps {e e' : Expr} (h : ReflTransGen Step e e') : e'.nodeCount ≤ e.nodeCount := by
  induction h with
  | refl => exact Nat.le_refl _
  | tail _ hstep ih => exact Nat.le_trans (Nat.le_of_lt hstep.nodeCount_lt) ih

/-- Steps come to an end. -/
theorem exists_not_step (f : Nat → Expr) : ∃ i, ¬ Step (f i) (f (i + 1)) := by
  by_contra! hall
  have hle (i : Nat) : (f i).nodeCount + i ≤ (f 0).nodeCount := by
    induction i with
    | zero => exact Nat.le_refl _
    | succ i ih => have := (hall i).nodeCount_lt; omega
  have hend := hle ((f 0).nodeCount + 1)
  omega

theorem Rule.finite {e e' : Expr} (h : Rule e e') (he : e.Finite) : e'.Finite := by
  cases h with
  | addZero _ => exact he.1
  | zeroAdd _ => exact he.2
  | subZero _ => exact he.1
  | merge _ hfinite => exact ⟨hfinite, trivial⟩
  | collapse _ _ _ => exact he.1
  | andOne _ => exact he.1
  | oneAnd _ => exact he.2

mutual

theorem Step.finite {e e' : Expr} (h : Step e e') (he : e.Finite) : e'.Finite := by
  match h with
  | .rule h => exact h.finite he
  | .left h => exact ⟨h.finite he.1, he.2⟩
  | .right h => exact ⟨he.1, h.finite he.2⟩
  | .argument h => exact h.finiteList he
  | .value h => exact ⟨h.finite he.1, he.2⟩
  | .test h => exact ⟨he.1, h.finite he.2.1, he.2.2⟩
  | .otherwise h => exact ⟨he.1, he.2.1, h.finite he.2.2⟩

theorem StepList.finiteList {as bs : List Expr} (h : StepList as bs) (has : FiniteList as) : FiniteList bs := by
  match h with
  | .head h => exact ⟨h.finite has.1, has.2⟩
  | .tail h => exact ⟨has.1, h.finiteList has.2⟩

end

/-! ## Steps within a tree -/

theorem steps_binary {op : Operator} {l l' r r' : Expr} (hl : ReflTransGen Step l l') (hr : ReflTransGen Step r r') :
    ReflTransGen Step (.binary op l r) (.binary op l' r') := by
  have hleft : ReflTransGen Step (.binary op l r) (.binary op l' r) :=
    hl.lift (binary op · r) fun _ _ h => Step.left h
  have hright : ReflTransGen Step (.binary op l' r) (.binary op l' r') :=
    hr.lift (binary op l' ·) fun _ _ h => Step.right h
  exact hleft.trans hright

theorem steps_call {f : Builtin} {as bs : List Expr} (h : ReflTransGen StepList as bs) :
    ReflTransGen Step (.call f as) (.call f bs) := h.lift (call f) fun _ _ h => Step.argument h

theorem steps_conditional {v v' t t' o o' : Expr} (hv : ReflTransGen Step v v') (ht : ReflTransGen Step t t')
    (ho : ReflTransGen Step o o') : ReflTransGen Step (.conditional v t o) (.conditional v' t' o') := by
  have hvalue : ReflTransGen Step (.conditional v t o) (.conditional v' t o) :=
    hv.lift (conditional · t o) fun _ _ h => Step.value h
  have htest : ReflTransGen Step (.conditional v' t o) (.conditional v' t' o) :=
    ht.lift (conditional v' · o) fun _ _ h => Step.test h
  have hlast : ReflTransGen Step (.conditional v' t' o) (.conditional v' t' o') :=
    ho.lift (conditional v' t' ·) fun _ _ h => Step.otherwise h
  exact (hvalue.trans htest).trans hlast

theorem stepsList_cons {a b : Expr} {as bs : List Expr} (h : ReflTransGen Step a b) (hs : ReflTransGen StepList as bs) :
    ReflTransGen StepList (a :: as) (b :: bs) := by
  have hhead : ReflTransGen StepList (a :: as) (b :: as) := h.lift (· :: as) fun _ _ h => StepList.head h
  have htail : ReflTransGen StepList (b :: as) (b :: bs) := hs.lift (b :: ·) fun _ _ h => StepList.tail h
  exact hhead.trans htail

/-! ## Trees to which no step applies -/

theorem normal_literal (x : Binary64) : Normal (.literal x) := by
  rintro e' (h | _)
  cases h

theorem normal_event (e : Event) : Normal (.event e) := by
  rintro e' (h | _)
  cases h

theorem normal_binary {op : Operator} {l r : Expr} (hl : Normal l) (hr : Normal r)
    (hroot : ∀ e', ¬ Rule (.binary op l r) e') : Normal (.binary op l r) := by
  intro e' h
  match h with
  | .rule h => exact hroot e' h
  | .left h => exact hl _ h
  | .right h => exact hr _ h

theorem normal_call {f : Builtin} {as : List Expr} (has : NormalList as) : Normal (.call f as) := by
  intro e' h
  match h with
  | .rule h => cases h
  | .argument h => exact has _ h

theorem normal_conditional {v t o : Expr} (hv : Normal v) (ht : Normal t) (ho : Normal o)
    (hroot : ∀ e', ¬ Rule (.conditional v t o) e') : Normal (.conditional v t o) := by
  intro e' h
  match h with
  | .rule h => exact hroot e' h
  | .value h => exact hv _ h
  | .test h => exact ht _ h
  | .otherwise h => exact ho _ h

theorem normalList_nil : NormalList [] := by
  intro bs h
  cases h

theorem normalList_cons {a : Expr} {as : List Expr} (ha : Normal a) (has : NormalList as) : NormalList (a :: as) := by
  intro bs h
  match h with
  | .head h => exact ha _ h
  | .tail h => exact has _ h

theorem normal_binary_iff {op : Operator} {l r : Expr} :
    Normal (.binary op l r) ↔ (∀ e', ¬ Rule (.binary op l r) e') ∧ Normal l ∧ Normal r := by
  constructor
  · intro h
    exact ⟨fun _ hrule => h _ (.rule hrule), fun _ hstep => h _ (.left hstep), fun _ hstep => h _ (.right hstep)⟩
  · rintro ⟨hroot, hl, hr⟩
    exact normal_binary hl hr hroot

theorem normal_call_iff {f : Builtin} {as : List Expr} : Normal (.call f as) ↔ NormalList as :=
  ⟨fun h _ hstep => h _ (.argument hstep), normal_call⟩

theorem normal_conditional_iff {v t o : Expr} :
    Normal (.conditional v t o) ↔ (∀ e', ¬ Rule (.conditional v t o) e') ∧ Normal v ∧ Normal t ∧ Normal o := by
  constructor
  · intro h
    exact ⟨fun _ hrule => h _ (.rule hrule), fun _ hstep => h _ (.value hstep), fun _ hstep => h _ (.test hstep),
      fun _ hstep => h _ (.otherwise hstep)⟩
  · rintro ⟨hroot, hv, ht, ho⟩
    exact normal_conditional hv ht ho hroot

theorem normalList_cons_iff {a : Expr} {as : List Expr} : NormalList (a :: as) ↔ Normal a ∧ NormalList as :=
  ⟨fun h => ⟨fun _ hstep => h _ (.head hstep), fun _ hstep => h _ (.tail hstep)⟩, fun h => normalList_cons h.1 h.2⟩

/-- What a rule leaves of a tree of normal operands is normal. -/
theorem Rule.normal_of_binary {op : Operator} {l r e : Expr} (h : Rule (.binary op l r) e) (hl : Normal l)
    (hr : Normal r) : Normal e := by
  cases h with
  | addZero _ => exact hl
  | zeroAdd _ => exact hr
  | subZero _ => exact hl
  | merge _ _ =>
      apply normal_binary (normal_literal _) (normal_event _)
      intro e' h
      cases h
  | andOne _ => exact hl
  | oneAnd _ => exact hr

end MetricFormula.Expr
