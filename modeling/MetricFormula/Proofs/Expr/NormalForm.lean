import MetricFormula.Expr.Printer
import MetricFormula.Proofs.Expr.Simplify
import MetricFormula.Proofs.Expr.Step

/-!
# The normal form

Steps in any order end in the tree that a single pass from the leaves up gives. A pass applies a rule wherever one
applies, equal trees have the same rules up to equality, and so no step changes what the pass gives.
-/

namespace MetricFormula.Expr

open Relation (ReflTransGen)

/-! ## Rules at the root -/

theorem isLiteral_iff {e : Expr} {x : Binary64} : e.isLiteral x ↔ ∃ z, e = .literal z ∧ z == x := by
  cases e <;> simp [isLiteral]

theorem scaledEvent?_eq_some {e : Expr} {a : Binary64} {ev : Event} :
    e.scaledEvent? = some (a, ev) ↔ e = .binary .mul (.literal a) (.event ev) := by
  constructor
  · intro h
    unfold scaledEvent? at h
    split at h
    · simp only [Option.some.injEq, Prod.mk.injEq] at h
      obtain ⟨rfl, rfl⟩ := h
      rfl
    · cases h
  · rintro rfl
    rfl

theorem simplifyDifference_cases {l r : Expr} (hr : ¬ r.isLiteral 0) :
    Rule (.binary .sub l r) (simplifyDifference l r) ∨
      simplifyDifference l r = .binary .sub l r ∧ ∀ e, ¬ Rule (.binary .sub l r) e := by
  unfold simplifyDifference
  split
  · rename_i a ev b ev' hl hb
    rw [scaledEvent?_eq_some] at hl hb
    subst hl hb
    split
    · rename_i h
      exact .inl (.merge (beq_iff_eq.mpr h.1) h.2)
    · rename_i hno
      refine .inr ⟨rfl, fun e h => ?_⟩
      cases h with
      | merge heq hfinite => exact hno ⟨eq_of_beq heq, hfinite⟩
  · rename_i hno
    refine .inr ⟨rfl, fun e h => ?_⟩
    cases h with
    | subZero hz => exact hr (isLiteral_iff.mpr ⟨_, rfl, hz⟩)
    | merge _ _ => exact hno _ _ _ _ rfl rfl

/-- A rule is applied to an operator and its operands, unless there is none that applies. -/
theorem simplifyBinary_cases (op : Operator) (l r : Expr) :
    Rule (.binary op l r) (simplifyBinary op l r) ∨
      simplifyBinary op l r = .binary op l r ∧ ∀ e, ¬ Rule (.binary op l r) e := by
  unfold simplifyBinary
  split
  · split
    · rename_i hr
      obtain ⟨z, rfl, hz⟩ := isLiteral_iff.mp hr
      exact .inl (.addZero hz)
    · rename_i hr
      split
      · rename_i hl
        obtain ⟨z, rfl, hz⟩ := isLiteral_iff.mp hl
        exact .inl (.zeroAdd hz)
      · rename_i hl
        refine .inr ⟨rfl, fun e h => ?_⟩
        cases h with
        | addZero hz => exact hr (isLiteral_iff.mpr ⟨_, rfl, hz⟩)
        | zeroAdd hz => exact hl (isLiteral_iff.mpr ⟨_, rfl, hz⟩)
  · split
    · rename_i hr
      obtain ⟨z, rfl, hz⟩ := isLiteral_iff.mp hr
      exact .inl (.subZero hz)
    · exact simplifyDifference_cases ‹_›
  · split
    · rename_i hr
      obtain ⟨z, rfl, hz⟩ := isLiteral_iff.mp hr
      exact .inl (.andOne hz)
    · rename_i hr
      split
      · rename_i hl
        obtain ⟨z, rfl, hz⟩ := isLiteral_iff.mp hl
        exact .inl (.oneAnd hz)
      · rename_i hl
        refine .inr ⟨rfl, fun e h => ?_⟩
        cases h with
        | andOne hz => exact hr (isLiteral_iff.mpr ⟨_, rfl, hz⟩)
        | oneAnd hz => exact hl (isLiteral_iff.mpr ⟨_, rfl, hz⟩)
  · rename_i hadd hsub hand
    refine .inr ⟨rfl, fun e h => ?_⟩
    cases h with
    | addZero _ => exact hadd rfl
    | zeroAdd _ => exact hadd rfl
    | subZero _ => exact hsub rfl
    | merge _ _ => exact hsub rfl
    | andOne _ => exact hand rfl
    | oneAnd _ => exact hand rfl

/-- The only rule for a conditional gives the value. -/
theorem simplifyConditional_cases (v t o : Expr) :
    Rule (.conditional v t o) v ∧ simplifyConditional v t o = v ∨
      simplifyConditional v t o = .conditional v t o ∧ ∀ e, ¬ Rule (.conditional v t o) e := by
  unfold simplifyConditional
  split
  · split
    · rename_i w t' o' hcond
      simp only [Bool.and_eq_true] at hcond
      obtain ⟨⟨ho, ho'⟩, ht⟩ := hcond
      obtain ⟨z, rfl, hz⟩ := isLiteral_iff.mp ho
      obtain ⟨z', rfl, hz'⟩ := isLiteral_iff.mp ho'
      exact .inl ⟨.collapse hz' hz ht, rfl⟩
    · rename_i hcond
      refine .inr ⟨rfl, fun e h => ?_⟩
      cases h with
      | collapse hz hz' ht => simp [isLiteral, hz, hz', ht] at hcond
  · rename_i hno
    refine .inr ⟨rfl, fun e h => ?_⟩
    cases h with
    | collapse _ _ _ => exact hno _ _ _ rfl

/-! ## A pass applies rules until none applies -/

theorem steps_simplifyBinary (op : Operator) (l r : Expr) :
    ReflTransGen Step (.binary op l r) (simplifyBinary op l r) := by
  rcases simplifyBinary_cases op l r with h | ⟨h, -⟩
  · exact .single (.rule h)
  · rw [h]

theorem steps_simplifyConditional (v t o : Expr) :
    ReflTransGen Step (.conditional v t o) (simplifyConditional v t o) := by
  rcases simplifyConditional_cases v t o with ⟨h, heq⟩ | ⟨heq, -⟩
  · rw [heq]
    exact .single (.rule h)
  · rw [heq]

theorem normal_simplifyBinary (op : Operator) {l r : Expr} (hl : Normal l) (hr : Normal r) :
    Normal (simplifyBinary op l r) := by
  rcases simplifyBinary_cases op l r with h | ⟨heq, hno⟩
  · exact h.normal_of_binary hl hr
  · rw [heq]
    exact normal_binary hl hr hno

theorem normal_simplifyConditional {v t o : Expr} (hv : Normal v) (ht : Normal t) (ho : Normal o) :
    Normal (simplifyConditional v t o) := by
  rcases simplifyConditional_cases v t o with ⟨-, heq⟩ | ⟨heq, hno⟩
  · rw [heq]
    exact hv
  · rw [heq]
    exact normal_conditional hv ht ho hno

mutual

theorem steps_simplifyPass (e : Expr) : ReflTransGen Step e e.simplifyPass := by
  match e with
  | .literal x => exact .refl
  | .event ev => exact .refl
  | .binary op l r =>
      exact (steps_binary (steps_simplifyPass l) (steps_simplifyPass r)).trans (steps_simplifyBinary op _ _)
  | .call f as => exact steps_call (steps_simplifyPassList as)
  | .conditional v t o =>
      have hparts := steps_conditional (steps_simplifyPass v) (steps_simplifyPass t) (steps_simplifyPass o)
      exact hparts.trans (steps_simplifyConditional _ _ _)

theorem steps_simplifyPassList (as : List Expr) : ReflTransGen StepList as (simplifyPassList as) := by
  match as with
  | [] => exact .refl
  | a :: as => exact stepsList_cons (steps_simplifyPass a) (steps_simplifyPassList as)

end

mutual

theorem normal_simplifyPass (e : Expr) : Normal e.simplifyPass := by
  match e with
  | .literal x => exact normal_literal x
  | .event ev => exact normal_event ev
  | .binary op l r => exact normal_simplifyBinary op (normal_simplifyPass l) (normal_simplifyPass r)
  | .call f as => exact normal_call (normalList_simplifyPassList as)
  | .conditional v t o =>
      exact normal_simplifyConditional (normal_simplifyPass v) (normal_simplifyPass t) (normal_simplifyPass o)

theorem normalList_simplifyPassList (as : List Expr) : NormalList (simplifyPassList as) := by
  match as with
  | [] => exact normalList_nil
  | a :: as => exact normalList_cons (normal_simplifyPass a) (normalList_simplifyPassList as)

end

theorem Normal.eq_of_steps {e e' : Expr} (h : Normal e) (hsteps : ReflTransGen Step e e') : e' = e := by
  rcases hsteps.cases_head with heq | ⟨_, hstep, _⟩
  · exact heq.symm
  · exact absurd hstep (h _)

theorem Normal.simplifyPass {e : Expr} (h : Normal e) : e.simplifyPass = e := h.eq_of_steps (steps_simplifyPass e)

theorem simplifyPass_simplifyPass (e : Expr) : e.simplifyPass.simplifyPass = e.simplifyPass :=
  (normal_simplifyPass e).simplifyPass

theorem Normal.settle {e : Expr} (h : Normal e) (fuel : Nat) : settle fuel e = e := by
  induction fuel with
  | zero => rfl
  | succ fuel ih => rw [Expr.settle, h.simplifyPass, ih, ite_self]

/-- The second pass finds nothing left to do. -/
theorem simplify_eq_simplifyPass (e : Expr) : e.simplify = e.simplifyPass := (normal_simplifyPass e).settle _

/-- Simplified trees are normal, also those whose literals are not all finite. -/
theorem normal_simplify (e : Expr) : Normal e.simplify := by
  rw [simplify_eq_simplifyPass]
  exact normal_simplifyPass e

theorem Normal.simplify {e : Expr} (h : Normal e) : e.simplify = e := by
  rw [simplify_eq_simplifyPass, h.simplifyPass]

theorem simplify_simplify (e : Expr) : e.simplify.simplify = e.simplify := (normal_simplify e).simplify

/-! ## Rules and equality -/

/-- Two rules for one tree give equal trees. -/
theorem Rule.unique {e a b : Expr} (ha : Rule e a) (hb : Rule e b) (he : e.Finite) : a == b := by
  cases ha with
  | addZero hz =>
      cases hb with
      | addZero _ => exact beq_self _ he.1
      | zeroAdd hz' => exact literal_beq.mpr ⟨_, rfl, Binary64.beq_trans hz' (Binary64.beq_symm hz)⟩
  | zeroAdd hz =>
      cases hb with
      | addZero hz' => exact literal_beq.mpr ⟨_, rfl, Binary64.beq_trans hz' (Binary64.beq_symm hz)⟩
      | zeroAdd _ => exact beq_self _ he.2
  | subZero _ =>
      cases hb with
      | subZero _ => exact beq_self _ he.1
  | merge heq hfinite =>
      cases hb with
      | merge _ _ => exact beq_self _ ⟨hfinite, trivial⟩
  | collapse _ _ _ =>
      cases hb with
      | collapse _ _ _ => exact beq_self _ he.1
  | andOne hz =>
      cases hb with
      | andOne _ => exact beq_self _ he.1
      | oneAnd hz' => exact literal_beq.mpr ⟨_, rfl, Binary64.beq_trans hz' (Binary64.beq_symm hz)⟩
  | oneAnd hz =>
      cases hb with
      | andOne hz' => exact literal_beq.mpr ⟨_, rfl, Binary64.beq_trans hz' (Binary64.beq_symm hz)⟩
      | oneAnd _ => exact beq_self _ he.2

/-- A rule for a tree is a rule for every equal tree. -/
theorem Rule.congr {e a e' : Expr} (h : Rule e a) (he : e.Finite) (heq : e == e') : ∃ a', Rule e' a' ∧ a == a' := by
  cases h with
  | addZero hz =>
      obtain ⟨l', r', rfl, hl, hr⟩ := binary_beq.mp heq
      obtain ⟨z', rfl, hzz⟩ := literal_beq.mp hr
      exact ⟨l', .addZero (Binary64.beq_trans (Binary64.beq_symm hzz) hz), hl⟩
  | zeroAdd hz =>
      obtain ⟨l', r', rfl, hl, hr⟩ := binary_beq.mp heq
      obtain ⟨z', rfl, hzz⟩ := literal_beq.mp hl
      exact ⟨r', .zeroAdd (Binary64.beq_trans (Binary64.beq_symm hzz) hz), hr⟩
  | subZero hz =>
      obtain ⟨l', r', rfl, hl, hr⟩ := binary_beq.mp heq
      obtain ⟨z', rfl, hzz⟩ := literal_beq.mp hr
      exact ⟨l', .subZero (Binary64.beq_trans (Binary64.beq_symm hzz) hz), hl⟩
  | merge hev hfinite =>
      obtain ⟨l', r', rfl, hl, hr⟩ := binary_beq.mp heq
      obtain ⟨c, d, rfl, hc, hd⟩ := binary_beq.mp hl
      obtain ⟨c', d', rfl, hc', hd'⟩ := binary_beq.mp hr
      obtain ⟨a', rfl, ha⟩ := literal_beq.mp hc
      obtain ⟨b', rfl, hb⟩ := literal_beq.mp hc'
      obtain rfl := event_beq.mp hd
      obtain rfl := event_beq.mp hd'
      have hsub := Binary64.sub_congr ha hb he.1.1 he.2.1 hfinite
      refine ⟨_, .merge hev (Binary64.isFinite_of_beq hsub hfinite), ?_⟩
      exact binary_beq.mpr ⟨_, _, rfl, literal_beq.mpr ⟨_, rfl, hsub⟩, event_beq.mpr rfl⟩
  | collapse hz hz' ht =>
      obtain ⟨c, t'', o'', rfl, hv, ht', ho⟩ := conditional_beq.mp heq
      obtain ⟨v₁, t₁, o₁, rfl, hv₁, ht₁, ho₁⟩ := conditional_beq.mp hv
      obtain ⟨y, rfl, hy⟩ := literal_beq.mp ho
      obtain ⟨y₁, rfl, hy₁⟩ := literal_beq.mp ho₁
      refine ⟨_, .collapse (Binary64.beq_trans (Binary64.beq_symm hy₁) hz)
        (Binary64.beq_trans (Binary64.beq_symm hy) hz') ?_, hv⟩
      exact beq_trans (beq_symm ht₁) (beq_trans ht ht')
  | andOne hz =>
      obtain ⟨l', r', rfl, hl, hr⟩ := binary_beq.mp heq
      obtain ⟨z', rfl, hzz⟩ := literal_beq.mp hr
      exact ⟨l', .andOne (Binary64.beq_trans (Binary64.beq_symm hzz) hz), hl⟩
  | oneAnd hz =>
      obtain ⟨l', r', rfl, hl, hr⟩ := binary_beq.mp heq
      obtain ⟨z', rfl, hzz⟩ := literal_beq.mp hl
      exact ⟨r', .oneAnd (Binary64.beq_trans (Binary64.beq_symm hzz) hz), hr⟩

theorem simplifyBinary_of_rule {op : Operator} {l r e : Expr} (h : Rule (.binary op l r) e)
    (hf : (binary op l r).Finite) : simplifyBinary op l r == e := by
  rcases simplifyBinary_cases op l r with h' | ⟨-, hno⟩
  · exact h'.unique h hf
  · exact absurd h (hno e)

theorem simplifyConditional_of_rule {v t o e : Expr} (h : Rule (.conditional v t o) e) :
    simplifyConditional v t o = v := by
  rcases simplifyConditional_cases v t o with ⟨-, heq⟩ | ⟨-, hno⟩
  · exact heq
  · exact absurd h (hno e)

theorem simplifyBinary_congr {op : Operator} {l l' r r' : Expr} (hf : (binary op l r).Finite) (hl : l == l')
    (hr : r == r') : simplifyBinary op l r == simplifyBinary op l' r' := by
  have heq : binary op l r == binary op l' r' := binary_beq.mpr ⟨_, _, rfl, hl, hr⟩
  have hf' := finite_of_beq heq hf
  rcases simplifyBinary_cases op l r with h | ⟨h, hno⟩
  · obtain ⟨e, he, heq'⟩ := h.congr hf heq
    exact beq_trans heq' (beq_symm (simplifyBinary_of_rule he hf'))
  · rcases simplifyBinary_cases op l' r' with h' | ⟨h', -⟩
    · obtain ⟨e, he, -⟩ := h'.congr hf' (beq_symm heq)
      exact absurd he (hno e)
    · rw [h, h']
      exact heq

theorem simplifyConditional_congr {v v' t t' o o' : Expr} (hf : (conditional v t o).Finite) (hv : v == v')
    (ht : t == t') (ho : o == o') : simplifyConditional v t o == simplifyConditional v' t' o' := by
  have heq : conditional v t o == conditional v' t' o' := conditional_beq.mpr ⟨_, _, _, rfl, hv, ht, ho⟩
  have hf' := finite_of_beq heq hf
  rcases simplifyConditional_cases v t o with ⟨h, hvalue⟩ | ⟨h, hno⟩
  · obtain ⟨e, he, -⟩ := h.congr hf heq
    rw [hvalue, simplifyConditional_of_rule he]
    exact hv
  · rcases simplifyConditional_cases v' t' o' with ⟨h', -⟩ | ⟨h', -⟩
    · obtain ⟨e, he, -⟩ := h'.congr hf' (beq_symm heq)
      exact absurd he (hno e)
    · rw [h, h']
      exact heq

mutual

/-- Equal trees have equal normal forms. -/
theorem simplifyPass_congr {e e' : Expr} (h : e == e') (he : e.Finite) : e.simplifyPass == e'.simplifyPass := by
  match e with
  | .literal x =>
      obtain ⟨y, rfl, hxy⟩ := literal_beq.mp h
      exact h
  | .event ev =>
      obtain rfl := event_beq.mp h
      exact h
  | .binary op l r =>
      obtain ⟨l', r', rfl, hl, hr⟩ := binary_beq.mp h
      have hf : (binary op l.simplifyPass r.simplifyPass).Finite :=
        ⟨finite_simplifyPass l he.1, finite_simplifyPass r he.2⟩
      exact simplifyBinary_congr hf (simplifyPass_congr hl he.1) (simplifyPass_congr hr he.2)
  | .call f as =>
      obtain ⟨bs, rfl, hs⟩ := call_beq.mp h
      exact call_beq.mpr ⟨_, rfl, simplifyPassList_congr hs he⟩
  | .conditional v t o =>
      obtain ⟨v', t', o', rfl, hv, ht, ho⟩ := conditional_beq.mp h
      have hf : (conditional v.simplifyPass t.simplifyPass o.simplifyPass).Finite :=
        ⟨finite_simplifyPass v he.1, finite_simplifyPass t he.2.1, finite_simplifyPass o he.2.2⟩
      exact simplifyConditional_congr hf (simplifyPass_congr hv he.1) (simplifyPass_congr ht he.2.1)
        (simplifyPass_congr ho he.2.2)

theorem simplifyPassList_congr {as bs : List Expr} (h : equalList as bs) (has : FiniteList as) :
    equalList (simplifyPassList as) (simplifyPassList bs) := by
  match as with
  | [] =>
      obtain rfl := nil_equalList.mp h
      rfl
  | a :: as =>
      obtain ⟨b, bs, rfl, hab, hs⟩ := cons_equalList.mp h
      exact cons_equalList.mpr ⟨_, _, rfl, simplifyPass_congr hab has.1, simplifyPassList_congr hs has.2⟩

end

/-! ## No step changes the normal form -/

/-- A rule for an operator still applies to the normal forms of its operands. -/
theorem Rule.simplifyPass_binary {op : Operator} {l r e : Expr} (h : Rule (.binary op l r) e) :
    Rule (.binary op l.simplifyPass r.simplifyPass) e.simplifyPass := by
  cases h with
  | addZero hz => exact .addZero hz
  | zeroAdd hz => exact .zeroAdd hz
  | subZero hz => exact .subZero hz
  | merge heq hfinite => exact .merge heq hfinite
  | andOne hz => exact .andOne hz
  | oneAnd hz => exact .oneAnd hz

/-- So does the rule for a conditional: the value keeps its guard, or gives way to a value with an equal one. -/
theorem Rule.simplifyPass_conditional {v t o e : Expr} (h : Rule (.conditional v t o) e)
    (hf : (conditional v t o).Finite) :
    e = v ∧ Rule (.conditional v.simplifyPass t.simplifyPass o.simplifyPass) v.simplifyPass := by
  cases h with
  | @collapse w t' _ z z' hz hz' ht =>
      refine ⟨rfl, ?_⟩
      have htests := simplifyPass_congr ht hf.1.2.1
      change Rule (.conditional (simplifyConditional w.simplifyPass t'.simplifyPass (.literal z)) t.simplifyPass
        (.literal z')) (simplifyConditional w.simplifyPass t'.simplifyPass (.literal z))
      rcases simplifyConditional_cases w.simplifyPass t'.simplifyPass (.literal z) with ⟨h, heq⟩ | ⟨heq, -⟩
      · rw [heq]
        generalize w.simplifyPass = w' at h
        cases h with
        | collapse hy _ ht' => exact .collapse hy hz' (beq_trans ht' htests)
      · rw [heq]
        exact .collapse hz hz' htests

theorem Rule.simplifyPass_beq {e e' : Expr} (h : Rule e e') (he : e.Finite) : e.simplifyPass == e'.simplifyPass := by
  match e with
  | .literal x => cases h
  | .event ev => cases h
  | .binary op l r =>
      exact simplifyBinary_of_rule h.simplifyPass_binary ⟨finite_simplifyPass l he.1, finite_simplifyPass r he.2⟩
  | .call f as => cases h
  | .conditional v t o =>
      obtain ⟨rfl, hroot⟩ := h.simplifyPass_conditional he
      rw [simplifyPass, simplifyConditional_of_rule hroot]
      exact beq_self _ (finite_simplifyPass _ he.1)

mutual

theorem Step.simplifyPass_beq {e e' : Expr} (h : Step e e') (he : e.Finite) : e.simplifyPass == e'.simplifyPass := by
  match h with
  | .rule h => exact h.simplifyPass_beq he
  | @Step.left op l l' r h =>
      have hr := finite_simplifyPass r he.2
      exact simplifyBinary_congr ⟨finite_simplifyPass l he.1, hr⟩ (h.simplifyPass_beq he.1) (beq_self _ hr)
  | @Step.right op l r r' h =>
      have hl := finite_simplifyPass l he.1
      exact simplifyBinary_congr ⟨hl, finite_simplifyPass r he.2⟩ (beq_self _ hl) (h.simplifyPass_beq he.2)
  | .argument h => exact call_beq.mpr ⟨_, rfl, h.simplifyPassList_equal he⟩
  | @Step.value v v' t o h =>
      have ht := finite_simplifyPass t he.2.1
      have ho := finite_simplifyPass o he.2.2
      exact simplifyConditional_congr ⟨finite_simplifyPass v he.1, ht, ho⟩ (h.simplifyPass_beq he.1) (beq_self _ ht)
        (beq_self _ ho)
  | @Step.test v t t' o h =>
      have hv := finite_simplifyPass v he.1
      have ho := finite_simplifyPass o he.2.2
      exact simplifyConditional_congr ⟨hv, finite_simplifyPass t he.2.1, ho⟩ (beq_self _ hv)
        (h.simplifyPass_beq he.2.1) (beq_self _ ho)
  | @Step.otherwise v t o o' h =>
      have hv := finite_simplifyPass v he.1
      have ht := finite_simplifyPass t he.2.1
      exact simplifyConditional_congr ⟨hv, ht, finite_simplifyPass o he.2.2⟩ (beq_self _ hv) (beq_self _ ht)
        (h.simplifyPass_beq he.2.2)

theorem StepList.simplifyPassList_equal {as bs : List Expr} (h : StepList as bs) (has : FiniteList as) :
    equalList (simplifyPassList as) (simplifyPassList bs) := by
  match h with
  | @StepList.head a b as h =>
      have hrest := equalList_self _ (finiteList_simplifyPassList as has.2)
      exact cons_equalList.mpr ⟨_, _, rfl, h.simplifyPass_beq has.1, hrest⟩
  | @StepList.tail a as bs h =>
      have hfirst := beq_self _ (finite_simplifyPass a has.1)
      exact cons_equalList.mpr ⟨_, _, rfl, hfirst, h.simplifyPassList_equal has.2⟩

end

theorem simplifyPass_beq_of_steps {e e' : Expr} (h : ReflTransGen Step e e') (he : e.Finite) :
    e'.Finite ∧ e.simplifyPass == e'.simplifyPass := by
  induction h with
  | refl => exact ⟨he, beq_self _ (finite_simplifyPass e he)⟩
  | tail _ hstep ih =>
      obtain ⟨hfinite, hequal⟩ := ih
      exact ⟨hstep.finite hfinite, beq_trans hequal (hstep.simplifyPass_beq hfinite)⟩

/-- Simplification gives the one normal form of a tree: steps lead to it, none leads on from it, and steps in any order
come to an end in a tree equal to it. A single pass finds it, and the next pass changes nothing. -/
theorem simplify_normalForm {e : Expr} (he : e.Finite) :
    ReflTransGen Step e e.simplify ∧ Normal e.simplify ∧
      (¬ ∃ f : Nat → Expr, f 0 = e ∧ ∀ i, Step (f i) (f (i + 1))) ∧
      (∀ e', ReflTransGen Step e e' → Normal e' → e' == e.simplify) ∧
      e.simplifyPass = e.simplify ∧ e.simplify.simplifyPass = e.simplify ∧ e.simplify.simplify == e.simplify := by
  have hpass := simplify_eq_simplifyPass e
  refine ⟨?_, ?_, ?_, ?_, hpass.symm, ?_, ?_⟩
  · rw [hpass]
    exact steps_simplifyPass e
  · rw [hpass]
    exact normal_simplifyPass e
  · rintro ⟨f, -, hsteps⟩
    obtain ⟨i, hi⟩ := exists_not_step f
    exact hi (hsteps i)
  · intro e' hsteps hnormal
    obtain ⟨-, hequal⟩ := simplifyPass_beq_of_steps hsteps he
    rw [hnormal.simplifyPass] at hequal
    rw [hpass]
    exact beq_symm hequal
  · rw [hpass, simplifyPass_simplifyPass]
  · rw [simplify_simplify e]
    exact beq_self _ (finite_simplify he)

/-- `(2 * x - 1 * x if p else -0) if p else 0` -/
def guardedTwice : Expr :=
  let scaled (n : Nat) : Expr := .binary .mul (.literal (.ofNat n)) (.ref "x")
  .conditional (.conditional (.binary .sub (scaled 2) (scaled 1)) (.ref "p") (.literal (.zero true))) (.ref "p")
    (.literal 0)

theorem simplify_normalForm_guardedTwice :
    guardedTwice.Finite ∧ guardedTwice.simplify.print = "1 * x if p else -0" ∧
      ReflTransGen Step guardedTwice guardedTwice.simplify ∧ Normal guardedTwice.simplify ∧
      ∀ e', ReflTransGen Step guardedTwice e' → Normal e' → e' == guardedTwice.simplify := by
  have hfinite : guardedTwice.Finite := by
    simp only [guardedTwice, Finite, ref, and_true, true_and]
    decide +kernel
  obtain ⟨hsteps, hnormal, -, hunique, -⟩ := simplify_normalForm hfinite
  exact ⟨hfinite, by decide +kernel, hsteps, hnormal, hunique⟩

end MetricFormula.Expr
