import MetricFormula.FormulaSet.Basic
import MetricFormula.Proofs.Expr.Preservation
import MetricFormula.Proofs.Grammar.Printable

/-!
# Canonical text of canonical text

Simplification turns a difference of products into a product, whose coefficient may have a sign where nothing opened a
level before. So canonical text may open one level more than the formula it was made from, and at the limit it is not
read again.
-/

namespace MetricFormula

namespace Expr

/-! ## The levels of an operand -/

/-- The levels that the tree opens as a phrase of strength `k`: a weaker one is put in parentheses. -/
def nestingAt (k : Nat) (e : Expr) : Nat := groupedNesting (e.precedence < k) e.nesting

theorem nestingAt_of_lt {k : Nat} {e : Expr} (h : e.precedence < k) : e.nestingAt k = e.nesting + 1 := by
  simp [nestingAt, groupedNesting, h]

theorem nestingAt_of_le {k : Nat} {e : Expr} (h : k ≤ e.precedence) : e.nestingAt k = e.nesting := by
  simp [nestingAt, groupedNesting, Nat.not_lt.mpr h]

theorem nestingAt_zero (e : Expr) : e.nestingAt 0 = e.nesting := nestingAt_of_le (Nat.zero_le _)

theorem nesting_le_nestingAt (k : Nat) (e : Expr) : e.nesting ≤ e.nestingAt k := by
  rcases Nat.lt_or_ge e.precedence k with h | h
  · rw [nestingAt_of_lt h]
    exact Nat.le_succ _
  · exact Nat.le_of_eq (nestingAt_of_le h).symm

theorem nestingAt_le (k : Nat) (e : Expr) : e.nestingAt k ≤ e.nesting + 1 := by
  rcases Nat.lt_or_ge e.precedence k with h | h
  · exact Nat.le_of_eq (nestingAt_of_lt h)
  · rw [nestingAt_of_le h]
    exact Nat.le_succ _

/-- An operand is part of a tree at some strength above that of the tree, and then opens no more levels than the tree at
any other strength. -/
theorem nestingAt_le_of_operand {k m : Nat} {x e : Expr} (hm : e.precedence ≤ m) (h : x.nestingAt m ≤ e.nesting) :
    x.nestingAt k ≤ e.nestingAt k := by
  rcases Nat.lt_or_ge x.precedence m with hx | hx
  · rw [nestingAt_of_lt hx] at h
    exact Nat.le_trans (nestingAt_le k x) (Nat.le_trans h (nesting_le_nestingAt k e))
  · rw [nestingAt_of_le hx] at h
    rcases Nat.lt_or_ge x.precedence k with hk | hk
    · rw [nestingAt_of_lt hk, nestingAt_of_lt (Nat.lt_of_le_of_lt (Nat.le_trans hm hx) hk)]
      exact Nat.succ_le_succ h
    · rw [nestingAt_of_le hk]
      exact Nat.le_trans h (nesting_le_nestingAt k e)

theorem nesting_binary (op : Operator) (l r : Expr) :
    (binary op l r).nesting = max (l.nestingAt op.leftStrength) (r.nestingAt (op.precedence + 1)) := by
  have hleft : groupsLeft op l = decide (l.precedence < op.leftStrength) := by
    rw [Bool.eq_iff_iff, groupsLeft_iff, decide_eq_true_iff]
  have hright : groupsRight op r = decide (r.precedence < op.precedence + 1) := by
    rw [Bool.eq_iff_iff, groupsRight_iff, decide_eq_true_iff]
  rw [nesting, hleft, hright]
  rfl

theorem nesting_conditional (v t o : Expr) :
    (conditional v t o).nesting = max (max (v.nestingAt 1) (t.nestingAt 1)) (o.nesting + 1) := by
  have hgrouped (e : Expr) : e.isConditional = decide (e.precedence < 1) := by
    rw [Bool.eq_iff_iff, isConditional_iff, decide_eq_true_iff]
  rw [nesting, hgrouped, hgrouped]
  rfl

end Expr

theorem Operator.precedence_le_leftStrength (op : Operator) : op.precedence ≤ op.leftStrength := by
  cases op <;> decide

namespace Expr

theorem nestingAt_left_le (k : Nat) (op : Operator) (l r : Expr) : l.nestingAt k ≤ (binary op l r).nestingAt k := by
  apply nestingAt_le_of_operand op.precedence_le_leftStrength
  rw [nesting_binary]
  exact Nat.le_max_left _ _

theorem nestingAt_right_le (k : Nat) (op : Operator) (l r : Expr) : r.nestingAt k ≤ (binary op l r).nestingAt k := by
  apply nestingAt_le_of_operand (Nat.le_succ op.precedence)
  rw [nesting_binary]
  exact Nat.le_max_right _ _

theorem nestingAt_value_le (k : Nat) (v t o : Expr) : v.nestingAt k ≤ (conditional v t o).nestingAt k := by
  apply nestingAt_le_of_operand (Nat.zero_le 1)
  rw [nesting_conditional]
  exact Nat.le_trans (Nat.le_max_left _ _) (Nat.le_max_left _ _)

/-! ## The levels of a simplified tree -/

/-- A rule opens no level, unless it merges coefficients. -/
theorem Rule.nestingAt_le {e e' : Expr} (h : Rule e e') (k : Nat) :
    e'.nestingAt k ≤ e.nestingAt k ∨ e.precedence ≤ e'.precedence ∧ e'.nesting ≤ 1 := by
  cases h with
  | addZero _ => exact .inl (nestingAt_left_le k _ _ _)
  | zeroAdd _ => exact .inl (nestingAt_right_le k _ _ _)
  | subZero _ => exact .inl (nestingAt_left_le k _ _ _)
  | @merge a b _ _ _ _ =>
      refine .inr ⟨Nat.le_succ 4, ?_⟩
      rw [nesting_binary]
      exact Nat.max_le.mpr ⟨(a - b).nesting_le, Nat.zero_le 1⟩
  | collapse _ _ _ => exact .inl (nestingAt_value_le k _ _ _)
  | andOne _ => exact .inl (nestingAt_left_le k _ _ _)
  | oneAnd _ => exact .inl (nestingAt_right_le k _ _ _)

theorem nestingAt_of_nesting_le {e e' : Expr} (h : e'.nesting ≤ e.nesting + 1) (hprec : e'.precedence = e.precedence)
    (k : Nat) : e'.nestingAt k ≤ e.nestingAt k + 1 := by
  rcases Nat.lt_or_ge e.precedence k with hk | hk
  · rw [nestingAt_of_lt hk, nestingAt_of_lt (hprec ▸ hk)]
    exact Nat.succ_le_succ h
  · rw [nestingAt_of_le hk, nestingAt_of_le (hprec ▸ hk)]
    exact h

/-- What a rule leaves of a tree, its operands grown by a level, has grown by no more. -/
theorem Rule.nestingAt_le_succ {e₀ e e' : Expr} (h : Rule e e') (hnest : e.nesting ≤ e₀.nesting + 1)
    (hprec : e.precedence = e₀.precedence) (k : Nat) : e'.nestingAt k ≤ e₀.nestingAt k + 1 := by
  rcases h.nestingAt_le k with hle | ⟨hprec', hone⟩
  · exact Nat.le_trans hle (nestingAt_of_nesting_le hnest hprec k)
  · rcases Nat.lt_or_ge e'.precedence k with hk | hk
    · rw [nestingAt_of_lt hk, nestingAt_of_lt (hprec ▸ Nat.lt_of_le_of_lt hprec' hk)]
      omega
    · rw [nestingAt_of_le hk]
      omega

theorem nestingAt_simplifyBinary_le {op : Operator} {l l' r r' : Expr} (hl : ∀ k, l'.nestingAt k ≤ l.nestingAt k + 1)
    (hr : ∀ k, r'.nestingAt k ≤ r.nestingAt k + 1) (k : Nat) :
    (simplifyBinary op l' r').nestingAt k ≤ (binary op l r).nestingAt k + 1 := by
  have hnest : (binary op l' r').nesting ≤ (binary op l r).nesting + 1 := by
    have hleft := hl op.leftStrength
    have hright := hr (op.precedence + 1)
    rw [nesting_binary, nesting_binary]
    omega
  rcases simplifyBinary_cases op l' r' with h | ⟨h, -⟩
  · exact h.nestingAt_le_succ hnest rfl k
  · rw [h]
    exact nestingAt_of_nesting_le hnest rfl k

theorem nestingAt_simplifyConditional_le {v v' t t' o o' : Expr} (hv : ∀ k, v'.nestingAt k ≤ v.nestingAt k + 1)
    (ht : ∀ k, t'.nestingAt k ≤ t.nestingAt k + 1) (ho : ∀ k, o'.nestingAt k ≤ o.nestingAt k + 1) (k : Nat) :
    (simplifyConditional v' t' o').nestingAt k ≤ (conditional v t o).nestingAt k + 1 := by
  have hnest : (conditional v' t' o').nesting ≤ (conditional v t o).nesting + 1 := by
    have hvalue := hv 1
    have htest := ht 1
    have hlast := ho 0
    rw [nestingAt_zero, nestingAt_zero] at hlast
    rw [nesting_conditional, nesting_conditional]
    omega
  rcases simplifyConditional_cases v' t' o' with ⟨h, heq⟩ | ⟨heq, -⟩
  · rw [heq]
    exact h.nestingAt_le_succ hnest rfl k
  · rw [heq]
    exact nestingAt_of_nesting_le hnest rfl k

mutual

theorem nestingAt_simplifyPass_le (k : Nat) (e : Expr) : e.simplifyPass.nestingAt k ≤ e.nestingAt k + 1 := by
  match e with
  | .literal x => exact Nat.le_succ _
  | .event ev => exact Nat.le_succ _
  | .binary op l r =>
      exact nestingAt_simplifyBinary_le (nestingAt_simplifyPass_le · l) (nestingAt_simplifyPass_le · r) k
  | .call f as =>
      have hargs : (call f (simplifyPassList as)).nesting ≤ (call f as).nesting + 1 :=
        nestingList_simplifyPassList_le as
      exact nestingAt_of_nesting_le hargs rfl k
  | .conditional v t o =>
      exact nestingAt_simplifyConditional_le (nestingAt_simplifyPass_le · v) (nestingAt_simplifyPass_le · t)
        (nestingAt_simplifyPass_le · o) k

theorem nestingList_simplifyPassList_le (as : List Expr) : nestingList (simplifyPassList as) ≤ nestingList as + 1 := by
  match as with
  | [] => exact Nat.zero_le _
  | a :: as =>
      have hfirst := nestingAt_simplifyPass_le 0 a
      have hrest := nestingList_simplifyPassList_le as
      rw [nestingAt_zero, nestingAt_zero] at hfirst
      rw [simplifyPassList, nestingList, nestingList]
      omega

end

/-- However many coefficients are merged, no more than one level is added. -/
theorem nesting_simplify_le (e : Expr) : e.simplify.nesting ≤ e.nesting + 1 := by
  have hpass := nestingAt_simplifyPass_le 0 e
  rw [nestingAt_zero, nestingAt_zero] at hpass
  rw [simplify_eq_simplifyPass]
  exact hpass

end Expr

/-! ## Canonical text read again -/

theorem parseFormula_eq_ok {text : String} {e : Expr} : parseFormula text = .ok e ↔ parse text = .ok e := mapError_eq_ok

theorem canonicalize_eq_ok {text c : String} :
    canonicalize text = .ok c ↔ ∃ t, parse text = .ok t ∧ t.simplify.print = c := by
  simp only [canonicalize, map_eq_ok, parseFormula_eq_ok]

/-- The canonical text of a simplified tree is its own canonical form, or is refused for its levels. -/
theorem canonicalize_print {t : Expr} (hwell : t.WellFormed) (hnamed : t.Named) (hdepth : t.depth ≤ maxDepth)
    (hsimplified : t.simplify = t) {c : String} :
    canonicalize t.print = .ok c ↔ c = t.print ∧ t.nesting < maxNesting := by
  rw [canonicalize_eq_ok]
  constructor
  · rintro ⟨t', hparse, rfl⟩
    obtain ⟨rfl, -, hnest⟩ := Expr.eq_of_parse_print hwell hnamed hparse
    exact ⟨by rw [hsimplified], hnest⟩
  · rintro ⟨rfl, hnest⟩
    exact ⟨t, Expr.parse_print_of_nesting hwell hnamed hdepth hnest, by rw [hsimplified]⟩

/-- Canonical text that is read again is its own canonical form. It is read again unless it opens more levels than there
are, and that takes a formula at the limit. -/
theorem canonicalize_stable {text c : String} (h : canonicalize text = .ok c) :
    ∃ t, parse text = .ok t ∧ c = t.simplify.print ∧
      t.nesting + 1 ≤ maxNesting ∧ t.simplify.nesting ≤ t.nesting + 1 ∧
      ∀ d, canonicalize c = .ok d ↔ d = c ∧ t.simplify.nesting + 1 ≤ maxNesting := by
  obtain ⟨t, hparse, rfl⟩ := canonicalize_eq_ok.mp h
  obtain ⟨hwell, hnamed, hdepth, hnest⟩ := wellFormed_of_parse hparse
  refine ⟨t, hparse, rfl, hnest, Expr.nesting_simplify_le t, fun d => ?_⟩
  exact canonicalize_print (Expr.wellFormed_simplify hwell) (Expr.named_simplify hnamed)
    (Nat.le_trans (Expr.depth_simplify_le t) hdepth) (Expr.simplify_simplify t)

theorem canonicalize_stable_difference :
    canonicalize "2*x - 5*x" = .ok "-3 * x" ∧ canonicalize "-3 * x" = .ok "-3 * x" := by
  have h : canonicalize "2*x - 5*x" = .ok "-3 * x" := toOption_eq_some.mp (by decide +kernel)
  obtain ⟨t, hparse, -, -, hle, hstable⟩ := canonicalize_stable h
  have hnest : (parse "2*x - 5*x").toOption.map Expr.nesting = some 0 := by decide +kernel
  rw [hparse] at hnest
  have hnest : t.nesting = 0 := Option.some.inj hnest
  exact ⟨h, (hstable _).mpr ⟨rfl, by unfold maxNesting; omega⟩⟩

/-! ## At the limit -/

namespace Expr

/-- `a * (a * (… e))`, with `n` factors `a`. -/
def inProducts : Nat → Expr → Expr
  | 0, e => e
  | n + 1, e => .binary .mul (.ref "a") (inProducts n e)

theorem precedence_inProducts_le {e : Expr} (h : e.precedence ≤ 5) (n : Nat) : (inProducts n e).precedence ≤ 5 := by
  cases n with
  | zero => exact h
  | succ n => exact Nat.le_refl 5

theorem wellFormed_inProducts {e : Expr} (h : e.WellFormed) (n : Nat) : (inProducts n e).WellFormed := by
  induction n with
  | zero => exact h
  | succ n ih => exact ⟨Event.WellFormed.bare "a", ih⟩

theorem named_inProducts {e : Expr} (h : e.Named) (n : Nat) : (inProducts n e).Named := by
  induction n with
  | zero => exact h
  | succ n ih => exact List.forall_mem_cons.mpr ⟨by decide, ih⟩

theorem depth_inProducts {e : Expr} (n : Nat) : (inProducts n e).depth ≤ n + e.depth := by
  induction n with
  | zero => exact Nat.le_add_left _ _
  | succ n ih =>
      have hpos : 1 ≤ e.depth := by cases e <;> simp only [depth] <;> omega
      simp only [inProducts, ref, depth]
      omega

theorem nesting_inProducts {e : Expr} (h : e.precedence ≤ 5) (n : Nat) :
    (inProducts n e).nesting = n + e.nesting := by
  induction n with
  | zero => exact (Nat.zero_add _).symm
  | succ n ih =>
      have hlt : (inProducts n e).precedence < Operator.precedence .mul + 1 :=
        Nat.lt_succ_of_le (precedence_inProducts_le h n)
      have hname : (ref "a").nestingAt (Operator.leftStrength .mul) = 0 := rfl
      rw [inProducts, nesting_binary, nestingAt_of_lt hlt, hname, ih]
      omega

theorem simplifyPass_inProducts (n : Nat) (e : Expr) : (inProducts n e).simplifyPass = inProducts n e.simplifyPass := by
  induction n with
  | zero => rfl
  | succ n ih => rw [inProducts, simplifyPass, ih]; rfl

def inGroups : Nat → String → String
  | 0, s => s
  | n + 1, s => "a * (" ++ inGroups n s ++ ")"

theorem print_inProducts {e : Expr} (h : e.precedence ≤ 5) (n : Nat) : (inProducts n e).print = inGroups n e.print := by
  induction n with
  | zero => rfl
  | succ n ih =>
      have hgroup : groupsRight .mul (inProducts n e) = true := decide_eq_true (precedence_inProducts_le h n)
      have htext : (inProducts (n + 1) e).text = "a * (".toList ++ (inProducts n e).text ++ ")".toList := by
        rw [inProducts, text, hgroup]
        rfl
      rw [print, htext, String.ofList_append, String.ofList_append, String.ofList_toList, String.ofList_toList,
        inGroups, ← ih, print]

/-- `a * x` -/
def scaled (a : Binary64) : Expr := .binary .mul (.literal a) (.ref "x")

theorem wellFormed_scaled {a : Binary64} (h : a.isFinite) : (scaled a).WellFormed := ⟨h, Event.WellFormed.bare "x"⟩

theorem named_scaled (a : Binary64) : (scaled a).Named := List.forall_mem_singleton.mpr (by decide)

theorem precedence_scaled_le (a : Binary64) : (scaled a).precedence ≤ 5 := Nat.le_refl 5

theorem nesting_scaled (a : Binary64) : (scaled a).nesting = a.nesting := Nat.max_zero _

/-- `a * x - b * x` -/
def difference (a b : Binary64) : Expr := .binary .sub (scaled a) (scaled b)

theorem wellFormed_difference {a b : Binary64} (ha : a.isFinite) (hb : b.isFinite) : (difference a b).WellFormed :=
  ⟨wellFormed_scaled ha, wellFormed_scaled hb⟩

theorem named_difference (a b : Binary64) : (difference a b).Named :=
  List.forall_mem_append.mpr ⟨named_scaled a, named_scaled b⟩

theorem precedence_difference_le (a b : Binary64) : (difference a b).precedence ≤ 5 := Nat.le_succ 4

theorem simplifyPass_difference {a b : Binary64} (h : (a - b).isFinite) :
    (difference a b).simplifyPass = scaled (a - b) := if_pos ⟨rfl, h⟩

theorem nesting_difference (a b : Binary64) : (difference a b).nesting = max a.nesting b.nesting := by
  rw [difference, nesting, nesting_scaled, nesting_scaled]
  rfl

end Expr

/-- A sign in the coefficient takes a level of its own. -/
theorem canonicalize_scaled {n : Nat} {a : Binary64} {c : String} (ha : a.isFinite) (hn : n ≤ maxNesting) :
    canonicalize (Expr.inProducts n (.scaled a)).print = .ok c ↔
      c = (Expr.inProducts n (.scaled a)).print ∧ n + a.nesting < maxNesting := by
  have hwell := Expr.wellFormed_inProducts (Expr.wellFormed_scaled ha) n
  have hdepth : (Expr.inProducts n (.scaled a)).depth ≤ maxDepth :=
    Nat.le_trans (Expr.depth_inProducts n) (Nat.le_trans (Nat.add_le_add_right hn 2) (by decide))
  have hsimplified : (Expr.inProducts n (.scaled a)).simplify = .inProducts n (.scaled a) := by
    rw [Expr.simplify_eq_simplifyPass, Expr.simplifyPass_inProducts]
    rfl
  rw [canonicalize_print hwell (Expr.named_inProducts (Expr.named_scaled a) n) hdepth hsimplified,
    Expr.nesting_inProducts (Expr.precedence_scaled_le a), Expr.nesting_scaled]

/-- The coefficients of a difference are merged, whatever the sign of the result. -/
theorem canonicalize_difference {n : Nat} {a b : Binary64} (ha : a.isFinite) (hb : b.isFinite) (hab : (a - b).isFinite)
    (hn : n + max a.nesting b.nesting < maxNesting) :
    canonicalize (Expr.inProducts n (.difference a b)).print = .ok (Expr.inProducts n (.scaled (a - b))).print := by
  have hwell : (Expr.inProducts n (.difference a b)).WellFormed :=
    Expr.wellFormed_inProducts (Expr.wellFormed_difference ha hb) n
  have hnamed : (Expr.inProducts n (.difference a b)).Named :=
    Expr.named_inProducts (Expr.named_difference a b) n
  have hdepth : (Expr.inProducts n (.difference a b)).depth ≤ maxDepth := by
    have hle : n + 3 ≤ maxDepth := by simp only [maxNesting, maxDepth] at hn ⊢; omega
    exact Nat.le_trans (Expr.depth_inProducts n) hle
  have hnest : (Expr.inProducts n (.difference a b)).nesting < maxNesting := by
    rw [Expr.nesting_inProducts (Expr.precedence_difference_le a b), Expr.nesting_difference]
    exact hn
  refine canonicalize_eq_ok.mpr ⟨_, Expr.parse_print_of_nesting hwell hnamed hdepth hnest, ?_⟩
  rw [Expr.simplify_eq_simplifyPass, Expr.simplifyPass_inProducts, Expr.simplifyPass_difference hab]

/-- With 63 groups around it, a difference fits, but the negative coefficient that takes its place does not. -/
theorem canonicalize_not_stable :
    canonicalize (Expr.inGroups 63 "1 * x - 2 * x") = .ok (Expr.inGroups 63 "-1 * x") ∧
      canonicalize (Expr.inGroups 63 "-1 * x") ≠ .ok (Expr.inGroups 63 "-1 * x") := by
  have hfinite : ((1 : Binary64) - .ofNat 2).isFinite := by decide +kernel
  have hsource : (Expr.inProducts 63 (.difference 1 (.ofNat 2))).print = Expr.inGroups 63 "1 * x - 2 * x" := by
    have hbody : (Expr.difference 1 (.ofNat 2)).print = "1 * x - 2 * x" := by decide +kernel
    rw [Expr.print_inProducts (Expr.precedence_difference_le _ _), hbody]
  have htarget : (Expr.inProducts 63 (.scaled (1 - .ofNat 2))).print = Expr.inGroups 63 "-1 * x" := by
    have hbody : (Expr.scaled (1 - .ofNat 2)).print = "-1 * x" := by decide +kernel
    rw [Expr.print_inProducts (Expr.precedence_scaled_le _), hbody]
  constructor
  · rw [← hsource, ← htarget]
    exact canonicalize_difference (by decide +kernel) (by decide +kernel) hfinite (by decide +kernel)
  · intro h
    rw [← htarget, canonicalize_scaled hfinite (by decide)] at h
    exact absurd h.2 (by decide +kernel)

end MetricFormula
