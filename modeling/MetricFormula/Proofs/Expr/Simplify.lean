import MetricFormula.Expr.Simplify
import MetricFormula.Proofs.Expr.Equality

/-! What simplification keeps of a tree. -/

namespace MetricFormula.Expr

theorem finite_simplifyDifference {l r : Expr} (hl : l.Finite) (hr : r.Finite) : (simplifyDifference l r).Finite := by
  unfold simplifyDifference
  split
  · split
    · rename_i hmerge
      exact ⟨hmerge.2, trivial⟩
    · exact ⟨hl, hr⟩
  · exact ⟨hl, hr⟩

theorem finite_simplifyBinary (op : Operator) {l r : Expr} (hl : l.Finite) (hr : r.Finite) :
    (simplifyBinary op l r).Finite := by
  unfold simplifyBinary
  split
  · split
    · exact hl
    · split
      · exact hr
      · exact ⟨hl, hr⟩
  · split
    · exact hl
    · exact finite_simplifyDifference hl hr
  · split
    · exact hl
    · split
      · exact hr
      · exact ⟨hl, hr⟩
  · exact ⟨hl, hr⟩

theorem finite_simplifyConditional {v t o : Expr} (hv : v.Finite) (ht : t.Finite) (ho : o.Finite) :
    (simplifyConditional v t o).Finite := by
  unfold simplifyConditional
  split
  · split
    · exact hv
    · exact ⟨hv, ht, ho⟩
  · exact ⟨hv, ht, ho⟩

mutual

theorem finite_simplifyPass (t : Expr) (h : t.Finite) : t.simplifyPass.Finite := by
  match t with
  | .literal x => exact h
  | .event e => exact h
  | .binary op l r => exact finite_simplifyBinary op (finite_simplifyPass l h.1) (finite_simplifyPass r h.2)
  | .call f as => exact finiteList_simplifyPassList as h
  | .conditional v t o =>
      exact finite_simplifyConditional (finite_simplifyPass v h.1) (finite_simplifyPass t h.2.1)
        (finite_simplifyPass o h.2.2)

theorem finiteList_simplifyPassList (as : List Expr) (h : FiniteList as) : FiniteList (simplifyPassList as) := by
  match as with
  | [] => trivial
  | a :: as => exact ⟨finite_simplifyPass a h.1, finiteList_simplifyPassList as h.2⟩

end

theorem finite_settle (fuel : Nat) {t : Expr} (h : t.Finite) : (settle fuel t).Finite := by
  induction fuel generalizing t with
  | zero => exact h
  | succ fuel ih =>
      rw [settle]
      split
      · exact h
      · exact ih (finite_simplifyPass t h)

theorem finite_simplify {t : Expr} (h : t.Finite) : t.simplify.Finite := finite_settle _ (finite_simplifyPass t h)

end MetricFormula.Expr
