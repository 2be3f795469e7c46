import Mathlib.Data.List.Nodup
import MetricFormula.Proofs.FormulaSet.Mentions

/-!
# What references are put in for

The definition of a formula comes from its simplified tree by putting references to other formulas of the set in the
place of their trees. The candidates are those whose trees occur in the formula before its turn.
-/

namespace MetricFormula.FormulaSet

variable {s : FormulaSet} {n : String} {t : Expr}

/-- `m` is another formula of the set than `n`, and its tree `u`, no number, occurs in the tree `t` of `n`. -/
structure Candidate (s : FormulaSet) (n : String) (t : Expr) (m : String) (u : Expr) : Prop where
  definition : s.simplified.get? m = some u
  ne : m ≠ n
  not_constant : ¬ u.isConstant
  occurs : t.contains u

theorem not_mem_names_of_split {before after : List (String × Expr)}
    (h : s.simplified.entries = before ++ (n, t) :: after) : n ∉ (before ++ after).map Prod.fst := by
  have hnodup := s.simplified.nodup
  rw [h, List.map_append, List.map_cons, List.nodup_middle, List.nodup_cons, ← List.map_append] at hnodup
  exact hnodup.1

theorem get?_of_split {before after : List (String × Expr)} (h : s.simplified.entries = before ++ (n, t) :: after) :
    s.simplified.get? n = some t := Table.get?_eq_some.mpr (by simp [h])

theorem candidate_of_mem {before after : List (String × Expr)} (h : s.simplified.entries = before ++ (n, t) :: after)
    {c : String × Expr} (hc : c ∈ candidates t before after) : Candidate s n t c.1 c.2 := by
  obtain ⟨hmem, hconstant, hoccurs⟩ := mem_candidates.mp hc
  have hother : c ∈ before ∨ c ∈ after := hmem.imp_right And.left
  refine ⟨Table.get?_eq_some.mpr ?_, ?_, hconstant, hoccurs⟩
  · rw [h, List.mem_append, List.mem_cons]
    exact hother.imp_right .inr
  · intro hname
    have hnames : c.1 ∈ (before ++ after).map Prod.fst := List.mem_map_of_mem (List.mem_append.mpr hother)
    exact not_mem_names_of_split h (hname ▸ hnames)

/-- One candidate after another: what every reference put in keeps of a tree is kept by all of them. -/
theorem foldl_substitute_induction {Q : Expr → Prop} {cs : List (String × Expr)}
    (hstep : ∀ c ∈ cs, ∀ tree, tree.contains c.2 → Q tree → Q (tree.replace c.2 (.ref c.1)))
    {state : Expr × ReferenceGraph} (h : Q state.1) : Q (cs.foldl (substitute n) state).1 := by
  induction cs generalizing state with
  | nil => exact h
  | cons c cs ih =>
      obtain ⟨hc, hcs⟩ := List.forall_mem_cons.mp hstep
      apply ih hcs
      unfold substitute
      split
      · rename_i hcond
        exact hc _ (Bool.and_eq_true_iff.mp hcond).1 h
      · exact h

/-- What every reference to a candidate keeps of a tree holds of the new tree of `n` if it holds of the simplified
one. -/
theorem crossReference_induction {Q : Expr → Prop}
    (hstep : ∀ m u, Candidate s n t m u → ∀ tree, tree.contains u → Q tree → Q (tree.replace u (.ref m)))
    {d : Expr} (ht : s.simplified.get? n = some t) (hd : (n, d) ∈ s.crossReference) (h : Q t) : Q d := by
  obtain ⟨before, after, hsplit⟩ := List.append_of_mem (Table.get?_eq_some.mp ht)
  obtain ⟨g, hg⟩ := get?_finals_eq_afterTurn hsplit
  cases (get?_finals_of_mem hd).symm.trans hg
  split
  · exact foldl_substitute_induction (fun c hc => hstep c.1 c.2 (candidate_of_mem hsplit hc)) h
  · exact h

/-- A new tree replaces the simplified tree of its formula. -/
theorem exists_simplified_of_mem {d : Expr} (hd : (n, d) ∈ s.crossReference) : ∃ t, s.simplified.get? n = some t :=
  exists_simplified (get?_finals_of_mem hd)

end MetricFormula.FormulaSet
