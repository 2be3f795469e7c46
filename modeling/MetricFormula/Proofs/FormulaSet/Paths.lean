import Mathlib.Logic.Relation
import MetricFormula.FormulaSet.ReferenceGraph

/-! Paths in reference graphs, and the search for them. -/

namespace MetricFormula.ReferenceGraph

open Relation (ReflTransGen)

variable {edges : List (String × String)} {n m goal : String}

/-- The edges lead from one name to another, in no or more steps. -/
def LeadsTo (edges : List (String × String)) : String → String → Prop := ReflTransGen fun n m => (n, m) ∈ edges

theorem LeadsTo.mono {edges' : List (String × String)} (h : LeadsTo edges n m) (hsub : edges ⊆ edges') :
    LeadsTo edges' n m :=
  ReflTransGen.mono (fun _ _ he => hsub he) _ _ h

/-- A path either avoids a new edge or goes up to it and on from it by the old edges. -/
theorem leadsTo_cons {a b : String} (h : LeadsTo ((a, b) :: edges) n m) :
    LeadsTo edges n m ∨ LeadsTo edges n a ∧ LeadsTo edges b m := by
  induction h with
  | refl => exact .inl .refl
  | tail _ he ih =>
      rcases List.mem_cons.mp he with heq | he
      · cases heq
        rcases ih with h | ⟨h, _⟩
        · exact .inr ⟨h, .refl⟩
        · exact .inr ⟨h, .refl⟩
      · rcases ih with h | ⟨h, h'⟩
        · exact .inl (h.tail he)
        · exact .inr ⟨h, h'.tail he⟩

/-! ## The search -/

theorem mem_successors : m ∈ successors edges n ↔ (n, m) ∈ edges := by
  simp [successors]

theorem mem_leavingOthers {e : String × String} : e ∈ leavingOthers edges n ↔ e ∈ edges ∧ e.1 ≠ n := by
  simp [leavingOthers]

/-- A path to somewhere else than `n` goes on without the edges of `n` from its start or from a successor of `n`. -/
theorem LeadsTo.leave {x : String} (h : LeadsTo edges x goal) (hne : n ≠ goal) :
    (x ≠ n ∧ LeadsTo (leavingOthers edges n) x goal) ∨
      ∃ y ∈ successors edges n, LeadsTo (leavingOthers edges n) y goal := by
  induction h using ReflTransGen.head_induction_on with
  | refl => exact .inl ⟨hne.symm, .refl⟩
  | head he _ ih =>
      rename_i x z _
      rcases ih with ⟨_, h⟩ | h
      · by_cases hx : x = n
        · subst hx
          exact .inr ⟨z, mem_successors.mpr he, h⟩
        · exact .inl ⟨hx, h.head (mem_leavingOthers.mpr ⟨he, hx⟩)⟩
      · exact .inr h

/-- The search finds the goal if there is a path to it from a name on the stack. -/
theorem search_iff (goal : String) (edges : List (String × String)) (stack : List String) :
    search goal edges stack ↔ ∃ n ∈ stack, LeadsTo edges n goal := by
  fun_induction search goal edges stack with
  | case1 edges => simp
  | case2 edges n stack ih =>
      rw [Bool.or_eq_true, beq_iff_eq, ih]
      constructor
      · rintro (rfl | ⟨y, hy, hpath⟩)
        · exact ⟨n, List.mem_cons_self, .refl⟩
        · have hpath := hpath.mono fun e he => (mem_leavingOthers.mp he).1
          rcases List.mem_append.mp hy with hy | hy
          · exact ⟨n, List.mem_cons_self, hpath.head (mem_successors.mp hy)⟩
          · exact ⟨y, List.mem_cons_of_mem _ hy, hpath⟩
      · rintro ⟨x, hx, hpath⟩
        by_cases hne : n = goal
        · exact .inl hne
        · refine .inr ?_
          rcases hpath.leave hne with ⟨hx', hpath⟩ | ⟨y, hy, hpath⟩
          · exact ⟨x, List.mem_append_right _ ((List.mem_cons.mp hx).resolve_left hx'), hpath⟩
          · exact ⟨y, List.mem_append_left _ hy, hpath⟩

theorem not_leadsTo_of_reaches {g : ReferenceGraph} (h : g.reaches n m = false) : ¬ LeadsTo g.edges n m := by
  intro hpath
  have hfound := (search_iff m g.edges [n]).mpr ⟨n, List.mem_singleton_self n, hpath⟩
  rw [reaches, hfound] at h
  cases h

end MetricFormula.ReferenceGraph
