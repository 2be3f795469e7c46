import Mathlib.Data.List.Perm.Subperm
import MetricFormula.Proofs.Distinct
import MetricFormula.Proofs.FormulaSet.Paths

/-!
# The search with a list of visited names

A search looks at the names of a list one after another. A name that it did not visit before is visited, and the names
that follow it are added to the list. The edges of visited names are of no more use, so whatever the order in which
names are added, the answer is the one that is found by taking these edges away.
-/

namespace MetricFormula.ReferenceGraph

open Relation (TransGen)

/-- A search under way. -/
structure Search where
  visited : List String
  /-- The names to look at, the next one first. -/
  pending : List String

namespace Search

def start (n : String) : Search := ⟨[], [n]⟩

/-- One turn of a search: the next name is not the goal. It is dropped if it was visited before, and makes room for the
names that follow it, each of them once, if it was not. -/
inductive Turn (edges : List (String × String)) (goal : String) : Search → Search → Prop where
  | again {visited n pending} : n ≠ goal → n ∈ visited → Turn edges goal ⟨visited, n :: pending⟩ ⟨visited, pending⟩
  | visit {visited n targets pending} : n ≠ goal → n ∉ visited → targets.Nodup → (∀ m, m ∈ targets ↔ (n, m) ∈ edges) →
      Turn edges goal ⟨visited, n :: pending⟩ ⟨n :: visited, targets ++ pending⟩

/-- A run of some number of turns. -/
inductive Run (edges : List (String × String)) (goal : String) : Nat → Search → Search → Prop where
  | done {x} : Run edges goal 0 x x
  | turn {k x y z} : Run edges goal k x y → Turn edges goal y z → Run edges goal (k + 1) x z

/-- The end of a search, with its answer. -/
inductive Ends (goal : String) : Search → Bool → Prop where
  | found {visited pending} : Ends goal ⟨visited, goal :: pending⟩ true
  | exhausted {visited} : Ends goal ⟨visited, []⟩ false

variable {edges : List (String × String)} {goal n : String} {visited stack stack' : List String} {x y : Search}
  {k : Nat} {answer : Bool}

theorem exists_turn_or_ends (edges : List (String × String)) (goal : String) (x : Search) :
    (∃ y, Turn edges goal x y) ∨ ∃ answer, Ends goal x answer := by
  obtain ⟨visited, _ | ⟨n, pending⟩⟩ := x
  · exact .inr ⟨false, .exhausted⟩
  · by_cases hgoal : n = goal
    · exact .inr ⟨true, hgoal ▸ .found⟩
    · by_cases hvisited : n ∈ visited
      · exact .inl ⟨_, .again hgoal hvisited⟩
      · have htargets (m : String) : m ∈ (successors edges n).eraseDups ↔ (n, m) ∈ edges := by
          rw [List.mem_eraseDups, mem_successors]
        exact .inl ⟨_, .visit hgoal hvisited (nodup_eraseDups _) htargets⟩

/-! ## The edges that are left -/

/-- The edges that leave names not visited yet. -/
def unvisited (edges : List (String × String)) (visited : List String) : List (String × String) :=
  edges.filter fun e => e.1 ∉ visited

theorem leavingOthers_unvisited (edges : List (String × String)) (visited : List String) (n : String) :
    leavingOthers (unvisited edges visited) n = unvisited edges (n :: visited) := by
  rw [leavingOthers, unvisited, unvisited, List.filter_filter]
  refine List.filter_congr fun e _ => ?_
  rw [Bool.eq_iff_iff]
  simp

theorem unvisited_cons_of_mem (h : n ∈ visited) : unvisited edges (n :: visited) = unvisited edges visited := by
  refine List.filter_congr fun e _ => ?_
  have hmem : e.1 ∈ n :: visited ↔ e.1 ∈ visited := List.mem_cons.trans (or_iff_right_of_imp fun heq => heq ▸ h)
  simp only [hmem]

theorem successors_unvisited_of_mem (h : n ∈ visited) : successors (unvisited edges visited) n = [] := by
  rw [List.eq_nil_iff_forall_not_mem]
  intro m hm
  have hleft := (List.mem_filter.mp (mem_successors.mp hm)).2
  exact of_decide_eq_true hleft h

theorem mem_successors_unvisited (h : n ∉ visited) {m : String} :
    m ∈ successors (unvisited edges visited) n ↔ (n, m) ∈ edges := by
  rw [mem_successors, unvisited, List.mem_filter]
  exact and_iff_left (decide_eq_true h)

/-! ## One turn -/

/-- The names to look at, and the edges by which more of them may be added. -/
def size (edges : List (String × String)) (x : Search) : Nat := (unvisited edges x.visited).length + x.pending.length

theorem Turn.size_lt (h : Turn edges goal x y) : y.size edges < x.size edges := by
  cases h with
  | again => exact Nat.lt_succ_self _
  | @visit visited n targets pending _ hvisited hnodup htargets =>
      have hsubset : targets ⊆ successors (unvisited edges visited) n := fun m hm =>
        (mem_successors_unvisited hvisited).mpr ((htargets m).mp hm)
      have hle := hnodup.length_le_of_subset hsubset
      have hsplit := length_successors_add (unvisited edges visited) n
      rw [leavingOthers_unvisited] at hsplit
      simp only [size, List.length_append, List.length_cons]
      omega

/-- The search finds the same whatever the order of the names on the stack. -/
theorem search_congr (h : ∀ m, m ∈ stack ↔ m ∈ stack') : search goal edges stack = search goal edges stack' := by
  rw [Bool.eq_iff_iff, search_iff, search_iff]
  simp only [h]

theorem search_cons_of_ne (h : n ≠ goal) :
    search goal edges (n :: stack) = search goal (leavingOthers edges n) (successors edges n ++ stack) := by
  rw [search, beq_eq_false_iff_ne.mpr h, Bool.false_or]

/-- A turn leaves the answer as it is. -/
theorem Turn.search_eq (h : Turn edges goal x y) :
    search goal (unvisited edges x.visited) x.pending = search goal (unvisited edges y.visited) y.pending := by
  cases h with
  | again hgoal hvisited =>
      rw [search_cons_of_ne hgoal, leavingOthers_unvisited, unvisited_cons_of_mem hvisited,
        successors_unvisited_of_mem hvisited, List.nil_append]
  | visit hgoal hvisited _ htargets =>
      rw [search_cons_of_ne hgoal, leavingOthers_unvisited]
      refine search_congr fun m => ?_
      rw [List.mem_append, List.mem_append, mem_successors_unvisited hvisited, htargets]

theorem Ends.eq_search (h : Ends goal x answer) : answer = search goal edges x.pending := by
  cases h with
  | found => rw [search, beq_self_eq_true, Bool.true_or]
  | exhausted => rw [search]

/-! ## Whole runs -/

theorem Run.size_le (h : Run edges goal k x y) : k + y.size edges ≤ x.size edges := by
  induction h with
  | done => exact Nat.le_of_eq (Nat.zero_add _)
  | turn _ hturn ih =>
      have hlt := hturn.size_lt
      omega

theorem Run.search_eq (h : Run edges goal k x y) :
    search goal (unvisited edges x.visited) x.pending = search goal (unvisited edges y.visited) y.pending := by
  induction h with
  | done => rfl
  | turn _ hturn ih => exact ih.trans hturn.search_eq

theorem unvisited_nil (edges : List (String × String)) : unvisited edges [] = edges := by simp [unvisited]

theorem size_start (edges : List (String × String)) (n : String) : (start n).size edges = edges.length + 1 := by
  simp [size, start, unvisited_nil]

end Search

open Search (Turn Run Ends)

/-- Whether a name can be reached from another is whether it is that name or there is a path to it. On every graph the
search takes no more turns than there are edges and one more, and when it cannot go on it has found just that. -/
theorem reaches_iff_path (g : ReferenceGraph) (n goal : String) :
    (g.reaches n goal ↔ n = goal ∨ TransGen (fun n m => (n, m) ∈ g.edges) n goal) ∧
      ∀ k x, Run g.edges goal k (.start n) x →
        k ≤ g.edges.length + 1 ∧ ((∃ y, Turn g.edges goal x y) ∨ Ends goal x (g.reaches n goal)) := by
  refine ⟨?_, fun k x hrun => ⟨?_, ?_⟩⟩
  · have hpath := search_iff goal g.edges [n]
    simp only [List.mem_singleton, exists_eq_left] at hpath
    rw [reaches, hpath, LeadsTo, Relation.reflTransGen_iff_eq_or_transGen, eq_comm]
  · have hle := hrun.size_le
    rw [Search.size_start] at hle
    omega
  · refine (Search.exists_turn_or_ends g.edges goal x).imp_right fun hexists => ?_
    obtain ⟨answer, hends⟩ := hexists
    have hanswer := hrun.search_eq
    rw [Search.start, Search.unvisited_nil, ← hends.eq_search] at hanswer
    rwa [reaches, hanswer]

/-- Two names that refer to each other, one of them to itself as well. -/
def mutualReferences : ReferenceGraph := ⟨[("a", "b"), ("b", "a"), ("b", "b")]⟩

/-- A search that takes all the turns it may. -/
theorem reaches_iff_path_mutual : ∃ x, Run mutualReferences.edges "c" 4 (.start "a") x ∧
    Ends "c" x (mutualReferences.reaches "a" "c") ∧ mutualReferences.reaches "a" "c" = false ∧
    mutualReferences.reaches "a" "b" := by
  have hfirst : Turn mutualReferences.edges "c" (.start "a") ⟨["a"], ["b"] ++ []⟩ :=
    .visit (by decide) (by decide) (by decide) (by simp [mutualReferences])
  have hsecond : Turn mutualReferences.edges "c" ⟨["a"], ["b"]⟩ ⟨["b", "a"], ["a", "b"] ++ []⟩ :=
    .visit (by decide) (by decide) (by decide) (by simp [mutualReferences])
  have hrun : Run mutualReferences.edges "c" 4 (.start "a") ⟨["b", "a"], []⟩ :=
    .turn (.turn (.turn (.turn .done hfirst) hsecond) (.again (by decide) (by decide))) (.again (by decide) (by decide))
  obtain ⟨-, ⟨y, hturn⟩ | hends⟩ := (reaches_iff_path mutualReferences "a" "c").2 4 _ hrun
  · cases hturn
  · refine ⟨_, hrun, hends, ?_, (reaches_iff_path mutualReferences "a" "b").1.mpr (.inr (.single List.mem_cons_self))⟩
    generalize mutualReferences.reaches "a" "c" = answer at hends
    cases hends
    rfl

end MetricFormula.ReferenceGraph
