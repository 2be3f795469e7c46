import MetricFormula.FormulaSet.CrossReference
import MetricFormula.Proofs.FormulaSet.Paths
import MetricFormula.Proofs.Table

/-!
# Runs of the rewriting

A run puts one reference after another into the tree of one formula. Whatever a single substitution preserves of the
reference graph holds throughout the rewriting of the whole set.
-/

namespace MetricFormula.FormulaSet

open Relation (ReflTransGen)
open ReferenceGraph (LeadsTo)

variable {s : FormulaSet} {target : String}

/-! ## Definitions -/

def simplified (s : FormulaSet) : FormulaSet := s.map Expr.simplify

theorem get?_simplified {n : String} {t : Expr} :
    s.simplified.get? n = some t ↔ ∃ e, s.get? n = some e ∧ e.simplify = t := by
  rw [simplified, Table.get?_map, Option.map_eq_some_iff]

/-- The definitions after the rewriting: the new trees, and the simplified ones where there is none. -/
def finals (s : FormulaSet) : FormulaSet := s.simplified.insertAll s.crossReference

/-- The formula of `n` refers to the formula of `m`. -/
def Refers (s : FormulaSet) (n m : String) : Prop :=
  ∃ t, s.get? n = some t ∧ Event.bare m ∈ t.events ∧ s.contains m

/-! ## Steps -/

/-- A whole formula within the tree of `target` becomes a reference, if no path leads from it to `target`. -/
inductive Substitutes (s : FormulaSet) (target : String) : Expr × ReferenceGraph → Expr × ReferenceGraph → Prop where
  | replace {source tree t g} : s.get? source = some t → ¬ LeadsTo g.edges source target →
      Substitutes s target (tree, g) (tree.replace t (.ref source), g.addEdge target source)

/-- Substitutions one after another. -/
abbrev Run (s : FormulaSet) (target : String) : Expr × ReferenceGraph → Expr × ReferenceGraph → Prop :=
  ReflTransGen (Substitutes s target)

theorem substitute_run {source : String × Expr} (h : source ∈ s.entries) (state : Expr × ReferenceGraph) :
    Run s target state (substitute target state source) := by
  unfold substitute
  split
  · rename_i hcond
    simp only [Bool.and_eq_true, Bool.not_eq_true'] at hcond
    exact .single (.replace (Table.get?_eq_some.mpr h) (ReferenceGraph.not_leadsTo_of_reaches hcond.2))
  · exact .refl

theorem foldl_substitute_run {cs : List (String × Expr)} (h : cs ⊆ s.entries) (state : Expr × ReferenceGraph) :
    Run s target state (cs.foldl (substitute target) state) := by
  induction cs generalizing state with
  | nil => exact .refl
  | cons c cs ih =>
      obtain ⟨hc, hcs⟩ := List.cons_subset.mp h
      exact (substitute_run hc state).trans (ih hcs _)

theorem mem_candidates {tree : Expr} {earlier later : List (String × Expr)} {c : String × Expr} :
    c ∈ candidates tree earlier later ↔
      (c ∈ earlier ∨ c ∈ later ∧ ¬ c.2 == tree) ∧ ¬ c.2.isConstant ∧ tree.contains c.2 := by
  rw [candidates, List.mem_mergeSort, List.mem_filter, List.mem_append, List.mem_filter]
  simp [bne]

theorem candidates_subset (tree : Expr) {earlier later : List (String × Expr)} (he : earlier ⊆ s.entries)
    (hl : later ⊆ s.entries) : candidates tree earlier later ⊆ s.entries := by
  intro c hc
  rcases (mem_candidates.mp hc).1 with hc | ⟨hc, -⟩
  · exact he hc
  · exact hl hc

theorem Run.tree {Q : Expr → Prop}
    (hQ : ∀ tree source t, s.get? source = some t → Q tree → Q (tree.replace t (.ref source)))
    {a b : Expr × ReferenceGraph} (h : Run s target a b) (ha : Q a.1) : Q b.1 := by
  induction h with
  | refl => exact ha
  | tail _ hstep ih =>
      obtain ⟨ht, _⟩ := hstep
      exact hQ _ _ _ ht ih

theorem Run.edges_subset {a b : Expr × ReferenceGraph} (h : Run s target a b) : a.2.edges ⊆ b.2.edges := by
  induction h with
  | refl => exact fun _ he => he
  | tail _ hstep ih =>
      obtain ⟨_, _⟩ := hstep
      exact fun e he => List.mem_cons_of_mem _ (ih he)

/-! ## The whole rewriting -/

/-- What substitutions preserve of the graph. -/
def Preserved (s : FormulaSet) (P : ReferenceGraph → Prop) : Prop :=
  ∀ ⦃target : String⦄ ⦃a b : Expr × ReferenceGraph⦄, Substitutes s target a b → P a.2 → P b.2

theorem Run.preserves {P : ReferenceGraph → Prop} (hP : Preserved s P) {a b : Expr × ReferenceGraph}
    (h : Run s target a b) (ha : P a.2) : P b.2 := by
  induction h with
  | refl => exact ha
  | tail _ hstep ih => exact hP hstep ih

theorem names_crossReferenceFrom (g : ReferenceGraph) (earlier later : List (String × Expr)) :
    List.Sublist ((crossReferenceFrom g earlier later).map Prod.fst) (later.map Prod.fst) := by
  induction later generalizing g earlier with
  | nil => exact .slnil
  | cons c later ih =>
      obtain ⟨target, tree⟩ := c
      rw [crossReferenceFrom]
      dsimp only
      split
      · exact (ih _ _).cons_cons target
      · exact (ih _ _).cons target

/-- The formula of `target`, rewritten between the graphs `g` and `g'`, has the new tree `new`, if any. -/
def RewrittenTo (s : FormulaSet) (g g' : ReferenceGraph) (target : String) (tree : Expr) (new : Option Expr) : Prop :=
  ∃ g₁ result g₂, g.edges ⊆ g₁.edges ∧ Run s target (tree, g₁) (result, g₂) ∧ g₂.edges ⊆ g'.edges ∧
    new = if result != tree then some result else none

theorem crossReferenceFrom_run {P : ReferenceGraph → Prop} (hP : Preserved s P) {earlier later : List (String × Expr)}
    (he : earlier ⊆ s.entries) (hl : later ⊆ s.entries) (hnodup : (later.map Prod.fst).Nodup) {g : ReferenceGraph}
    (hg : P g) :
    ∃ g', P g' ∧ g.edges ⊆ g'.edges ∧
      ∀ n t, (n, t) ∈ later → RewrittenTo s g g' n t (Entries.find? n (crossReferenceFrom g earlier later)) := by
  induction later generalizing earlier g with
  | nil => exact ⟨g, hg, fun _ h => h, nofun⟩
  | cons c later ih =>
      obtain ⟨target, tree⟩ := c
      obtain ⟨hc, hl⟩ := List.cons_subset.mp hl
      rw [List.map_cons, List.nodup_cons] at hnodup
      have hrun : Run s target (tree, g) ((candidates tree earlier later).foldl (substitute target) (tree, g)) :=
        foldl_substitute_run (candidates_subset tree he hl) _
      rw [crossReferenceFrom]
      generalize (candidates tree earlier later).foldl (substitute target) (tree, g) = state at hrun ⊢
      obtain ⟨result, g₁⟩ := state
      dsimp only
      have hg₁ : g.edges ⊆ g₁.edges := hrun.edges_subset
      have he' : earlier ++ [(target, tree)] ⊆ s.entries :=
        List.append_subset.mpr ⟨he, List.cons_subset.mpr ⟨hc, List.nil_subset _⟩⟩
      obtain ⟨g', hg', hsub, hrest⟩ := ih he' hl hnodup.2 (hrun.preserves hP hg)
      have hnames := names_crossReferenceFrom g₁ (earlier ++ [(target, tree)]) later
      generalize crossReferenceFrom g₁ (earlier ++ [(target, tree)]) later = rest at hnames hrest ⊢
      have hnone : Entries.find? target rest = none :=
        Entries.find?_eq_none.mpr fun h => hnodup.1 (hnames.subset h)
      refine ⟨g', hg', fun e h => hsub (hg₁ h), fun n t hn => ?_⟩
      rcases List.mem_cons.mp hn with heq | hn
      · cases heq
        refine ⟨g, result, g₁, fun _ h => h, hrun, hsub, ?_⟩
        split
        · simp [Entries.find?]
        · exact hnone
      · have hne : target ≠ n := by
          rintro rfl
          have hmem : (target, t).1 ∈ later.map Prod.fst := List.mem_map_of_mem hn
          exact hnodup.1 hmem
        obtain ⟨g₂, new, g₃, hg₂, hrun', hg₃, hnew⟩ := hrest n t hn
        refine ⟨g₂, new, g₃, fun e h => hg₂ (hg₁ h), hrun', hg₃, ?_⟩
        rw [← hnew]
        split
        · simp [Entries.find?, hne]
        · rfl

theorem crossReference_eq (s : FormulaSet) :
    s.crossReference = crossReferenceFrom (.ofFormulas s.simplified) [] s.simplified.entries := rfl

theorem crossReference_names (s : FormulaSet) :
    List.Sublist (s.crossReference.map Prod.fst) (s.simplified.entries.map Prod.fst) :=
  names_crossReferenceFrom _ _ _

theorem get?_finals (s : FormulaSet) (n : String) :
    s.finals.get? n = (Entries.find? n s.crossReference).or (s.simplified.get? n) :=
  Table.get?_insertAll _ (s.crossReference_names.nodup s.simplified.nodup) n

/-- The rewriting keeps the names of the set. -/
theorem names_finals (s : FormulaSet) : s.finals.names = s.simplified.names :=
  Table.names_insertAll _ s.crossReference_names.subset

theorem contains_finals (s : FormulaSet) (n : String) : s.finals.contains n = s.simplified.contains n := by
  rw [Bool.eq_iff_iff, Table.contains_iff_mem_names, Table.contains_iff_mem_names, names_finals]

theorem exists_finals {n : String} {t : Expr} (h : s.simplified.get? n = some t) : ∃ f, s.finals.get? n = some f := by
  rw [← Table.contains_iff, contains_finals, Table.contains_iff]
  exact ⟨t, h⟩

theorem exists_simplified {n : String} {f : Expr} (h : s.finals.get? n = some f) :
    ∃ t, s.simplified.get? n = some t := by
  rw [← Table.contains_iff, ← contains_finals, Table.contains_iff]
  exact ⟨f, h⟩

/-- Every formula gets its definition from a run of its own, and the graph at the end has the edges of all runs. -/
theorem finals_run {P : ReferenceGraph → Prop} (hP : Preserved s.simplified P)
    (h : P (.ofFormulas s.simplified)) :
    ∃ g', P g' ∧ ∀ n t, s.simplified.get? n = some t →
      ∃ g₁ result g₂, (ReferenceGraph.ofFormulas s.simplified).edges ⊆ g₁.edges ∧
        Run s.simplified n (t, g₁) (result, g₂) ∧ g₂.edges ⊆ g'.edges ∧
        s.finals.get? n = some (if result != t then result else t) := by
  obtain ⟨g', hg', -, hall⟩ :=
    crossReferenceFrom_run hP (List.nil_subset _) (fun _ h => h) s.simplified.nodup h
  refine ⟨g', hg', fun n t ht => ?_⟩
  obtain ⟨g₁, result, g₂, hg₁, hrun, hg₂, hnew⟩ := hall n t (Table.get?_eq_some.mp ht)
  refine ⟨g₁, result, g₂, hg₁, hrun, hg₂, ?_⟩
  rw [get?_finals, crossReference_eq, hnew, ht]
  split <;> rfl

/-- A new tree is the final definition of its name. -/
theorem get?_finals_of_mem {n : String} {f : Expr} (h : (n, f) ∈ s.crossReference) : s.finals.get? n = some f := by
  rw [get?_finals, Entries.find?_of_mem (s.crossReference_names.nodup s.simplified.nodup) h]
  rfl

theorem get?_finals_of_not_mem {n : String} (h : n ∉ s.crossReference.map Prod.fst) :
    s.finals.get? n = s.simplified.get? n := by
  rw [get?_finals, Entries.find?_eq_none.mpr h]
  rfl

/-- What every reference put into a tree keeps of it holds of the final definition if it holds of the simplified one. -/
theorem finals_of_simplified {Q : Expr → Prop}
    (hQ : ∀ tree source t, s.simplified.get? source = some t → Q tree → Q (tree.replace t (.ref source)))
    {n : String} {t f : Expr} (ht : s.simplified.get? n = some t) (hf : s.finals.get? n = some f) (h : Q t) : Q f := by
  have hP : Preserved s.simplified fun _ => True := fun _ _ _ _ _ => trivial
  obtain ⟨_, -, hall⟩ := finals_run hP trivial
  obtain ⟨_, result, _, -, hrun, -, hfinal⟩ := hall n t ht
  cases hf.symm.trans hfinal
  split
  · exact hrun.tree hQ h
  · exact h

end MetricFormula.FormulaSet
