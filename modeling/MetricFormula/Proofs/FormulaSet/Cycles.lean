import MetricFormula.Proofs.Expr.Replace
import MetricFormula.Proofs.Expr.WellFormed
import MetricFormula.Proofs.FormulaSet.Rewriting

/-!
# Cycles of references

An edge is added only where no path leads back, and no later edge can close one: a path that did would have to pass the
later edge, and so lead from its end to its start already.
-/

namespace MetricFormula

open Relation (ReflTransGen TransGen)
open ReferenceGraph (LeadsTo)

namespace ReferenceGraph

/-- The graph has the edges of `base`, and its other edges lie on no cycle. -/
structure Guarded (base g : ReferenceGraph) : Prop where
  base_subset : base.edges ⊆ g.edges
  no_return : ∀ n m, (n, m) ∈ g.edges → (n, m) ∉ base.edges → ¬ LeadsTo g.edges m n

theorem Guarded.refl (g : ReferenceGraph) : Guarded g g := ⟨fun _ h => h, fun _ _ h h' => absurd h h'⟩

theorem Guarded.addEdge {base g : ReferenceGraph} {source target : String} (h : Guarded base g)
    (hpath : ¬ LeadsTo g.edges source target) : Guarded base (g.addEdge target source) := by
  refine ⟨fun e he => List.mem_cons_of_mem _ (h.base_subset he), fun n m he hnew hreturn => ?_⟩
  rcases List.mem_cons.mp he with heq | he
  · cases heq
    rcases leadsTo_cons hreturn with hold | ⟨hold, -⟩
    · exact hpath hold
    · exact hpath hold
  -- A return through the new edge would join its end to its start by way of the old edge.
  · rcases leadsTo_cons hreturn with hold | ⟨hto, hfrom⟩
    · exact h.no_return n m he hnew hold
    · exact hpath ((hfrom.tail he).trans hto)

/-- A path that can be closed to a cycle has edges of `base` alone. -/
theorem Guarded.path_of_return {base g : ReferenceGraph} {n m : String} (h : Guarded base g)
    (hpath : TransGen (fun n m => (n, m) ∈ g.edges) n m) (hreturn : LeadsTo g.edges m n) :
    TransGen (fun n m => (n, m) ∈ base.edges) n m := by
  induction hpath with
  | single he => exact .single (Classical.byContradiction fun hnew => h.no_return _ _ he hnew hreturn)
  | tail hpath he ih =>
      refine (ih (hreturn.head he)).tail (Classical.byContradiction fun hnew => ?_)
      exact h.no_return _ _ he hnew (hreturn.trans hpath.to_reflTransGen)

end ReferenceGraph

namespace FormulaSet

variable {s : FormulaSet} {n m target : String}

theorem mem_references {t : Expr} : m ∈ ReferenceGraph.references s t ↔ Event.bare m ∈ t.events ∧ s.contains m := by
  rw [ReferenceGraph.references, List.mem_map]
  constructor
  · rintro ⟨e, he, rfl⟩
    obtain ⟨hmem, hbare⟩ := List.mem_filter.mp he
    rw [Bool.and_eq_true] at hbare
    exact ⟨Event.isBare_iff.mp hbare.1 ▸ hmem, hbare.2⟩
  · rintro ⟨he, hm⟩
    exact ⟨Event.bare m, List.mem_filter.mpr ⟨he, hm⟩, rfl⟩

theorem mem_ofFormulas : (n, m) ∈ (ReferenceGraph.ofFormulas s).edges ↔ s.Refers n m := by
  simp only [ReferenceGraph.ofFormulas, List.mem_flatMap, List.mem_map, Prod.mk.injEq, Refers]
  constructor
  · rintro ⟨⟨_, t⟩, ht, _, hm, rfl, rfl⟩
    exact ⟨t, Table.get?_eq_some.mpr ht, mem_references.mp hm⟩
  · rintro ⟨t, ht, hm⟩
    exact ⟨(n, t), Table.get?_eq_some.mp ht, m, mem_references.mpr hm, rfl, rfl⟩

theorem not_refers_of_isEmpty (h : (ReferenceGraph.ofFormulas s).edges.isEmpty) (n m : String) : ¬ s.Refers n m := by
  rw [← mem_ofFormulas, List.isEmpty_iff.mp h]
  exact List.not_mem_nil

theorem acyclic_of_isEmpty (h : (ReferenceGraph.ofFormulas s).edges.isEmpty) (n : String) :
    ¬ TransGen s.Refers n n := by
  intro hcycle
  obtain ⟨m, hrefers, -⟩ := TransGen.head'_iff.mp hcycle
  exact not_refers_of_isEmpty h n m hrefers

instance (s : FormulaSet) (n m : String) : Decidable (s.Refers n m) := decidable_of_iff _ mem_ofFormulas

/-! ## The graph during the rewriting -/

theorem preserved_guarded (base : ReferenceGraph) : Preserved s (ReferenceGraph.Guarded base) := by
  intro target a b hstep hguarded
  obtain ⟨_, hpath⟩ := hstep
  exact hguarded.addEdge hpath

/-- The graph has an edge from `target` for every reference in a tree. -/
def Covers (s : FormulaSet) (target : String) (a : Expr × ReferenceGraph) : Prop :=
  ∀ m, Event.bare m ∈ a.1.events → s.contains m → (target, m) ∈ a.2.edges

theorem Substitutes.covers {a b : Expr × ReferenceGraph} (h : Substitutes s target a b) (ha : Covers s target a) :
    Covers s target b := by
  obtain ⟨_, _⟩ := h
  intro m hm hs
  rcases List.mem_append.mp (Expr.events_replace _ _ _ hm) with hm | hm
  · exact List.mem_cons_of_mem _ (ha m hm hs)
  · cases List.mem_singleton.mp hm
    exact List.mem_cons_self

theorem Run.covers {a b : Expr × ReferenceGraph} (h : Run s target a b) (ha : Covers s target a) :
    Covers s target b := by
  induction h with
  | refl => exact ha
  | tail _ hstep ih => exact hstep.covers ih

/-- The graph at the end of the rewriting has the references of all definitions. -/
theorem exists_guarded (s : FormulaSet) :
    ∃ g, ReferenceGraph.Guarded (.ofFormulas s.simplified) g ∧ ∀ n m, s.finals.Refers n m → (n, m) ∈ g.edges := by
  obtain ⟨g, hg, hall⟩ := finals_run (preserved_guarded _) (.refl (.ofFormulas s.simplified))
  refine ⟨g, hg, ?_⟩
  rintro n m ⟨f, hf, hm, hs⟩
  rw [contains_finals] at hs
  obtain ⟨t, ht⟩ := exists_simplified hf
  obtain ⟨g₁, result, g₂, hg₁, hrun, hg₂, hfinal⟩ := hall n t ht
  cases hf.symm.trans hfinal
  split at hm
  · have hstart : Covers s.simplified n (t, g₁) := fun m hm hs => hg₁ (mem_ofFormulas.mpr ⟨t, ht, hm, hs⟩)
    exact hg₂ (hrun.covers hstart m hm hs)
  · exact hg.base_subset (mem_ofFormulas.mpr ⟨t, ht, hm, hs⟩)

/-! ## No new cycles -/

/-- A reference that the rewriting adds lies on no cycle. -/
theorem no_return_of_new (hfinal : s.finals.Refers n m) (hnew : ¬ s.simplified.Refers n m) :
    ¬ ReflTransGen s.finals.Refers m n := by
  obtain ⟨g, hg, hall⟩ := exists_guarded s
  intro hreturn
  apply hg.no_return n m (hall n m hfinal) (fun h => hnew (mem_ofFormulas.mp h))
  exact ReflTransGen.mono hall _ _ hreturn

theorem path_of_return (h : TransGen s.finals.Refers n m) (hreturn : ReflTransGen s.finals.Refers m n) :
    TransGen s.simplified.Refers n m := by
  obtain ⟨g, hg, hall⟩ := exists_guarded s
  have hpath := hg.path_of_return (TransGen.mono hall _ _ h) (ReflTransGen.mono hall _ _ hreturn)
  exact TransGen.mono (fun _ _ => mem_ofFormulas.mp) _ _ hpath

/-- The rewriting introduces no cycle of references: a reference that is new lies on none, a set without cycles stays
without them, and no formula comes to refer to itself. -/
theorem finals_cycles (s : FormulaSet) :
    (∀ n m, s.finals.Refers n m → ¬ s.simplified.Refers n m → ¬ ReflTransGen s.finals.Refers m n) ∧
      ((∀ n, ¬ TransGen s.simplified.Refers n n) → ∀ n, ¬ TransGen s.finals.Refers n n) ∧
      ∀ n, s.finals.Refers n n → s.simplified.Refers n n := by
  refine ⟨fun n m => no_return_of_new, fun hacyclic n hcycle => ?_, fun n hself => ?_⟩
  · exact hacyclic n (path_of_return hcycle .refl)
  · exact Classical.byContradiction fun hnew => no_return_of_new hself hnew .refl

/-- A rate, and the same rate in percent. -/
def ratePercent : FormulaSet :=
  .ofList [("Rate", .binary .div (.ref "x") (.ref "y")),
    ("Percent", .binary .mul (.literal (.ofNat 100)) (.binary .div (.ref "x") (.ref "y")))]

theorem ratePercent_simplified : (ReferenceGraph.ofFormulas ratePercent.simplified).edges.isEmpty := by decide +kernel

theorem ratePercent_acyclic (n : String) : ¬ TransGen ratePercent.simplified.Refers n n :=
  acyclic_of_isEmpty ratePercent_simplified n

theorem finals_cycles_ratePercent :
    ratePercent.finals.Refers "Percent" "Rate" ∧ ¬ ReflTransGen ratePercent.finals.Refers "Rate" "Percent" ∧
      ∀ n, ¬ TransGen ratePercent.finals.Refers n n := by
  have hrefers : ratePercent.finals.Refers "Percent" "Rate" := by decide +kernel
  obtain ⟨hnew, hstays, -⟩ := finals_cycles ratePercent
  exact ⟨hrefers, hnew _ _ hrefers (not_refers_of_isEmpty ratePercent_simplified _ _), hstays ratePercent_acyclic⟩

end FormulaSet

end MetricFormula
