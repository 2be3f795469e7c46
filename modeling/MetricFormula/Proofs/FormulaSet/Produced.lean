import MetricFormula.Proofs.Expr.Preservation
import MetricFormula.Proofs.Expr.Replace
import MetricFormula.Proofs.Expr.RetireLatency
import MetricFormula.Proofs.FormulaSet.Cycles
import MetricFormula.Proofs.Grammar.Printable

/-!
# The trees that come about

Trees are read from text, simplified, have their placeholders filled and are expressed in terms of each other, in any
order and any number of times. They are all well formed and no taller than the trees that are read.
-/

namespace MetricFormula

/-- The tree comes about from the text of formulas. -/
inductive Produced : Expr → Prop where
  | read {text t} : parse text = .ok t → Produced t
  | simplified {t} : Produced t → Produced t.simplify
  | expanded {t} : Produced t → Produced t.expandPlaceholders
  | crossReferenced {s : FormulaSet} {n f} : (∀ m t, s.get? m = some t → Produced t) → (n, f) ∈ s.crossReference →
      Produced f

/-- A tree within the bounds of the parser. -/
structure Expr.Bounded (t : Expr) : Prop where
  wellFormed : t.WellFormed
  depth_le : t.depth ≤ maxDepth

namespace Expr.Bounded

theorem simplify {t : Expr} (h : t.Bounded) : t.simplify.Bounded :=
  ⟨wellFormed_simplify h.wellFormed, Nat.le_trans t.depth_simplify_le h.depth_le⟩

theorem expandPlaceholders {t : Expr} (h : t.Bounded) : t.expandPlaceholders.Bounded :=
  ⟨wellFormed_expandPlaceholders t h.wellFormed, t.depth_expandPlaceholders.symm ▸ h.depth_le⟩

theorem replace {t : Expr} (h : t.Bounded) (n : Expr) (m : String) : (t.replace n (.ref m)).Bounded :=
  ⟨wellFormed_replace t n m h.wellFormed, Nat.le_trans (depth_replace_le t n m) h.depth_le⟩

end Expr.Bounded

/-- References put into the trees of a set leave them within the bounds. -/
theorem FormulaSet.bounded_crossReference {s : FormulaSet} (hs : ∀ n t, s.get? n = some t → t.Bounded) {n : String}
    {f : Expr} (hf : (n, f) ∈ s.crossReference) : f.Bounded := by
  have hfinal := get?_finals_of_mem hf
  obtain ⟨t, ht⟩ := exists_simplified hfinal
  refine finals_of_simplified (fun tree _ t _ htree => htree.replace t _) ht hfinal ?_
  obtain ⟨e, he, rfl⟩ := get?_simplified.mp ht
  exact (hs n e he).simplify

/-- Whatever comes about is well formed, with finite literals, and no taller than what is read. -/
theorem Produced.bounded {t : Expr} (h : Produced t) : t.Bounded := by
  induction h with
  | read hparse =>
      obtain ⟨hwell, -, hdepth, -⟩ := wellFormed_of_parse hparse
      exact ⟨hwell, hdepth⟩
  | simplified _ ih => exact ih.simplify
  | expanded _ ih => exact ih.expandPlaceholders
  | crossReferenced _ hf ih => exact FormulaSet.bounded_crossReference ih hf

theorem FormulaSet.produced_ratePercent (n : String) (t : Expr) (ht : ratePercent.get? n = some t) : Produced t := by
  have hentries : ratePercent.entries = [("Rate", .binary .div (.ref "x") (.ref "y")),
    ("Percent", .binary .mul (.literal (.ofNat 100)) (.binary .div (.ref "x") (.ref "y")))] := rfl
  have hwell : (Expr.binary .div (.ref "x") (.ref "y")).WellFormed := ⟨.bare "x", .bare "y"⟩
  have hnamed : ∀ e ∈ [Event.bare "x", Event.bare "y"], e.name ≠ "" := by decide
  have hhundred : (Binary64.ofNat 100).isFinite := by decide +kernel
  have hmem := Table.get?_eq_some.mp ht
  rw [hentries, List.mem_cons, List.mem_singleton] at hmem
  rcases hmem with heq | heq
  · cases heq
    exact .read (Expr.parse_print_of_nesting hwell hnamed (by decide) (by decide))
  · cases heq
    exact .read (Expr.parse_print_of_nesting ⟨hhundred, hwell⟩ hnamed (by decide) (by decide +kernel))

theorem Produced.bounded_ratePercent :
    ∃ f, ("Percent", f) ∈ FormulaSet.ratePercent.crossReference ∧ f.expandPlaceholders.simplify.Bounded := by
  have hnew : (Entries.find? "Percent" FormulaSet.ratePercent.crossReference).isSome := by decide +kernel
  obtain ⟨f, hf⟩ := Option.isSome_iff_exists.mp hnew
  have hmem := Entries.mem_of_find? hf
  have hproduced := Produced.crossReferenced FormulaSet.produced_ratePercent hmem
  exact ⟨f, hmem, hproduced.expanded.simplified.bounded⟩

end MetricFormula
