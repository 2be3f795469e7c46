import MetricFormula.Expr.RetireLatency
import MetricFormula.Proofs.Expr.WellFormed

/-! What filling the placeholders keeps of a tree. -/

namespace MetricFormula

theorem Event.WellFormed.sampled {e : Event} (h : e.WellFormed) : e.sampled.WellFormed := ⟨h.modifiers, h.distinct⟩

namespace Expr

/-! ## One placeholder -/

theorem fillPlaceholder_cases (e : Event) (r : Expr) :
    fillPlaceholder e r = r ∨
      r = .event placeholder ∧ fillPlaceholder e r = .event e.sampled ∨
      ∃ f as, (f = .min ∨ f = .max) ∧ r = .call f (.event placeholder :: as) ∧
        fillPlaceholder e r = .call f (.event e.sampled :: as) := by
  unfold fillPlaceholder
  split
  · split
    · rename_i hp
      exact .inr (.inl ⟨congrArg event hp, rfl⟩)
    · exact .inl rfl
  · split
    · rename_i f p as hp
      exact .inr (.inr ⟨f, as, hp.2, by rw [hp.1], rfl⟩)
    · exact .inl rfl
  · exact .inl rfl

theorem expandProduct_cases (op : Operator) (l r : Expr) :
    expandProduct op l r = .binary op l r ∨
      ∃ e, op = .mul ∧ l = .event e ∧ expandProduct op l r = .binary .mul (.event e) (fillPlaceholder e r) := by
  unfold expandProduct
  split
  · rename_i e
    exact .inr ⟨e, rfl, rfl, rfl⟩
  · exact .inl rfl

theorem wellFormed_fillPlaceholder {e : Event} {r : Expr} (he : e.WellFormed) (hr : r.WellFormed) :
    (fillPlaceholder e r).WellFormed := by
  rcases fillPlaceholder_cases e r with h | ⟨-, h⟩ | ⟨f, as, hf, rfl, h⟩
  · rwa [h]
  · rw [h]
    exact he.sampled
  · rw [h]
    obtain ⟨hlen, -, has⟩ := hr
    refine ⟨hlen, fun htakes => ?_, he.sampled, has.2⟩
    -- Neither of the two functions takes events.
    rcases hf with rfl | rfl <;> cases htakes

theorem wellFormed_expandProduct {op : Operator} {l r : Expr} (hl : l.WellFormed) (hr : r.WellFormed) :
    (expandProduct op l r).WellFormed := by
  rcases expandProduct_cases op l r with h | ⟨e, -, rfl, h⟩
  · rw [h]
    exact ⟨hl, hr⟩
  · rw [h]
    exact ⟨hl, wellFormed_fillPlaceholder hl hr⟩

theorem depth_fillPlaceholder (e : Event) (r : Expr) : (fillPlaceholder e r).depth = r.depth := by
  rcases fillPlaceholder_cases e r with h | ⟨rfl, h⟩ | ⟨f, as, -, rfl, h⟩
  · rw [h]
  · rw [h]
    rfl
  · rw [h]
    rfl

theorem depth_expandProduct (op : Operator) (l r : Expr) : (expandProduct op l r).depth = (binary op l r).depth := by
  rcases expandProduct_cases op l r with h | ⟨e, -, rfl, h⟩
  · rw [h]
  · simp only [h, depth, depth_fillPlaceholder]

/-! ## All placeholders -/

theorem expandPlaceholdersList_eq_map (as : List Expr) : expandPlaceholdersList as = as.map expandPlaceholders := by
  induction as with
  | nil => rfl
  | cons a as ih => rw [expandPlaceholdersList, List.map_cons, ih]

mutual

theorem wellFormed_expandPlaceholders (t : Expr) (h : t.WellFormed) : t.expandPlaceholders.WellFormed := by
  match t with
  | .literal x => exact h
  | .event e => exact h
  | .binary op l r =>
      exact wellFormed_expandProduct (wellFormed_expandPlaceholders l h.1) (wellFormed_expandPlaceholders r h.2)
  | .call f as =>
      have has := wellFormedList_expandPlaceholdersList as h.2.2
      rw [expandPlaceholdersList_eq_map] at has
      rw [expandPlaceholders, expandPlaceholdersList_eq_map]
      exact h.call_map (fun e => ⟨e, rfl⟩) has
  | .conditional v t o =>
      exact ⟨wellFormed_expandPlaceholders v h.1, wellFormed_expandPlaceholders t h.2.1,
        wellFormed_expandPlaceholders o h.2.2⟩

theorem wellFormedList_expandPlaceholdersList (as : List Expr) (h : WellFormedList as) :
    WellFormedList (expandPlaceholdersList as) := by
  match as with
  | [] => trivial
  | a :: as => exact ⟨wellFormed_expandPlaceholders a h.1, wellFormedList_expandPlaceholdersList as h.2⟩

end

mutual

theorem depth_expandPlaceholders (t : Expr) : t.expandPlaceholders.depth = t.depth := by
  match t with
  | .literal x => rfl
  | .event e => rfl
  | .binary op l r =>
      rw [expandPlaceholders, depth_expandProduct, depth, depth, depth_expandPlaceholders l,
        depth_expandPlaceholders r]
  | .call f as => rw [expandPlaceholders, depth, depth, depthList_expandPlaceholdersList as]
  | .conditional v t o =>
      rw [expandPlaceholders, depth, depth, depth_expandPlaceholders v, depth_expandPlaceholders t,
        depth_expandPlaceholders o]

theorem depthList_expandPlaceholdersList (as : List Expr) :
    depthList (expandPlaceholdersList as) = depthList as := by
  match as with
  | [] => rfl
  | a :: as =>
      rw [expandPlaceholdersList, depthList, depthList, depth_expandPlaceholders a,
        depthList_expandPlaceholdersList as]

end

end Expr

end MetricFormula
