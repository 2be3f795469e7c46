import MetricFormula.Proofs.Expr.NormalForm
import MetricFormula.Proofs.Expr.WellFormed

/-!
# What simplification keeps

A step leaves events out, adds no height, and keeps a well-formed tree well formed. Simplification is made of steps.
-/

namespace MetricFormula.Expr

open Relation (ReflTransGen)

/-! ## One step -/

theorem Rule.wellFormed {e e' : Expr} (h : Rule e e') (he : e.WellFormed) : e'.WellFormed := by
  cases h with
  | addZero _ => exact he.1
  | zeroAdd _ => exact he.2
  | subZero _ => exact he.1
  | merge _ hfinite => exact ⟨hfinite, he.1.2⟩
  | collapse _ _ _ => exact he.1
  | andOne _ => exact he.1
  | oneAnd _ => exact he.2

theorem StepList.length_eq {as bs : List Expr} (h : StepList as bs) : bs.length = as.length := by
  induction as generalizing bs with
  | nil => cases h
  | cons a as ih =>
      cases h with
      | head _ => rfl
      | tail h => rw [List.length_cons, List.length_cons, ih h]

/-- The arguments of a function that takes events stay as they are. -/
theorem StepList.not_events {as bs : List Expr} (h : StepList as bs) : ¬ ∀ a ∈ as, ∃ e, a = .event e := by
  intro hevents
  match h with
  | .head h =>
      obtain ⟨⟨e, rfl⟩, -⟩ := List.forall_mem_cons.mp hevents
      exact normal_event e _ h
  | .tail h => exact h.not_events (List.forall_mem_cons.mp hevents).2

mutual

theorem Step.wellFormed {e e' : Expr} (h : Step e e') (he : e.WellFormed) : e'.WellFormed := by
  match h with
  | .rule h => exact h.wellFormed he
  | .left h => exact ⟨h.wellFormed he.1, he.2⟩
  | .right h => exact ⟨he.1, h.wellFormed he.2⟩
  | .argument h =>
      obtain ⟨hlen, hevents, has⟩ := he
      exact ⟨h.length_eq.trans hlen, fun hf => absurd (hevents hf) h.not_events, h.wellFormedList has⟩
  | .value h => exact ⟨h.wellFormed he.1, he.2⟩
  | .test h => exact ⟨he.1, h.wellFormed he.2.1, he.2.2⟩
  | .otherwise h => exact ⟨he.1, he.2.1, h.wellFormed he.2.2⟩

theorem StepList.wellFormedList {as bs : List Expr} (h : StepList as bs) (has : WellFormedList as) :
    WellFormedList bs := by
  match h with
  | .head h => exact ⟨h.wellFormed has.1, has.2⟩
  | .tail h => exact ⟨has.1, h.wellFormedList has.2⟩

end

theorem Rule.events_sublist {e e' : Expr} (h : Rule e e') : e'.events.Sublist e.events := by
  cases h with
  | addZero _ => exact List.sublist_append_left _ _
  | zeroAdd _ => exact List.sublist_append_right _ _
  | subZero _ => exact List.sublist_append_left _ _
  | merge _ _ => exact List.sublist_append_left _ _
  | collapse _ _ _ => exact (List.sublist_append_left _ _).trans (List.sublist_append_left _ _)
  | andOne _ => exact List.sublist_append_left _ _
  | oneAnd _ => exact List.sublist_append_right _ _

mutual

theorem Step.events_sublist {e e' : Expr} (h : Step e e') : e'.events.Sublist e.events := by
  match h with
  | .rule h => exact h.events_sublist
  | .left h => exact h.events_sublist.append_right _
  | .right h => exact h.events_sublist.append_left _
  | .argument h => exact h.eventsList_sublist
  | .value h => exact (h.events_sublist.append_right _).append_right _
  | .test h => exact (h.events_sublist.append_left _).append_right _
  | .otherwise h => exact h.events_sublist.append_left _

theorem StepList.eventsList_sublist {as bs : List Expr} (h : StepList as bs) :
    (eventsList bs).Sublist (eventsList as) := by
  match h with
  | .head h => exact h.events_sublist.append_right _
  | .tail h => exact h.eventsList_sublist.append_left _

end

theorem append_subset_append {as as' bs bs' : List Event} (h : as ⊆ as') (h' : bs ⊆ bs') : as ++ bs ⊆ as' ++ bs' :=
  List.append_subset.mpr ⟨List.subset_append_of_subset_left _ h, List.subset_append_of_subset_right _ h'⟩

/-- The events that a rule drops are left in another place. -/
theorem Rule.events_subset {e e' : Expr} (h : Rule e e') : e.events ⊆ e'.events := by
  cases h with
  | addZero _ => simp [events]
  | zeroAdd _ => simp [events]
  | subZero _ => simp [events]
  | merge heq _ => simp [events, eq_of_beq heq]
  | collapse _ _ ht => simp [events, events_of_beq ht]
  | andOne _ => simp [events]
  | oneAnd _ => simp [events]

mutual

theorem Step.events_subset {e e' : Expr} (h : Step e e') : e.events ⊆ e'.events := by
  match h with
  | .rule h => exact h.events_subset
  | .left h => exact append_subset_append h.events_subset (List.Subset.refl _)
  | .right h => exact append_subset_append (List.Subset.refl _) h.events_subset
  | .argument h => exact h.eventsList_subset
  | .value h =>
      exact append_subset_append (append_subset_append h.events_subset (List.Subset.refl _)) (List.Subset.refl _)
  | .test h =>
      exact append_subset_append (append_subset_append (List.Subset.refl _) h.events_subset) (List.Subset.refl _)
  | .otherwise h => exact append_subset_append (List.Subset.refl _) h.events_subset

theorem StepList.eventsList_subset {as bs : List Expr} (h : StepList as bs) : eventsList as ⊆ eventsList bs := by
  match h with
  | .head h => exact append_subset_append h.events_subset (List.Subset.refl _)
  | .tail h => exact append_subset_append (List.Subset.refl _) h.eventsList_subset

end

theorem Rule.depth_le {e e' : Expr} (h : Rule e e') : e'.depth ≤ e.depth := by
  cases h <;> simp only [depth] <;> omega

mutual

theorem Step.depth_le {e e' : Expr} (h : Step e e') : e'.depth ≤ e.depth := by
  match h with
  | .rule h => exact h.depth_le
  | .left h => have := h.depth_le; simp only [depth]; omega
  | .right h => have := h.depth_le; simp only [depth]; omega
  | .argument h => have := h.depthList_le; simp only [depth]; omega
  | .value h => have := h.depth_le; simp only [depth]; omega
  | .test h => have := h.depth_le; simp only [depth]; omega
  | .otherwise h => have := h.depth_le; simp only [depth]; omega

theorem StepList.depthList_le {as bs : List Expr} (h : StepList as bs) : depthList bs ≤ depthList as := by
  match h with
  | .head h => have := h.depth_le; simp only [depthList]; omega
  | .tail h => have := h.depthList_le; simp only [depthList]; omega

end

/-! ## Any number of steps -/

theorem wellFormed_of_steps {e e' : Expr} (h : ReflTransGen Step e e') (he : e.WellFormed) : e'.WellFormed := by
  induction h with
  | refl => exact he
  | tail _ hstep ih => exact hstep.wellFormed ih

theorem events_sublist_of_steps {e e' : Expr} (h : ReflTransGen Step e e') : e'.events.Sublist e.events := by
  induction h with
  | refl => exact List.Sublist.refl _
  | tail _ hstep ih => exact hstep.events_sublist.trans ih

theorem events_subset_of_steps {e e' : Expr} (h : ReflTransGen Step e e') : e.events ⊆ e'.events := by
  induction h with
  | refl => exact List.Subset.refl _
  | tail _ hstep ih => exact List.Subset.trans ih hstep.events_subset

theorem depth_le_of_steps {e e' : Expr} (h : ReflTransGen Step e e') : e'.depth ≤ e.depth := by
  induction h with
  | refl => exact Nat.le_refl _
  | tail _ hstep ih => exact Nat.le_trans hstep.depth_le ih

theorem steps_settle (fuel : Nat) (e : Expr) : ReflTransGen Step e (settle fuel e) := by
  induction fuel generalizing e with
  | zero => exact .refl
  | succ fuel ih =>
      rw [settle]
      split
      · exact .refl
      · exact (steps_simplifyPass e).trans (ih e.simplifyPass)

theorem steps_simplify (e : Expr) : ReflTransGen Step e e.simplify :=
  (steps_simplifyPass e).trans (steps_settle e.nodeCount e.simplifyPass)

theorem wellFormed_simplify {e : Expr} (h : e.WellFormed) : e.simplify.WellFormed :=
  wellFormed_of_steps (steps_simplify e) h

theorem events_simplify_sublist (e : Expr) : e.simplify.events.Sublist e.events :=
  events_sublist_of_steps (steps_simplify e)

theorem named_simplify {e : Expr} (h : e.Named) : e.simplify.Named :=
  fun ev hev => h ev ((events_simplify_sublist e).subset hev)

theorem depth_simplify_le (e : Expr) : e.simplify.depth ≤ e.depth := depth_le_of_steps (steps_simplify e)

end MetricFormula.Expr
