import MetricFormula.Proofs.Distinct
import MetricFormula.Proofs.Expr.Preservation

/-!
# The passes of simplification

A pass that changes a tree makes it smaller, and so the passes come to an end. What a rule drops is named elsewhere in the
tree, and before the place where it was dropped: the names stay, in the order in which they are first seen.
-/

namespace MetricFormula.Expr

open Relation (ReflTransGen)

/-! ## Names -/

theorem Rule.eventNames_eq {e e' : Expr} (h : Rule e e') : e'.eventNames = e.eventNames := by
  cases h with
  | addZero _ => simp [eventNames, events]
  | zeroAdd _ => simp [eventNames, events]
  | subZero _ => simp [eventNames, events]
  | merge heq _ => simp [eventNames, events, eq_of_beq heq, List.eraseDups_cons]
  | @collapse v t t' _ _ _ _ ht =>
      have hseen : (t'.events.map Event.name) ⊆ (v.events ++ t.events).map Event.name := by
        rw [← events_of_beq ht, List.map_append]
        exact List.subset_append_right _ _
      have hsplit : (v.events ++ t.events ++ t'.events).map Event.name =
          (v.events ++ t.events).map Event.name ++ t'.events.map Event.name := List.map_append
      simp only [eventNames, events, List.append_nil]
      rw [hsplit, eraseDups_append_of_subset hseen]
  | andOne _ => simp [eventNames, events]
  | oneAnd _ => simp [eventNames, events]

mutual

theorem Step.eventNames_eq {e e' : Expr} (h : Step e e') : e'.eventNames = e.eventNames := by
  match h with
  | .rule h => exact h.eventNames_eq
  | .left h =>
      simp only [eventNames, events, List.map_append]
      exact eraseDups_append_congr h.eventNames_eq rfl
  | .right h =>
      simp only [eventNames, events, List.map_append]
      exact eraseDups_append_congr rfl h.eventNames_eq
  | .argument h => exact h.eventNamesList_eq
  | .value h =>
      simp only [eventNames, events, List.map_append]
      exact eraseDups_append_congr (eraseDups_append_congr h.eventNames_eq rfl) rfl
  | .test h =>
      simp only [eventNames, events, List.map_append]
      exact eraseDups_append_congr (eraseDups_append_congr rfl h.eventNames_eq) rfl
  | .otherwise h =>
      simp only [eventNames, events, List.map_append]
      exact eraseDups_append_congr rfl h.eventNames_eq

theorem StepList.eventNamesList_eq {as bs : List Expr} (h : StepList as bs) :
    ((eventsList bs).map Event.name).eraseDups = ((eventsList as).map Event.name).eraseDups := by
  match h with
  | .head h =>
      simp only [eventsList, List.map_append]
      exact eraseDups_append_congr h.eventNames_eq rfl
  | .tail h =>
      simp only [eventsList, List.map_append]
      exact eraseDups_append_congr rfl h.eventNamesList_eq

end

theorem eventNames_of_steps {e e' : Expr} (h : ReflTransGen Step e e') : e'.eventNames = e.eventNames := by
  induction h with
  | refl => rfl
  | tail _ hstep ih => rw [hstep.eventNames_eq, ih]

/-! ## Passes -/

/-- Passes over a tree, one after another until one changes nothing, come to an end with a tree. -/
inductive Settles : Expr → Expr → Prop where
  | done {e} : e.simplifyPass == e → Settles e e
  | next {e e'} : ¬ e.simplifyPass == e → Settles e.simplifyPass e' → Settles e e'

variable {e : Expr}

theorem nodeCount_pos (e : Expr) : 0 < e.nodeCount := by
  cases e <;> simp only [nodeCount] <;> omega

theorem simplifyPass_beq_or_lt (he : e.Finite) :
    e.simplifyPass == e ∨ e.simplifyPass.nodeCount < e.nodeCount := by
  rcases (steps_simplifyPass e).cases_head with heq | ⟨x, hstep, hsteps⟩
  · rw [← heq]
    exact .inl (beq_self e he)
  · exact .inr (Nat.lt_of_le_of_lt (nodeCount_le_of_steps hsteps) hstep.nodeCount_lt)

/-- As many passes as there are nodes are enough. -/
theorem settles_settle {fuel : Nat} (he : e.Finite) (h : e.nodeCount ≤ fuel) : Settles e (settle fuel e) := by
  induction fuel generalizing e with
  | zero => exact absurd h (Nat.not_le_of_lt e.nodeCount_pos)
  | succ fuel ih =>
      rw [settle]
      split
      · exact .done ‹_›
      · rename_i hchanged
        have hlt := (simplifyPass_beq_or_lt he).resolve_left hchanged
        exact .next hchanged (ih (finite_simplifyPass e he) (by omega))

theorem settles_simplify (he : e.Finite) : Settles e.simplifyPass e.simplify :=
  settles_settle (finite_simplifyPass e he) (nodeCount_le_of_steps (steps_simplifyPass e))

/-- A pass changes nothing or makes the tree smaller, so that the passes end, and the simplified tree is no larger and no
higher than the tree and has the same names in the same order. -/
theorem simplify_shrinks (he : e.Finite) :
    (∀ x : Expr, x.Finite → x.simplifyPass.Finite ∧
      (x.simplifyPass == x ∨ x.simplifyPass.nodeCount < x.nodeCount)) ∧
      Settles e.simplifyPass e.simplify ∧ e.simplify.eventNames = e.eventNames ∧
      e.simplify.nodeCount ≤ e.nodeCount ∧ e.simplify.depth ≤ e.depth := by
  have hsteps := steps_simplify e
  refine ⟨fun x hx => ⟨finite_simplifyPass x hx, simplifyPass_beq_or_lt hx⟩, settles_simplify he, ?_, ?_, ?_⟩
  · exact eventNames_of_steps hsteps
  · exact nodeCount_le_of_steps hsteps
  · exact depth_le_of_steps hsteps

theorem simplify_shrinks_guardedTwice :
    guardedTwice.Finite ∧ Settles guardedTwice.simplifyPass guardedTwice.simplify ∧
      guardedTwice.eventNames = ["x", "p"] ∧ guardedTwice.simplify.eventNames = guardedTwice.eventNames ∧
      guardedTwice.simplify.nodeCount < guardedTwice.nodeCount ∧ guardedTwice.simplify.depth ≤ guardedTwice.depth := by
  have hfinite : guardedTwice.Finite := by
    simp only [guardedTwice, Finite, ref, and_true, true_and]
    decide +kernel
  obtain ⟨-, hsettles, hnames, -, hdepth⟩ := simplify_shrinks hfinite
  exact ⟨hfinite, hsettles, by decide +kernel, hnames, by decide +kernel, hdepth⟩

end MetricFormula.Expr
