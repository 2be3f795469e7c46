import Mathlib.Data.List.Basic

/-! The distinct members of a list, in the order in which they are first seen. -/

namespace MetricFormula

variable {α : Type} [BEq α] [LawfulBEq α]

theorem eraseDups_filter (p : α → Bool) (as : List α) : (as.filter p).eraseDups = as.eraseDups.filter p := by
  match as with
  | [] => rfl
  | a :: as =>
      have hrest := eraseDups_filter p (as.filter fun b => !b == a)
      rw [List.eraseDups_cons]
      by_cases ha : p a
      · rw [List.filter_cons_of_pos ha, List.filter_cons_of_pos ha, List.eraseDups_cons, ← hrest, List.filter_filter,
          List.filter_filter]
        simp only [Bool.and_comm]
      · -- All copies of `a` fail the test, so that it makes no difference to leave them out first.
        have hsame : as.filter p = (as.filter fun b => !b == a).filter p := by
          rw [List.filter_filter]
          refine List.filter_congr fun b _ => ?_
          by_cases hb : b = a
          · simp [hb, ha]
          · simp [hb]
        rw [List.filter_cons_of_neg ha, List.filter_cons_of_neg ha, hsame, hrest]
termination_by as.length
decreasing_by
  exact Nat.lt_succ_of_le (List.length_filter_le _ _)

/-- Members that were seen before add nothing. -/
theorem eraseDups_append_of_subset {as bs : List α} (h : bs ⊆ as) : (as ++ bs).eraseDups = as.eraseDups := by
  have hnone : bs.removeAll as = [] := by
    rw [List.removeAll, List.filter_eq_nil_iff]
    intro b hb
    simpa using h hb
  rw [List.eraseDups_append, hnone, List.eraseDups_nil, List.append_nil]

theorem eraseDups_concat_of_not_mem {as : List α} {a : α} (h : a ∉ as) :
    (as ++ [a]).eraseDups = as.eraseDups ++ [a] := by
  have hnew : [a].removeAll as = [a] := by simp [List.removeAll, h]
  rw [List.eraseDups_append, hnew]
  simp [List.eraseDups_cons]

theorem eraseDups_append_congr {as as' bs bs' : List α} (ha : as.eraseDups = as'.eraseDups)
    (hb : bs.eraseDups = bs'.eraseDups) : (as ++ bs).eraseDups = (as' ++ bs').eraseDups := by
  have hmem (b : α) : as.elem b = as'.elem b := by
    rw [Bool.eq_iff_iff, List.elem_iff, List.elem_iff, ← List.mem_eraseDups, ha, List.mem_eraseDups]
  rw [List.eraseDups_append, List.eraseDups_append, ha, List.removeAll, List.removeAll, eraseDups_filter,
    eraseDups_filter, hb]
  simp only [hmem]

/-! ## The order of the members -/

theorem idxOf_lt_of_filter {p : α → Bool} {a b : α} (ha : p a) (hb : p b) {as : List α}
    (h : (as.filter p).idxOf a < (as.filter p).idxOf b) : as.idxOf a < as.idxOf b := by
  induction as with
  | nil => exact absurd h (Nat.lt_irrefl _)
  | cons c as ih =>
      by_cases hc : p c
      · rw [List.filter_cons_of_pos hc] at h
        have hcb : c ≠ b := by
          rintro rfl
          simp at h
        by_cases hca : c = a
        · subst hca
          simp [hcb]
        · simp only [List.idxOf_cons, beq_eq_false_iff_ne.mpr hca, beq_eq_false_iff_ne.mpr hcb, cond_false] at h ⊢
          exact Nat.succ_lt_succ (ih (Nat.lt_of_succ_lt_succ h))
      · rw [List.filter_cons_of_neg hc] at h
        have hca : c ≠ a := fun heq => hc (heq ▸ ha)
        have hcb : c ≠ b := fun heq => hc (heq ▸ hb)
        simp only [List.idxOf_cons, beq_eq_false_iff_ne.mpr hca, beq_eq_false_iff_ne.mpr hcb, cond_false]
        exact Nat.succ_lt_succ (ih h)

/-- The members stand in the order of their first places. -/
theorem pairwise_eraseDups (as : List α) : as.eraseDups.Pairwise fun a b => as.idxOf a < as.idxOf b := by
  match as with
  | [] => exact .nil
  | a :: as =>
      have hrest := pairwise_eraseDups (as.filter fun b => !b == a)
      have hne {b : α} (hb : b ∈ (as.filter fun b => !b == a).eraseDups) : b ≠ a := by
        simpa using (List.mem_filter.mp (List.mem_eraseDups.mp hb)).2
      rw [List.eraseDups_cons, List.pairwise_cons]
      constructor
      · intro b hb
        simp [(hne hb).symm]
      · refine hrest.imp_of_mem fun {b c} hb hc hbc => ?_
        have hlt := idxOf_lt_of_filter (by simpa using hne hb) (by simpa using hne hc) hbc
        simpa [List.idxOf_cons, (hne hb).symm, (hne hc).symm] using hlt
termination_by as.length
decreasing_by
  exact Nat.lt_succ_of_le (List.length_filter_le _ _)

theorem nodup_eraseDups (as : List α) : as.eraseDups.Nodup :=
  (pairwise_eraseDups as).imp fun hlt heq => absurd (heq ▸ hlt) (Nat.lt_irrefl _)

theorem pairwise_of_nodup {as : List α} (h : as.Nodup) : as.Pairwise fun a b => as.idxOf a < as.idxOf b := by
  rw [List.pairwise_iff_getElem]
  intro i j hi hj hij
  rwa [h.idxOf_getElem, h.idxOf_getElem]

end MetricFormula
