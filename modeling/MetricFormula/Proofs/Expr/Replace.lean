import MetricFormula.Expr.Subtree
import MetricFormula.Proofs.Expr.Equality
import MetricFormula.Proofs.Expr.Subtree
import MetricFormula.Proofs.Expr.WellFormed

/-! What replacing subtrees keeps of a tree. -/

namespace MetricFormula.Expr

theorem replace_of_beq {t n : Expr} (h : t == n) (r : Expr) : t.replace n r = r := by
  cases t <;> rw [replace, if_pos h]

mutual

theorem replace_eq_self {t n : Expr} (h : ¬ t.contains n) (r : Expr) : t.replace n r = t := by
  match t with
  | .literal x => exact if_neg h
  | .event e => exact if_neg h
  | .binary op a b =>
      simp only [contains, Bool.or_eq_true, not_or] at h
      rw [replace, if_neg h.1.1, replace_eq_self h.1.2, replace_eq_self h.2]
  | .call f as =>
      simp only [contains, Bool.or_eq_true, not_or] at h
      rw [replace, if_neg h.1, replaceList_eq_self h.2]
  | .conditional v t o =>
      simp only [contains, Bool.or_eq_true, not_or] at h
      rw [replace, if_neg h.1.1.1, replace_eq_self h.1.1.2, replace_eq_self h.1.2, replace_eq_self h.2]

theorem replaceList_eq_self {as : List Expr} {n : Expr} (h : ¬ containsList as n) (r : Expr) :
    replaceList as n r = as := by
  match as with
  | [] => rfl
  | a :: as =>
      simp only [containsList, Bool.or_eq_true, not_or] at h
      rw [replaceList, replace_eq_self h.1, replaceList_eq_self h.2]

end

mutual

/-- Events come from the tree or from what is put into it. -/
theorem events_replace (t n r : Expr) : (t.replace n r).events ⊆ t.events ++ r.events := by
  by_cases heq : t == n
  · rw [replace_of_beq heq]
    exact List.subset_append_right _ _
  · match t with
    | .literal x =>
        rw [replace, if_neg heq]
        exact List.subset_append_left _ _
    | .event e =>
        rw [replace, if_neg heq]
        exact List.subset_append_left _ _
    | .binary op a b =>
        have ha := events_replace a n r
        have hb := events_replace b n r
        rw [replace, if_neg heq]
        simp only [events, List.subset_def, List.mem_append] at ha hb ⊢
        rintro e (h | h)
        · exact (ha h).imp_left .inl
        · exact (hb h).imp_left .inr
    | .call f as =>
        rw [replace, if_neg heq]
        exact eventsList_replaceList as n r
    | .conditional v t o =>
        have hv := events_replace v n r
        have ht := events_replace t n r
        have ho := events_replace o n r
        rw [replace, if_neg heq]
        simp only [events, List.subset_def, List.mem_append] at hv ht ho ⊢
        rintro e ((h | h) | h)
        · exact (hv h).imp_left fun h => .inl (.inl h)
        · exact (ht h).imp_left fun h => .inl (.inr h)
        · exact (ho h).imp_left .inr

theorem eventsList_replaceList (as : List Expr) (n r : Expr) :
    eventsList (replaceList as n r) ⊆ eventsList as ++ r.events := by
  match as with
  | [] => exact List.nil_subset _
  | a :: as =>
      have ha := events_replace a n r
      have has := eventsList_replaceList as n r
      simp only [replaceList, eventsList, List.subset_def, List.mem_append] at ha has ⊢
      rintro e (h | h)
      · exact (ha h).imp_left .inl
      · exact (has h).imp_left .inr

end

mutual

theorem finite_replace (t n : Expr) {r : Expr} (ht : t.Finite) (hr : r.Finite) : (t.replace n r).Finite := by
  by_cases heq : t == n
  · rw [replace_of_beq heq]
    exact hr
  · match t with
    | .literal x =>
        rw [replace, if_neg heq]
        exact ht
    | .event e =>
        rw [replace, if_neg heq]
        exact ht
    | .binary op a b =>
        rw [replace, if_neg heq]
        exact ⟨finite_replace a n ht.1 hr, finite_replace b n ht.2 hr⟩
    | .call f as =>
        rw [replace, if_neg heq]
        exact finiteList_replaceList as n ht hr
    | .conditional v t o =>
        rw [replace, if_neg heq]
        exact ⟨finite_replace v n ht.1 hr, finite_replace t n ht.2.1 hr, finite_replace o n ht.2.2 hr⟩

theorem finiteList_replaceList (as : List Expr) (n : Expr) {r : Expr} (has : FiniteList as) (hr : r.Finite) :
    FiniteList (replaceList as n r) := by
  match as with
  | [] => trivial
  | a :: as => exact ⟨finite_replace a n has.1 hr, finiteList_replaceList as n has.2 hr⟩

end

mutual

/-- An event of the tree is left in it, or goes with what is taken out. -/
theorem events_subset_replace (t n r : Expr) : t.events ⊆ (t.replace n r).events ++ n.events := by
  by_cases heq : t == n
  · rw [events_of_beq heq]
    exact List.subset_append_right _ _
  · match t with
    | .literal x =>
        rw [replace, if_neg heq]
        exact List.subset_append_left _ _
    | .event e =>
        rw [replace, if_neg heq]
        exact List.subset_append_left _ _
    | .binary op a b =>
        have ha := events_subset_replace a n r
        have hb := events_subset_replace b n r
        rw [replace, if_neg heq]
        simp only [events, List.subset_def, List.mem_append] at ha hb ⊢
        rintro e (h | h)
        · exact (ha h).imp_left .inl
        · exact (hb h).imp_left .inr
    | .call f as =>
        rw [replace, if_neg heq]
        exact eventsList_subset_replaceList as n r
    | .conditional v t o =>
        have hv := events_subset_replace v n r
        have ht := events_subset_replace t n r
        have ho := events_subset_replace o n r
        rw [replace, if_neg heq]
        simp only [events, List.subset_def, List.mem_append] at hv ht ho ⊢
        rintro e ((h | h) | h)
        · exact (hv h).imp_left fun h => .inl (.inl h)
        · exact (ht h).imp_left fun h => .inl (.inr h)
        · exact (ho h).imp_left .inr

theorem eventsList_subset_replaceList (as : List Expr) (n r : Expr) :
    eventsList as ⊆ eventsList (replaceList as n r) ++ n.events := by
  match as with
  | [] => exact List.nil_subset _
  | a :: as =>
      have ha := events_subset_replace a n r
      have has := eventsList_subset_replaceList as n r
      simp only [replaceList, eventsList, List.subset_def, List.mem_append] at ha has ⊢
      rintro e (h | h)
      · exact (ha h).imp_left .inl
      · exact (has h).imp_left .inr

end

/-! ## References in the place of subtrees -/

theorem replaceList_eq_map (as : List Expr) (n r : Expr) : replaceList as n r = as.map (·.replace n r) := by
  induction as with
  | nil => rfl
  | cons a as ih => rw [replaceList, List.map_cons, ih]

theorem replace_event (e : Event) (n : Expr) (m : String) : ∃ e', (event e).replace n (.ref m) = .event e' := by
  rw [replace]
  split
  · exact ⟨.bare m, rfl⟩
  · exact ⟨e, rfl⟩

/-! A tree with references put in has the shape of the tree before, unless it is a reference. -/

theorem eq_literal_of_replace {t n : Expr} {m : String} {x : Binary64} (h : t.replace n (.ref m) = literal x) :
    t = literal x := by
  by_cases heq : t == n
  · rw [replace_of_beq heq] at h
    cases h
  · cases t <;> rw [replace, if_neg heq] at h <;> cases h
    rfl

theorem event_of_replace {t n : Expr} {m : String} {e : Event} (h : t.replace n (.ref m) = event e) :
    t = event e ∨ e = .bare m := by
  by_cases heq : t == n
  · rw [replace_of_beq heq] at h
    cases h
    exact .inr rfl
  · cases t <;> rw [replace, if_neg heq] at h <;> cases h
    exact .inl rfl

theorem binary_of_replace {t n : Expr} {m : String} {op : Operator} {l r : Expr}
    (h : t.replace n (.ref m) = binary op l r) :
    ∃ l' r', t = binary op l' r' ∧ l'.replace n (.ref m) = l ∧ r'.replace n (.ref m) = r := by
  by_cases heq : t == n
  · rw [replace_of_beq heq] at h
    cases h
  · cases t <;> rw [replace, if_neg heq] at h <;> cases h
    exact ⟨_, _, rfl, rfl, rfl⟩

theorem binary_literal_of_replace {t n : Expr} {m : String} {op : Operator} {l : Expr} {x : Binary64}
    (h : t.replace n (.ref m) = binary op l (.literal x)) : ∃ l', t = binary op l' (.literal x) := by
  obtain ⟨l', r', rfl, -, hr⟩ := binary_of_replace h
  exact ⟨l', by rw [eq_literal_of_replace hr]⟩

theorem literal_binary_of_replace {t n : Expr} {m : String} {op : Operator} {x : Binary64} {r : Expr}
    (h : t.replace n (.ref m) = binary op (.literal x) r) : ∃ r', t = binary op (.literal x) r' := by
  obtain ⟨l', r', rfl, hl, -⟩ := binary_of_replace h
  exact ⟨r', by rw [eq_literal_of_replace hl]⟩

theorem conditional_of_replace {t n : Expr} {m : String} {v c o : Expr}
    (h : t.replace n (.ref m) = conditional v c o) :
    ∃ v' c' o', t = conditional v' c' o' ∧ v'.replace n (.ref m) = v ∧ c'.replace n (.ref m) = c ∧
      o'.replace n (.ref m) = o := by
  by_cases heq : t == n
  · rw [replace_of_beq heq] at h
    cases h
  · cases t <;> rw [replace, if_neg heq] at h <;> cases h
    exact ⟨_, _, _, rfl, rfl, rfl, rfl⟩

theorem call_of_replace {t n : Expr} {m : String} {f : Builtin} {bs : List Expr}
    (h : t.replace n (.ref m) = call f bs) : ∃ as, t = call f as ∧ replaceList as n (.ref m) = bs := by
  by_cases heq : t == n
  · rw [replace_of_beq heq] at h
    cases h
  · cases t <;> rw [replace, if_neg heq] at h <;> cases h
    exact ⟨_, rfl, rfl⟩

mutual

/-- A tree within the result of a substitution is the result of the substitution in a tree within. -/
theorem mem_subtrees_replace {t n w : Expr} {m : String} (h : w ∈ (t.replace n (.ref m)).subtrees) :
    ∃ x ∈ t.subtrees, w = x.replace n (.ref m) := by
  by_cases hroot : w = t.replace n (.ref m)
  · exact ⟨t, t.self_mem_subtrees, hroot⟩
  by_cases heq : t == n
  · rw [replace_of_beq heq] at h hroot
    exact absurd (List.mem_singleton.mp h) hroot
  · match t with
    | .literal x =>
        rw [replace, if_neg heq] at h hroot
        exact absurd (List.mem_singleton.mp h) hroot
    | .event e =>
        rw [replace, if_neg heq] at h hroot
        exact absurd (List.mem_singleton.mp h) hroot
    | .binary op a b =>
        rw [replace, if_neg heq] at h hroot
        simp only [subtrees, List.mem_cons, hroot, false_or, List.mem_append] at h
        rcases h with h | h
        · obtain ⟨x, hx, hw⟩ := mem_subtrees_replace h
          exact ⟨x, List.mem_cons_of_mem _ (List.mem_append_left _ hx), hw⟩
        · obtain ⟨x, hx, hw⟩ := mem_subtrees_replace h
          exact ⟨x, List.mem_cons_of_mem _ (List.mem_append_right _ hx), hw⟩
    | .call f as =>
        rw [replace, if_neg heq] at h hroot
        obtain ⟨x, hx, hw⟩ := mem_subtreesList_replaceList (List.mem_of_ne_of_mem hroot h)
        exact ⟨x, List.mem_cons_of_mem _ hx, hw⟩
    | .conditional v c o =>
        rw [replace, if_neg heq] at h hroot
        simp only [subtrees, List.mem_cons, hroot, false_or, List.mem_append] at h ⊢
        rcases h with (h | h) | h
        · obtain ⟨x, hx, hw⟩ := mem_subtrees_replace h
          exact ⟨x, .inr (.inl (.inl hx)), hw⟩
        · obtain ⟨x, hx, hw⟩ := mem_subtrees_replace h
          exact ⟨x, .inr (.inl (.inr hx)), hw⟩
        · obtain ⟨x, hx, hw⟩ := mem_subtrees_replace h
          exact ⟨x, .inr (.inr hx), hw⟩

theorem mem_subtreesList_replaceList {as : List Expr} {n w : Expr} {m : String}
    (h : w ∈ subtreesList (replaceList as n (.ref m))) : ∃ x ∈ subtreesList as, w = x.replace n (.ref m) := by
  match as with
  | [] => exact absurd h List.not_mem_nil
  | a :: as =>
      rcases List.mem_append.mp h with h | h
      · obtain ⟨x, hx, hw⟩ := mem_subtrees_replace h
        exact ⟨x, List.mem_append_left _ hx, hw⟩
      · obtain ⟨x, hx, hw⟩ := mem_subtreesList_replaceList h
        exact ⟨x, List.mem_append_right _ hx, hw⟩

end

mutual

/-- The reference is found where the tree was. -/
theorem mem_events_replace {t n : Expr} (h : t.contains n) (m : String) :
    Event.bare m ∈ (t.replace n (.ref m)).events := by
  by_cases heq : t == n
  · rw [replace_of_beq heq]
    exact List.mem_singleton_self _
  · match t with
    | .literal x => exact absurd h heq
    | .event e => exact absurd h heq
    | .binary op a b =>
        simp only [contains, heq, Bool.false_or, Bool.or_eq_true] at h
        rw [replace, if_neg heq, events, List.mem_append]
        exact h.imp (mem_events_replace · m) (mem_events_replace · m)
    | .call f as =>
        simp only [contains, heq, Bool.false_or] at h
        rw [replace, if_neg heq]
        exact mem_eventsList_replaceList h m
    | .conditional v t o =>
        simp only [contains, heq, Bool.false_or, Bool.or_eq_true] at h
        rw [replace, if_neg heq, events, List.mem_append, List.mem_append]
        exact h.imp (Or.imp (mem_events_replace · m) (mem_events_replace · m)) (mem_events_replace · m)

theorem mem_eventsList_replaceList {as : List Expr} {n : Expr} (h : containsList as n) (m : String) :
    Event.bare m ∈ eventsList (replaceList as n (.ref m)) := by
  match as with
  | [] => cases h
  | a :: as =>
      rw [containsList, Bool.or_eq_true] at h
      rw [replaceList, eventsList, List.mem_append]
      exact h.imp (mem_events_replace · m) (mem_eventsList_replaceList · m)

end

mutual

theorem wellFormed_replace (t n : Expr) (m : String) (h : t.WellFormed) : (t.replace n (.ref m)).WellFormed := by
  by_cases heq : t == n
  · rw [replace_of_beq heq]
    exact Event.WellFormed.bare m
  · match t with
    | .literal x =>
        rw [replace, if_neg heq]
        exact h
    | .event e =>
        rw [replace, if_neg heq]
        exact h
    | .binary op a b =>
        rw [replace, if_neg heq]
        exact ⟨wellFormed_replace a n m h.1, wellFormed_replace b n m h.2⟩
    | .call f as =>
        have has := wellFormedList_replaceList as n m h.2.2
        rw [replaceList_eq_map] at has
        rw [replace, if_neg heq, replaceList_eq_map]
        -- A function that takes events still does: a reference is one.
        exact h.call_map (fun e => replace_event e n m) has
    | .conditional v t o =>
        rw [replace, if_neg heq]
        exact ⟨wellFormed_replace v n m h.1, wellFormed_replace t n m h.2.1, wellFormed_replace o n m h.2.2⟩

theorem wellFormedList_replaceList (as : List Expr) (n : Expr) (m : String) (h : WellFormedList as) :
    WellFormedList (replaceList as n (.ref m)) := by
  match as with
  | [] => trivial
  | a :: as => exact ⟨wellFormed_replace a n m h.1, wellFormedList_replaceList as n m h.2⟩

end

theorem depth_pos (t : Expr) : 0 < t.depth := by
  cases t <;> simp only [depth] <;> omega

mutual

/-- No tree is lower than a reference. -/
theorem depth_replace_le (t n : Expr) (m : String) : (t.replace n (.ref m)).depth ≤ t.depth := by
  by_cases heq : t == n
  · rw [replace_of_beq heq]
    exact t.depth_pos
  · match t with
    | .literal x =>
        have hsame : (literal x).replace n (.ref m) = .literal x := by rw [replace, if_neg heq]
        exact Nat.le_of_eq (congrArg depth hsame)
    | .event e =>
        have hsame : (event e).replace n (.ref m) = .event e := by rw [replace, if_neg heq]
        exact Nat.le_of_eq (congrArg depth hsame)
    | .binary op a b =>
        have ha := depth_replace_le a n m
        have hb := depth_replace_le b n m
        rw [replace, if_neg heq]
        simp only [depth]
        omega
    | .call f as =>
        have has := depthList_replaceList_le as n m
        rw [replace, if_neg heq]
        simp only [depth]
        omega
    | .conditional v t o =>
        have hv := depth_replace_le v n m
        have ht := depth_replace_le t n m
        have ho := depth_replace_le o n m
        rw [replace, if_neg heq]
        simp only [depth]
        omega

theorem depthList_replaceList_le (as : List Expr) (n : Expr) (m : String) :
    depthList (replaceList as n (.ref m)) ≤ depthList as := by
  match as with
  | [] => exact Nat.le_refl _
  | a :: as =>
      have ha := depth_replace_le a n m
      have has := depthList_replaceList_le as n m
      simp only [replaceList, depthList]
      omega

end

end MetricFormula.Expr
