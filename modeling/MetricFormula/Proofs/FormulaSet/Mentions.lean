import MetricFormula.Proofs.Expr.Replace
import MetricFormula.Proofs.Expr.Subtree
import MetricFormula.Proofs.FormulaSet.Rewriting

/-!
# Events during the rewriting

No event is lost. What a substitution takes out of a formula is the tree of a smaller formula, or of an equal one that
comes earlier, so that some formula keeps it. And no event is added but references to the formulas of the set.
-/

namespace MetricFormula.FormulaSet

variable {s : FormulaSet} {e : Event}

/-! ## The turn of one formula -/

/-- A candidate is smaller than the tree that it occurs in, or it comes earlier and is no larger. -/
theorem nodeCount_of_mem_candidates {tree : Expr} {earlier later : List (String × Expr)} {c : String × Expr}
    (h : c ∈ candidates tree earlier later) :
    c ∈ earlier ∧ c.2.nodeCount ≤ tree.nodeCount ∨ c ∈ later ∧ c.2.nodeCount < tree.nodeCount := by
  obtain ⟨hc | ⟨hc, hne⟩, -, hcontains⟩ := mem_candidates.mp h
  · exact .inl ⟨hc, Expr.nodeCount_le_of_contains hcontains⟩
  · rcases Expr.beq_or_nodeCount_lt hcontains with heq | hlt
    · exact absurd (Expr.beq_symm heq) hne
    · exact .inr ⟨hc, hlt⟩

/-- A substitution leaves an event in the tree or takes it out with a candidate. -/
theorem mem_events_substitute {target : String} {state : Expr × ReferenceGraph} (c : String × Expr)
    (h : e ∈ state.1.events) : e ∈ (substitute target state c).1.events ∨ e ∈ c.2.events := by
  unfold substitute
  split
  · exact List.mem_append.mp (Expr.events_subset_replace _ _ _ h)
  · exact .inl h

theorem mem_events_foldl_substitute {target : String} {state : Expr × ReferenceGraph} (cs : List (String × Expr))
    (h : e ∈ state.1.events) :
    e ∈ (cs.foldl (substitute target) state).1.events ∨ ∃ c ∈ cs, e ∈ c.2.events := by
  induction cs generalizing state with
  | nil => exact .inl h
  | cons c cs ih =>
      rcases mem_events_substitute c h with h | h
      · exact (ih h).imp_right fun ⟨c', hc', he⟩ => ⟨c', List.mem_cons_of_mem _ hc', he⟩
      · exact .inr ⟨c, List.mem_cons_self, h⟩

/-! ## All formulas in turn -/

/-- The tree that a formula has after its turn, which begins with the graph `g`. -/
def afterTurn (g : ReferenceGraph) (earlier : List (String × Expr)) (n : String) (t : Expr)
    (later : List (String × Expr)) : Expr :=
  ((candidates t earlier later).foldl (substitute n) (t, g)).1

/-- What the turns of the formulas before `n` keep of the graph holds of the one with which the turn of `n` begins. -/
theorem find?_crossReferenceFrom {P : ReferenceGraph → Prop} (earlier : List (String × Expr))
    {before after : List (String × Expr)} {n : String} {t : Expr} (hnodup : ((before ++ (n, t) :: after).map Prod.fst).Nodup)
    (hturns : ∀ front m u back, before = front ++ (m, u) :: back →
      ∀ c ∈ candidates u (earlier ++ front) (back ++ (n, t) :: after), ∀ state, P state.2 → P (substitute m state c).2)
    {g : ReferenceGraph} (hg : P g) :
    ∃ g', P g' ∧ Entries.find? n (crossReferenceFrom g earlier (before ++ (n, t) :: after)) =
      if afterTurn g' (earlier ++ before) n t after != t then some (afterTurn g' (earlier ++ before) n t after)
      else none := by
  induction before generalizing g earlier with
  | nil =>
      refine ⟨g, hg, ?_⟩
      rw [List.nil_append, List.map_cons, List.nodup_cons] at hnodup
      have hnone (g' : ReferenceGraph) (earlier' : List (String × Expr)) :
          Entries.find? n (crossReferenceFrom g' earlier' after) = none :=
        Entries.find?_eq_none.mpr fun h => hnodup.1 ((names_crossReferenceFrom g' earlier' after).subset h)
      rw [List.nil_append, List.append_nil, crossReferenceFrom, afterTurn]
      dsimp only
      split
      · simp [Entries.find?]
      · exact hnone _ _
  | cons c before ih =>
      obtain ⟨target, tree⟩ := c
      rw [List.cons_append, List.map_cons, List.nodup_cons] at hnodup
      have hne : target ≠ n := by
        rintro rfl
        exact hnodup.1 (by simp)
      have hturn : P ((candidates tree earlier (before ++ (n, t) :: after)).foldl (substitute target) (tree, g)).2 := by
        have hstep := hturns [] target tree before rfl
        rw [List.append_nil] at hstep
        have hstart : P (tree, g).2 := hg
        exact List.foldlRecOn (motive := fun state => P state.2) _ _ hstart fun state h c hc => hstep c hc state h
      have hrest (front m u back) (heq : before = front ++ (m, u) :: back) :
          ∀ c ∈ candidates u (earlier ++ [(target, tree)] ++ front) (back ++ (n, t) :: after),
            ∀ state, P state.2 → P (substitute m state c).2 := by
        rw [List.append_assoc]
        exact hturns ((target, tree) :: front) m u back (by rw [heq, List.cons_append])
      rw [List.cons_append, crossReferenceFrom]
      dsimp only
      obtain ⟨g', hg', hfind⟩ := ih _ hnodup.2 hrest hturn
      rw [List.append_assoc, List.singleton_append] at hfind
      refine ⟨g', hg', ?_⟩
      split
      · simpa [Entries.find?, hne] using hfind
      · exact hfind

/-- The new tree of a formula is the one after its turn, if that is another than before. -/
theorem find?_crossReference {P : ReferenceGraph → Prop} {before after : List (String × Expr)} {n : String} {t : Expr}
    (h : s.simplified.entries = before ++ (n, t) :: after)
    (hturns : ∀ front m u back, before = front ++ (m, u) :: back →
      ∀ c ∈ candidates u front (back ++ (n, t) :: after), ∀ state, P state.2 → P (substitute m state c).2)
    (hstart : P (.ofFormulas s.simplified)) :
    ∃ g, P g ∧ Entries.find? n s.crossReference =
      if afterTurn g before n t after != t then some (afterTurn g before n t after) else none := by
  have hnodup := s.simplified.nodup
  rw [h] at hnodup
  have hfind := find?_crossReferenceFrom [] hnodup hturns hstart
  rw [List.nil_append] at hfind
  rwa [crossReference_eq, h]

theorem get?_finals_eq_afterTurn {before after : List (String × Expr)} {n : String} {t : Expr}
    (h : s.simplified.entries = before ++ (n, t) :: after) :
    ∃ g, s.finals.get? n =
      some (if afterTurn g before n t after != t then afterTurn g before n t after else t) := by
  obtain ⟨g, -, hg⟩ := find?_crossReference (P := fun _ => True) h (fun _ _ _ _ _ _ _ _ _ => trivial) trivial
  have hsimplified : s.simplified.get? n = some t := Table.get?_eq_some.mpr (by simp [h])
  refine ⟨g, ?_⟩
  rw [get?_finals, hg, hsimplified]
  split <;> rfl

/-! ## The events of all formulas -/

/-- An event stays in the definition of its formula, or goes with a candidate. -/
theorem mem_finals_or_mem_candidate {before after : List (String × Expr)} {n : String} {t : Expr}
    (h : s.simplified.entries = before ++ (n, t) :: after) (he : e ∈ t.events) :
    (∃ f, s.finals.get? n = some f ∧ e ∈ f.events) ∨ ∃ c ∈ candidates t before after, e ∈ c.2.events := by
  obtain ⟨g, hg⟩ := get?_finals_eq_afterTurn h
  split at hg
  · have hstart : e ∈ (t, g).1.events := he
    rcases mem_events_foldl_substitute (candidates t before after) hstart with hstays | hgoes
    · exact .inl ⟨_, hg, hstays⟩
    · exact .inr hgoes
  · exact .inl ⟨_, hg, he⟩

theorem exists_finals_of_split {before after : List (String × Expr)} {n : String} {t : Expr}
    (h : s.simplified.entries = before ++ (n, t) :: after) (he : e ∈ t.events) :
    ∃ m f, s.finals.get? m = some f ∧ e ∈ f.events := by
  rcases mem_finals_or_mem_candidate h he with ⟨f, hf, hef⟩ | ⟨⟨m, u⟩, hc, heu⟩
  · exact ⟨n, f, hf, hef⟩
  -- The candidate may have lost the event in its own turn, but it is smaller or comes earlier.
  · rcases nodeCount_of_mem_candidates hc with ⟨hc, hle⟩ | ⟨hc, hlt⟩
    · obtain ⟨front, back, hbefore⟩ := List.append_of_mem hc
      have hearlier : front.length < before.length := by simp [hbefore]
      have hsplit : s.simplified.entries = front ++ (m, u) :: (back ++ (n, t) :: after) := by simp [h, hbefore]
      exact exists_finals_of_split hsplit heu
    · obtain ⟨front, back, hafter⟩ := List.append_of_mem hc
      have hsplit : s.simplified.entries = (before ++ (n, t) :: front) ++ (m, u) :: back := by simp [h, hafter]
      exact exists_finals_of_split hsplit heu
termination_by (t.nodeCount, before.length)
decreasing_by
  · exact Prod.Lex.right' _ hle hearlier
  · exact .left _ _ hlt

/-- Every event that a simplified formula refers to is in a final definition, if not in its own. -/
theorem exists_finals_event {n : String} {t : Expr} (ht : s.simplified.get? n = some t) (he : e ∈ t.events) :
    ∃ m f, s.finals.get? m = some f ∧ e ∈ f.events := by
  obtain ⟨before, after, hsplit⟩ := List.append_of_mem (Table.get?_eq_some.mp ht)
  exact exists_finals_of_split hsplit he

/-- An event of a final definition is one of the simplified formula, or a reference that was put in. -/
theorem mem_events_of_finals {n : String} {t f : Expr} (ht : s.simplified.get? n = some t)
    (hf : s.finals.get? n = some f) (he : e ∈ f.events) :
    e ∈ t.events ∨ ∃ m, s.simplified.contains m ∧ e = .bare m := by
  refine finals_of_simplified (Q := fun tree => e ∈ tree.events → _) ?_ ht hf (fun h => .inl h) he
  intro tree source u hu htree h
  rcases List.mem_append.mp (Expr.events_replace _ _ _ h) with h | h
  · exact htree h
  · exact .inr ⟨source, Table.contains_iff.mpr ⟨u, hu⟩, List.mem_singleton.mp h⟩

end MetricFormula.FormulaSet
