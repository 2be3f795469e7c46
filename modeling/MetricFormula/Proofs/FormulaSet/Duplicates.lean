import MetricFormula.Proofs.Expr.Position
import MetricFormula.Proofs.FormulaSet.Candidates
import MetricFormula.Proofs.FormulaSet.Cycles

/-!
# Equal formulas

A formula that equals an earlier one becomes a reference to it. In a set without cycles no path leads back from an equal
formula when the turn of the later one comes: a formula on the path would have a tree within the tree of the later one,
so that its own references would close a cycle, and the references put in so far are to no formula that comes later with
an equal tree.
-/

namespace MetricFormula.FormulaSet

open Relation (ReflTransGen TransGen)
open ReferenceGraph (LeadsTo)

variable {s : FormulaSet} {n m : String} {t u : Expr} {before after : List (String × Expr)}

/-- `m` comes before `n` in the set and has an equal tree. -/
def EarlierEqual (s : FormulaSet) (n m : String) : Prop :=
  ∃ before t after u, s.simplified.entries = before ++ (n, t) :: after ∧ (m, u) ∈ before ∧ u == t

/-! ## The candidates of a formula -/

theorem precedes_iff {a b : String × Expr} :
    precedes a b ↔ b.2.nodeCount < a.2.nodeCount ∨ a.2.nodeCount = b.2.nodeCount ∧ a.1 ≤ b.1 := by
  simp [precedes]

theorem pairwise_candidates (t : Expr) (earlier later : List (String × Expr)) :
    (candidates t earlier later).Pairwise fun a b => precedes a b := by
  apply List.pairwise_mergeSort
  · intro a b c hab hbc
    rw [precedes_iff] at hab hbc ⊢
    rcases hab with hab | ⟨hab, hle⟩
    · left; omega
    · rcases hbc with hbc | ⟨hbc, hle'⟩
      · left; omega
      · exact .inr ⟨hab.trans hbc, String.le_trans hle hle'⟩
  · intro a b
    rw [Bool.or_eq_true, precedes_iff, precedes_iff]
    rcases Nat.lt_trichotomy a.2.nodeCount b.2.nodeCount with h | h | h
    · exact .inr (.inl h)
    · exact (String.le_total a.1 b.1).imp (fun hle => .inr ⟨h, hle⟩) fun hle => .inr ⟨h.symm, hle⟩
    · exact .inl (.inl h)

theorem isConstant_of_beq (h : u == t) : u.isConstant = t.isConstant := by
  cases u with
  | literal x =>
      obtain ⟨y, rfl, -⟩ := Expr.literal_beq.mp h
      rfl
  | _ =>
      cases t with
      | literal y => cases h
      | _ => rfl

theorem earlierEqual_iff (h : s.simplified.entries = before ++ (n, t) :: after) :
    EarlierEqual s n m ↔ ∃ u, (m, u) ∈ before ∧ u == t := by
  constructor
  · rintro ⟨before', t', after', u, h', hm, heq⟩
    have hother : (n, t) ∉ before' ++ after' := fun hmem =>
      not_mem_names_of_split h' (List.mem_map_of_mem (f := Prod.fst) hmem)
    rw [List.mem_append, not_or] at hother
    obtain ⟨rfl, hsame, -⟩ := (List.append_cons_inj_of_notMem hother.1 hother.2).mp (h'.symm.trans h)
    cases hsame
    exact ⟨u, hm, heq⟩
  · rintro ⟨u, hm, heq⟩
    exact ⟨before, t, after, u, h, hm, heq⟩

/-- A candidate of the size of the tree is equal to it, and comes earlier. -/
theorem beq_of_mem_candidates {c : String × Expr} (hc : c ∈ candidates t before after)
    (hsize : t.nodeCount ≤ c.2.nodeCount) : c ∈ before ∧ c.2 == t := by
  obtain ⟨hmem, -, hcontains⟩ := mem_candidates.mp hc
  have heq : c.2 == t := by
    rcases Expr.beq_or_nodeCount_lt hcontains with heq | hlt
    · exact Expr.beq_symm heq
    · exact absurd hsize (Nat.not_le_of_lt hlt)
  exact ⟨hmem.resolve_right fun hlater => hlater.2 heq, heq⟩

/-- The first of the earlier equal formulas, by their names, is tried first. -/
theorem exists_candidates_eq_cons (h : s.simplified.entries = before ++ (n, t) :: after) (hconstant : ¬ t.isConstant)
    (hsome : ∃ k, EarlierEqual s n k) :
    ∃ m u rest, candidates t before after = (m, u) :: rest ∧ (m, u) ∈ before ∧ u == t ∧
      ∀ k, EarlierEqual s n k → m ≤ k := by
  have hcandidate {k : String} {w : Expr} (hk : (k, w) ∈ before) (hw : w == t) : (k, w) ∈ candidates t before after := by
    refine mem_candidates.mpr ⟨.inl hk, by rwa [isConstant_of_beq hw], ?_⟩
    exact Expr.contains_iff_children.mpr (.inl (Expr.beq_symm hw))
  obtain ⟨k, hk⟩ := hsome
  obtain ⟨w, hmem, hw⟩ := (earlierEqual_iff h).mp hk
  have hsorted := pairwise_candidates t before after
  cases hcs : candidates t before after with
  | nil => exact absurd (hcandidate hmem hw) (by simp [hcs])
  | cons c rest =>
      obtain ⟨m, u⟩ := c
      rw [hcs, List.pairwise_cons] at hsorted
      have hhead : (m, u) ∈ candidates t before after := hcs ▸ List.mem_cons_self
      have hfirst {k : String} {w : Expr} (hk : (k, w) ∈ before) (hw : w == t) :
          t.nodeCount ≤ u.nodeCount ∧ m ≤ k := by
        have hsize := Expr.nodeCount_of_beq hw
        rcases List.mem_cons.mp (hcs ▸ hcandidate hk hw) with heq | hrest
        · cases heq
          exact ⟨Nat.le_of_eq hsize.symm, String.le_refl _⟩
        · rcases precedes_iff.mp (hsorted.1 _ hrest) with hlarger | ⟨hsame, hle⟩
          · have hcontained := Expr.nodeCount_le_of_contains (mem_candidates.mp hhead).2.2
            exact absurd (hsize ▸ hlarger) (Nat.not_lt_of_le hcontained)
          · exact ⟨Nat.le_of_eq (hsize.symm.trans hsame.symm), hle⟩
      obtain ⟨hm, heq⟩ := beq_of_mem_candidates hhead (hfirst hmem hw).1
      refine ⟨m, u, rest, rfl, hm, heq, fun k hk => ?_⟩
      obtain ⟨w, hmem, hw⟩ := (earlierEqual_iff h).mp hk
      exact (hfirst hmem hw).2

/-! ## The graph at the turn of a formula -/

/-- The graph has the references of the simplified formulas, and for the formulas `before` references to candidates that
close no cycle. -/
structure AtTurn (s : FormulaSet) (before rest : List (String × Expr)) (g : ReferenceGraph) : Prop where
  guarded : ReferenceGraph.Guarded (.ofFormulas s.simplified) g
  edges : ∀ x y, (x, y) ∈ g.edges → s.simplified.Refers x y ∨
    ∃ front u back w, before = front ++ (x, u) :: back ∧ (y, w) ∈ candidates u front (back ++ rest)

theorem AtTurn.ofFormulas (before rest : List (String × Expr)) : AtTurn s before rest (.ofFormulas s.simplified) :=
  ⟨.refl _, fun _ _ he => .inl (mem_ofFormulas.mp he)⟩

theorem AtTurn.substitute {rest front back : List (String × Expr)} (h : s.simplified.entries = before ++ rest)
    (hbefore : before = front ++ (m, u) :: back) {c : String × Expr} (hc : c ∈ candidates u front (back ++ rest))
    {state : Expr × ReferenceGraph} (hstate : AtTurn s before rest state.2) :
    AtTurn s before rest (substitute m state c).2 := by
  constructor
  · have hmem : c ∈ s.simplified.entries := by
      rw [h, hbefore]
      rcases (mem_candidates.mp hc).1 with hfront | ⟨hlater, -⟩
      · simp [hfront]
      · rcases List.mem_append.mp hlater with hback | hrest
        · simp [hback]
        · simp [hrest]
    exact (substitute_run hmem state).preserves (preserved_guarded _) hstate.guarded
  · intro x y he
    unfold FormulaSet.substitute at he
    split at he
    · rcases List.mem_cons.mp he with heq | he
      · cases heq
        exact .inr ⟨front, u, back, c.2, hbefore, hc⟩
      · exact hstate.edges x y he
    · exact hstate.edges x y he

theorem AtTurn.acyclic {rest : List (String × Expr)} {g : ReferenceGraph} (h : AtTurn s before rest g)
    (hacyclic : ∀ k, ¬ TransGen s.simplified.Refers k k) (hrefers : s.simplified.Refers n m) : ¬ LeadsTo g.edges m n := by
  intro hpath
  have hedge : (n, m) ∈ g.edges := h.guarded.base_subset (mem_ofFormulas.mpr hrefers)
  have hcycle := h.guarded.path_of_return (TransGen.head' hedge hpath) .refl
  exact hacyclic n (TransGen.mono (fun _ _ => mem_ofFormulas.mp) _ _ hcycle)

/-- No path leads to `n` from a formula whose tree occurs in its own. -/
theorem AtTurn.not_leadsTo {g : ReferenceGraph} (hturn : AtTurn s before ((n, t) :: after) g)
    (h : s.simplified.entries = before ++ (n, t) :: after) (hacyclic : ∀ k, ¬ TransGen s.simplified.Refers k k)
    (hm : s.simplified.get? m = some u) (hu : t.contains u) (hne : m ≠ n) : ¬ LeadsTo g.edges m n := by
  intro hpath
  induction hpath using ReflTransGen.head_induction_on generalizing u with
  | refl => exact hne rfl
  | @head x y he hpath ih =>
      have hn := get?_of_split h
      rcases hturn.edges x y he with ⟨u', hu', hmem, hy⟩ | ⟨front, u', back, w, hbefore, hw⟩
      -- What the formula refers to, `n` refers to as well, and so closes a cycle.
      · cases hu'.symm.trans hm
        exact hturn.acyclic hacyclic ⟨t, hn, Expr.events_of_contains hu hmem, hy⟩ hpath
      · have hsplit : s.simplified.entries = front ++ (x, u') :: (back ++ (n, t) :: after) := by simp [h, hbefore]
        obtain rfl := Option.some.inj (hm.symm.trans (get?_of_split hsplit))
        have hcandidate := candidate_of_mem hsplit hw
        by_cases hyn : y = n
        -- `n` is no candidate for an earlier formula of the same size.
        · subst hyn
          obtain rfl := Option.some.inj (hn.symm.trans hcandidate.definition)
          have hsize : u.nodeCount ≤ t.nodeCount := Expr.nodeCount_le_of_contains hu
          have hfront := (beq_of_mem_candidates hw hsize).1
          refine not_mem_names_of_split h ?_
          simp only [hbefore, List.map_append, List.mem_append]
          exact .inl (.inl (List.mem_map_of_mem (f := Prod.fst) hfront))
        · exact ih hcandidate.definition (Expr.contains_trans hu hcandidate.occurs) hyn

/-! ## The new tree of a formula -/

/-- A formula is not referred to in a tree equal to its own. -/
theorem ref_not_mem_events (hacyclic : ∀ k, ¬ TransGen s.simplified.Refers k k) (hm : s.simplified.get? m = some u)
    (heq : u == t) : Event.bare m ∉ t.events := by
  intro hmem
  rw [← Expr.events_of_beq heq] at hmem
  exact hacyclic m (.single ⟨u, hm, hmem, Table.contains_iff.mpr ⟨u, hm⟩⟩)

/-- The reference to the first equal formula takes the place of the whole tree and stays. -/
theorem afterTurn_eq_ref {g : ReferenceGraph} (hturn : AtTurn s before ((n, t) :: after) g)
    (h : s.simplified.entries = before ++ (n, t) :: after) (hacyclic : ∀ k, ¬ TransGen s.simplified.Refers k k)
    {rest : List (String × Expr)} (hcs : candidates t before after = (m, u) :: rest) (heq : u == t) :
    afterTurn g before n t after = .ref m := by
  have hhead : (m, u) ∈ candidates t before after := hcs ▸ List.mem_cons_self
  have hm := candidate_of_mem h hhead
  have hpath : ¬ g.reaches m n := by
    rw [ReferenceGraph.reaches, ReferenceGraph.search_iff]
    simpa using hturn.not_leadsTo h hacyclic hm.definition hm.occurs hm.ne
  have hfirst : (substitute n (t, g) (m, u)).1 = .ref m := by
    rw [substitute, if_pos (by simp [hm.occurs, hpath])]
    exact Expr.replace_of_beq (Expr.beq_symm heq) _
  rw [afterTurn, hcs, List.foldl_cons]
  refine foldl_substitute_induction (Q := (· = .ref m)) (fun c hc tree hcontains htree => ?_) hfirst
  -- Another candidate in its place would be the reference itself, which is not in the tree.
  subst htree
  have hc' := candidate_of_mem h (hcs ▸ List.mem_cons_of_mem _ hc)
  have hmem : Event.bare m ∈ t.events := by
    apply Expr.events_of_contains hc'.occurs
    rw [Expr.event_beq.mp hcontains]
    exact List.mem_singleton_self _
  exact absurd hmem (ref_not_mem_events hacyclic hm.definition heq)

/-- A new tree that is a reference was one before, or the reference is to a candidate. -/
theorem mem_candidates_of_afterTurn_eq_ref {g : ReferenceGraph} (h : afterTurn g before n t after = .ref m) :
    t = .ref m ∨ ∃ u, (m, u) ∈ candidates t before after := by
  refine foldl_substitute_induction (Q := fun tree => tree = .ref m → t = .ref m ∨ ∃ u, (m, u) ∈ candidates t before after)
    (fun c hc tree _ ih hnew => ?_) .inl h
  rcases Expr.event_of_replace hnew with hold | hbare
  · exact ih hold
  · cases hbare
    exact .inr ⟨c.2, hc⟩

/-- In a set without cycles, a formula that equals an earlier one becomes a reference, to the first of the earlier equal
formulas by their names. Without an earlier equal formula, none becomes a reference to an equal one. -/
theorem crossReference_duplicates (ht : s.simplified.get? n = some t) :
    ((∀ k, ¬ TransGen s.simplified.Refers k k) → ¬ t.isConstant → (∃ m, EarlierEqual s n m) →
        ∃ m, EarlierEqual s n m ∧ (∀ k, EarlierEqual s n k → m ≤ k) ∧
          Entries.find? n s.crossReference = some (.ref m)) ∧
      ((∀ m, ¬ EarlierEqual s n m) → ∀ m u, s.simplified.get? m = some u → u == t →
        Entries.find? n s.crossReference ≠ some (.ref m)) := by
  obtain ⟨before, after, h⟩ := List.append_of_mem (Table.get?_eq_some.mp ht)
  obtain ⟨g, hturn, hfind⟩ := find?_crossReference (P := AtTurn s before ((n, t) :: after)) h
    (fun front m u back hbefore c hc state hstate => hstate.substitute h hbefore hc) (.ofFormulas _ _)
  constructor
  · intro hacyclic hconstant hsome
    obtain ⟨m, u, rest, hcs, hm, heq, hleast⟩ := exists_candidates_eq_cons h hconstant hsome
    refine ⟨m, (earlierEqual_iff h).mpr ⟨u, hm, heq⟩, hleast, ?_⟩
    have hnew := afterTurn_eq_ref hturn h hacyclic hcs heq
    have hne : ¬ Expr.ref m == t := by
      intro hsame
      obtain rfl := Expr.event_beq.mp hsame
      have hdefinition := (candidate_of_mem h (hcs ▸ List.mem_cons_self)).definition
      exact ref_not_mem_events hacyclic hdefinition heq (List.mem_singleton_self _)
    rw [hfind, hnew, if_pos (by simpa [bne] using hne)]
  · intro hnone m u hm heq hnew
    rw [hfind] at hnew
    split at hnew
    · rename_i hchanged
      have hafter := Option.some.inj hnew
      rcases mem_candidates_of_afterTurn_eq_ref hafter with rfl | ⟨w, hw⟩
      · rw [hafter] at hchanged
        simp [bne, Expr.ref, Expr.event_beq_event] at hchanged
      · obtain rfl := Option.some.inj (hm.symm.trans (candidate_of_mem h hw).definition)
        have hsize := Nat.le_of_eq (Expr.nodeCount_of_beq heq).symm
        exact hnone m ((earlierEqual_iff h).mpr ⟨u, (beq_of_mem_candidates hw hsize).1, heq⟩)
    · cases hnew

/-- The same rate by three names. -/
def equalRates : FormulaSet :=
  let rate : Expr := .binary .div (.ref "x") (.ref "y")
  .ofList [("z_rate", rate), ("a_rate", rate), ("second", rate)]

theorem crossReference_duplicates_equalRates :
    (∀ k, ¬ TransGen equalRates.simplified.Refers k k) ∧
      Entries.find? "second" equalRates.crossReference = some (.ref "a_rate") ∧
      (∀ m, ¬ EarlierEqual equalRates "z_rate" m) ∧
      Entries.find? "z_rate" equalRates.crossReference ≠ some (.ref "a_rate") := by
  have hacyclic : ∀ k, ¬ TransGen equalRates.simplified.Refers k k := acyclic_of_isEmpty (by decide +kernel)
  let rate : Expr := .binary .div (.ref "x") (.ref "y")
  have hlast : equalRates.simplified.entries = [("z_rate", rate), ("a_rate", rate)] ++ ("second", rate) :: [] := rfl
  have hfirst : equalRates.simplified.entries = [] ++ ("z_rate", rate) :: [("a_rate", rate), ("second", rate)] := rfl
  have hearlier : EarlierEqual equalRates "second" "a_rate" := (earlierEqual_iff hlast).mpr ⟨rate, by simp, rfl⟩
  have hnone (m : String) : ¬ EarlierEqual equalRates "z_rate" m := by simp [earlierEqual_iff hfirst]
  obtain ⟨hduplicate, -⟩ := crossReference_duplicates (get?_of_split hlast)
  obtain ⟨m, hm, hleast, hnew⟩ := hduplicate hacyclic (by decide) ⟨_, hearlier⟩
  have hname : m = "a_rate" := by
    obtain ⟨u, hmem, -⟩ := (earlierEqual_iff hlast).mp hm
    simp only [List.mem_cons, Prod.mk.injEq, List.not_mem_nil, or_false] at hmem
    rcases hmem with ⟨rfl, -⟩ | ⟨rfl, -⟩
    · exact absurd (hleast _ hearlier) (by decide)
    · rfl
  refine ⟨hacyclic, hname ▸ hnew, hnone, ?_⟩
  have hequal : equalRates.simplified.get? "a_rate" = some rate := rfl
  exact (crossReference_duplicates (get?_of_split hfirst)).2 hnone "a_rate" rate hequal rfl

end MetricFormula.FormulaSet
