import MetricFormula.Proofs.FormulaSet.Candidates

/-!
# Questions about the presence of events

A reference has the value of the tree it is put in for, but it is not the event that a call asks about. The rewriting
leaves these calls as they are, unless a formula of the set is itself what one of them asks about.
-/

namespace MetricFormula

open Relation (ReflTransGen)

namespace Expr

/-- The calls of the tree that ask about the presence of events, with their arguments. -/
def queries (e : Expr) : List (Builtin × List Expr) :=
  e.subtrees.filterMap fun
    | .call f as => if f.takesEvent then some (f, as) else none
    | _ => none

theorem mem_queries {e : Expr} {f : Builtin} {as : List Expr} :
    (f, as) ∈ e.queries ↔ f.takesEvent ∧ call f as ∈ e.subtrees := by
  rw [queries, List.mem_filterMap]
  constructor
  · rintro ⟨w, hw, hquery⟩
    split at hquery
    · split at hquery
      · rename_i hf
        cases hquery
        exact ⟨hf, hw⟩
      · cases hquery
    · cases hquery
  · rintro ⟨hf, hw⟩
    exact ⟨call f as, hw, if_pos hf⟩

/-- Every call that asks after a substitution asked before, about the arguments before. -/
theorem mem_queries_replace {t n : Expr} {m : String} {f : Builtin} {bs : List Expr}
    (h : (f, bs) ∈ (t.replace n (.ref m)).queries) : ∃ as, (f, as) ∈ t.queries ∧ bs = replaceList as n (.ref m) := by
  obtain ⟨hf, hmem⟩ := mem_queries.mp h
  obtain ⟨x, hx, hcall⟩ := mem_subtrees_replace hmem
  obtain ⟨as, rfl, hbs⟩ := call_of_replace hcall.symm
  exact ⟨as, mem_queries.mpr ⟨hf, hx⟩, hbs.symm⟩

end Expr

namespace FormulaSet

variable {s : FormulaSet} {n : String} {t : Expr}

/-- A reference is put into the arguments of a call, in the place of a candidate for `n`. -/
def Renames (s : FormulaSet) (n : String) (t : Expr) (as bs : List Expr) : Prop :=
  ∃ m u, Candidate s n t m u ∧ Expr.containsList as u ∧ bs = Expr.replaceList as u (.ref m)

/-- The questions of `tree` are those of `t`, or some of them, with arguments renamed one after another. -/
def AsksWithin (s : FormulaSet) (n : String) (t tree : Expr) : Prop :=
  ∀ f bs, (f, bs) ∈ tree.queries → ∃ as, (f, as) ∈ t.queries ∧ ReflTransGen (Renames s n t) as bs

theorem AsksWithin.replace {tree u : Expr} {m : String} (h : AsksWithin s n t tree) (hu : Candidate s n t m u) :
    AsksWithin s n t (tree.replace u (.ref m)) := by
  intro f bs hbs
  obtain ⟨cs, hcs, rfl⟩ := Expr.mem_queries_replace hbs
  obtain ⟨as, has, hrenames⟩ := h f cs hcs
  refine ⟨as, has, ?_⟩
  by_cases hcontains : Expr.containsList cs u
  · exact hrenames.tail ⟨m, u, hu, hcontains, rfl⟩
  · rw [Expr.replaceList_eq_self hcontains]
    exact hrenames

theorem asksWithin_crossReference {d : Expr} (ht : s.simplified.get? n = some t) (hd : (n, d) ∈ s.crossReference) :
    AsksWithin s n t d :=
  crossReference_induction (fun _ _ hu _ _ htree => htree.replace hu) ht hd fun _ bs h => ⟨bs, h, .refl⟩

/-- The calls of a new tree that ask about presence are calls of the simplified tree, with references put into their
arguments one after another. They are the same calls if no other formula is found in what one of them asks about. -/
theorem queries_crossReference {d : Expr} (hd : (n, d) ∈ s.crossReference) :
    ∃ t, s.simplified.get? n = some t ∧
      (∀ f bs, (f, bs) ∈ d.queries → ∃ as, (f, as) ∈ t.queries ∧ ReflTransGen (Renames s n t) as bs) ∧
      ((∀ f as, (f, as) ∈ t.queries → ∀ m u, Candidate s n t m u → ¬ Expr.containsList as u) →
        d.queries ⊆ t.queries) := by
  obtain ⟨t, ht⟩ := exists_simplified_of_mem hd
  have hrenamed := asksWithin_crossReference ht hd
  refine ⟨t, ht, hrenamed, fun hfree ⟨f, bs⟩ hq => ?_⟩
  obtain ⟨as, has, hrenames⟩ := hrenamed f bs hq
  rcases hrenames.cases_head with rfl | ⟨_, ⟨m, u, hu, hcontains, -⟩, -⟩
  · exact has
  · exact absurd hcontains (hfree f as has m u hu)

/-- A rate, and the same rate for machines that have its first event. -/
def guardedRate : FormulaSet :=
  .ofList [("Rate", .binary .div (.ref "x") (.ref "y")),
    ("Guarded", .conditional (.binary .div (.ref "x") (.ref "y")) (.call .hasEvent [.ref "x"]) (.literal 0))]

theorem queries_crossReference_guardedRate :
    ∃ d, ("Guarded", d) ∈ guardedRate.crossReference ∧ d.print = "Rate if has_event(x) else 0" ∧
      d.queries ⊆ [(.hasEvent, [.ref "x"])] := by
  have hnew : (Entries.find? "Guarded" guardedRate.crossReference).any
      (·.print == "Rate if has_event(x) else 0") := by decide +kernel
  obtain ⟨d, hd, hprint⟩ := (Option.any_eq_true _ _).mp hnew
  have hmem := Entries.mem_of_find? hd
  obtain ⟨t, ht, -, hkept⟩ := queries_crossReference hmem
  have hqueries : t.queries = [(.hasEvent, [.ref "x"])] := by
    cases ht
    rfl
  rw [hqueries] at hkept
  refine ⟨d, hmem, eq_of_beq hprint, hkept fun f as has m u hu => ?_⟩
  obtain ⟨rfl, rfl⟩ := Prod.mk.inj (List.mem_singleton.mp has)
  have hothers : ∀ c ∈ guardedRate.simplified.entries, c.1 ≠ "Guarded" → ¬ Expr.containsList [.ref "x"] c.2 := by
    decide +kernel
  exact hothers (m, u) (Table.get?_eq_some.mp hu.definition) hu.ne

/-- One formula is an event, and another asks whether there is this event. -/
def aliasedEvent : FormulaSet := .ofList [("M", .ref "x"), ("T", .call .hasEvent [.ref "x"])]

theorem queries_not_kept :
    ∃ d t, ("T", d) ∈ aliasedEvent.crossReference ∧ aliasedEvent.simplified.get? "T" = some t ∧
      (.hasEvent, [.ref "M"]) ∈ d.queries ∧ (.hasEvent, [.ref "M"]) ∉ t.queries := by
  have hnew : (Entries.find? "T" aliasedEvent.crossReference).any (· == .call .hasEvent [.ref "M"]) := by decide +kernel
  obtain ⟨d, hd, hequal⟩ := (Option.any_eq_true _ _).mp hnew
  obtain ⟨bs, rfl, hbs⟩ := Expr.call_beq.mp (Expr.beq_symm hequal)
  obtain ⟨b, rest, rfl, hb, hrest⟩ := Expr.cons_equalList.mp hbs
  obtain rfl := Expr.event_beq.mp hb
  obtain rfl := Expr.nil_equalList.mp hrest
  refine ⟨_, .call .hasEvent [.ref "x"], Entries.mem_of_find? hd, rfl, List.mem_singleton_self _, fun h => ?_⟩
  have hargs : [Expr.ref "M"] = [Expr.ref "x"] := congrArg Prod.snd (List.mem_singleton.mp h)
  simp [Expr.ref, Event.bare] at hargs

end FormulaSet

end MetricFormula
