import MetricFormula.Proofs.Distinct
import MetricFormula.Proofs.FormulaSet.Rewriting

/-!
# Sets of formulas and what was stored in them

A set of formulas is known by the record of what was stored: its names stand in the order in which they were stored for
the first time, and each has the definition that was stored for it last. What is refused is not recorded.
-/

namespace MetricFormula.FormulaSet

/-- What can be done to a set of formulas. -/
inductive Operation where
  | push (name : String) (e : Expr)
  | pushText (name text : String)
  | insert (name : String) (e : Expr)
  /-- The set is made anew from a list. -/
  | collect (formulas : List (String × Expr))

inductive Answer where
  | done
  | refused (error : FormulaError)
  /-- The definition that the name had before. -/
  | replaced (former : Option Expr)

/-- Where nothing is added the set stays as it is. -/
def orRefused (s : FormulaSet) : Except FormulaError FormulaSet → FormulaSet × Answer
  | .ok t => (t, .done)
  | .error e => (s, .refused e)

def Operation.apply (s : FormulaSet) : Operation → FormulaSet × Answer
  | .push name e => orRefused s (s.push name e)
  | .pushText name text => orRefused s (s.pushText name text)
  | .insert name e => (s.insert name e, .replaced (s.get? name))
  | .collect formulas => (.ofList formulas, .done)

/-- The set after some operations, and their answers. -/
def applyAll (s : FormulaSet) : List Operation → FormulaSet × List Answer
  | [] => (s, [])
  | op :: ops =>
    let (t, answer) := op.apply s
    let (u, answers) := applyAll t ops
    (u, answer :: answers)

/-! ## Records -/

/-- The definition that was stored last for a name. -/
def lastStored (name : String) (log : List (String × Expr)) : Option Expr := Entries.find? name log.reverse

/-- What an operation makes of the record of the formulas stored so far, and its answer. A text that cannot be read is
refused before its name is looked at. -/
inductive Records : List (String × Expr) → Operation → List (String × Expr) → Answer → Prop where
  | pushed {log name e} : name ∉ log.map Prod.fst → Records log (.push name e) (log ++ [(name, e)]) .done
  | taken {log name e} : name ∈ log.map Prod.fst → Records log (.push name e) log (.refused (.duplicateName name))
  | unreadable {log name text error} : parse text = .error error →
      Records log (.pushText name text) log (.refused (.malformed error))
  | read {log log' name text e answer} : parse text = .ok e → Records log (.push name e) log' answer →
      Records log (.pushText name text) log' answer
  | inserted {log name e} : Records log (.insert name e) (log ++ [(name, e)]) (.replaced (lastStored name log))
  | collected {log formulas} : Records log (.collect formulas) formulas .done

/-- Operations one after another. -/
inductive History : List (String × Expr) → List Operation → List (String × Expr) → List Answer → Prop where
  | nil {log} : History log [] log []
  | cons {log log' log'' op ops answer answers} : Records log op log' answer → History log' ops log'' answers →
      History log (op :: ops) log'' (answer :: answers)

/-- The set is what a record says. -/
structure Follows (s : FormulaSet) (log : List (String × Expr)) : Prop where
  names : s.names = (log.map Prod.fst).eraseDups
  get? : ∀ n, s.get? n = lastStored n log

variable {s : FormulaSet} {log : List (String × Expr)} {name : String} {e : Expr}

theorem lastStored_concat (log : List (String × Expr)) (name : String) (e : Expr) (n : String) :
    lastStored n (log ++ [(name, e)]) = if n = name then some e else lastStored n log := by
  simp only [lastStored, List.reverse_append, List.reverse_singleton, List.singleton_append, Entries.find?, eq_comm]

theorem follows_empty : Follows .empty [] := ⟨rfl, fun _ => rfl⟩

theorem Follows.contains_iff (h : Follows s log) : s.contains name ↔ name ∈ log.map Prod.fst := by
  rw [Table.contains_iff_mem_names, h.names, List.mem_eraseDups]

theorem Follows.insert (h : Follows s log) (name : String) (e : Expr) :
    Follows (s.insert name e) (log ++ [(name, e)]) := by
  refine ⟨?_, fun n => by rw [Table.get?_insert, lastStored_concat, h.get?]⟩
  rw [List.map_append, List.map_singleton]
  by_cases hname : name ∈ log.map Prod.fst
  · have hmem : name ∈ s.names := Table.contains_iff_mem_names.mp (h.contains_iff.mpr hname)
    have hsame : (s.insert name e).names = s.names := Entries.names_insert e hmem
    rw [hsame, h.names, eraseDups_append_of_subset (List.cons_subset.mpr ⟨hname, List.nil_subset _⟩)]
  · have hnew : ¬ s.contains name := fun hcontains => hname (h.contains_iff.mp hcontains)
    rw [Table.names, Table.entries_insert s e hnew, List.map_append, List.map_singleton,
      eraseDups_concat_of_not_mem hname, ← h.names, Table.names]

theorem Follows.insertAll (h : Follows s log) (formulas : List (String × Expr)) :
    Follows (s.insertAll formulas) (log ++ formulas) := by
  induction formulas generalizing s log with
  | nil => exact (List.append_nil log).symm ▸ h
  | cons f rest ih =>
      obtain ⟨name, e⟩ := f
      have hrest := ih (h.insert name e)
      rwa [List.append_assoc, List.singleton_append] at hrest

/-! ## One operation -/

theorem Follows.push (h : Follows s log) (name : String) (e : Expr) :
    ∃ log', Records log (.push name e) log' (Operation.apply s (.push name e)).2 ∧
      Follows (Operation.apply s (.push name e)).1 log' := by
  rw [Operation.apply, FormulaSet.push]
  split
  · rename_i hcontains
    exact ⟨log, .taken (h.contains_iff.mp hcontains), h⟩
  · rename_i hcontains
    exact ⟨_, .pushed fun hname => hcontains (h.contains_iff.mpr hname), h.insert name e⟩

theorem Follows.apply (h : Follows s log) (op : Operation) :
    ∃ log', Records log op log' (op.apply s).2 ∧ Follows (op.apply s).1 log' := by
  cases op with
  | push name e => exact h.push name e
  | pushText name text =>
      cases hparse : parse text with
      | error error =>
          have happly : Operation.apply s (.pushText name text) = (s, .refused (.malformed error)) := by
            simp only [Operation.apply, FormulaSet.pushText, parseFormula, hparse]
            rfl
          rw [happly]
          exact ⟨log, .unreadable hparse, h⟩
      | ok e =>
          have happly : Operation.apply s (.pushText name text) = Operation.apply s (.push name e) := by
            simp only [Operation.apply, FormulaSet.pushText, parseFormula, hparse]
            rfl
          obtain ⟨log', hrecords, hfollows⟩ := h.push name e
          rw [happly]
          exact ⟨log', .read hparse hrecords, hfollows⟩
  | insert name e =>
      rw [Operation.apply, h.get?]
      exact ⟨_, .inserted, h.insert name e⟩
  | collect formulas => exact ⟨formulas, .collected, follows_empty.insertAll formulas⟩

/-- An operation that is refused leaves the set as it is. -/
theorem apply_of_refused {op : Operation} {error : FormulaError} (h : (op.apply s).2 = .refused error) :
    (op.apply s).1 = s := by
  have horRefused {x : Except FormulaError FormulaSet} (hx : (orRefused s x).2 = .refused error) :
      (orRefused s x).1 = s := by
    cases x with
    | error => rfl
    | ok => cases hx
  cases op with
  | push => exact horRefused h
  | pushText => exact horRefused h
  | insert => cases h
  | collect => cases h

/-! ## All operations -/

theorem Follows.applyAll (h : Follows s log) (ops : List Operation) :
    ∃ log', History log ops log' (applyAll s ops).2 ∧ Follows (applyAll s ops).1 log' := by
  induction ops generalizing s log with
  | nil => exact ⟨log, .nil, h⟩
  | cons op ops ih =>
      obtain ⟨log', hrecords, hfollows⟩ := h.apply op
      obtain ⟨log'', hhistory, hfollows⟩ := ih hfollows
      exact ⟨log'', .cons hrecords hhistory, hfollows⟩

theorem applyAll_insert (s : FormulaSet) (formulas : List (String × Expr)) :
    (applyAll s (formulas.map fun (name, e) => .insert name e)).1 = s.insertAll formulas := by
  induction formulas generalizing s with
  | nil => rfl
  | cons f rest ih => exact ih (s.insert f.1 f.2)

/-- New trees are stored in the places of the names that have them, and change nothing else. -/
structure Replaces (s : FormulaSet) (updates : List (String × Expr)) (t : FormulaSet) : Prop where
  names : t.names = s.names
  updated : ∀ n e, (n, e) ∈ updates → n ∈ s.names ∧ t.get? n = some e
  kept : ∀ n, n ∉ updates.map Prod.fst → t.get? n = s.get? n

theorem replaces_insertAll {updates : List (String × Expr)} (h : (updates.map Prod.fst).Sublist s.names) :
    Replaces s updates (s.insertAll updates) := by
  have hnodup : (updates.map Prod.fst).Nodup := h.nodup s.nodup
  refine ⟨Table.names_insertAll s h.subset, fun n e he => ⟨?_, ?_⟩, fun n hn => ?_⟩
  · have hmem : (n, e).1 ∈ updates.map Prod.fst := List.mem_map_of_mem he
    exact h.subset hmem
  · rw [Table.get?_insertAll s hnodup, Entries.find?_of_mem hnodup he]
    rfl
  · rw [Table.get?_insertAll s hnodup, Entries.find?_eq_none.mpr hn]
    rfl

/-- Whatever is done to a set that was empty, it is what the record of its operations says, and they answered as the
record says. A refused operation leaves it as it is, and the new trees that it has when its formulas are expressed in
terms of each other take the places of the old ones. -/
theorem applyAll_history (ops : List Operation) :
    let s := (applyAll .empty ops).1
    (∃ log, History [] ops log (applyAll .empty ops).2 ∧ s.names = (log.map Prod.fst).eraseDups ∧
      ∀ n, s.get? n = lastStored n log) ∧
    s.names.Nodup ∧
    (∀ op error, (Operation.apply s op).2 = .refused error → (Operation.apply s op).1 = s) ∧
    Replaces s s.crossReference (applyAll s (s.crossReference.map fun (name, e) => .insert name e)).1 := by
  intro s
  obtain ⟨log, hhistory, hfollows⟩ := follows_empty.applyAll ops
  have hnames : (s.crossReference.map Prod.fst).Sublist s.names :=
    Table.names_map Expr.simplify s ▸ s.crossReference_names
  refine ⟨⟨log, hhistory, hfollows.names, hfollows.get?⟩, s.nodup, fun _ _ => apply_of_refused, ?_⟩
  rw [applyAll_insert]
  exact replaces_insertAll hnames

/-- A rate, two formulas that are refused under its name, and the same rate in percent. -/
def rateOperations : List Operation :=
  [.push "Rate" (.binary .div (.ref "x") (.ref "y")), .pushText "Rate" "x /", .push "Rate" (.ref "x"),
    .pushText "Percent" "x / y * 100"]

theorem applyAll_history_rates :
    let s := (applyAll .empty rateOperations).1
    let t := (applyAll s (s.crossReference.map fun (name, e) => .insert name e)).1
    s.names = ["Rate", "Percent"] ∧ (Operation.apply s (.push "Rate" (.ref "x"))).1 = s ∧
      t.names = ["Rate", "Percent"] ∧ t.get? "Rate" = s.get? "Rate" ∧
      ∃ e, ("Percent", e) ∈ s.crossReference ∧ t.get? "Percent" = some e := by
  intro s t
  obtain ⟨-, -, hrefused, hreplaces⟩ := applyAll_history rateOperations
  have hnames : s.names = ["Rate", "Percent"] := by decide +kernel
  have hupdates : s.crossReference.map Prod.fst = ["Percent"] := by decide +kernel
  have htaken : s.contains "Rate" := Table.contains_iff_mem_names.mpr (hnames ▸ List.mem_cons_self)
  have hpush : (Operation.apply s (.push "Rate" (.ref "x"))).2 = .refused (.duplicateName "Rate") := by
    rw [Operation.apply, push, if_pos htaken, orRefused]
  have hkept : "Rate" ∉ s.crossReference.map Prod.fst := hupdates ▸ by decide
  have hupdated : "Percent" ∈ s.crossReference.map Prod.fst := hupdates ▸ List.mem_cons_self
  obtain ⟨⟨_, e⟩, he, rfl⟩ := List.mem_map.mp hupdated
  exact ⟨hnames, hrefused _ _ hpush, hreplaces.names.trans hnames, hreplaces.kept _ hkept, e, he,
    (hreplaces.updated _ e he).2⟩

end MetricFormula.FormulaSet
