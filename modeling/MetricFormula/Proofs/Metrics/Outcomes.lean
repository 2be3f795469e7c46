import MetricFormula.Proofs.FormulaSet.Rewriting
import MetricFormula.Proofs.Metrics.TakenIn

/-!
# What becomes of the objects of a list

Every object is either written or skipped. A written object has the fields that it had, and only the formula and the
threshold of a metric are written anew.
-/

namespace MetricFormula.Metrics

/-! ## Outcomes -/

inductive Outcome where
  | written (fields : Fields)
  | skipped (name reason : String)

namespace Outcome

def written? : Outcome → Option Json
  | .written fields => some (.object fields)
  | .skipped .. => none

def skipped? : Outcome → Option (String × String)
  | .written _ => none
  | .skipped name reason => some (name, reason)

end Outcome

/-- The formula that a written object adds to the set. -/
def definition? (options : Options) : Fields × Outcome → Option (String × Expr)
  | (fields, .written _) => (metric? fields).bind fun (name, text) =>
    (prepare options text).toOption.map fun e => (name, e)
  | (_, .skipped ..) => none

/-- The name of a written metric with an unreadable threshold, and the reason. -/
def badThreshold? (options : Options) : Fields × Outcome → Option (String × String)
  | (fields, .written _) => match metric? fields, threshold? options fields with
    | some (name, _), some (.error error) => some (name, error.message)
    | _, _ => none
  | (_, .skipped ..) => none

/-- Why an object is skipped: its formula cannot be read, or a metric of the same name was written before it. -/
inductive Skips (options : Options) (objects : List Fields) (outcomes : List Outcome) (i : Nat) :
    String → String → Prop where
  | unreadable {fields name text error} : objects[i]? = some fields → metric? fields = some (name, text) →
      prepare options text = .error error → Skips options objects outcomes i name error.message
  | taken {fields name text e j fields' out text'} : objects[i]? = some fields → metric? fields = some (name, text) →
      prepare options text = .ok e → j < i → objects[j]? = some fields' → outcomes[j]? = some (.written out) →
      metric? fields' = some (name, text') →
      Skips options objects outcomes i name (FormulaError.duplicateName name).message

/-- The fields of a written object, made of those that were read. -/
structure Written (options : Options) (definitions : FormulaSet) (fields out : Fields) : Prop where
  keys : out.map Prod.fst = fields.map Prod.fst
  others : ∀ (i : Nat) key value, fields[i]? = some (key, value) → key ≠ formulaField → key ≠ thresholdField →
    out[i]? = some (key, value)
  plain : metric? fields = none → out = fields
  formula : ∀ name text, metric? fields = some (name, text) →
    ∃ e, definitions.get? name = some e ∧ Entries.find? formulaField out = some (.string e.print)
  threshold : ∀ name text, metric? fields = some (name, text) →
    Entries.find? thresholdField out = match threshold? options fields with
      | some (.ok e) => some (.string e.simplify.print)
      | _ => Entries.find? thresholdField fields

/-- The simplified formulas, expressed in terms of each other if that is asked for. -/
def finalDefinitions (options : Options) (set : FormulaSet) : FormulaSet :=
  if options.crossReference then set.finals else set.simplified

/-! ## From entries to outcomes -/

def Entry.outcome (definitions : FormulaSet) : Entry → Outcome
  | .plain fields => .written fields
  | .metric name fields _ => .written (match definitions.get? name with
    | some e => Entries.insert formulaField (.string e.print) fields
    | none => fields)
  | .refused name error => .skipped name error.message

theorem Entry.written?_outcome (definitions : FormulaSet) (entry : Entry) :
    (entry.outcome definitions).written? = entry.output? definitions := by
  cases entry with
  | plain fields => rfl
  | refused name error => rfl
  | metric name fields bad =>
      cases he : definitions.get? name with
      | none => simp only [outcome, output?, he, Outcome.written?]
      | some e => simp only [outcome, output?, he, Outcome.written?]

theorem Entry.skipped?_outcome (definitions : FormulaSet) (entry : Entry) :
    (entry.outcome definitions).skipped? = entry.skipped? := by
  cases entry <;> rfl

variable {options : Options} {definitions set set' : FormulaSet} {fields : Fields} {entry : Entry}

theorem written_metric {name text : String} {e : Expr} (hmetric : metric? fields = some (name, text))
    (he : definitions.get? name = some e) :
    Written options definitions fields
      (Entries.insert formulaField (.string e.print) (withThreshold options fields).1) where
  keys := by
    have hkeys := names_withThreshold options fields
    have hformula := mem_names_of_stringField (metric?_eq_some.mp hmetric).2
    rw [Entries.names_insert _ (hkeys ▸ hformula), hkeys]
  others i key value hi hne hne' := Entries.getElem?_insert _ (getElem?_withThreshold options hi hne') hne
  plain hno := nomatch hno.symm.trans hmetric
  formula name' text' hmetric' := by
    cases hmetric.symm.trans hmetric'
    exact ⟨e, he, by rw [Entries.find?_insert, if_pos rfl]⟩
  threshold _ _ _ := by
    rw [Entries.find?_insert, if_neg (by decide)]
    exact find?_withThreshold options fields

namespace TakesIn

theorem badThreshold?_outcome (h : TakesIn options set fields entry set') :
    badThreshold? options (fields, entry.outcome definitions) = entry.badThreshold? := by
  cases h with
  | plain hno => simp only [Entry.outcome, badThreshold?, hno, Entry.badThreshold?]
  | unreadable _ _ => rfl
  | taken _ _ _ => rfl
  | metric hmetric _ _ =>
      simp only [Entry.outcome, badThreshold?, hmetric, withThreshold]
      match threshold? options fields with
      | none => rfl
      | some (.ok t) => rfl
      | some (.error error) => rfl

theorem entries_eq (h : TakesIn options set fields entry set') (definitions : FormulaSet) :
    set'.entries = set.entries ++ (definition? options (fields, entry.outcome definitions)).toList := by
  cases h with
  | plain hno => simp [Entry.outcome, definition?, hno]
  | unreadable _ _ => simp [Entry.outcome, definition?]
  | taken _ _ _ => simp [Entry.outcome, definition?]
  | metric hmetric hprepare hset =>
      rw [Table.entries_insert _ _ hset]
      simp [Entry.outcome, definition?, hmetric, hprepare, Except.toOption]

/-- The fields that an entry gives are made of those of its object, if the name of a metric has a definition. -/
theorem written (h : TakesIn options set fields entry set') {out : Fields}
    (hdefinition : ∀ name text, metric? fields = some (name, text) → ∃ e, definitions.get? name = some e)
    (hout : entry.outcome definitions = .written out) : Written options definitions fields out := by
  cases h with
  | plain hno =>
      cases hout
      exact ⟨rfl, fun _ _ _ h _ _ => h, fun _ => rfl, fun _ _ h => (nomatch hno.symm.trans h),
        fun _ _ h => (nomatch hno.symm.trans h)⟩
  | unreadable _ _ => cases hout
  | taken _ _ _ => cases hout
  | metric hmetric _ _ =>
      obtain ⟨e, he⟩ := hdefinition _ _ hmetric
      simp only [Entry.outcome, he, Outcome.written.injEq] at hout
      rw [← hout]
      exact written_metric hmetric he

/-- A written metric has a formula that can be read. -/
theorem prepare_of_written (h : TakesIn options set fields entry set') {out : Fields}
    (hout : entry.outcome definitions = .written out) {name text : String}
    (hmetric : metric? fields = some (name, text)) : ∃ e, prepare options text = .ok e := by
  cases h with
  | plain hno => exact (nomatch hno.symm.trans hmetric)
  | unreadable _ _ => cases hout
  | taken _ _ _ => cases hout
  | metric hmetric' hprepare _ =>
      cases hmetric.symm.trans hmetric'
      exact ⟨_, hprepare⟩

end TakesIn

theorem definition?_eq_some {outcome : Outcome} {name : String} {e : Expr} :
    definition? options (fields, outcome) = some (name, e) ↔
      ∃ out text, outcome = .written out ∧ metric? fields = some (name, text) ∧ prepare options text = .ok e := by
  cases outcome with
  | skipped name' reason => exact ⟨nofun, fun ⟨_, _, h, _⟩ => (nomatch h)⟩
  | written out =>
      simp only [definition?, Option.bind_eq_some_iff, Option.map_eq_some_iff, toOption_eq_some]
      constructor
      · rintro ⟨⟨name', text⟩, hmetric, e', hprepare, heq⟩
        cases heq
        exact ⟨out, text, rfl, hmetric, hprepare⟩
      · rintro ⟨_, text, -, hmetric, hprepare⟩
        exact ⟨(name, text), hmetric, e, hprepare, rfl⟩

/-! ## Runs -/

namespace TakenIn

variable {objects : List Fields} {entries : List Entry}

theorem entries_eq (h : TakenIn options set objects entries set') (definitions : FormulaSet) :
    set'.entries =
      set.entries ++ (objects.zip (entries.map (Entry.outcome definitions))).filterMap (definition? options) := by
  induction h with
  | nil => exact (List.append_nil _).symm
  | @cons _ _ _ fields entry _ _ hstep _ ih =>
      rw [ih, hstep.entries_eq definitions, List.append_assoc, List.map_cons, List.zip_cons_cons,
        List.filterMap_cons]
      cases definition? options (fields, entry.outcome definitions) <;> rfl

theorem badThresholds_eq (h : TakenIn options set objects entries set') :
    entries.filterMap Entry.badThreshold? =
      (objects.zip (entries.map (Entry.outcome definitions))).filterMap (badThreshold? options) := by
  induction h with
  | nil => rfl
  | cons hstep _ ih =>
      rw [List.map_cons, List.zip_cons_cons, List.filterMap_cons, List.filterMap_cons, ih,
        hstep.badThreshold?_outcome]

/-- The entry of an object that has an outcome, taken in after a run over the objects before it. -/
theorem step_of_outcome (h : TakenIn options set objects entries set') {i : Nat} {outcome : Outcome}
    (hi : (entries.map (Entry.outcome definitions))[i]? = some outcome) :
    ∃ fields entry before after, objects[i]? = some fields ∧ entry.outcome definitions = outcome ∧
      TakenIn options set (objects.take i) (entries.take i) before ∧ TakesIn options before fields entry after := by
  rw [List.getElem?_map, Option.map_eq_some_iff] at hi
  obtain ⟨entry, hentry, houtcome⟩ := hi
  obtain ⟨hlt, -⟩ := List.getElem?_eq_some_iff.mp hentry
  obtain ⟨fields, hfields⟩ : ∃ fields, objects[i]? = some fields :=
    ⟨_, List.getElem?_eq_getElem (h.length_eq ▸ hlt)⟩
  obtain ⟨before, after, hbefore, hstep⟩ := h.step hfields hentry
  exact ⟨fields, entry, before, after, hfields, houtcome, hbefore, hstep⟩

/-- The names in the set are those of the metrics that are written. -/
theorem contains_iff (h : TakenIn options .empty objects entries set') (definitions : FormulaSet) {name : String} :
    set'.contains name ↔ ∃ (j : Nat) (fields : Fields) (out : Fields) (text : String), objects[j]? = some fields ∧
      (entries.map (Entry.outcome definitions))[j]? = some (.written out) ∧ metric? fields = some (name, text) := by
  have hmem (e : Expr) : (name, e) ∈ set'.entries ↔ ∃ pair,
      pair ∈ objects.zip (entries.map (Entry.outcome definitions)) ∧ definition? options pair = some (name, e) := by
    rw [h.entries_eq definitions, ← List.mem_filterMap]
    rfl
  simp only [Table.contains_iff, Table.get?_eq_some, hmem]
  constructor
  · rintro ⟨e, ⟨fields, outcome⟩, hpair, hdefinition⟩
    obtain ⟨out, text, rfl, hmetric, -⟩ := definition?_eq_some.mp hdefinition
    obtain ⟨j, hj⟩ := List.mem_iff_getElem?.mp hpair
    obtain ⟨hfields, houtcome⟩ := List.getElem?_zip_eq_some.mp hj
    exact ⟨j, fields, out, text, hfields, houtcome, hmetric⟩
  · rintro ⟨j, fields, out, text, hfields, houtcome, hmetric⟩
    obtain ⟨fields', entry, before, after, hfields', hout, -, hstep⟩ := h.step_of_outcome houtcome
    cases hfields.symm.trans hfields'
    obtain ⟨e, hprepare⟩ := hstep.prepare_of_written hout hmetric
    have hpair : (objects.zip (entries.map (Entry.outcome definitions)))[j]? = some (fields, .written out) :=
      List.getElem?_zip_eq_some.mpr ⟨hfields, houtcome⟩
    have hdefinition := definition?_eq_some.mpr ⟨out, text, rfl, hmetric, hprepare⟩
    exact ⟨e, _, List.mem_iff_getElem?.mpr ⟨j, hpair⟩, hdefinition⟩

/-- The names that are taken when it is an object's turn. -/
theorem contains_take_iff {i : Nat} (h : TakenIn options .empty (objects.take i) (entries.take i) set')
    (definitions : FormulaSet) {name : String} :
    set'.contains name ↔ ∃ (j : Nat) (fields : Fields) (out : Fields) (text : String), j < i ∧
      objects[j]? = some fields ∧ (entries.map (Entry.outcome definitions))[j]? = some (.written out) ∧
      metric? fields = some (name, text) := by
  rw [h.contains_iff definitions]
  constructor
  · rintro ⟨j, fields, out, text, hfields, hout, hmetric⟩
    rw [List.getElem?_take] at hfields
    rw [List.map_take, List.getElem?_take] at hout
    split at hfields
    · rename_i hj
      rw [if_pos hj] at hout
      exact ⟨j, fields, out, text, hj, hfields, hout, hmetric⟩
    · cases hfields
  · rintro ⟨j, fields, out, text, hj, hfields, hout, hmetric⟩
    refine ⟨j, fields, out, text, ?_, ?_, hmetric⟩
    · rw [List.getElem?_take, if_pos hj, hfields]
    · rw [List.map_take, List.getElem?_take, if_pos hj, hout]

/-- Every object has an outcome. -/
theorem exists_outcome (h : TakenIn options set objects entries set') (definitions : FormulaSet) {i : Nat}
    (hfields : objects[i]? = some fields) :
    ∃ outcome, (entries.map (Entry.outcome definitions))[i]? = some outcome := by
  obtain ⟨hlt, -⟩ := List.getElem?_eq_some_iff.mp hfields
  have hlt' : i < (entries.map (Entry.outcome definitions)).length := by rwa [List.length_map, h.length_eq]
  exact ⟨_, List.getElem?_eq_getElem hlt'⟩

/-- An object that can become an entry, once those before it are taken in, has the outcome of the entry. -/
theorem outcome_of_takesIn (h : TakenIn options set objects entries set') (definitions : FormulaSet) {i : Nat}
    (hfields : objects[i]? = some fields)
    (hstep : ∀ before, TakenIn options set (objects.take i) (entries.take i) before →
      ∃ after, TakesIn options before fields entry after) :
    (entries.map (Entry.outcome definitions))[i]? = some (entry.outcome definitions) := by
  obtain ⟨outcome, hi⟩ := h.exists_outcome definitions hfields
  obtain ⟨fields', entry', before, after', hfields', hout, hbefore, hstep'⟩ := h.step_of_outcome hi
  cases hfields.symm.trans hfields'
  obtain ⟨after, hstep⟩ := hstep before hbefore
  cases hstep.takeIn_eq.symm.trans hstep'.takeIn_eq
  rw [hi, hout]

theorem skipped_iff (h : TakenIn options .empty objects entries set') (definitions : FormulaSet) {i : Nat}
    {name reason : String} :
    (entries.map (Entry.outcome definitions))[i]? = some (.skipped name reason) ↔
      Skips options objects (entries.map (Entry.outcome definitions)) i name reason := by
  constructor
  · intro hi
    obtain ⟨fields, entry, before, after, hfields, hout, hbefore, hstep⟩ := h.step_of_outcome hi
    cases hstep with
    | plain _ => cases hout
    | unreadable hmetric hprepare =>
        cases hout
        exact .unreadable hfields hmetric hprepare
    | taken hmetric hprepare hset =>
        cases hout
        obtain ⟨j, _, _, _, hj, hfields', hout', hmetric'⟩ := (hbefore.contains_take_iff definitions).mp hset
        exact .taken hfields hmetric hprepare hj hfields' hout' hmetric'
    | metric _ _ _ => cases hout
  · intro hskips
    cases hskips with
    | unreadable hfields hmetric hprepare =>
        exact h.outcome_of_takesIn definitions hfields fun _ _ => ⟨_, .unreadable hmetric hprepare⟩
    | taken hfields hmetric hprepare hj hfields' hout hmetric' =>
        refine h.outcome_of_takesIn definitions hfields fun before hbefore => ⟨_, .taken hmetric hprepare ?_⟩
        exact (hbefore.contains_take_iff definitions).mpr ⟨_, _, _, _, hj, hfields', hout, hmetric'⟩

/-- What is written of an object, if every name in the set has a definition. -/
theorem written (h : TakenIn options .empty objects entries set')
    (hdefinitions : ∀ name, set'.contains name → ∃ e, definitions.get? name = some e) {i : Nat} {out : Fields}
    (hfields : objects[i]? = some fields)
    (hi : (entries.map (Entry.outcome definitions))[i]? = some (.written out)) :
    Written options definitions fields out := by
  obtain ⟨fields', entry, before, after, hfields', hout, hbefore, hstep⟩ := h.step_of_outcome hi
  cases hfields.symm.trans hfields'
  refine hstep.written (fun name text hmetric => hdefinitions name ?_) hout
  exact (h.contains_iff definitions).mpr ⟨i, fields, out, text, hfields, hi, hmetric⟩

end TakenIn

theorem exists_finalDefinition {name : String} (h : set.contains name) :
    ∃ e, (finalDefinitions options set).get? name = some e := by
  obtain ⟨t, ht⟩ := Table.contains_iff.mp h
  have hsimplified := FormulaSet.get?_simplified.mpr ⟨t, ht, rfl⟩
  unfold finalDefinitions
  split
  · exact FormulaSet.exists_finals hsimplified
  · exact ⟨_, hsimplified⟩

/-- Every object of a list is written or skipped, in order, and nothing else is. -/
theorem process_outcomes (options : Options) (metrics : List Json) :
    ∃ (set : FormulaSet) (outcomes : List Outcome),
      outcomes.length = (objects metrics).length ∧
      (process options metrics).metrics = outcomes.filterMap Outcome.written? ∧
      (process options metrics).skipped = outcomes.filterMap Outcome.skipped? ∧
      (process options metrics).badThresholds =
        ((objects metrics).zip outcomes).filterMap (badThreshold? options) ∧
      set.entries = ((objects metrics).zip outcomes).filterMap (definition? options) ∧
      (∀ i name reason, outcomes[i]? = some (.skipped name reason) ↔
        Skips options (objects metrics) outcomes i name reason) ∧
      ∀ (i : Nat) fields out, (objects metrics)[i]? = some fields → outcomes[i]? = some (.written out) →
        Written options (finalDefinitions options set) fields out := by
  have h : TakenIn options .empty (objects metrics) _ _ := takenIn_takeInAll .empty metrics
  obtain ⟨entries, hentries⟩ : ∃ entries, (takeInAll options .empty metrics).1 = entries := ⟨_, rfl⟩
  obtain ⟨set, hset⟩ : ∃ set, (takeInAll options .empty metrics).2 = set := ⟨_, rfl⟩
  rw [hentries, hset] at h
  have hdefinitions : (set.map Expr.simplify).insertAll (if options.crossReference then set.crossReference else []) =
      finalDefinitions options set := by
    unfold finalDefinitions
    cases options.crossReference <;> rfl
  refine ⟨set, entries.map (Entry.outcome (finalDefinitions options set)), ?_, ?_, ?_, ?_, ?_, ?_, ?_⟩
  · rw [List.length_map, h.length_eq]
  · simp only [process, hentries, hset, hdefinitions, List.filterMap_map]
    congr
    funext entry
    exact (entry.written?_outcome _).symm
  · simp only [process, hentries, List.filterMap_map]
    congr
    funext entry
    exact (entry.skipped?_outcome _).symm
  · simp only [process, hentries]
    exact h.badThresholds_eq
  · exact h.entries_eq _
  · exact fun i name reason => h.skipped_iff _
  · exact fun i fields out => h.written fun name => exists_finalDefinition

end MetricFormula.Metrics
