import MetricFormula.Proofs.Metrics.Outcomes

/-!
# The report of a run

A report is made of the entries of a run and the set at its end. Whether an event is unknown depends on its name, not on
the definition that refers to it.
-/

namespace MetricFormula.Metrics

/-! ## Reports -/

/-- The report on a run with these entries and this set at the end. -/
def Report.ofRun (options : Options) (entries : List Entry) (set : FormulaSet) : Report where
  metrics := entries.filterMap (Entry.output? (finalDefinitions options set))
  skipped := entries.filterMap Entry.skipped?
  badThresholds := entries.filterMap Entry.badThreshold?
  unknownEvents := match options.catalog with
    | some catalog => Metrics.unknownEvents catalog (finalDefinitions options set)
    | none => []
  crossReferenced := if options.crossReference then set.crossReference.map Prod.fst else []

theorem process_eq_ofRun (options : Options) (metrics : List Json) :
    process options metrics =
      .ofRun options (takeInAll options .empty metrics).1 (takeInAll options .empty metrics).2 := by
  unfold process Report.ofRun finalDefinitions
  cases options.crossReference <;> rfl

/-! ## The fields of a metric -/

section

variable {fields : Fields} {key name text : String}

theorem stringField?_eq_some :
    Json.stringField? key fields = some text ↔ Entries.find? key fields = some (.string text) := by
  rw [Json.stringField?, Option.bind_eq_some_iff]
  constructor
  · rintro ⟨value, hvalue, hstring⟩
    cases value with
    | string _ => cases hstring; exact hvalue
    | _ => cases hstring
  · exact fun h => ⟨_, h, rfl⟩

theorem stringField?_insert (key' : String) (value : Json) :
    Json.stringField? key (Entries.insert key' value fields) =
      if key = key' then value.string? else Json.stringField? key fields := by
  rw [Json.stringField?, Entries.find?_insert]
  split
  · rfl
  · rfl

theorem metric?_insert_formula (h : metric? fields = some (name, text)) (text' : String) :
    metric? (Entries.insert formulaField (.string text') fields) = some (name, text') := by
  obtain ⟨hname, -⟩ := metric?_eq_some.mp h
  refine metric?_eq_some.mpr ⟨?_, ?_⟩
  · rw [stringField?_insert, if_neg (by decide)]
    exact hname
  · rw [stringField?_insert, if_pos rfl]
    rfl

theorem metric?_withThreshold (options : Options) (fields : Fields) :
    metric? (withThreshold options fields).1 = metric? fields := by
  unfold withThreshold
  split
  · rfl
  · simp only [metric?, stringField?_insert, if_neg (show ¬ nameField = thresholdField by decide),
      if_neg (show ¬ formulaField = thresholdField by decide)]
  · rfl

end

/-! ## Unknown events -/

/-- The name of no constant, of no definition and of no event in the catalog. -/
structure Unknown (catalog : EventCatalog) (definitions : FormulaSet) (event : String) : Prop where
  constant : event.toList.head? ≠ some '#'
  metric : ∀ name, definitions.contains name → foldCase name ≠ foldCase event
  event : ¬ catalog.contains event

theorem mem_unknownIn {catalog : EventCatalog} {definitions : FormulaSet} {e : Expr} {event : String} :
    event ∈ unknownIn catalog (definitions.names.map foldCase) e ↔
      (∃ r ∈ e.events, r.name = event) ∧ Unknown catalog definitions event := by
  have hmetric : foldCase event ∈ definitions.names.map foldCase ↔
      ∃ name, definitions.contains name ∧ foldCase name = foldCase event := by
    simp only [List.mem_map, Table.contains_iff_mem_names]
  rw [unknownIn, List.mem_filter, Expr.eventNames, List.mem_eraseDups, List.mem_map]
  refine and_congr_right fun _ => ?_
  rw [Bool.not_eq_true', ← Bool.not_eq_true]
  simp only [Bool.or_eq_true, beq_iff_eq, List.contains_iff_mem, hmetric, not_or, not_exists, not_and]
  constructor
  · rintro ⟨⟨hconstant, hmetric⟩, hevent⟩
    exact ⟨hconstant, hmetric, hevent⟩
  · rintro ⟨hconstant, hmetric, hevent⟩
    exact ⟨⟨hconstant, hmetric⟩, hevent⟩

theorem mem_unknownEvents {catalog : EventCatalog} {definitions : FormulaSet} {metric event : String} :
    (metric, event) ∈ unknownEvents catalog definitions ↔
      (∃ e, definitions.get? metric = some e ∧ ∃ r ∈ e.events, r.name = event) ∧
        Unknown catalog definitions event := by
  simp only [unknownEvents, List.mem_flatMap, List.mem_map, Prod.exists, Prod.mk.injEq, Table.get?_eq_some]
  constructor
  · rintro ⟨n, e, he, event', hevent, rfl, rfl⟩
    obtain ⟨hrefers, hunknown⟩ := mem_unknownIn.mp hevent
    exact ⟨⟨e, he, hrefers⟩, hunknown⟩
  · rintro ⟨⟨e, he, hrefers⟩, hunknown⟩
    exact ⟨metric, e, he, event, mem_unknownIn.mpr ⟨hrefers, hunknown⟩, rfl, rfl⟩

/-! ## Entries -/

variable {options : Options} {set set' : FormulaSet} {objects : List Fields} {entries : List Entry}

theorem TakenIn.takesIn_of_mem (h : TakenIn options set objects entries set') {entry : Entry} (hmem : entry ∈ entries) :
    ∃ object before after, TakesIn options before object entry after := by
  induction h with
  | nil => cases hmem
  | cons hstep _ ih =>
      rcases List.mem_cons.mp hmem with rfl | hmem
      · exact ⟨_, _, _, hstep⟩
      · exact ih hmem

theorem TakenIn.metric?_eq (h : TakenIn options set objects entries set') {name : String} {fields : Fields}
    {bad : Option FormulaError} (hmem : .metric name fields bad ∈ entries) :
    ∃ text, metric? fields = some (name, text) := by
  obtain ⟨object, before, after, hstep⟩ := h.takesIn_of_mem hmem
  cases hstep with
  | metric hmetric _ _ => exact ⟨_, (metric?_withThreshold options object).trans hmetric⟩

end MetricFormula.Metrics
