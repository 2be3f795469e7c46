import MetricFormula.Proofs.Distinct
import MetricFormula.Proofs.Metrics.Reports

/-!
# The unknown events of a report

Every reference of a final definition to an unknown name is reported once, in the order of the metrics and, within a
metric, of the names. A metric is known to itself: a reference to its own name is not reported.
-/

namespace MetricFormula

theorem EventCatalog.contains_ofNames {names : List String} {event : String} :
    (ofNames names).contains event ↔ ∃ name ∈ names, foldCase name = foldCase event := by
  rw [contains, ofNames, List.contains_iff_mem, List.mem_map]

namespace Metrics

variable {definitions : FormulaSet} {names : List String}

theorem names_finalDefinitions (options : Options) (set : FormulaSet) :
    (finalDefinitions options set).names = set.names := by
  unfold finalDefinitions
  split
  · rw [FormulaSet.names_finals, FormulaSet.simplified, Table.names_map]
  · rw [FormulaSet.simplified, Table.names_map]

/-! ## Unknown references -/

/-- The name of no constant, of no event in a catalog with these names and of no metric other than `metric`. -/
structure UnknownTo (names : List String) (definitions : FormulaSet) (metric event : String) : Prop where
  constant : event.toList.head? ≠ some '#'
  catalog : ∀ name ∈ names, foldCase name ≠ foldCase event
  others : ∀ name, definitions.contains name → name ≠ metric → foldCase name ≠ foldCase event

/-- What is unknown to a metric is unknown, if it is not the name of the metric itself. -/
theorem unknown_iff_unknownTo {metric event : String} (h : definitions.contains metric) :
    Unknown (.ofNames names) definitions event ↔
      UnknownTo names definitions metric event ∧ foldCase metric ≠ foldCase event := by
  have hcatalog : ¬ (EventCatalog.ofNames names).contains event ↔ ∀ name ∈ names, foldCase name ≠ foldCase event := by
    rw [EventCatalog.contains_ofNames]
    push Not
    rfl
  constructor
  · intro hunknown
    exact ⟨⟨hunknown.constant, hcatalog.mp hunknown.event, fun name hname _ => hunknown.metric name hname⟩,
      hunknown.metric metric h⟩
  · rintro ⟨hunknown, hself⟩
    refine ⟨hunknown.constant, fun name hname => ?_, hcatalog.mpr hunknown.catalog⟩
    by_cases heq : name = metric
    · exact heq ▸ hself
    · exact hunknown.others name hname heq

/-! ## Order -/

/-- The order of references: by metric, and within a metric by the first places of the names in its definition. -/
def Before (definitions : FormulaSet) (r r' : String × String) : Prop :=
  definitions.names.idxOf r.1 < definitions.names.idxOf r'.1 ∨
    r.1 = r'.1 ∧ ∃ e, definitions.get? r.1 = some e ∧
      (e.events.map Event.name).idxOf r.2 < (e.events.map Event.name).idxOf r'.2

theorem Before.ne {r r' : String × String} (h : Before definitions r r') : r ≠ r' := by
  rintro rfl
  rcases h with h | ⟨-, _, -, h⟩
  · exact Nat.lt_irrefl _ h
  · exact Nat.lt_irrefl _ h

theorem pairwise_unknownEvents (catalog : EventCatalog) (definitions : FormulaSet) :
    (unknownEvents catalog definitions).Pairwise (Before definitions) := by
  rw [unknownEvents, List.pairwise_flatMap]
  constructor
  · rintro ⟨metric, e⟩ hentry
    rw [List.pairwise_map, unknownIn, Expr.eventNames]
    refine ((pairwise_eraseDups (e.events.map Event.name)).filter _).imp fun hlt => ?_
    exact .inr ⟨rfl, e, Table.get?_eq_some.mpr hentry, hlt⟩
  · have hnames := pairwise_of_nodup definitions.nodup
    rw [List.pairwise_map] at hnames
    refine hnames.imp fun hlt r hr r' hr' => ?_
    obtain ⟨_, -, rfl⟩ := List.mem_map.mp hr
    obtain ⟨_, -, rfl⟩ := List.mem_map.mp hr'
    exact .inl hlt

/-! ## Reports -/

variable (fixups : FixupTable) (names : List String) (crossReference : Bool) (metrics : List Json)

/-- Exactly the references of written metrics to names that are unknown to them are reported, unless the name is that of
the metric itself. Each is reported once and in order. -/
theorem process_unknownEvents :
    let options : Options := ⟨fixups, some (.ofNames names), crossReference⟩
    let set := (takeInAll options .empty metrics).2
    let definitions := finalDefinitions options set
    (∃ outcomes : List Outcome,
      outcomes.length = (objects metrics).length ∧
      (process options metrics).metrics = outcomes.filterMap Outcome.written? ∧
      (process options metrics).skipped = outcomes.filterMap Outcome.skipped? ∧
      (∀ i name reason, outcomes[i]? = some (.skipped name reason) ↔
        Skips options (objects metrics) outcomes i name reason) ∧
      set.entries = ((objects metrics).zip outcomes).filterMap (definition? options)) ∧
    definitions.names = set.names ∧
    (∀ metric event, (metric, event) ∈ (process options metrics).unknownEvents ↔
      (∃ e, definitions.get? metric = some e ∧ ∃ r ∈ e.events, r.name = event) ∧
        UnknownTo names definitions metric event ∧ foldCase metric ≠ foldCase event) ∧
    (process options metrics).unknownEvents.Nodup ∧
    (process options metrics).unknownEvents.Pairwise (Before definitions) := by
  intro options set definitions
  have h : TakenIn options .empty (objects metrics) _ set := takenIn_takeInAll .empty metrics
  have hreport : (process options metrics).unknownEvents = unknownEvents (.ofNames names) definitions := by
    rw [process_eq_ofRun]
    rfl
  refine ⟨⟨(takeInAll options .empty metrics).1.map (Entry.outcome definitions), ?_, ?_, ?_, ?_, ?_⟩, ?_, ?_, ?_, ?_⟩
  · rw [List.length_map, h.length_eq]
  · rw [process_eq_ofRun, List.filterMap_map]
    exact congrArg (List.filterMap · _) (funext fun entry => (entry.written?_outcome definitions).symm)
  · rw [process_eq_ofRun, List.filterMap_map]
    exact congrArg (List.filterMap · _) (funext fun entry => (entry.skipped?_outcome definitions).symm)
  · exact fun i name reason => h.skipped_iff definitions
  · exact h.entries_eq definitions
  · exact names_finalDefinitions options set
  · intro metric event
    rw [hreport, mem_unknownEvents]
    refine and_congr_right fun ⟨e, he, _⟩ => ?_
    exact unknown_iff_unknownTo (Table.contains_iff.mpr ⟨e, he⟩)
  · rw [hreport]
    exact (pairwise_unknownEvents _ definitions).imp Before.ne
  · rw [hreport]
    exact pairwise_unknownEvents _ definitions

/-- A metric that refers to its own name. -/
def ownName : List Json := [.object [(nameField, .string "A"), (formulaField, .string "A + x")]]

/-- The reference is not reported, though the name is neither in the catalog nor that of another metric. -/
theorem ownName_not_reported :
    let options : Options := ⟨.empty, some (.ofNames ["x"]), false⟩
    let definitions := finalDefinitions options (takeInAll options .empty ownName).2
    (∃ e, definitions.get? "A" = some e ∧ ∃ r ∈ e.events, r.name = "A") ∧
      UnknownTo ["x"] definitions "A" "A" ∧ (process options ownName).skipped = [] ∧
      ("A", "A") ∉ (process options ownName).unknownEvents := by
  intro options definitions
  have hnames : definitions.names = ["A"] := by decide +kernel
  have hevents : (definitions.get? "A").map (fun e => e.events.map Event.name) = some ["A", "x"] := by decide +kernel
  refine ⟨?_, ⟨by decide, by decide, fun name hname hne => ?_⟩, by decide +kernel, by decide +kernel⟩
  · obtain ⟨e, he, hevents⟩ := Option.map_eq_some_iff.mp hevents
    exact ⟨e, he, List.mem_map.mp (hevents ▸ List.mem_cons_self)⟩
  · rw [Table.contains_iff_mem_names, hnames, List.mem_singleton] at hname
    exact absurd hname hne

end Metrics

end MetricFormula
