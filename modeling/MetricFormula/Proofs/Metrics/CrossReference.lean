import Mathlib.Data.List.Forall2
import MetricFormula.Proofs.FormulaSet.Mentions
import MetricFormula.Proofs.Metrics.Reports

/-!
# Reports with and without cross-references

Metrics that are expressed in terms of each other get new formulas, and nothing else changes. No unknown event is hidden
by it and none is added.
-/

namespace MetricFormula.Metrics

open FormulaSet (contains_finals crossReference_names exists_finals exists_simplified)

variable {options : Options} {set : FormulaSet}

/-! ## Unknown events -/

theorem unknown_finals {catalog : EventCatalog} {event : String} :
    Unknown catalog set.finals event ↔ Unknown catalog set.simplified event := by
  constructor
  · exact fun h => ⟨h.constant, fun name hname => h.metric name (by rwa [contains_finals]), h.event⟩
  · exact fun h => ⟨h.constant, fun name hname => h.metric name (by rwa [← contains_finals]), h.event⟩

/-- An event that is unknown before the rewriting is unknown in some definition after it, and the other way round. -/
theorem mem_unknown_finals (catalog : EventCatalog) (set : FormulaSet) (event : String) :
    event ∈ (unknownEvents catalog set.finals).map Prod.snd ↔
      event ∈ (unknownEvents catalog set.simplified).map Prod.snd := by
  simp only [List.mem_map, Prod.exists, exists_eq_right, mem_unknownEvents]
  constructor
  · rintro ⟨n, ⟨f, hf, r, hr, rfl⟩, hunknown⟩
    have hunknown := unknown_finals.mp hunknown
    obtain ⟨t, ht⟩ := exists_simplified hf
    rcases FormulaSet.mem_events_of_finals ht hf hr with hr | ⟨m, hm, rfl⟩
    · exact ⟨n, ⟨t, ht, r, hr, rfl⟩, hunknown⟩
    -- A reference that was put in is the name of a metric.
    · exact absurd rfl (hunknown.metric m hm)
  · rintro ⟨n, ⟨t, ht, r, hr, rfl⟩, hunknown⟩
    obtain ⟨m, f, hf, hr⟩ := FormulaSet.exists_finals_event ht hr
    exact ⟨m, ⟨f, hf, r, hr, rfl⟩, unknown_finals.mpr hunknown⟩

/-! ## Objects -/

/-- A value of a list, and the same value but for the formula of a metric of one of the names. -/
inductive Revised (names : List String) : Json → Json → Prop where
  | same (value : Json) : Revised names value value
  | formula {name text new old} : metric? old = some (name, text) → name ∈ names →
      new.map Prod.fst = old.map Prod.fst →
      (∀ (i : Nat) key value, old[i]? = some (key, value) → key ≠ formulaField → new[i]? = some (key, value)) →
      Revised names (.object new) (.object old)

theorem revised_insert {names : List String} {fields : Fields} {name text : String}
    (hmetric : metric? fields = some (name, text)) (hname : name ∈ names) (new old : String) :
    Revised names (.object (Entries.insert formulaField (.string new) fields))
      (.object (Entries.insert formulaField (.string old) fields)) := by
  have hold := metric?_insert_formula hmetric old
  have hformula := mem_names_of_stringField (metric?_eq_some.mp hold).2
  rw [← Entries.insert_insert formulaField (.string old) (.string new) fields]
  exact .formula hold hname (Entries.names_insert _ hformula) fun i key value hi hne =>
    Entries.getElem?_insert _ hi hne

theorem revised_output? {entry : Entry}
    (hentry : ∀ name fields bad, entry = .metric name fields bad → ∃ text, metric? fields = some (name, text)) :
    Option.Rel (Revised (set.crossReference.map Prod.fst)) (entry.output? set.finals)
      (entry.output? set.simplified) := by
  cases entry with
  | plain fields => exact .some (.same _)
  | refused name error => exact .none
  | metric name fields bad =>
      by_cases hname : name ∈ set.crossReference.map Prod.fst
      · obtain ⟨t, ht⟩ := Table.contains_iff.mp
          (Table.contains_iff_mem_names.mpr (set.crossReference_names.subset hname))
        obtain ⟨f, hf⟩ := exists_finals ht
        obtain ⟨text, hmetric⟩ := hentry name fields bad rfl
        simp only [Entry.output?, ht, hf]
        exact .some (revised_insert hmetric hname f.print t.print)
      · simp only [Entry.output?, FormulaSet.get?_finals_of_not_mem hname]
        cases set.simplified.get? name with
        | none => exact .some (.same _)
        | some t => exact .some (.same _)

theorem TakenIn.revised {objects : List Fields} {entries : List Entry} (h : TakenIn options .empty objects entries set) :
    List.Forall₂ (Revised (set.crossReference.map Prod.fst)) (entries.filterMap (Entry.output? set.finals))
      (entries.filterMap (Entry.output? set.simplified)) := by
  have hsame : List.Forall₂ (fun entry entry' => entry = entry' ∧ entry ∈ entries) entries entries :=
    List.forall₂_same.mpr fun _ hentry => ⟨rfl, hentry⟩
  refine List.rel_filterMap ?_ hsame
  rintro entry _ ⟨rfl, hentry⟩
  refine revised_output? fun name fields bad heq => ?_
  subst heq
  exact h.metric?_eq hentry

/-! ## Reports -/

/-- Reports that differ only in the formulas of the metrics that the first lists, and in the metrics that refer to the
unknown events. -/
structure Report.Revises (new old : Report) : Prop where
  skipped : new.skipped = old.skipped
  badThresholds : new.badThresholds = old.badThresholds
  metrics : List.Forall₂ (Revised new.crossReferenced) new.metrics old.metrics
  unknownEvents : ∀ event, event ∈ new.unknownEvents.map Prod.snd ↔ event ∈ old.unknownEvents.map Prod.snd

section

variable (fixups : FixupTable) (catalog : Option EventCatalog)

theorem takeInAll_crossReference (set : FormulaSet) (metrics : List Json) :
    takeInAll ⟨fixups, catalog, true⟩ set metrics = takeInAll ⟨fixups, catalog, false⟩ set metrics := by
  induction metrics generalizing set with
  | nil => rfl
  | cons metric rest ih =>
      have hstep (fields : Fields) :
          takeIn ⟨fixups, catalog, true⟩ set fields = takeIn ⟨fixups, catalog, false⟩ set fields := rfl
      cases metric with
      | object fields => simp only [takeInAll, hstep, ih]
      | _ => exact ih set

/-- Expressing metrics in terms of each other gives some of them new formulas and changes nothing else. -/
theorem process_crossReference (metrics : List Json) :
    (process ⟨fixups, catalog, true⟩ metrics).Revises (process ⟨fixups, catalog, false⟩ metrics) := by
  have h : TakenIn ⟨fixups, catalog, false⟩ .empty (objects metrics) _ _ := takenIn_takeInAll .empty metrics
  rw [process_eq_ofRun, process_eq_ofRun, takeInAll_crossReference]
  generalize (takeInAll ⟨fixups, catalog, false⟩ .empty metrics).1 = entries at h ⊢
  generalize (takeInAll ⟨fixups, catalog, false⟩ .empty metrics).2 = set at h ⊢
  refine ⟨rfl, rfl, h.revised, fun event => ?_⟩
  cases catalog with
  | none => exact .rfl
  | some catalog => exact mem_unknown_finals catalog set event

end

end MetricFormula.Metrics
