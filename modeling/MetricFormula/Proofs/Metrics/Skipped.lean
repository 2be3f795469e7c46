import MetricFormula.Proofs.Metrics.Reports

/-!
# Skipped objects leave no trace

Without the objects that are skipped a list gives the same report, except that nothing is skipped then. An object that is
skipped leaves the set as it was, so all others are taken in as before.
-/

namespace MetricFormula.Metrics

variable {options : Options}

/-- The values of a list without the objects that are skipped. -/
def withoutSkipped : List Outcome → List Json → List Json
  | .written _ :: outcomes, .object fields :: rest => .object fields :: withoutSkipped outcomes rest
  | .skipped .. :: outcomes, .object _ :: rest => withoutSkipped outcomes rest
  | outcomes, value :: rest => value :: withoutSkipped outcomes rest
  | _, [] => []

def Entry.isKept : Entry → Bool
  | .refused .. => false
  | _ => true

theorem TakesIn.eq_of_refused {set set' : FormulaSet} {fields : Fields} {name : String} {error : FormulaError}
    (h : TakesIn options set fields (.refused name error) set') : set' = set := by
  cases h with
  | unreadable _ _ => rfl
  | taken _ _ _ => rfl

theorem takeInAll_withoutSkipped (definitions set : FormulaSet) (metrics : List Json) :
    takeInAll options set
        (withoutSkipped ((takeInAll options set metrics).1.map (Entry.outcome definitions)) metrics) =
      ((takeInAll options set metrics).1.filter Entry.isKept, (takeInAll options set metrics).2) := by
  induction metrics generalizing set with
  | nil => rfl
  | cons metric rest ih =>
      cases metric with
      | object fields =>
          have hstep : TakesIn options set fields _ _ := takesIn_takeIn set fields
          simp only [takeInAll, List.map_cons]
          cases htake : takeIn options set fields with
          | mk entry set' =>
              rw [htake] at hstep
              cases entry with
              | plain _ => simp [Entry.outcome, withoutSkipped, takeInAll, htake, ih, List.filter_cons, Entry.isKept]
              | metric _ _ _ => simp [Entry.outcome, withoutSkipped, takeInAll, htake, ih, List.filter_cons, Entry.isKept]
              | refused _ _ =>
                  cases hstep.eq_of_refused
                  simp [Entry.outcome, withoutSkipped, ih, Entry.isKept]
      | _ => simpa [withoutSkipped, takeInAll] using ih set

theorem filterMap_filter_isKept {α : Type} {f : Entry → Option α}
    (hf : ∀ name error, f (.refused name error) = none) (entries : List Entry) :
    (entries.filter Entry.isKept).filterMap f = entries.filterMap f := by
  induction entries with
  | nil => rfl
  | cons entry rest ih =>
      cases entry with
      | plain _ => simp [List.filter_cons, Entry.isKept, List.filterMap_cons, ih]
      | metric _ _ _ => simp [List.filter_cons, Entry.isKept, List.filterMap_cons, ih]
      | refused name error => simp [Entry.isKept, hf, ih]

theorem filterMap_skipped?_filter_isKept (entries : List Entry) :
    (entries.filter Entry.isKept).filterMap Entry.skipped? = [] := by
  rw [List.filterMap_eq_nil_iff]
  intro entry hentry
  cases entry with
  | plain _ => rfl
  | metric _ _ _ => rfl
  | refused _ _ => exact nomatch (List.mem_filter.mp hentry).2

/-- The entries of skipped objects give the skipped names of a report and nothing else. -/
theorem Report.ofRun_filter (entries : List Entry) (set : FormulaSet) :
    Report.ofRun options (entries.filter Entry.isKept) set =
      { Report.ofRun options entries set with skipped := [] } := by
  have hmetrics := filterMap_filter_isKept (f := Entry.output? (finalDefinitions options set)) (fun _ _ => rfl) entries
  have hbad := filterMap_filter_isKept (f := Entry.badThreshold?) (fun _ _ => rfl) entries
  simp only [Report.ofRun, hmetrics, hbad, filterMap_skipped?_filter_isKept]

/-- An object that is skipped has no effect on what becomes of the others. -/
theorem process_withoutSkipped (options : Options) (metrics : List Json) :
    ∃ outcomes : List Outcome,
      outcomes.length = (objects metrics).length ∧
      (process options metrics).skipped = outcomes.filterMap Outcome.skipped? ∧
      (∀ i name reason, outcomes[i]? = some (.skipped name reason) ↔
        Skips options (objects metrics) outcomes i name reason) ∧
      process options (withoutSkipped outcomes metrics) = { process options metrics with skipped := [] } := by
  have h : TakenIn options .empty (objects metrics) _ _ := takenIn_takeInAll .empty metrics
  refine ⟨(takeInAll options .empty metrics).1.map (Entry.outcome .empty), ?_, ?_, ?_, ?_⟩
  · rw [List.length_map, h.length_eq]
  · have hskipped : Outcome.skipped? ∘ Entry.outcome .empty = Entry.skipped? :=
      funext fun entry => entry.skipped?_outcome _
    rw [process_eq_ofRun, List.filterMap_map, hskipped]
    rfl
  · exact fun i name reason => h.skipped_iff _
  · rw [process_eq_ofRun, process_eq_ofRun, takeInAll_withoutSkipped, Report.ofRun_filter]

end MetricFormula.Metrics
