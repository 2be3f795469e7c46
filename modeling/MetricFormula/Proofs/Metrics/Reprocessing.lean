import Mathlib.Data.List.Basic
import Mathlib.Data.List.Pairwise
import MetricFormula.Proofs.Grammar.Stability
import MetricFormula.Proofs.Metrics.Reports

/-!
# Processing the objects of a report

A metric whose formula and threshold are written as they are read is settled. Settled metrics with distinct names are
all kept as they are. Those of a report are settled if the texts written are canonical and do not contain the placeholder
as metric files write it.
-/

namespace MetricFormula.Metrics

variable {options : Options}

/-! ## Names -/

def metricName? (fields : Fields) : Option String := (metric? fields).map Prod.fst

def Entry.name? : Entry → Option String
  | .metric name .. => some name
  | _ => none

section

variable {set set' : FormulaSet} {objects : List Fields} {entries : List Entry}

theorem TakesIn.names_eq {fields : Fields} {entry : Entry} (h : TakesIn options set fields entry set') :
    set'.names = set.names ++ entry.name?.toList := by
  cases h with
  | plain _ => simp [Entry.name?]
  | unreadable _ _ => simp [Entry.name?]
  | taken _ _ _ => simp [Entry.name?]
  | metric _ _ hset => simp [Table.names, Table.entries_insert _ _ hset, Entry.name?]

theorem TakenIn.names_eq (h : TakenIn options set objects entries set') :
    set'.names = set.names ++ entries.filterMap Entry.name? := by
  induction h with
  | nil => simp
  | @cons _ _ _ _ entry _ _ hstep _ ih =>
      rw [ih, hstep.names_eq]
      cases hname : entry.name? with
      | none => simp [hname]
      | some name => simp [hname]

theorem TakenIn.nodup_names (h : TakenIn options .empty objects entries set') :
    (entries.filterMap Entry.name?).Nodup := by
  have hnodup : set'.names.Nodup := set'.nodup
  rw [h.names_eq] at hnodup
  exact (List.nodup_append.mp hnodup).2.1

theorem TakenIn.entry_unique (h : TakenIn options .empty objects entries set') {entry entry' : Entry} {name : String}
    (hmem : entry ∈ entries) (hmem' : entry' ∈ entries) (hname : entry.name? = some name)
    (hname' : entry'.name? = some name) : entry = entry' := by
  have hpairwise := List.pairwise_filterMap.mp h.nodup_names
  have hsymm : Std.Symm fun a b : Entry => ∀ n, a.name? = some n → ∀ m, b.name? = some m → n ≠ m :=
    ⟨fun _ _ hne n hn m hm => (hne m hm n hn).symm⟩
  by_contra hne
  exact hpairwise.forall hmem hmem' hne name hname name hname' rfl

/-- What is written of a metric has at most its formula replaced. -/
theorem output?_metric (definitions : FormulaSet) (name : String) (fields : Fields) (bad : Option FormulaError) :
    ∃ out, (Entry.metric name fields bad).output? definitions = some (.object out) ∧
      (out = fields ∨ ∃ text, out = Entries.insert formulaField (.string text) fields) := by
  cases he : definitions.get? name with
  | none => exact ⟨fields, by simp [Entry.output?, he], .inl rfl⟩
  | some e => exact ⟨_, by simp [Entry.output?, he], .inr ⟨e.print, rfl⟩⟩

theorem TakesIn.name_output {fields : Fields} {entry : Entry} (h : TakesIn options set fields entry set')
    (definitions : FormulaSet) :
    ((entry.output? definitions).bind fun value => (fields? value).bind metricName?) = entry.name? := by
  cases h with
  | plain hno => simp [Entry.output?, fields?, metricName?, hno, Entry.name?]
  | unreadable _ _ => rfl
  | taken _ _ _ => rfl
  | @metric name _ _ hmetric _ _ =>
      have hfields := (metric?_withThreshold options fields).trans hmetric
      obtain ⟨out, hout, rfl | ⟨text, rfl⟩⟩ :=
        output?_metric definitions name (withThreshold options fields).1 (withThreshold options fields).2
      · simp [hout, fields?, metricName?, hfields, Entry.name?]
      · simp [hout, fields?, metricName?, metric?_insert_formula hfields, Entry.name?]

theorem TakenIn.names_output (h : TakenIn options set objects entries set') (definitions : FormulaSet) :
    (Metrics.objects (entries.filterMap (Entry.output? definitions))).filterMap metricName? =
      entries.filterMap Entry.name? := by
  rw [Metrics.objects, List.filterMap_filterMap, List.filterMap_filterMap]
  refine List.filterMap_congr fun entry hentry => ?_
  obtain ⟨_, _, _, hstep⟩ := h.takesIn_of_mem hentry
  exact hstep.name_output definitions

end

/-! ## Settled metrics -/

/-- A metric that is written as it is if its name is new. Other objects always are. -/
def Settled (options : Options) (fields : Fields) : Prop :=
  ∀ name text, metric? fields = some (name, text) →
    (∃ e, prepare options text = .ok e ∧ e.simplify.print = text) ∧ (withThreshold options fields).1 = fields

theorem output?_settled {definitions : FormulaSet} {fields : Fields} {name text : String} {e : Expr}
    (hmetric : metric? fields = some (name, text)) (he : definitions.get? name = some e) (hprint : e.print = text)
    (bad : Option FormulaError) : (Entry.metric name fields bad).output? definitions = some (.object fields) := by
  obtain ⟨-, htext⟩ := metric?_eq_some.mp hmetric
  subst hprint
  simp only [Entry.output?, he, Entries.insert_of_find? (stringField?_eq_some.mp htext)]

section

variable {set set' : FormulaSet}

theorem TakesIn.get?_mono {fields : Fields} {entry : Entry} (h : TakesIn options set fields entry set') {name : String}
    {e : Expr} (he : set.get? name = some e) : set'.get? name = some e := by
  cases h with
  | plain _ => exact he
  | unreadable _ _ => exact he
  | taken _ _ _ => exact he
  | metric _ _ hset =>
      rw [Table.get?_insert, if_neg]
      · exact he
      · rintro rfl
        exact hset (Table.contains_iff.mpr ⟨e, he⟩)

theorem TakenIn.get?_mono {objects : List Fields} {entries : List Entry} (h : TakenIn options set objects entries set')
    {name : String} {e : Expr} (he : set.get? name = some e) : set'.get? name = some e := by
  induction h with
  | nil => exact he
  | cons hstep _ ih => exact ih (hstep.get?_mono he)

theorem TakesIn.settled {fields : Fields} {entry : Entry} (h : TakesIn options set fields entry set')
    (hsettled : Settled options fields) (hnew : ∀ name ∈ metricName? fields, ¬ set.contains name) :
    entry.name? = metricName? fields ∧ entry.skipped? = none ∧
      ∀ definitions : FormulaSet, (∀ name e, set'.get? name = some e → definitions.get? name = some e.simplify) →
        entry.output? definitions = some (.object fields) := by
  cases h with
  | plain hno => exact ⟨by simp [metricName?, hno, Entry.name?], rfl, fun _ _ => rfl⟩
  | unreadable hmetric hprepare =>
      obtain ⟨⟨e, he, -⟩, -⟩ := hsettled _ _ hmetric
      cases hprepare.symm.trans he
  | taken hmetric hprepare hset => exact absurd hset (hnew _ (by simp [metricName?, hmetric]))
  | @metric name text e hmetric hprepare hset =>
      obtain ⟨⟨e', he', hprint⟩, hthreshold⟩ := hsettled name text hmetric
      cases hprepare.symm.trans he'
      refine ⟨by simp [metricName?, hmetric, Entry.name?], rfl, fun definitions hdefinitions => ?_⟩
      have he : definitions.get? name = some e.simplify :=
        hdefinitions name e (by rw [Table.get?_insert, if_pos rfl])
      rw [hthreshold]
      exact output?_settled hmetric he hprint _

/-- Settled objects with new and distinct names are all written as they are. -/
theorem TakenIn.settled {objects : List Fields} {entries : List Entry} (h : TakenIn options set objects entries set')
    (hsettled : ∀ fields ∈ objects, Settled options fields)
    (hnodup : (set.names ++ objects.filterMap metricName?).Nodup) {definitions : FormulaSet}
    (hdefinitions : ∀ name e, set'.get? name = some e → definitions.get? name = some e.simplify) :
    entries.filterMap (Entry.output? definitions) = objects.map .object ∧ entries.filterMap Entry.skipped? = [] := by
  induction h with
  | nil => exact ⟨rfl, rfl⟩
  | @cons set next last fields entry rest entries hstep hrest ih =>
      obtain ⟨hfields, hsettled⟩ := List.forall_mem_cons.mp hsettled
      have hnames : (fields :: rest).filterMap metricName? =
          (metricName? fields).toList ++ rest.filterMap metricName? := by
        cases hname : metricName? fields with
        | none => simp [hname]
        | some name => simp [hname]
      rw [hnames, ← List.append_assoc] at hnodup
      have hnew : ∀ name ∈ metricName? fields, ¬ set.contains name := by
        intro name hname hset
        have hdisjoint := (List.nodup_append.mp (List.nodup_append.mp hnodup).1).2.2
        exact hdisjoint name (Table.contains_iff_mem_names.mp hset) name (Option.mem_toList.mpr hname) rfl
      obtain ⟨hname, hskipped, houtput⟩ := hstep.settled hfields hnew
      -- The name of the object moves from the names to come to those of the set.
      rw [← hname, ← hstep.names_eq] at hnodup
      obtain ⟨hmetrics, hrestSkipped⟩ := ih hsettled hnodup hdefinitions
      have hthis := houtput definitions fun name e he => hdefinitions name e (hrest.get?_mono he)
      rw [List.filterMap_cons_some hthis, List.filterMap_cons_none hskipped, hmetrics]
      exact ⟨rfl, hrestSkipped⟩

end

/-! ## Thresholds -/

theorem threshold?_insert_formula (fields : Fields) (text : String) :
    threshold? options (Entries.insert formulaField (.string text) fields) = threshold? options fields := by
  rw [threshold?, stringField?_insert, if_neg (by decide), threshold?]

theorem threshold?_withThreshold {fields : Fields} {error : FormulaError}
    (h : (withThreshold options fields).2 = some error) :
    threshold? options (withThreshold options fields).1 = some (.error error) := by
  unfold withThreshold at h ⊢
  split at h
  · cases h
  · cases h
  · rename_i hthreshold
    cases h
    simp [hthreshold]

/-- A threshold that cannot be read is written as it is. -/
theorem TakesIn.threshold?_output {set set' definitions : FormulaSet} {object fields out : Fields} {name : String}
    {bad : Option FormulaError} {error : FormulaError} (h : TakesIn options set object (.metric name fields bad) set')
    (hbad : bad = some error) (hout : (Entry.metric name fields bad).output? definitions = some (.object out)) :
    threshold? options out = some (.error error) := by
  have hfields : threshold? options fields = some (.error error) := by
    cases h with
    | metric _ _ _ => exact threshold?_withThreshold hbad
  obtain ⟨out', hout', rfl | ⟨text, rfl⟩⟩ := output?_metric definitions name fields bad
  · cases hout.symm.trans hout'
    exact hfields
  · cases hout.symm.trans hout'
    rw [threshold?_insert_formula, hfields]

/-! ## Reports -/

/-- The formulas and thresholds that are written anew; a threshold that cannot be read is not. -/
def Report.writtenTexts (report : Report) : List String :=
  (objects report.metrics).flatMap fun fields => match metric? fields with
    | some (name, text) =>
      if name ∈ report.badThresholds.map Prod.fst then [text]
      else text :: (Json.stringField? thresholdField fields).toList
    | none => []

theorem Report.formula_mem_writtenTexts {report : Report} {fields : Fields} {name text : String}
    (hfields : fields ∈ objects report.metrics) (hmetric : metric? fields = some (name, text)) :
    text ∈ report.writtenTexts := by
  refine List.mem_flatMap.mpr ⟨fields, hfields, ?_⟩
  rw [hmetric]
  dsimp only
  split
  · exact List.mem_singleton_self text
  · exact List.mem_cons_self

theorem Report.threshold_mem_writtenTexts {report : Report} {fields : Fields} {name text threshold : String}
    (hfields : fields ∈ objects report.metrics) (hmetric : metric? fields = some (name, text))
    (hbad : name ∉ report.badThresholds.map Prod.fst)
    (hthreshold : Json.stringField? thresholdField fields = some threshold) : threshold ∈ report.writtenTexts := by
  refine List.mem_flatMap.mpr ⟨fields, hfields, ?_⟩
  simp [hmetric, if_neg hbad, hthreshold]

/-- Canonical text is read as it is, unless the placeholder would be replaced in it. -/
theorem prepare_canonical {c : String} (hfixups : options.fixups = .empty) (hcanonical : canonicalize c = .ok c)
    (hmark : ¬ containsText placeholderMark c) : ∃ e, prepare options c = .ok e ∧ e.simplify.print = c := by
  obtain ⟨e, hparse, hprint⟩ := map_eq_ok.mp hcanonical
  have happly : options.fixups.apply c = c := by rw [hfixups]; rfl
  refine ⟨e, ?_, hprint⟩
  unfold prepare
  rw [happly, if_neg hmark, hparse]

section

variable {set : FormulaSet} {objects : List Fields} {entries : List Entry} {out : Fields} {name text : String}

theorem TakenIn.entry_of_output (h : TakenIn options .empty objects entries set) {definitions : FormulaSet}
    (hout : out ∈ Metrics.objects (entries.filterMap (Entry.output? definitions)))
    (hmetric : metric? out = some (name, text)) :
    ∃ entry ∈ entries, entry.output? definitions = some (.object out) ∧ entry.name? = some name := by
  obtain ⟨value, hvalue, hobject⟩ := List.mem_filterMap.mp hout
  obtain ⟨entry, hentry, houtput⟩ := List.mem_filterMap.mp hvalue
  obtain ⟨_, _, _, hstep⟩ := h.takesIn_of_mem hentry
  cases value with
  | object fields =>
      cases hobject
      refine ⟨entry, hentry, houtput, ?_⟩
      rw [← hstep.name_output definitions, houtput]
      simp [fields?, metricName?, hmetric]
  | _ => cases hobject

theorem TakenIn.threshold?_output (h : TakenIn options .empty objects entries set) {definitions : FormulaSet}
    (hout : out ∈ Metrics.objects (entries.filterMap (Entry.output? definitions)))
    (hmetric : metric? out = some (name, text))
    (hbad : name ∈ (entries.filterMap Entry.badThreshold?).map Prod.fst) :
    ∃ error, threshold? options out = some (.error error) := by
  obtain ⟨⟨_, reason⟩, hreport, rfl⟩ := List.mem_map.mp hbad
  obtain ⟨entry, hentry, hreason⟩ := List.mem_filterMap.mp hreport
  obtain ⟨entry', hentry', houtput, hname⟩ := h.entry_of_output hout hmetric
  obtain ⟨_, _, _, hstep⟩ := h.takesIn_of_mem hentry
  match entry with
  | .metric _ fields (some error) =>
      cases hreason
      cases h.entry_unique hentry hentry' rfl hname
      exact ⟨error, hstep.threshold?_output rfl houtput⟩
  | .metric _ _ none => cases hreason
  | .plain _ => cases hreason
  | .refused _ _ => cases hreason

theorem TakenIn.settled_output (h : TakenIn options .empty objects entries set) (hfixups : options.fixups = .empty)
    (htexts : ∀ c ∈ (Report.ofRun options entries set).writtenTexts,
      canonicalize c = .ok c ∧ ¬ containsText placeholderMark c)
    (hout : out ∈ Metrics.objects (Report.ofRun options entries set).metrics) : Settled options out := by
  intro name text hmetric
  obtain ⟨hcanonical, hmark⟩ := htexts text (Report.formula_mem_writtenTexts hout hmetric)
  refine ⟨prepare_canonical hfixups hcanonical hmark, ?_⟩
  by_cases hbad : name ∈ (Report.ofRun options entries set).badThresholds.map Prod.fst
  · obtain ⟨error, herror⟩ := h.threshold?_output hout hmetric hbad
    rw [withThreshold, herror]
  · cases hthreshold : Json.stringField? thresholdField out with
    | none => rw [withThreshold, threshold?, hthreshold]; rfl
    | some c =>
        obtain ⟨hcanonical, hmark⟩ := htexts c (Report.threshold_mem_writtenTexts hout hmetric hbad hthreshold)
        obtain ⟨e, he, hprint⟩ := prepare_canonical hfixups hcanonical hmark
        rw [withThreshold, threshold?, hthreshold, Option.map_some, he]
        subst hprint
        exact Entries.insert_of_find? (stringField?_eq_some.mp hthreshold)

end

theorem map_object_objects_output (entries : List Entry) (definitions : FormulaSet) :
    (objects (entries.filterMap (Entry.output? definitions))).map .object =
      entries.filterMap (Entry.output? definitions) := by
  induction entries with
  | nil => rfl
  | cons entry entries ih =>
      cases entry with
      | plain fields => exact congrArg (Json.object fields :: ·) ih
      | refused _ _ => exact ih
      | metric name fields bad =>
          obtain ⟨out, hout, -⟩ := output?_metric definitions name fields bad
          rw [List.filterMap_cons_some hout]
          exact congrArg (Json.object out :: ·) ih

variable (catalog : Option EventCatalog) (metrics : List Json)

/-- The objects of a report are kept as they are, and none is skipped, when they are processed again. This takes
canonical texts that do not contain the placeholder as metric files write it. -/
theorem process_process (h : ∀ c ∈ (process ⟨.empty, catalog, false⟩ metrics).writtenTexts,
      canonicalize c = .ok c ∧ ¬ containsText placeholderMark c) :
    (process ⟨.empty, catalog, false⟩ (process ⟨.empty, catalog, false⟩ metrics).metrics).metrics =
        (process ⟨.empty, catalog, false⟩ metrics).metrics ∧
      (process ⟨.empty, catalog, false⟩ (process ⟨.empty, catalog, false⟩ metrics).metrics).skipped = [] := by
  have hfirst : TakenIn ⟨.empty, catalog, false⟩ .empty (objects metrics) _ _ := takenIn_takeInAll .empty metrics
  rw [process_eq_ofRun ⟨.empty, catalog, false⟩ metrics] at h ⊢
  generalize (takeInAll ⟨.empty, catalog, false⟩ .empty metrics).1 = entries at hfirst h ⊢
  generalize (takeInAll ⟨.empty, catalog, false⟩ .empty metrics).2 = set at hfirst h ⊢
  generalize hreport : Report.ofRun ⟨.empty, catalog, false⟩ entries set = report at h ⊢
  have hsecond : TakenIn ⟨.empty, catalog, false⟩ .empty (objects report.metrics) _ _ :=
    takenIn_takeInAll .empty report.metrics
  have hsettled : ∀ out ∈ objects report.metrics, Settled ⟨.empty, catalog, false⟩ out :=
    fun out hout => hfirst.settled_output rfl (hreport ▸ h) (hreport ▸ hout)
  have hnodup : ((objects report.metrics).filterMap metricName?).Nodup := by
    rw [← hreport, Report.ofRun, hfirst.names_output]
    exact hfirst.nodup_names
  obtain ⟨hmetrics, hskipped⟩ := hsecond.settled hsettled hnodup fun name e he =>
    FormulaSet.get?_simplified.mpr ⟨e, he, rfl⟩
  rw [process_eq_ofRun]
  refine ⟨?_, hskipped⟩
  calc
    _ = (objects report.metrics).map .object := hmetrics
    _ = report.metrics := by
      subst hreport
      exact map_object_objects_output _ _

/-- A metric with a threshold, an object without a formula, a metric of the same name, and one with an unreadable
threshold. -/
def busyAndLatency : List Json :=
  [.object [(nameField, .string "Busy"), (formulaField, .string "5*x - 2*x"), (thresholdField, .string "Busy>0.5")],
    .object [("BriefDescription", .string "No formula")],
    .object [(nameField, .string "Busy"), (formulaField, .string "y")],
    .object [(nameField, .string "Latency"), (formulaField, .string "A * $PEBS"), (thresholdField, .string ">")]]

theorem process_process_busyAndLatency :
    (process ⟨.empty, none, false⟩ busyAndLatency).writtenTexts = ["3 * x", "Busy > 0.5", "A * A:R"] ∧
      (process ⟨.empty, none, false⟩ (process ⟨.empty, none, false⟩ busyAndLatency).metrics).metrics =
        (process ⟨.empty, none, false⟩ busyAndLatency).metrics ∧
      (process ⟨.empty, none, false⟩ (process ⟨.empty, none, false⟩ busyAndLatency).metrics).skipped = [] := by
  have htexts : (process ⟨.empty, none, false⟩ busyAndLatency).writtenTexts = ["3 * x", "Busy > 0.5", "A * A:R"] := by
    decide +kernel
  have hcanonical : ∀ c ∈ ["3 * x", "Busy > 0.5", "A * A:R"],
      (canonicalize c).toOption = some c ∧ ¬ containsText placeholderMark c := by
    decide +kernel
  refine ⟨htexts, process_process none busyAndLatency fun c hc => ?_⟩
  obtain ⟨hc, hmark⟩ := hcanonical c (htexts ▸ hc)
  exact ⟨toOption_eq_some.mp hc, hmark⟩

/-- A metric that refers to an event whose name holds the placeholder as metric files write it. -/
def markInName : List Json := [.object [(nameField, .string "M"), (formulaField, .string "a\\$\\PEBS")]]

/-- Its formula is canonical as it is written, but the placeholder is replaced in it when it is read again. -/
theorem process_process_markInName :
    (∀ c ∈ (process ⟨.empty, none, false⟩ markInName).writtenTexts, canonicalize c = .ok c) ∧
      (process ⟨.empty, none, false⟩ (process ⟨.empty, none, false⟩ markInName).metrics).metrics ≠
        (process ⟨.empty, none, false⟩ markInName).metrics := by
  have htexts : (process ⟨.empty, none, false⟩ markInName).writtenTexts = ["a\\$PEBS"] := by decide +kernel
  have hcanonical : (canonicalize "a\\$PEBS").toOption = some "a\\$PEBS" := by decide +kernel
  have hfirst : (objects (process ⟨.empty, none, false⟩ markInName).metrics).filterMap metric? =
      [("M", "a\\$PEBS")] := by
    decide +kernel
  have hsecond : (objects (process ⟨.empty, none, false⟩ (process ⟨.empty, none, false⟩ markInName).metrics).metrics
      ).filterMap metric? = [("M", "aPEBS")] := by
    decide +kernel
  constructor
  · intro c hc
    rw [htexts, List.mem_singleton] at hc
    subst hc
    exact toOption_eq_some.mp hcanonical
  · intro hsame
    rw [hsame, hfirst] at hsecond
    exact absurd hsecond (by decide)

end MetricFormula.Metrics
