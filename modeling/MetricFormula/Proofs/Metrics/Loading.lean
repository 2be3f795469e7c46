import Mathlib.Data.Option.Basic
import MetricFormula.Metrics.File
import MetricFormula.Proofs.Outcome

/-!
# Files of metrics

The first file that cannot be used decides how a metric file is processed: the fixups come first, then the catalog, then
the metrics. All metrics are processed once all files are read.
-/

namespace MetricFormula

open Json.Reader (dropBlank)

/-! ## Arrays -/

/-- A text that begins with a bracket holds an array, if it holds a value. -/
theorem Json.array_of_bracket {text : String} {rest : List Char} (h : dropBlank text.toList = '[' :: rest)
    {value : Json} (hvalue : parse text = .ok value) : ∃ items, value = .array items := by
  have hbracket (bound room : Nat) : Reader.value bound (room + 1) text.toList =
      Reader.array bound (Reader.value bound room) rest := by
    simp only [Reader.value, Reader.valueWith, h]
  obtain ⟨⟨value', rest'⟩, hread, hwhole⟩ := bind_eq_ok.mp hvalue
  obtain ⟨⟨items, _⟩, -, harray⟩ := bind_eq_ok.mp ((hbracket _ _).symm.trans hread)
  cases harray
  dsimp only at hwhole
  split at hwhole
  · cases hwhole
    exact ⟨_, rfl⟩
  · cases hwhole

/-- A catalog is an array. -/
theorem EventCatalog.bracket_of_ofJson {text : String} {catalog : EventCatalog} (h : ofJson text = .ok catalog) :
    ∃ rest, dropBlank text.toList = '[' :: rest := by
  obtain ⟨⟨_, _⟩, hread, -⟩ := bind_eq_ok.mp h
  obtain ⟨⟨names, _⟩, hnames, -⟩ := bind_eq_ok.mp hread
  unfold Json.Reader.expectArray at hnames
  split at hnames
  · rename_i rest hrest
    exact ⟨rest, hrest⟩
  · cases hnames

namespace Metrics

/-- How the text of a path is found. -/
abbrev Source := String → Except AccessError String

variable {source : Source} {path : String} {o : FileOptions}

/-! ## Single files -/

section

variable {α : Type} {ofJson : String → Except Json.Problem α} {path? : Option String}

/-- What the text of a file is read as. -/
def Gives (source : Source) (ofJson : String → Except Json.Problem α) (path : String) (x : α) : Prop :=
  ∃ text, source path = .ok text ∧ ofJson text = .ok x

/-- Why a file cannot be used: there is no text, or it is not JSON of the wanted kind. -/
inductive Unusable (source : Source) (ofJson : String → Except Json.Problem α) (path : String) : FileError → Prop where
  | access {error} : source path = .error error → Unusable source ofJson path (.access path error)
  | json {text problem} : source path = .ok text → ofJson text = .error problem →
      Unusable source ofJson path (.json path problem)

theorem Gives.unique {x y : α} (hx : Gives source ofJson path x) (hy : Gives source ofJson path y) : x = y := by
  obtain ⟨text, htext, hx⟩ := hx
  obtain ⟨_, htext', hy⟩ := hy
  cases htext.symm.trans htext'
  exact Except.ok.inj (hx.symm.trans hy)

theorem gives_or_unusable (source : Source) (ofJson : String → Except Json.Problem α) (path : String) :
    (∃ x, Gives source ofJson path x) ∨ ∃ e, Unusable source ofJson path e := by
  cases htext : source path with
  | error e => exact .inr ⟨_, .access htext⟩
  | ok text =>
      cases hjson : ofJson text with
      | error problem => exact .inr ⟨_, .json htext hjson⟩
      | ok x => exact .inl ⟨x, text, htext, hjson⟩

/-- A file that need not be given. -/
theorem gives_or_unusable_of_given (source : Source) (ofJson : String → Except Json.Problem α) (path? : Option String) :
    (∃ x?, Option.Rel (Gives source ofJson) path? x?) ∨
      ∃ path e, path? = some path ∧ Unusable source ofJson path e := by
  cases path? with
  | none => exact .inl ⟨none, .none⟩
  | some path =>
      obtain ⟨x, hx⟩ | ⟨e, he⟩ := gives_or_unusable source ofJson path
      · exact .inl ⟨some x, .some hx⟩
      · exact .inr ⟨path, e, rfl, he⟩

theorem Gives.decode_eq {x : α} (h : Gives source ofJson path x) : decode ofJson path (source path) = .ok x := by
  obtain ⟨text, htext, hjson⟩ := h
  rw [decode, htext]
  exact mapError_eq_ok.mpr hjson

theorem Unusable.decode_eq {e : FileError} (h : Unusable source ofJson path e) :
    decode ofJson path (source path) = .error e := by
  cases h with
  | access htext => rw [decode, htext]; rfl
  | json htext hjson =>
      rw [decode, htext]
      exact mapError_eq_error.mpr ⟨_, hjson, rfl⟩

end

/-! ## Metric files -/

/-- What becomes of a metric file and of the files that it is processed with. -/
inductive Processes (source : Source) (o : FileOptions) : Except FileError Report → Prop where
  | fixups {path e} : o.fixups = some path → Unusable source FixupTable.ofJson path e → Processes source o (.error e)
  | catalog {table path e} : Option.Rel (Gives source FixupTable.ofJson) o.fixups table → o.catalog = some path →
      Unusable source EventCatalog.ofJson path e → Processes source o (.error e)
  | metrics {table catalog e} : Option.Rel (Gives source FixupTable.ofJson) o.fixups table →
      Option.Rel (Gives source EventCatalog.ofJson) o.catalog catalog → Unusable source Json.parse o.input e →
      Processes source o (.error e)
  | notAnArray {table catalog value} : Option.Rel (Gives source FixupTable.ofJson) o.fixups table →
      Option.Rel (Gives source EventCatalog.ofJson) o.catalog catalog → Gives source Json.parse o.input value →
      (∀ metrics, value ≠ .array metrics) → Processes source o (.error (.notAnArray o.input))
  | report {table catalog metrics} : Option.Rel (Gives source FixupTable.ofJson) o.fixups table →
      Option.Rel (Gives source EventCatalog.ofJson) o.catalog catalog →
      Gives source Json.parse o.input (.array metrics) →
      Processes source o (.ok (process ⟨table.getD .empty, catalog, o.crossReference⟩ metrics))

theorem exists_processes (source : Source) (o : FileOptions) : ∃ result, Processes source o result := by
  obtain ⟨table, htable⟩ | ⟨path, e, hpath, h⟩ := gives_or_unusable_of_given source FixupTable.ofJson o.fixups
  · obtain ⟨catalog, hcatalog⟩ | ⟨path, e, hpath, h⟩ := gives_or_unusable_of_given source EventCatalog.ofJson o.catalog
    · obtain ⟨value, hvalue⟩ | ⟨e, h⟩ := gives_or_unusable source Json.parse o.input
      · cases value with
        | array metrics => exact ⟨_, .report htable hcatalog hvalue⟩
        | _ => exact ⟨_, .notAnArray htable hcatalog hvalue nofun⟩
      · exact ⟨_, .metrics htable hcatalog h⟩
    · exact ⟨_, .catalog htable hpath h⟩
  · exact ⟨_, .fixups hpath h⟩

/-! ## Loading from a file system -/

section

variable {σ φ α : Type} {fs : FileSystem σ φ} {w : World σ} {ofJson : String → Except Json.Problem α}
  {path? : Option String}

theorem run_load (fs : FileSystem σ φ) (ofJson : String → Except Json.Problem α) (path : String) (w : World σ) :
    (load fs.system ofJson path).run.run w = (decode ofJson path (fs.text w.files path), w) := rfl

theorem Gives.run_load {x : α} (h : Gives (fs.text w.files) ofJson path x) :
    (load fs.system ofJson path).run.run w = (.ok x, w) := by
  rw [Metrics.run_load, h.decode_eq]

theorem Unusable.run_load {e : FileError} (h : Unusable (fs.text w.files) ofJson path e) :
    (load fs.system ofJson path).run.run w = (.error e, w) := by
  rw [Metrics.run_load, h.decode_eq]

theorem run_mapM_load {x? : Option α} (h : Option.Rel (Gives (fs.text w.files) ofJson) path? x?) :
    (path?.mapM (load fs.system ofJson)).run.run w = (.ok x?, w) := by
  cases h with
  | none => rfl
  | some h =>
      rw [Option.mapM_some]
      exact run_bind_ok h.run_load

theorem Unusable.run_mapM_load {e : FileError} (h : Unusable (fs.text w.files) ofJson path e) :
    ((some path).mapM (load fs.system ofJson)).run.run w = (.error e, w) := by
  rw [Option.mapM_some]
  exact run_bind_error h.run_load

theorem run_loadOptions {table : Option FixupTable} {catalog : Option EventCatalog}
    (htable : Option.Rel (Gives (fs.text w.files) FixupTable.ofJson) o.fixups table)
    (hcatalog : Option.Rel (Gives (fs.text w.files) EventCatalog.ofJson) o.catalog catalog) :
    (loadOptions fs.system o).run.run w = (.ok ⟨table.getD .empty, catalog, o.crossReference⟩, w) := by
  rw [loadOptions, run_bind_ok (run_mapM_load htable), run_bind_ok (run_mapM_load hcatalog)]
  rfl

theorem run_loadMetrics {metrics : List Json} (h : Gives (fs.text w.files) Json.parse path (.array metrics)) :
    (loadMetrics fs.system path).run.run w = (.ok metrics, w) := by
  rw [loadMetrics, run_bind_ok h.run_load]
  rfl

/-- What becomes of the files is what the program makes of them; nothing is changed or printed. -/
theorem Processes.run_processFile {result : Except FileError Report} (h : Processes (fs.text w.files) o result) :
    (processFile fs.system o).run.run w = (result, w) := by
  rw [processFile]
  cases h with
  | fixups hpath h =>
      refine run_bind_error ?_
      rw [loadOptions, hpath]
      exact run_bind_error h.run_mapM_load
  | catalog htable hpath h =>
      refine run_bind_error ?_
      rw [loadOptions, run_bind_ok (run_mapM_load htable), hpath]
      exact run_bind_error h.run_mapM_load
  | metrics htable hcatalog h =>
      rw [run_bind_ok (run_loadOptions htable hcatalog), loadMetrics]
      exact run_bind_error (run_bind_error h.run_load)
  | @notAnArray _ _ value htable hcatalog hvalue hno =>
      rw [run_bind_ok (run_loadOptions htable hcatalog)]
      refine run_bind_error ?_
      rw [loadMetrics, run_bind_ok hvalue.run_load]
      cases value with
      | array metrics => exact absurd rfl (hno metrics)
      | _ => rfl
  | report htable hcatalog hmetrics =>
      rw [run_bind_ok (run_loadOptions htable hcatalog), run_bind_ok (run_loadMetrics hmetrics)]
      rfl

end

/-! ## Files without an array -/

/-- A file that holds JSON, but no array. -/
def NoArray (source : Source) (path : String) : Prop :=
  ∃ value, Gives source Json.parse path value ∧ ∀ items, value ≠ .array items

theorem not_noArray_of_catalog {catalog : EventCatalog} (h : Gives source EventCatalog.ofJson path catalog) :
    ¬ NoArray source path := by
  rintro ⟨value, ⟨text, htext, hvalue⟩, hno⟩
  obtain ⟨_, htext', hcatalog⟩ := h
  cases htext.symm.trans htext'
  obtain ⟨rest, hrest⟩ := EventCatalog.bracket_of_ofJson hcatalog
  obtain ⟨items, hitems⟩ := Json.array_of_bracket hrest hvalue
  exact hno items hitems

/-- There is no report if the metrics or the catalog are no array. -/
theorem Processes.not_noArray {report : Report} (h : Processes source o (.ok report)) :
    ¬ NoArray source o.input ∧ ∀ path, o.catalog = some path → ¬ NoArray source path := by
  cases h with
  | report _ hcatalog hmetrics =>
      constructor
      · rintro ⟨value, hvalue, hno⟩
        exact hno _ (hvalue.unique hmetrics)
      · intro path hpath
        rw [hpath] at hcatalog
        cases hcatalog with
        | some hgives => exact not_noArray_of_catalog hgives

end Metrics

end MetricFormula
