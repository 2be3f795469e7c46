import MetricFormula.Command.Run
import MetricFormula.Proofs.Directory
import MetricFormula.Proofs.Metrics.Loading

/-!
# Metric files on the command line

A metric file is processed wholly or not at all, on any file system. Files are read before anything is written, so that
the text that is written to a path is the one that is printed without it, even if the path is that of a file that was
read.
-/

namespace MetricFormula.Command

open Metrics (NoArray Processes Report)

variable {σ φ : Type} {fs : FileSystem σ φ} {s t : σ} {args args' : List String} {a : MetricsArguments} {path : String}
  {report : Report}

/-! ## Ends of runs -/

theorem run_metrics (fs : FileSystem σ φ) (s : σ) (h : ofArguments args = .ok (.metrics a)) :
    fs.run args s = (processMetrics fs.system a).run ⟨s, ""⟩ := by
  rw [FileSystem.run, run, h]

theorem run_failed (h : ofArguments args = .ok (.metrics a)) {e : Metrics.FileError}
    (he : Processes (fs.text s) a.files (.error e)) : fs.run args s = (.failed (.metrics e), ⟨s, ""⟩) := by
  rw [run_metrics fs s h, processMetrics, run_bind (Processes.run_processFile (w := ⟨s, ""⟩) he)]
  rfl

theorem run_printed (h : ofArguments args = .ok (.metrics a)) (houtput : a.output = none)
    (hreport : Processes (fs.text s) a.files (.ok report)) : fs.run args s = (.done, ⟨s, report.text ++ "\n"⟩) := by
  rw [run_metrics fs s h, processMetrics, run_bind (Processes.run_processFile (w := ⟨s, ""⟩) hreport), houtput]
  rfl

theorem run_written (h : ofArguments args = .ok (.metrics a)) (houtput : a.output = some path)
    (hreport : Processes (fs.text s) a.files (.ok report))
    (hwrite : fs.write s path (report.text ++ "\n") = (.ok (), t)) : fs.run args s = (.done, ⟨t, ""⟩) := by
  rw [run_metrics fs s h, processMetrics, run_bind (Processes.run_processFile (w := ⟨s, ""⟩) hreport), houtput]
  exact run_bind (FileSystem.run_write hwrite)

/-! ## With and without a path for the output -/

/-- Either both runs fail for the same reason, with nothing printed and no file changed, or one writes to the path what
the other prints. -/
theorem run_metrics_allOrNothing (hargs : ofArguments args = .ok (.metrics { a with output := some path }))
    (hargs' : ofArguments args' = .ok (.metrics { a with output := none })) (hwritable : fs.Writable s path) :
    (∃ e, Processes (fs.text s) a.files (.error e) ∧ fs.run args s = (.failed (.metrics e), ⟨s, ""⟩) ∧
      fs.run args' s = (.failed (.metrics e), ⟨s, ""⟩)) ∨
    ∃ report f t, Processes (fs.text s) a.files (.ok report) ∧ ¬ NoArray (fs.text s) a.input ∧
      (∀ catalog, a.catalog = some catalog → ¬ NoArray (fs.text s) catalog) ∧
      fs.run args' s = (.done, ⟨s, report.text ++ "\n"⟩) ∧ fs.run args s = (.done, ⟨t, ""⟩) ∧
      fs.Written s path (report.text ++ "\n") f t := by
  obtain ⟨result, hprocesses⟩ := Metrics.exists_processes (fs.text s) a.files
  cases result with
  | error e => exact .inl ⟨e, hprocesses, run_failed hargs hprocesses, run_failed hargs' hprocesses⟩
  | ok report =>
      obtain ⟨hinput, hcatalog⟩ := hprocesses.not_noArray
      obtain ⟨f, t, hwrite, hwritten⟩ := hwritable (report.text ++ "\n")
      exact .inr ⟨report, f, t, hprocesses, hinput, hcatalog, run_printed hargs' rfl hprocesses,
        run_written hargs rfl hprocesses hwrite, hwritten⟩

/-- A directory with one metric file. -/
def oneMetric : Directory :=
  let metric := Json.object [(Metrics.nameField, .string "Busy"), (Metrics.formulaField, .string "x + 0")]
  .ofFiles [("m.json", (Json.array [metric]).pretty.toUTF8)]

/-- The file is processed in its own place. -/
theorem run_metrics_inPlace : ∃ report f t,
    Processes (Directory.fileSystem.text oneMetric) ⟨"m.json", none, none, false⟩ (.ok report) ∧
      Directory.fileSystem.run ["metrics", "m.json"] oneMetric = (.done, ⟨oneMetric, report.text ++ "\n"⟩) ∧
      Directory.fileSystem.run ["metrics", "m.json", "-o", "m.json"] oneMetric = (.done, ⟨t, ""⟩) ∧
      Directory.fileSystem.Written oneMetric "m.json" (report.text ++ "\n") f t := by
  have hargs : ofArguments ["metrics", "m.json", "-o", "m.json"] =
      .ok (.metrics ⟨"m.json", none, none, some "m.json", false⟩) := rfl
  have hargs' : ofArguments ["metrics", "m.json"] = .ok (.metrics ⟨"m.json", none, none, none, false⟩) := rfl
  have hwritable : Directory.fileSystem.Writable oneMetric "m.json" := Directory.writable_of_target rfl
  have hcode : (Directory.fileSystem.run ["metrics", "m.json"] oneMetric).1.code = 0 := by decide +kernel
  obtain ⟨e, -, -, hrun⟩ | ⟨report, f, t, hprocesses, -, -, hrun', hrun, hwritten⟩ :=
    run_metrics_allOrNothing (a := ⟨"m.json", none, none, none, false⟩) hargs hargs' hwritable
  · rw [hrun] at hcode
    cases hcode
  · exact ⟨report, f, t, hprocesses, hrun', hrun, hwritten⟩

end MetricFormula.Command
