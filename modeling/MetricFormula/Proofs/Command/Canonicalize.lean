import Mathlib.Data.List.Basic
import MetricFormula.Command.Run
import MetricFormula.Directory
import MetricFormula.Proofs.Expr.LineBreaks

/-!
# Formulas on the command line

The canonical texts of the formulas that can be read are printed, each with a line feed after it. These are their lines
if no text has a line feed itself, and so unless a formula has a backslash directly before one.
-/

namespace MetricFormula

/-! ## Lines -/

section Lines

variable {ts : List (List Char)}

theorem length_splitOn (c : Char) (cs : List Char) : (cs.splitOn c).length = cs.count c + 1 := by
  induction cs with
  | nil => rfl
  | cons d cs ih =>
      rw [List.splitOn_cons_eq_if_modifyHead, List.count_cons]
      split
      · rw [List.length_cons, ih]
      · rw [List.length_modifyHead, ih, Nat.add_zero]

theorem count_lines (ts : List (List Char)) :
    (ts.flatMap fun t => t ++ ['\n']).count '\n' = ts.length + ts.flatten.count '\n' := by
  induction ts with
  | nil => rfl
  | cons t ts ih =>
      simp only [List.flatMap_cons, List.flatten_cons, List.count_append, List.count_singleton_self, List.length_cons,
        ih]
      omega

theorem splitOn_lines (h : ∀ t ∈ ts, '\n' ∉ t) : (ts.flatMap fun t => t ++ ['\n']).splitOn '\n' = ts ++ [[]] := by
  induction ts with
  | nil => rfl
  | cons t ts ih =>
      obtain ⟨ht, hts⟩ := List.forall_mem_cons.mp h
      rw [List.flatMap_cons, List.append_assoc, List.singleton_append, List.splitOn_append_cons_self_of_not_mem ht,
        ih hts, List.cons_append]

/-- Texts with a line feed after each are the lines of the whole exactly if none has a line feed itself. -/
theorem splitOn_lines_iff :
    (ts.flatMap fun t => t ++ ['\n']).splitOn '\n' = ts ++ [[]] ↔ ∀ t ∈ ts, '\n' ∉ t := by
  refine ⟨fun h t ht hmem => ?_, splitOn_lines⟩
  have hlength := congrArg List.length h
  rw [length_splitOn, count_lines, List.length_append, List.length_singleton] at hlength
  have hpos : 0 < ts.flatten.count '\n' := List.count_pos_iff.mpr (List.mem_flatten_of_mem ht hmem)
  omega

end Lines

namespace Command

/-- The canonical texts of the formulas that can be read, in order. -/
def canonicalTexts (formulas : List String) : List String :=
  formulas.filterMap fun f => (MetricFormula.canonicalize f).toOption

/-- What a run for some formulas prints, and how it ends. The lines are those of the formulas that can be read, one for
each, exactly if no simplified formula has an event with a line break, and that takes a formula that escapes one. -/
structure PrintsCanonical {σ : Type} (formulas : List String) (s : σ) (out : Ending × World σ) : Prop where
  unchanged : out.2.files = s
  code : out.1.code = 0 ↔ ∀ f ∈ formulas, ∃ c, MetricFormula.canonicalize f = .ok c
  output : out.2.output.toList = (canonicalTexts formulas).flatMap fun c => c.toList ++ ['\n']
  lines : out.2.output.toList.splitOn '\n' = (canonicalTexts formulas).map String.toList ++ [[]] ↔
    ∀ f ∈ formulas, ∀ t, parse f = .ok t → ¬ t.simplify.HasLineBreak
  escaped : ∀ f ∈ formulas, ∀ t, parse f = .ok t → t.simplify.HasLineBreak → EscapesLineBreak f.toList

variable {σ φ : Type} {fs : FileSystem σ φ} {s : σ} {formulas args : List String}

theorem mem_canonicalTexts {c : String} :
    c ∈ canonicalTexts formulas ↔ ∃ f ∈ formulas, MetricFormula.canonicalize f = .ok c := by
  simp only [canonicalTexts, List.mem_filterMap, toOption_eq_some]

theorem length_canonicalTexts_le (formulas : List String) : (canonicalTexts formulas).length ≤ formulas.length :=
  List.length_filterMap_le _ _

theorem length_canonicalTexts_eq :
    (canonicalTexts formulas).length = formulas.length ↔ ∀ f ∈ formulas, ∃ c, MetricFormula.canonicalize f = .ok c := by
  rw [canonicalTexts, List.filterMap_length_eq_length]
  simp only [Option.isSome_iff_exists, toOption_eq_some]

theorem lineBreak_mem_canonicalTexts :
    (∀ c ∈ canonicalTexts formulas, '\n' ∉ c.toList) ↔
      ∀ f ∈ formulas, ∀ t, parse f = .ok t → ¬ t.simplify.HasLineBreak := by
  constructor
  · intro h f hf t hparse hbreak
    have hcanonical : MetricFormula.canonicalize f = .ok t.simplify.print := canonicalize_eq_ok.mpr ⟨t, hparse, rfl⟩
    have hmem := (lineBreak_mem_canonicalize hcanonical).mpr ⟨t, hparse, hbreak⟩
    exact h _ (mem_canonicalTexts.mpr ⟨f, hf, hcanonical⟩) hmem
  · intro h c hc hmem
    obtain ⟨f, hf, hcanonical⟩ := mem_canonicalTexts.mp hc
    obtain ⟨t, hparse, hbreak⟩ := (lineBreak_mem_canonicalize hcanonical).mp hmem
    exact h f hf t hparse hbreak

theorem canonicalTexts_cons_of_ok {f c : String} (h : MetricFormula.canonicalize f = .ok c) :
    canonicalTexts (f :: formulas) = c :: canonicalTexts formulas :=
  List.filterMap_cons_some (toOption_eq_some.mpr h)

theorem canonicalTexts_cons_of_error {f : String} {e : FormulaError} (h : MetricFormula.canonicalize f = .error e) :
    canonicalTexts (f :: formulas) = canonicalTexts formulas := by
  refine List.filterMap_cons_none ?_
  rw [h]
  rfl

/-- Each formula that can be read adds its line to what was printed, and each of the others is counted. -/
theorem run_printCanonical (fs : FileSystem σ φ) (formulas : List String) (s : σ) (output : String) :
    ∃ output', (printCanonical fs.system formulas).run ⟨s, output⟩ =
        (formulas.length - (canonicalTexts formulas).length, ⟨s, output'⟩) ∧
      output'.toList = output.toList ++ (canonicalTexts formulas).flatMap fun c => c.toList ++ ['\n'] := by
  induction formulas generalizing output with
  | nil => exact ⟨output, rfl, (List.append_nil _).symm⟩
  | cons f formulas ih =>
      cases hf : MetricFormula.canonicalize f with
      | ok c =>
          obtain ⟨output', hrun, houtput'⟩ := ih (output ++ (c ++ "\n"))
          rw [canonicalTexts_cons_of_ok hf]
          refine ⟨output', ?_, ?_⟩
          · rw [printCanonical, hf, List.length_cons, List.length_cons, Nat.add_sub_add_right]
            exact hrun
          · rw [houtput', List.flatMap_cons, String.toList_append, String.toList_append, List.append_assoc]
            rfl
      | error e =>
          obtain ⟨output', hrun, houtput'⟩ := ih output
          rw [canonicalTexts_cons_of_error hf]
          refine ⟨output', ?_, houtput'⟩
          rw [printCanonical, hf, List.length_cons, Nat.sub_add_comm (length_canonicalTexts_le formulas)]
          exact run_bind hrun

theorem run_printsCanonical (h : ofArguments args = .ok (.canonicalize formulas)) :
    PrintsCanonical formulas s (fs.run args s) := by
  obtain ⟨output, hprint, houtput⟩ := run_printCanonical fs formulas s ""
  have hle := length_canonicalTexts_le formulas
  have hrun : ∃ ending, fs.run args s = (ending, ⟨s, output⟩) ∧
      (ending.code = 0 ↔ ∀ f ∈ formulas, ∃ c, MetricFormula.canonicalize f = .ok c) := by
    rw [FileSystem.run, run, h]
    dsimp only
    rw [canonicalizeAll, run_bind hprint, ← length_canonicalTexts_eq]
    cases hfailed : formulas.length - (canonicalTexts formulas).length with
    | zero => exact ⟨_, rfl, iff_of_true rfl (by omega)⟩
    | succ failed => exact ⟨_, rfl, iff_of_false nofun (by omega)⟩
  obtain ⟨ending, hrun, hcode⟩ := hrun
  have hlines : ((canonicalTexts formulas).flatMap fun c => c.toList ++ ['\n']) =
      ((canonicalTexts formulas).map String.toList).flatMap fun t => t ++ ['\n'] := by rw [List.flatMap_map]
  rw [hrun]
  refine ⟨rfl, hcode, houtput, ?_, fun f _ t hparse hbreak => ?_⟩
  · rw [houtput, String.toList_empty, List.nil_append, hlines, splitOn_lines_iff, ← lineBreak_mem_canonicalTexts,
      List.forall_mem_map]
  · exact escapesLineBreak_of_parse hparse hbreak.of_simplify

/-- Any formulas can be given. -/
theorem ofArguments_canonicalize (h : formulas ≠ []) :
    ofArguments ("canonicalize" :: "--" :: formulas) = .ok (.canonicalize formulas) := by
  have hformulas : Command.formulas ("--" :: formulas) = .ok formulas := by rw [Command.formulas]; rfl
  obtain ⟨f, fs, rfl⟩ := List.exists_cons_of_ne_nil h
  rw [ofArguments, canonicalizeCommand, hformulas]
  rfl

/-- The command prints the canonical texts of the formulas that can be read, one after another, and fails if there are
others. Each is one line, unless it is that of a formula with an escaped line break. -/
theorem run_canonicalize (fs : FileSystem σ φ) (hne : formulas ≠ []) :
    (∃ args, ofArguments args = .ok (.canonicalize formulas)) ∧
      ∀ args s, ofArguments args = .ok (.canonicalize formulas) → PrintsCanonical formulas s (fs.run args s) :=
  ⟨⟨_, ofArguments_canonicalize hne⟩, fun _ _ => run_printsCanonical⟩

/-- A formula that cannot be read is left out, and the run fails. -/
theorem run_canonicalize_leftOut : ∃ args,
    ofArguments args = .ok (.canonicalize ["(x)", "x +", "(y)"]) ∧
      canonicalTexts ["(x)", "x +", "(y)"] = ["x", "y"] ∧
      PrintsCanonical ["(x)", "x +", "(y)"] (.ofFiles []) (Directory.fileSystem.run args (.ofFiles [])) ∧
      (Directory.fileSystem.run args (.ofFiles [])).2.output.toList.splitOn '\n' = [['x'], ['y'], []] ∧
      (Directory.fileSystem.run args (.ofFiles [])).1.code ≠ 0 := by
  obtain ⟨⟨args, hargs⟩, hprints⟩ := run_canonicalize Directory.fileSystem (List.cons_ne_nil "(x)" ["x +", "(y)"])
  have htexts : canonicalTexts ["(x)", "x +", "(y)"] = ["x", "y"] := by decide +kernel
  have hrun := hprints args (.ofFiles []) hargs
  refine ⟨args, hargs, htexts, hrun, ?_, fun hcode => ?_⟩
  · rw [hrun.output, htexts]
    rfl
  · obtain ⟨c, hc⟩ := hrun.code.mp hcode "x +" (by simp)
    have hunreadable : (MetricFormula.canonicalize "x +").toOption = none := by decide +kernel
    rw [hc] at hunreadable
    cases hunreadable

/-- The line feed after a backslash is printed with the name: two lines for the one formula. -/
theorem run_canonicalize_lineBreak :
    MetricFormula.canonicalize "\\\n" = .ok "\\\n" ∧
      (Directory.fileSystem.run ["canonicalize", "\\\n"] (.ofFiles [])).1.code = 0 ∧
      (Directory.fileSystem.run ["canonicalize", "\\\n"] (.ofFiles [])).2.output.toList.splitOn '\n' =
        [['\\'], [], []] :=
  ⟨toOption_eq_some.mp (by decide +kernel), by decide +kernel, by decide +kernel⟩

end Command

end MetricFormula
