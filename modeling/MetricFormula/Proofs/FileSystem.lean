import MetricFormula.FileSystem

/-!
# Files that are written

A path can be written if the file that it leads to then has the text that was written, and nothing else is changed: all
other files are as they were, and are found at the paths where they were.
-/

namespace MetricFormula

theorem textOfBytes_toUTF8 (text : String) : textOfBytes text.toUTF8 = .ok text := by
  have hread : String.fromUTF8? text.toUTF8 = some text := by
    rw [String.fromUTF8?, String.toUTF8_eq_toByteArray, dif_pos text.isValidUTF8]
    rfl
  rw [textOfBytes, hread]

namespace FileSystem

variable {σ φ : Type} {fs : FileSystem σ φ} {s t : σ} {f g : φ} {path path' text : String}

theorem run_write {result : Except AccessError Unit} {output : String} (h : fs.write s path text = (result, t)) :
    (fs.system.write path text).run ⟨s, output⟩ = (result, ⟨t, output⟩) := by
  change ((fs.write s path text).1, World.mk (fs.write s path text).2 output) = _
  rw [h]

/-- The state `t` is `s` with the text in the file `f` at the path. -/
structure Written (fs : FileSystem σ φ) (s : σ) (path text : String) (f : φ) (t : σ) : Prop where
  located : fs.locate t path = .ok f
  content : (fs.file t f).content = text.toUTF8
  others : ∀ g, g ≠ f → fs.file t g = fs.file s g
  paths : ∀ g, g ≠ f → ∀ path', fs.locate t path' = .ok g ↔ fs.locate s path' = .ok g

/-- Any text can be written to the path. -/
def Writable (fs : FileSystem σ φ) (s : σ) (path : String) : Prop :=
  ∀ text, ∃ f t, fs.write s path text = (.ok (), t) ∧ fs.Written s path text f t

theorem read_of_locate (h : fs.locate s path = .ok f) : fs.read s path = match (fs.file s f).denied with
    | some e => .error e
    | none => .ok (fs.file s f).content := by
  rw [read, h]
  rfl

theorem Written.text_eq (h : fs.Written s path text f t) (hdenied : (fs.file t f).denied = none) :
    fs.text t path = .ok text := by
  rw [FileSystem.text, read_of_locate h.located, hdenied, h.content]
  exact textOfBytes_toUTF8 text

/-- Another file is read as before. -/
theorem Written.read_eq (h : fs.Written s path text f t) (hlocate : fs.locate s path' = .ok g) (hne : g ≠ f) :
    fs.read t path' = fs.read s path' := by
  rw [read_of_locate ((h.paths g hne path').mpr hlocate), read_of_locate hlocate, h.others g hne]

end FileSystem

end MetricFormula
