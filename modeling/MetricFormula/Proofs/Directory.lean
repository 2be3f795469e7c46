import Mathlib.Tactic.SplitIfs
import MetricFormula.Directory
import MetricFormula.Proofs.FileSystem
import MetricFormula.Proofs.Outcome
import MetricFormula.Proofs.Table

/-!
# Files of a directory

A path leads to a file by way of folders that end in the directory itself. Such a path can be written: no folder is made
or lost by it, and no other file.
-/

namespace MetricFormula.Directory

variable {d : Directory} {f g : Folder} {e : Entry} {name n path text : String}

/-! ## Names -/

/-- A name that a file can have. -/
structure FileName (name : String) : Prop where
  ne_self : name ≠ "."
  ne_parent : name ≠ ".."
  size_le : name.utf8ByteSize ≤ Path.nameLimit

theorem find?_inside : d.find? .inside n = some e ↔ (d.files.get? n).isSome = true ∧ e = .file n := by
  rw [find?, Option.ite_none_right_eq_some, Table.contains, Option.some_inj, eq_comm (a := e)]

theorem entry_eq_ok (h : FileName n) : d.entry f n = .ok e ↔ d.find? f n = some e := by
  rw [entry, if_neg h.ne_self, if_neg h.ne_parent, if_neg (Nat.not_lt.mpr h.size_le)]
  cases d.find? f n with
  | none => exact ⟨nofun, nofun⟩
  | some e' => exact ⟨fun h => congrArg some (Except.ok.inj h), fun h => congrArg Except.ok (Option.some.inj h)⟩

/-- No other name is looked up. -/
theorem entry_cases (d : Directory) (f : Folder) (n : String) :
    (∀ d' : Directory, d'.entry f n = d.entry f n) ∧ (∀ name, d.entry f n ≠ .ok (.file name)) ∧
      d.entry f n ≠ .error .missing ∨ FileName n := by
  unfold entry
  split_ifs with hself hparent hsize
  · exact .inl ⟨fun _ => rfl, nofun, nofun⟩
  · exact .inl ⟨fun _ => rfl, nofun, nofun⟩
  · exact .inl ⟨fun _ => rfl, nofun, nofun⟩
  · exact .inr ⟨hself, hparent, Nat.not_lt.mp hsize⟩

theorem fileName_of_missing (h : d.entry f n = .error .missing) : FileName n := by
  obtain ⟨-, -, hno⟩ | hname := d.entry_cases f n
  · exact absurd h hno
  · exact hname

/-- Files are known in the directory itself and nowhere else, by their names. -/
theorem inside_of_file (h : d.entry f n = .ok (.file name)) : f = .inside ∧ n = name ∧ FileName n := by
  obtain ⟨-, hno, -⟩ | hname := d.entry_cases f n
  · exact absurd h (hno name)
  · have hfind := (entry_eq_ok hname).mp h
    unfold find? at hfind
    split at hfind
    · split_ifs at hfind
      cases hfind
      exact ⟨rfl, rfl, hname⟩
    · cases hfind
    · cases hfind
    · split_ifs at hfind <;> cases hfind
    · split_ifs at hfind <;> cases hfind

/-! ## Paths -/

theorem enter_cons_eq_ok {names : List String} :
    d.enter f (n :: names) = .ok g ↔ ∃ f', d.entry f n = .ok (.folder f') ∧ d.enter f' names = .ok g := by
  rw [enter, bind_eq_ok]
  constructor
  · rintro ⟨e, hentry, h⟩
    cases e with
    | folder f' => exact ⟨f', hentry, h⟩
    | file _ => cases h
    | device _ => cases h
  · rintro ⟨f', hentry, h⟩
    exact ⟨_, hentry, h⟩

theorem locate_eq_ok : d.locate path = .ok e ↔ ∃ p f, Path.ofString path = .ok p ∧ d.folderOf p = .ok f ∧
    d.entry f p.name = .ok e ∧ (p.asFolder = true → ∃ g, e = .folder g) := by
  simp only [locate, bind_eq_ok]
  constructor
  · rintro ⟨p, hp, f, hf, e', hentry, h⟩
    split at h
    · cases h
      exact ⟨p, f, hp, hf, hentry, fun _ => ⟨_, rfl⟩⟩
    · split_ifs at h with hfolder
      cases h
      exact ⟨p, f, hp, hf, hentry, fun h => absurd h hfolder⟩
  · rintro ⟨p, f, hp, hf, hentry, hfolder⟩
    refine ⟨p, hp, f, hf, e, hentry, ?_⟩
    cases e with
    | folder g => rfl
    | _ => exact if_neg fun h => nomatch hfolder h

/-- A text goes to a file of the directory, which may be missing. -/
theorem inside_of_target (h : d.target path = .ok (.file name)) : ∃ p, Path.ofString path = .ok p ∧
    d.folderOf p = .ok .inside ∧ p.asFolder = false ∧ p.name = name ∧ FileName name := by
  obtain ⟨p, hp, h⟩ := bind_eq_ok.mp h
  obtain ⟨f, hf, h⟩ := bind_eq_ok.mp h
  split_ifs at h with hfolder
  have hfolder := Bool.eq_false_iff.mpr hfolder
  split at h
  · cases h
  · rename_i hmissing
    split at h
    · cases h
      exact ⟨p, hp, hf, hfolder, rfl, fileName_of_missing hmissing⟩
    · cases h
  · obtain ⟨rfl, rfl, hname⟩ := inside_of_file h
    exact ⟨p, hp, hf, hfolder, rfl, hname⟩

/-! ## Files that are written -/

theorem get?_put (d : Directory) (name text n : String) :
    (d.put name text).files.get? n = if n = name then some text.toUTF8 else d.files.get? n :=
  Table.get?_insert d.files name text.toUTF8 n

theorem find?_put_self (d : Directory) (name text : String) :
    (d.put name text).find? .inside name = some (.file name) := by
  rw [find?_inside, get?_put, if_pos rfl]
  exact ⟨rfl, rfl⟩

/-- What a name stands for does not change, unless it is that of the file. -/
theorem find?_put_eq_some (hne : e ≠ .file name) : (d.put name text).find? f n = some e ↔ d.find? f n = some e := by
  cases f with
  | inside =>
      rw [find?_inside, find?_inside, get?_put]
      refine and_congr_left fun he => ?_
      rw [if_neg fun hn => hne (he.trans (congrArg Entry.file hn))]
  | _ => rfl

theorem entry_put_eq_ok (hne : e ≠ .file name) : (d.put name text).entry f n = .ok e ↔ d.entry f n = .ok e := by
  obtain ⟨hsame, -⟩ | hname := d.entry_cases f n
  · rw [hsame]
  · rw [entry_eq_ok hname, entry_eq_ok hname, find?_put_eq_some hne]

theorem enter_put_eq_ok {names : List String} :
    (d.put name text).enter f names = .ok g ↔ d.enter f names = .ok g := by
  induction names generalizing f with
  | nil => rfl
  | cons n names ih =>
      simp only [enter_cons_eq_ok, ih]
      exact exists_congr fun f' => and_congr_left fun _ => entry_put_eq_ok nofun

theorem locate_put_eq_ok (hne : e ≠ .file name) :
    (d.put name text).locate path = .ok e ↔ d.locate path = .ok e := by
  simp only [locate_eq_ok, folderOf, enter_put_eq_ok, entry_put_eq_ok hne]

/-- A file of the directory can be written, also if it is to be made. -/
theorem writable_of_target (h : d.target path = .ok (.file name)) : fileSystem.Writable d path := by
  obtain ⟨p, hp, hf, hfolder, rfl, hname⟩ := inside_of_target h
  intro text
  refine ⟨.file p.name, d.put p.name text, ?_, ?_, ?_, ?_, fun _ hne _ => locate_put_eq_ok hne⟩
  · change d.write path text = _
    rw [write, h]
    rfl
  · refine locate_eq_ok.mpr ⟨p, .inside, hp, enter_put_eq_ok.mpr hf, ?_, fun h => ?_⟩
    · exact (entry_eq_ok hname).mpr (find?_put_self d p.name text)
    · cases hfolder.symm.trans h
  · change (((d.put p.name text).files.get? p.name).getD .empty) = _
    rw [get?_put, if_pos rfl]
    rfl
  · intro g hne
    cases g with
    | file n =>
        have hn : n ≠ p.name := fun hn => hne (congrArg Entry.file hn)
        change File.mk (((d.put p.name text).files.get? n).getD .empty) none = _
        rw [get?_put, if_neg hn]
        rfl
    | _ => rfl

end MetricFormula.Directory
