import MetricFormula.FileSystem
import MetricFormula.Table

/-! A small file system: one directory of files, with the folders and devices that paths out of it can reach. -/

namespace MetricFormula

/-! ## Paths -/

/-- The folders that lie on the way, and the name at the end. -/
structure Path where
  fromRoot : Bool
  folders : List String
  name : String
  /-- A slash follows the name: only a folder can be meant. -/
  asFolder : Bool

namespace Path

/-- The number of bytes that a path may have. -/
def sizeLimit : Nat := 4095

/-- The number of bytes that a name in a path may have. -/
def nameLimit : Nat := 255

/-- The parts between slashes. -/
def parts : List Char → List (List Char)
  | [] => [[]]
  | c :: cs =>
    if c = '/' then [] :: parts cs
    else match parts cs with
      | [] => [[c]]
      | p :: ps => (c :: p) :: ps

/-- Slashes in a row count as one. A path without a name ends where it starts. -/
def ofString (path : String) : Except AccessError Path :=
  let cs := path.toList
  let names := (parts cs).filterMap fun p => if p.isEmpty then none else some (String.ofList p)
  if cs.isEmpty then .error .missing
  else if sizeLimit < path.utf8ByteSize then .error .nameTooLong
  else .ok ⟨cs.head? == some '/', names.dropLast, names.getLast?.getD ".", cs.getLast? == some '/'⟩

end Path

/-! ## Folders -/

/-- A folder that a path can pass through. -/
inductive Folder where
  /-- The directory itself. -/
  | inside
  /-- A folder that holds the directory; its files are not known. -/
  | around
  | root
  /-- A folder of the root; its files are not known. -/
  | standard
  | devices

namespace Folder

def parent : Folder → Folder
  | .inside | .around => .around
  | .root | .standard | .devices => .root

/-- Folders that the root of every system has. -/
def standardNames : List String :=
  ["bin", "boot", "etc", "home", "lib", "media", "mnt", "opt", "proc", "root", "run", "sbin", "srv", "sys", "tmp",
    "usr", "var"]

/-- Devices from which nothing can be read and at which nothing is seen. -/
def silentDevices : List String := ["null", "stdin", "stderr"]

end Folder

/-- What a name in a folder stands for. -/
inductive Entry where
  | folder (f : Folder)
  /-- A file of the directory. -/
  | file (name : String)
  /-- A device that gives no text. What it takes is shown, or is lost. -/
  | device (shown : Bool)

/-- Files by their names; there are no folders within. -/
structure Directory where
  files : Table ByteArray
  /-- All that was shown at a device. -/
  shown : String

namespace Directory

def ofFiles (files : List (String × ByteArray)) : Directory := ⟨.ofList files, ""⟩

def find? (d : Directory) : Folder → String → Option Entry
  | .inside, name => if d.files.contains name then some (.file name) else none
  | .around, _ | .standard, _ => none
  | .root, name =>
    if name = "dev" then some (.folder .devices)
    else if name ∈ Folder.standardNames then some (.folder .standard)
    else none
  | .devices, name =>
    if name = "stdout" then some (.device true)
    else if name ∈ Folder.silentDevices then some (.device false)
    else none

/-- The entry of a name. Every folder has itself as `.` and the one that holds it as `..`. -/
def entry (d : Directory) (f : Folder) (name : String) : Except AccessError Entry :=
  if name = "." then .ok (.folder f)
  else if name = ".." then .ok (.folder f.parent)
  else if Path.nameLimit < name.utf8ByteSize then .error .nameTooLong
  else match d.find? f name with
    | some e => .ok e
    | none => .error .missing

/-- The folder that is reached by passing through folders, one after another. -/
def enter (d : Directory) (f : Folder) : List String → Except AccessError Folder
  | [] => .ok f
  | name :: names => do
    match ← d.entry f name with
    | .folder g => d.enter g names
    | _ => .error .notADirectory

def folderOf (d : Directory) (p : Path) : Except AccessError Folder :=
  d.enter (if p.fromRoot then .root else .inside) p.folders

def locate (d : Directory) (path : String) : Except AccessError Entry := do
  let p ← Path.ofString path
  match ← d.entry (← d.folderOf p) p.name with
  | .folder f => .ok (.folder f)
  | e => if p.asFolder then .error .notADirectory else .ok e

def file (d : Directory) : Entry → File
  | .folder _ => ⟨.empty, some .isADirectory⟩
  | .file name => ⟨(d.files.get? name).getD .empty, none⟩
  | .device _ => ⟨.empty, none⟩

/-- Where a text for a path goes; a file that is missing is made. A slash at the end is refused before the name is
looked at. A file that is made outside the directory is not seen again, and is like a device at which nothing is. -/
def target (d : Directory) (path : String) : Except AccessError Entry := do
  let p ← Path.ofString path
  let f ← d.folderOf p
  if p.asFolder then .error .isADirectory
  else match d.entry f p.name with
    | .ok (.folder _) => .error .isADirectory
    | .error .missing => match f with
      | .inside => .ok (.file p.name)
      | _ => .ok (.device false)
    | e => e

/-- Gives a file its whole text. -/
def put (d : Directory) (name text : String) : Directory := { d with files := d.files.insert name text.toUTF8 }

def give (d : Directory) (text : String) : Entry → Directory
  | .file name => d.put name text
  | .device true => { d with shown := d.shown ++ text }
  | _ => d

def write (d : Directory) (path text : String) : Except AccessError Unit × Directory :=
  match d.target path with
  | .ok e => (.ok (), d.give text e)
  | .error e => (.error e, d)

def fileSystem : FileSystem Directory Entry where
  locate := locate
  file := file
  write := write

end Directory

end MetricFormula
