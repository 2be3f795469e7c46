/-!
Files, and what a program asks of the system that it runs on. A program is written over any such system; a file system
gives one that runs in a state of its files.
-/

namespace MetricFormula

/-- Why a file cannot be read or written. -/
inductive AccessError where
  | missing
  | notADirectory
  | isADirectory
  | nameTooLong
  | notText
  | other (reason : String)

def AccessError.message : AccessError → String
  | .missing => "No such file or directory (os error 2)"
  | .notADirectory => "Not a directory (os error 20)"
  | .isADirectory => "Is a directory (os error 21)"
  | .nameTooLong => "File name too long (os error 36)"
  | .notText => "stream did not contain valid UTF-8"
  | .other reason => reason

/-- The text of a file. -/
def textOfBytes (bytes : ByteArray) : Except AccessError String :=
  match String.fromUTF8? bytes with
  | some text => .ok text
  | none => .error .notText

/-! ## Systems -/

/-- What a program can do. -/
structure System (m : Type → Type) where
  read : String → m (Except AccessError ByteArray)
  /-- Gives a file its whole content, and makes the file if need be. -/
  write : String → String → m (Except AccessError Unit)
  print : String → m Unit

def System.readText {m : Type → Type} [Monad m] (sys : System m) (path : String) : m (Except AccessError String) := do
  return (← sys.read path) >>= textOfBytes

/-! ## File systems -/

structure File where
  content : ByteArray
  /-- Why it cannot be read, if that is so. -/
  denied : Option AccessError

/-- Files of a kind `φ`, in a state of a kind `σ`. Several paths may lead to a file. -/
structure FileSystem (σ φ : Type) where
  /-- The file that a path leads to. -/
  locate : σ → String → Except AccessError φ
  file : σ → φ → File
  /-- Writes a text to a path. If that fails, the file may be left in any state. -/
  write : σ → String → String → Except AccessError Unit × σ

/-- The files, and all that was printed. -/
structure World (σ : Type) where
  files : σ
  output : String

namespace FileSystem

variable {σ φ : Type}

def read (fs : FileSystem σ φ) (s : σ) (path : String) : Except AccessError ByteArray := do
  let file := fs.file s (← fs.locate s path)
  match file.denied with
  | some e => .error e
  | none => .ok file.content

/-- The text that is found at a path. -/
def text (fs : FileSystem σ φ) (s : σ) (path : String) : Except AccessError String := fs.read s path >>= textOfBytes

/-- Reading leaves everything as it is, printing leaves the files, and writing leaves what was printed. -/
def system (fs : FileSystem σ φ) : System (StateM (World σ)) where
  read path w := (fs.read w.files path, w)
  write path text w :=
    let (result, files) := fs.write w.files path text
    (result, { w with files })
  print text w := ((), { w with output := w.output ++ text })

end FileSystem

end MetricFormula
