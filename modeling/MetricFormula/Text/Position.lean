/-! Places in a text: byte offsets and spans of its UTF-8 form, lines and columns of its characters. -/

namespace MetricFormula

/-- Bytes of the UTF-8 form. -/
def byteLength : List Char → Nat
  | [] => 0
  | c :: cs => c.utf8Size + byteLength cs

@[simp] theorem byteLength_append (as bs : List Char) :
    byteLength (as ++ bs) = byteLength as + byteLength bs := by
  induction as with
  | nil => simp [byteLength]
  | cons c cs ih => simp [byteLength, ih, Nat.add_assoc]

/-- A range of byte offsets. -/
structure Span where
  start : Nat
  stop : Nat

/-- Lines and columns are counted from 1. -/
structure Position where
  line : Nat
  column : Nat

namespace Position

/-- Only a line feed starts a line. -/
def next (p : Position) (c : Char) : Position :=
  if c = '\n' then ⟨p.line + 1, 1⟩ else ⟨p.line, p.column + 1⟩

/-- Moves over the characters that begin before `offset`. -/
def advance (p : Position) : List Char → Nat → Position
  | c :: cs, offset + 1 => (p.next c).advance cs (offset + 1 - c.utf8Size)
  | _, _ => p

/-- The position of a byte offset in a text. -/
def ofOffset (cs : List Char) (offset : Nat) : Position := advance ⟨1, 1⟩ cs offset

end Position

end MetricFormula
