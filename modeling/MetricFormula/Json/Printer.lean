import MetricFormula.Json.Basic
import MetricFormula.Number.Numeral

/-! The text of JSON values, compact or indented. -/

namespace MetricFormula.Json

/-! ## Numbers -/

def integerText : Int → List Char
  | .ofNat n => Nat.toDigits 10 n
  | .negSucc n => '-' :: Nat.toDigits 10 (n + 1)

/-- `d.ddd` with an exponent of ten. -/
def exponentText (digits : List Char) (exponent : Int) : List Char :=
  let mantissa := match digits with
    | d :: c :: ds => d :: '.' :: c :: ds
    | ds => ds
  mantissa ++ 'e' :: (if exponent < 0 then '-' else '+') :: Nat.toDigits 10 exponent.natAbs

/-- A decimal with a point, or with an exponent from `10 ^ 16` upwards and below `10 ^ -5`. -/
def decimalText (d : Decimal) : List Char :=
  let digits := Nat.toDigits 10 d.digits
  let leading : Int := d.exponent + (digits.length - 1 : Nat)
  if leading < -5 ∨ 16 ≤ leading then exponentText digits leading
  else if d.exponent < 0 then Binary64.positional d
  else Binary64.positional d ++ ['.', '0']

def floatText : Binary64 → List Char
  | .finite n u _ => Binary64.signText n ++ decimalText (Binary64.shortest .even u)
  | _ => "null".toList

example : decimalText ⟨1, 2⟩ = "100.0".toList := by decide +kernel

example : decimalText ⟨15, -6⟩ = "0.000015".toList := by decide +kernel

example : decimalText ⟨15, -7⟩ = "1.5e-6".toList := by decide +kernel

example : decimalText ⟨1, 15⟩ = "1000000000000000.0".toList := by decide +kernel

example : decimalText ⟨1, 16⟩ = "1e+16".toList := by decide +kernel

/-! ## Strings -/

/-- Control characters with an escape of their own. -/
def controlEscapes : List (Char × Char) :=
  [('\x08', 'b'), ('\x0c', 'f'), ('\n', 'n'), ('\r', 'r'), ('\t', 't')]

/-- Only quotes, backslashes and control characters are escaped. -/
def charText (c : Char) : List Char :=
  if c = '"' ∨ c = '\\' then ['\\', c]
  else if c.toNat < 0x20 then
    match controlEscapes.lookup c with
    | some e => ['\\', e]
    | none => ['\\', 'u', '0', '0', Nat.digitChar (c.toNat / 16), Nat.digitChar (c.toNat % 16)]
  else [c]

def stringText (s : String) : List Char := '"' :: s.toList.flatMap charText ++ ['"']

/-! ## Compact text -/

mutual

def compactText : Json → List Char
  | .null => "null".toList
  | .bool true => "true".toList
  | .bool false => "false".toList
  | .integer n => integerText n
  | .float x => floatText x
  | .string s => stringText s
  | .array xs => '[' :: compactItems xs ++ [']']
  | .object fs => '\x7b' :: compactFields fs ++ ['\x7d']

def compactItems : List Json → List Char
  | [] => []
  | [x] => x.compactText
  | x :: xs => x.compactText ++ ',' :: compactItems xs

def compactFields : List (String × Json) → List Char
  | [] => []
  | [(name, x)] => stringText name ++ ':' :: x.compactText
  | (name, x) :: fs => stringText name ++ ':' :: x.compactText ++ ',' :: compactFields fs

end

/-- Text without blanks. -/
def compact (x : Json) : String := String.ofList x.compactText

/-! ## Indented text -/

/-- A new line, two blanks for each level. -/
def newLine (level : Nat) : List Char := '\n' :: List.replicate (2 * level) ' '

mutual

/-- The text of a value that stands on a given level; its items stand one level deeper. -/
def indentedText (level : Nat) : Json → List Char
  | .array (x :: xs) =>
    '[' :: newLine (level + 1) ++ indentedText (level + 1) x ++ indentedItems (level + 1) xs ++
      newLine level ++ [']']
  | .object ((name, x) :: fs) =>
    '\x7b' :: newLine (level + 1) ++ stringText name ++ ':' :: ' ' :: indentedText (level + 1) x ++
      indentedFields (level + 1) fs ++ newLine level ++ ['\x7d']
  | .array [] => ['[', ']']
  | .object [] => ['\x7b', '\x7d']
  | .null => "null".toList
  | .bool true => "true".toList
  | .bool false => "false".toList
  | .integer n => integerText n
  | .float x => floatText x
  | .string s => stringText s

/-- Items after the first. -/
def indentedItems (level : Nat) : List Json → List Char
  | [] => []
  | x :: xs => ',' :: newLine level ++ indentedText level x ++ indentedItems level xs

/-- Fields after the first. -/
def indentedFields (level : Nat) : List (String × Json) → List Char
  | [] => []
  | (name, x) :: fs =>
    ',' :: newLine level ++ stringText name ++ ':' :: ' ' :: indentedText level x ++ indentedFields level fs

end

/-- Text with every item and field on a line of its own. -/
def pretty (x : Json) : String := String.ofList (x.indentedText 0)

end MetricFormula.Json
