import MetricFormula.Number.Decimal

/-! Numerals: `digits[.digits][e[sign]digits]`, where a numeral that begins with the point has no first digits. -/

namespace MetricFormula

/-- The value of a sequence of decimal digits. -/
def digitsValue (cs : List Char) : Nat := Nat.ofDigitChars 10 cs 0

structure Numeral where
  whole : List Char
  fraction : List Char
  exponent : Int

namespace Numeral

def decimal (n : Numeral) : Decimal :=
  ⟨digitsValue (n.whole ++ n.fraction), n.exponent - n.fraction.length⟩

def toBinary64 (n : Numeral) (negative : Bool) : Binary64 := n.decimal.toBinary64 negative

/-- The point and the digits after it; a point without a digit is left. -/
def scanFraction : List Char → List Char × List Char
  | '.' :: c :: cs =>
    if c.isDigit then (c :: cs.takeWhile Char.isDigit, cs.dropWhile Char.isDigit) else ([], '.' :: c :: cs)
  | cs => ([], cs)

/-- One or more digits. -/
def scanDigits? : List Char → Option (Nat × List Char)
  | [] => none
  | c :: cs =>
    if c.isDigit then some (digitsValue (c :: cs.takeWhile Char.isDigit), cs.dropWhile Char.isDigit) else none

def scanSigned? : List Char → Option (Int × List Char)
  | '-' :: cs => (scanDigits? cs).map fun (n, rest) => (-(n : Int), rest)
  | '+' :: cs => (scanDigits? cs).map fun (n, rest) => ((n : Int), rest)
  | cs => (scanDigits? cs).map fun (n, rest) => ((n : Int), rest)

/-- The exponent; a mark without a digit is left. -/
def scanExponent (cs : List Char) : Int × List Char :=
  match cs with
  | c :: rest => if c = 'e' ∨ c = 'E' then (scanSigned? rest).getD (0, cs) else (0, cs)
  | [] => (0, cs)

/-- Whether a numeral begins here. -/
def startsAt : List Char → Bool
  | '.' :: c :: _ => c.isDigit
  | c :: _ => c.isDigit
  | [] => false

/-- The longest numeral at the front, and what follows it. -/
def scan (cs : List Char) : Numeral × List Char :=
  let whole := cs.takeWhile Char.isDigit
  let (fraction, rest) := scanFraction (cs.dropWhile Char.isDigit)
  let (exponent, rest) := scanExponent rest
  (⟨whole, fraction, exponent⟩, rest)

end Numeral

namespace Binary64

/-- Digits with a point and no exponent, as few as the value allows. -/
def positional (d : Decimal) : List Char :=
  let digits := Nat.toDigits 10 d.digits
  match d.exponent with
  | .ofNat k => digits ++ List.replicate k '0'
  | .negSucc k =>
    if k + 1 < digits.length then
      digits.take (digits.length - (k + 1)) ++ '.' :: digits.drop (digits.length - (k + 1))
    else '0' :: '.' :: (List.replicate (k + 1 - digits.length) '0' ++ digits)

def signText (negative : Bool) : List Char := if negative then ['-'] else []

/-- The text of a number in a formula: the fewest digits that read back, never with an exponent. -/
def text : Binary64 → List Char
  | .nan => "NaN".toList
  | .infinite n => signText n ++ "inf".toList
  | .finite n u _ => signText n ++ positional (shortest .up u)

def ofUnsignedText? (cs : List Char) (negative : Bool) : Option Binary64 :=
  if cs = "inf".toList then some (.infinite negative)
  else if cs = "NaN".toList then some .nan
  else if Numeral.startsAt cs then
    match Numeral.scan cs with
    | (n, []) => some (n.toBinary64 negative)
    | _ => none
  else none

/-- Reads a whole text as a number, with or without an exponent. -/
def ofText? : List Char → Option Binary64
  | '-' :: cs => ofUnsignedText? cs true
  | '+' :: cs => ofUnsignedText? cs false
  | cs => ofUnsignedText? cs false

example : (ofText? "-2.50".toList).map text = some "-2.5".toList := by decide +kernel

example : (ofText? "1e21".toList).map text = some "1000000000000000000000".toList := by decide +kernel

example : (ofText? "1.25E-7".toList).map text = some "0.000000125".toList := by decide +kernel

example : (ofText? "-0".toList).map text = some "-0".toList := by decide +kernel

end Binary64

end MetricFormula
