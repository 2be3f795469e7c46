import MetricFormula.Expr.Basic
import MetricFormula.Token.Basic

/-! The canonical text of events and trees: single blanks around operators, parentheses only where the tree needs
them, and a backslash before every character that would not be read as part of a name. -/

namespace MetricFormula

/-- Words with a meaning of their own. -/
def isReserved (name : String) : Bool := name == "if" || name == "else" || (Builtin.ofName? name).isSome

def escaped (c : Char) (plain : Bool) : List Char := if plain then [c] else ['\\', c]

/-- A key or a value of a modifier, or the rest of a name. -/
def wordText (cs : List Char) : List Char := cs.flatMap fun c => escaped c (isWordChar c)

def nameText (name : String) : List Char :=
  match name.toList with
  | [] => []
  | c :: cs => escaped c (isWordStart c && !isReserved name) ++ wordText cs

def Modifier.text (m : Modifier) : List Char :=
  wordText m.key.toList ++ match m.value with
    | some v => '\\' :: '=' :: wordText v.toList
    | none => []

/-- Modifiers after the first. -/
def modifiersText : List Modifier → List Char
  | [] => []
  | m :: ms => '\\' :: ',' :: m.text ++ modifiersText ms

namespace Event

/-- A qualifier follows the block, or a colon if there is no block. -/
def text (e : Event) : List Char :=
  nameText e.name ++ match e.modifiers, e.qualifier with
    | [], none => []
    | [], some .retireLatency => [':', 'R']
    | m :: ms, q =>
      '@' :: (m.text ++ modifiersText ms) ++ '@' :: match q with
        | none => []
        | some .retireLatency => ['R']

end Event

namespace Expr

/-- Binding strength of the outermost construct. -/
def precedence : Expr → Nat
  | .binary op _ _ => op.precedence
  | .conditional .. => 0
  | _ => 6

def isConditional : Expr → Bool
  | .conditional .. => true
  | _ => false

def grouped (parens : Bool) (cs : List Char) : List Char := if parens then '(' :: cs ++ [')'] else cs

/-- Whether the left operand of an operator is grouped. -/
def groupsLeft (op : Operator) (e : Expr) : Bool :=
  if op.isComparison then e.precedence ≤ op.precedence else e.precedence < op.precedence

def groupsRight (op : Operator) (e : Expr) : Bool := e.precedence ≤ op.precedence

mutual

def text : Expr → List Char
  | .literal x => x.text
  | .event e => e.text
  | .binary op l r =>
    grouped (groupsLeft op l) l.text ++ ' ' :: op.symbol.toList ++ ' ' :: grouped (groupsRight op r) r.text
  | .call f as => f.name.toList ++ '(' :: argumentsText as ++ [')']
  | .conditional v t o =>
    grouped v.isConditional v.text ++ " if ".toList ++ grouped t.isConditional t.text ++ " else ".toList ++ o.text

def argumentsText : List Expr → List Char
  | [] => []
  | a :: as => a.text ++ moreArgumentsText as

def moreArgumentsText : List Expr → List Char
  | [] => []
  | a :: as => ',' :: ' ' :: a.text ++ moreArgumentsText as

end

/-- The canonical text of a tree. -/
def print (e : Expr) : String := String.ofList e.text

end Expr

end MetricFormula
