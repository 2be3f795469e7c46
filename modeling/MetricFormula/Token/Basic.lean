import MetricFormula.Expr.Event
import MetricFormula.Expr.Operator
import MetricFormula.Number.Numeral
import MetricFormula.Text.Position

/-! Tokens of formula text. An event with its modifiers is one token. -/

namespace MetricFormula

/-- Characters that begin a word. -/
def isWordStart (c : Char) : Bool := c.isAlpha || c == '_' || c == '#'

/-- Characters that continue a word. -/
def isWordChar (c : Char) : Bool := c.isAlphanum || c == '_' || c == '.'

inductive Token where
  | number (value : Binary64)
  /-- A plain name: of an event, or of a function when a parenthesis follows. -/
  | word (name : String)
  /-- An event with modifiers, a qualifier or escaped characters. -/
  | event (event : Event)
  | ifKeyword
  | elseKeyword
  | operator (op : Operator)
  | openParen
  | closeParen
  | comma

/-- A token and its place in the text. -/
structure LocatedToken where
  token : Token
  span : Span

/-- What a word stands for. -/
def Token.ofWord (s : String) : Token :=
  if s = "if" then .ifKeyword else if s = "else" then .elseKeyword else .word s

def quoted (s : String) : String := "`" ++ s ++ "`"

def Token.describe : Token → String
  | .number x => "number " ++ quoted (String.ofList x.text)
  | .word s => quoted s
  | .event e => "event " ++ quoted e.name
  | .ifKeyword => quoted "if"
  | .elseKeyword => quoted "else"
  | .operator op => quoted op.symbol
  | .openParen => quoted "("
  | .closeParen => quoted ")"
  | .comma => quoted ","

end MetricFormula
