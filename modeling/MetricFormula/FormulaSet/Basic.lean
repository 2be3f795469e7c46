import MetricFormula.Expr.Parser
import MetricFormula.Expr.Printer
import MetricFormula.Expr.Simplify
import MetricFormula.Table

/-! Named formulas in the order in which they were added. -/

namespace MetricFormula

inductive FormulaError where
  | malformed (error : SyntaxError)
  | duplicateName (name : String)

def FormulaError.message : FormulaError → String
  | .malformed e => "Syntax error: " ++ e.message
  | .duplicateName name => "duplicate formula name " ++ quoted name

def parseFormula (text : String) : Except FormulaError Expr := (parse text).mapError .malformed

/-- The canonical text of a simplified formula. -/
def canonicalize (text : String) : Except FormulaError String :=
  (parseFormula text).map fun e => e.simplify.print

abbrev FormulaSet := Table Expr

namespace FormulaSet

/-- Adds a formula under a new name. -/
def push (s : FormulaSet) (name : String) (e : Expr) : Except FormulaError FormulaSet :=
  if s.contains name then .error (.duplicateName name) else .ok (s.insert name e)

/-- Reads a formula and adds it; an unreadable text is the error even if the name is taken. -/
def pushText (s : FormulaSet) (name text : String) : Except FormulaError FormulaSet := do
  s.push name (← parseFormula text)

end FormulaSet

end MetricFormula
