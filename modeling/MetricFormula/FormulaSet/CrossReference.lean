import MetricFormula.Expr.Subtree
import MetricFormula.FormulaSet.ReferenceGraph

/-! Expressing formulas in terms of each other: a subtree that is the whole of another formula becomes a reference to
it, unless that would close a cycle of references. -/

namespace MetricFormula

namespace Expr

def isConstant : Expr → Bool
  | .literal _ => true
  | _ => false

end Expr

namespace FormulaSet

/-- Larger trees come first, and trees of one size in the order of their names. -/
def precedes (a b : String × Expr) : Bool :=
  a.2.nodeCount > b.2.nodeCount || a.2.nodeCount == b.2.nodeCount && decide (a.1 ≤ b.1)

/-- The formulas whose trees occur in `tree`, in the order in which they are tried. Of equal formulas only the earlier
ones count. -/
def candidates (tree : Expr) (earlier later : List (String × Expr)) : List (String × Expr) :=
  ((earlier ++ later.filter fun s => s.2 != tree).filter fun s => !s.2.isConstant && tree.contains s.2).mergeSort
    precedes

/-- Puts a reference to one candidate into the tree of `target`. -/
def substitute (target : String) (state : Expr × ReferenceGraph) (source : String × Expr) : Expr × ReferenceGraph :=
  if state.1.contains source.2 && !state.2.reaches source.1 target then
    (state.1.replace source.2 (.ref source.1), state.2.addEdge target source.1)
  else state

/-- Goes through the formulas of `later`, those of `earlier` being done, and gives the trees that change. -/
def crossReferenceFrom (graph : ReferenceGraph) (earlier : List (String × Expr)) :
    List (String × Expr) → List (String × Expr)
  | [] => []
  | (target, tree) :: later =>
    let (result, graph) := (candidates tree earlier later).foldl (substitute target) (tree, graph)
    let rest := crossReferenceFrom graph (earlier ++ [(target, tree)]) later
    if result != tree then (target, result) :: rest else rest

/-- The new trees of the formulas that change when the set, simplified, is expressed in terms of its members. -/
def crossReference (s : FormulaSet) : List (String × Expr) :=
  let simplified : FormulaSet := s.map Expr.simplify
  crossReferenceFrom (.ofFormulas simplified) [] simplified.entries

end FormulaSet

end MetricFormula
