import MetricFormula.Expr.Event
import MetricFormula.Expr.Operator
import MetricFormula.Number.Binary64

/-! Formula trees, their equality and their measures. -/

namespace MetricFormula

/-- `conditional value test otherwise` is written `value if test else otherwise`. -/
inductive Expr where
  | literal (value : Binary64)
  | event (event : Event)
  | binary (op : Operator) (left right : Expr)
  | call (function : Builtin) (args : List Expr)
  | conditional (value test otherwise : Expr)

namespace Expr

/-- A reference by name alone. -/
def ref (name : String) : Expr := .event (.bare name)

mutual

/-- Equality up to numeric equality of literals. -/
def equal : Expr → Expr → Bool
  | .literal x, .literal y => x == y
  | .event a, .event b => a == b
  | .binary op l r, .binary op' l' r' => op == op' && l.equal l' && r.equal r'
  | .call f as, .call g bs => f == g && equalList as bs
  | .conditional v t o, .conditional v' t' o' => v.equal v' && t.equal t' && o.equal o'
  | _, _ => false

def equalList : List Expr → List Expr → Bool
  | [], [] => true
  | a :: as, b :: bs => a.equal b && equalList as bs
  | _, _ => false

end

instance : BEq Expr := ⟨equal⟩

def isLiteral (e : Expr) (x : Binary64) : Bool :=
  match e with
  | .literal y => y == x
  | _ => false

mutual

def nodeCount : Expr → Nat
  | .literal _ | .event _ => 1
  | .binary _ l r => 1 + l.nodeCount + r.nodeCount
  | .call _ as => 1 + nodeCountList as
  | .conditional v t o => 1 + v.nodeCount + t.nodeCount + o.nodeCount

def nodeCountList : List Expr → Nat
  | [] => 0
  | a :: as => a.nodeCount + nodeCountList as

end

mutual

/-- The height of the tree; a leaf has height 1. -/
def depth : Expr → Nat
  | .literal _ | .event _ => 1
  | .binary _ l r => 1 + max l.depth r.depth
  | .call _ as => 1 + depthList as
  | .conditional v t o => 1 + max (max v.depth t.depth) o.depth

def depthList : List Expr → Nat
  | [] => 0
  | a :: as => max a.depth (depthList as)

end

mutual

/-- The events of the tree from left to right, repeats included. -/
def events : Expr → List Event
  | .literal _ => []
  | .event e => [e]
  | .binary _ l r => l.events ++ r.events
  | .call _ as => eventsList as
  | .conditional v t o => v.events ++ t.events ++ o.events

def eventsList : List Expr → List Event
  | [] => []
  | a :: as => a.events ++ eventsList as

end

/-- The distinct names that the tree refers to, in the order of their first mention. -/
def eventNames (e : Expr) : List String := (e.events.map Event.name).eraseDups

end Expr

end MetricFormula
