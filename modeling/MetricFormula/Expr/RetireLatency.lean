import MetricFormula.Expr.Basic

/-! The retire-latency placeholder. `E * PEBS` stands for `E * E:R`, and the placeholder may be bounded:
`E * min(PEBS, k)` stands for `E * min(E:R, k)`, and likewise for `max`. -/

namespace MetricFormula

def placeholder : Event := .bare "PEBS"

def Event.sampled (e : Event) : Event := e.withQualifier .retireLatency

namespace Expr

/-- Fills the placeholder in the right operand of `e * r`. -/
def fillPlaceholder (e : Event) (r : Expr) : Expr :=
  match r with
  | .event p => if p = placeholder then .event e.sampled else r
  | .call f (.event p :: as) =>
    if p = placeholder ∧ (f = .min ∨ f = .max) then .call f (.event e.sampled :: as) else r
  | _ => r

def expandProduct (op : Operator) (l r : Expr) : Expr :=
  match op, l with
  | .mul, .event e => .binary .mul l (fillPlaceholder e r)
  | _, _ => .binary op l r

mutual

/-- Fills every placeholder that is multiplied by an event. -/
def expandPlaceholders : Expr → Expr
  | .literal x => .literal x
  | .event e => .event e
  | .binary op l r => expandProduct op l.expandPlaceholders r.expandPlaceholders
  | .call f as => .call f (expandPlaceholdersList as)
  | .conditional v t o => .conditional v.expandPlaceholders t.expandPlaceholders o.expandPlaceholders

def expandPlaceholdersList : List Expr → List Expr
  | [] => []
  | a :: as => a.expandPlaceholders :: expandPlaceholdersList as

end

end Expr

end MetricFormula
