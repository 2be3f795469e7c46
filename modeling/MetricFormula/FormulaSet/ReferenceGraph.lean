import MetricFormula.FormulaSet.Basic

/-! Which formulas of a set refer to which. -/

namespace MetricFormula

/-- Edges from a name to the names that its formula refers to. -/
structure ReferenceGraph where
  edges : List (String × String)

namespace ReferenceGraph

/-- The names of a set that a tree refers to; an event with modifiers is no reference. -/
def references (s : FormulaSet) (e : Expr) : List String :=
  (e.events.filter fun r => r.isBare && s.contains r.name).map Event.name

def ofFormulas (s : FormulaSet) : ReferenceGraph :=
  ⟨s.entries.flatMap fun (name, e) => (references s e).map fun r => (name, r)⟩

def addEdge (g : ReferenceGraph) (source target : String) : ReferenceGraph := ⟨(source, target) :: g.edges⟩

def successors (edges : List (String × String)) (n : String) : List String :=
  (edges.filter fun e => e.1 == n).map Prod.snd

/-- The edges that do not leave `n`. -/
def leavingOthers (edges : List (String × String)) (n : String) : List (String × String) :=
  edges.filter fun e => e.1 != n

theorem length_successors_add (edges : List (String × String)) (n : String) :
    (successors edges n).length + (leavingOthers edges n).length = edges.length := by
  induction edges with
  | nil => rfl
  | cons e rest ih =>
    by_cases h : e.1 = n <;> simp [successors, leavingOthers, h] at ih ⊢ <;> omega

/-- Searches for `goal` from the names on the stack; a name that was visited has no edges left. -/
def search (goal : String) (edges : List (String × String)) : List String → Bool
  | [] => false
  | n :: stack =>
    n == goal || search goal (leavingOthers edges n) (successors edges n ++ stack)
termination_by stack => edges.length + stack.length
decreasing_by
  have := length_successors_add edges n
  simp only [List.length_append, List.length_cons]
  omega

/-- Whether `goal` is `start` or can be reached from it. -/
def reaches (g : ReferenceGraph) (start goal : String) : Bool := search goal g.edges [start]

end ReferenceGraph

end MetricFormula
