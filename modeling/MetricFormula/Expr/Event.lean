/-! References to hardware events and to other metrics. -/

namespace MetricFormula

/-- A flag has no value. -/
structure Modifier where
  key : String
  value : Option String
  deriving DecidableEq

inductive Qualifier where
  /-- The sampled retirement latency of the event, not its count. -/
  | retireLatency
  deriving DecidableEq

structure Event where
  name : String
  modifiers : List Modifier
  qualifier : Option Qualifier
  deriving DecidableEq

namespace Event

/-- A name alone. -/
def bare (name : String) : Event := ⟨name, [], none⟩

/-- Adds a modifier after the others, also when its key is there. -/
def withModifier (e : Event) (m : Modifier) : Event := ⟨e.name, e.modifiers ++ [m], e.qualifier⟩

def withQualifier (e : Event) (q : Qualifier) : Event := ⟨e.name, e.modifiers, some q⟩

def modifier? (e : Event) (key : String) : Option Modifier := e.modifiers.find? fun m => m.key == key

/-- References to other metrics are bare. -/
def isBare (e : Event) : Bool := e.modifiers.isEmpty && e.qualifier.isNone

end Event

end MetricFormula
