import MetricFormula.Expr.Basic
import MetricFormula.Token.Basic

/-! Trees, events and tokens that formula text can stand for. -/

namespace MetricFormula

/-- A key or value of a modifier; the separators of a block cannot be part of it. -/
structure Writable (s : String) : Prop where
  nonempty : s ≠ ""
  separators : ∀ c ∈ s.toList, c ≠ ',' ∧ c ≠ '='

structure Modifier.WellFormed (m : Modifier) : Prop where
  key : Writable m.key
  value : ∀ v ∈ m.value, Writable v

theorem Event.isBare_iff {e : Event} : e.isBare ↔ e = .bare e.name := by
  obtain ⟨name, ms, q⟩ := e
  simp [isBare, bare]

structure Event.WellFormed (e : Event) : Prop where
  modifiers : ∀ m ∈ e.modifiers, m.WellFormed
  distinct : (e.modifiers.map Modifier.key).Nodup

theorem Event.WellFormed.bare (name : String) : (Event.bare name).WellFormed :=
  ⟨by simp [Event.bare], by simp [Event.bare]⟩

namespace Expr

mutual

/-- Literals are finite, calls have the arguments that their functions take, and events are well formed. -/
def WellFormed : Expr → Prop
  | .literal x => x.isFinite
  | .event e => e.WellFormed
  | .binary _ l r => l.WellFormed ∧ r.WellFormed
  | .call f as => as.length = f.arity ∧ (f.takesEvent → ∀ a ∈ as, ∃ e, a = .event e) ∧ WellFormedList as
  | .conditional v t o => v.WellFormed ∧ t.WellFormed ∧ o.WellFormed

def WellFormedList : List Expr → Prop
  | [] => True
  | a :: as => a.WellFormed ∧ WellFormedList as

end

/-- A call stays well formed with new arguments, made of the old ones, if events are made of events. -/
theorem WellFormed.call_map {f : Builtin} {as : List Expr} (h : (call f as).WellFormed) {g : Expr → Expr}
    (hg : ∀ e, ∃ e', g (.event e) = .event e') (hall : WellFormedList (as.map g)) : (call f (as.map g)).WellFormed := by
  obtain ⟨hlen, hevents, -⟩ := h
  refine ⟨by rw [List.length_map, hlen], fun hf a ha => ?_, hall⟩
  obtain ⟨b, hb, rfl⟩ := List.mem_map.mp ha
  obtain ⟨e, rfl⟩ := hevents hf b hb
  exact hg e

/-- Every event of the tree has a name. -/
def Named (t : Expr) : Prop := ∀ e ∈ t.events, e.name ≠ ""

end Expr

/-- Numbers have no sign, and names are not empty. -/
def Token.WellFormed : Token → Prop
  | .number x => ∃ u h, x = .finite false u h
  | .word s => s ≠ ""
  | .event e => e.WellFormed ∧ e.name ≠ ""
  | _ => True

end MetricFormula
