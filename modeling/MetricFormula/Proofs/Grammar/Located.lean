import MetricFormula.Proofs.Grammar.Places
import MetricFormula.Proofs.Token.Faults
import MetricFormula.Proofs.Token.Spans

/-! An error names its text and a part of it, by its bytes and by the line and column where it begins. -/

namespace MetricFormula

namespace SyntaxError

/-- The error lies between two boundaries of the text, and its position is that of its first byte. -/
structure WellLocated (s : String) (e : SyntaxError) : Prop where
  text : e.text = s
  ordered : e.span.start ≤ e.span.stop
  stop_le : e.span.stop ≤ byteLength s.toList
  boundaries : Boundary s.toList e.span.start ∧ Boundary s.toList e.span.stop
  line : ∀ before after, s.toList = before ++ after → byteLength before = e.span.start →
    e.position.line = 1 + before.count '\n'
  column : ∀ before after, s.toList = before ++ after → byteLength before = e.span.start →
    e.position.column = 1 + (lastLine before).length

theorem ofFault_position {s : String} {before after : List Char} {f : Fault} (hs : s.toList = before ++ after)
    (hstart : byteLength before = f.span.start) :
    (ofFault s f).position = ⟨1 + before.count '\n', 1 + (lastLine before).length⟩ := by
  rw [ofFault, ← hstart, hs, Position.ofOffset_append]

theorem WellLocated.ofFault {s : String} {f : Fault} (h : f.span.Within s.toList) :
    (SyntaxError.ofFault s f).WellLocated s where
  text := rfl
  ordered := h.ordered
  stop_le := h.stop.le
  boundaries := ⟨h.start, h.stop⟩
  line _ _ hs hstart := congrArg Position.line (ofFault_position hs hstart)
  column _ _ hs hstart := congrArg Position.column (ofFault_position hs hstart)

end SyntaxError

variable {text : String} {ls : List LocatedToken} {f : Fault}

theorem lex_error_within (h : lex text = .error f) : f.span.Within text.toList := by
  obtain ⟨before, inside, after, htext, hspan⟩ := Lexer.tokens_error h (Nat.zero_add _).symm
  rw [hspan, htext, Nat.zero_add, Nat.zero_add]
  exact Span.within_append before inside after

namespace Parser

/-- Every place corresponds to itself, if it lies between two boundaries. -/
def Correspondence.within (cs : List Char) : Correspondence where
  place a b := a = b ∧ a.Within cs
  stop m n := m = n ∧ Boundary cs m
  zero := ⟨rfl, boundary_zero cs⟩
  stop_of_place := fun h => ⟨congrArg Span.stop h.1, h.2.stop⟩
  join := by
    rintro a _ m _ ⟨rfl, ha⟩ ⟨rfl, hm⟩
    refine ⟨rfl, Nat.le_max_left _ _, ha.start, ?_⟩
    rcases Nat.le_total a.start m with h | h
    · rwa [Nat.max_eq_right h]
    · rw [Nat.max_eq_left h]
      exact ha.start

theorem formula_error_within {cs : List Char} (hls : ∀ t ∈ ls, t.span.Within cs)
    (h : formula (byteLength cs) ls = .error f) : f.span.Within cs := by
  have hsame : List.Forall₂ (SameToken (.within cs)) ls ls :=
    List.forall₂_same.mpr fun t ht => ⟨rfl, rfl, hls t ht⟩
  have hend : Span.Within ⟨byteLength cs, byteLength cs⟩ cs :=
    ⟨Nat.le_refl _, boundary_byteLength cs, boundary_byteLength cs⟩
  obtain ⟨e, he, -⟩ | ⟨cause, a, b, he, -, hplace⟩ := formula_places hsame ⟨rfl, hend⟩
  · rw [he] at h
    cases h
  · rw [he] at h
    cases h
    exact hplace.2

end Parser

/-- Wherever an error comes from, it is well located. -/
theorem syntaxError_wellLocated {e : SyntaxError} (h : tokenize text = .error e ∨ parse text = .error e) :
    e.WellLocated text := by
  rcases h with h | h
  · obtain ⟨f, hf, rfl⟩ := mapError_eq_error.mp h
    exact .ofFault (lex_error_within hf)
  · obtain ⟨f, hf, rfl⟩ := mapError_eq_error.mp h
    rcases bind_eq_error.mp hf with hf | ⟨ls, hls, hf⟩
    · exact .ofFault (lex_error_within hf)
    · exact .ofFault (Parser.formula_error_within (fun _ ht => (Lexer.lex_lexed hls).within ht) hf)

theorem syntaxError_wellLocated_unclosed :
    ∃ e, parse "(\\é\n  b" = .error e ∧ e.span = ⟨7, 8⟩ ∧ e.position = ⟨2, 3⟩ ∧ e.WellLocated "(\\é\n  b" := by
  have h : parse "(\\é\n  b" =
      .error ⟨.unclosedGroup (some (.word "b")), "(\\é\n  b", ⟨7, 8⟩, ⟨2, 3⟩⟩ := rfl
  exact ⟨_, h, rfl, rfl, syntaxError_wellLocated (.inr h)⟩

end MetricFormula
