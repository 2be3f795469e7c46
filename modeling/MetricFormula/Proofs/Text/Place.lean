import Mathlib.Data.List.Induction
import MetricFormula.Text.Position

/-! Boundaries of characters, and the parts of a text between them. -/

namespace MetricFormula

theorem byteLength_cons (c : Char) (cs : List Char) : byteLength (c :: cs) = c.utf8Size + byteLength cs := rfl

theorem byteLength_pos {cs : List Char} (h : cs ≠ []) : 0 < byteLength cs := by
  obtain ⟨c, cs, rfl⟩ := List.exists_cons_of_ne_nil h
  have := c.utf8Size_pos
  rw [byteLength_cons]
  omega

/-- An offset where a character begins or the text ends. -/
def Boundary (cs : List Char) (offset : Nat) : Prop := ∃ before after, cs = before ++ after ∧ byteLength before = offset

theorem boundary_append (before after : List Char) : Boundary (before ++ after) (byteLength before) := ⟨_, _, rfl, rfl⟩

theorem boundary_zero (cs : List Char) : Boundary cs 0 := boundary_append [] cs

theorem boundary_byteLength (cs : List Char) : Boundary cs (byteLength cs) := ⟨cs, [], (List.append_nil cs).symm, rfl⟩

theorem Boundary.le {cs : List Char} {offset : Nat} (h : Boundary cs offset) : offset ≤ byteLength cs := by
  obtain ⟨before, after, rfl, rfl⟩ := h
  rw [byteLength_append]
  omega

namespace Span

/-- The span lies between two boundaries. -/
structure Within (s : Span) (cs : List Char) : Prop where
  ordered : s.start ≤ s.stop
  start : Boundary cs s.start
  stop : Boundary cs s.stop

theorem within_append (before ws after : List Char) :
    Within ⟨byteLength before, byteLength (before ++ ws)⟩ (before ++ (ws ++ after)) where
  ordered := by
    rw [byteLength_append]
    exact Nat.le_add_right _ _
  start := boundary_append before _
  stop := List.append_assoc before ws after ▸ boundary_append (before ++ ws) after

/-- Whether a character at this offset belongs to the span. -/
def Contains (s : Span) (offset : Nat) : Prop := s.start ≤ offset ∧ offset < s.stop

instance (s : Span) (offset : Nat) : Decidable (s.Contains offset) := inferInstanceAs (Decidable (_ ∧ _))

/-- The characters in the span, of those that are found from `offset` on. -/
def charsIn (s : Span) : Nat → List Char → List Char
  | _, [] => []
  | offset, c :: cs =>
    let rest := s.charsIn (offset + c.utf8Size) cs
    if s.Contains offset then c :: rest else rest

/-- The text of the span. -/
def slice (s : Span) (text : String) : String := String.ofList (s.charsIn 0 text.toList)

variable {s : Span} {offset : Nat}

theorem charsIn_of_stop_le (h : s.stop ≤ offset) (cs : List Char) : s.charsIn offset cs = [] := by
  induction cs generalizing offset with
  | nil => rfl
  | cons c cs ih =>
      have hout : ¬s.Contains offset := fun hin => absurd hin.2 (Nat.not_lt.mpr h)
      simp only [charsIn, hout, if_false]
      exact ih (Nat.le_add_right_of_le h)

theorem charsIn_append_of_le_start {before : List Char} (h : offset + byteLength before ≤ s.start) (cs : List Char) :
    s.charsIn offset (before ++ cs) = s.charsIn (offset + byteLength before) cs := by
  induction before generalizing offset with
  | nil => rfl
  | cons c before ih =>
      have hpos := c.utf8Size_pos
      rw [byteLength_cons, ← Nat.add_assoc] at h
      have hout : ¬s.Contains offset := fun hin => absurd hin.1 (by omega)
      simp only [List.cons_append, charsIn, hout, if_false]
      rw [ih h, byteLength_cons, Nat.add_assoc]

theorem charsIn_append_of_within {ws : List Char} (hstart : s.start ≤ offset) (hstop : offset + byteLength ws ≤ s.stop)
    (cs : List Char) : s.charsIn offset (ws ++ cs) = ws ++ s.charsIn (offset + byteLength ws) cs := by
  induction ws generalizing offset with
  | nil => rfl
  | cons c ws ih =>
      have hpos := c.utf8Size_pos
      rw [byteLength_cons, ← Nat.add_assoc] at hstop
      have hin : s.Contains offset := ⟨hstart, by omega⟩
      simp only [List.cons_append, charsIn, hin, if_true]
      rw [ih (Nat.le_add_right_of_le hstart) hstop, byteLength_cons, Nat.add_assoc]

/-- What stands between two boundaries is the text of the span between them. -/
theorem charsIn_between (offset : Nat) (before ws after : List Char) :
    charsIn ⟨offset + byteLength before, offset + byteLength (before ++ ws)⟩ offset (before ++ (ws ++ after)) = ws := by
  rw [byteLength_append, ← Nat.add_assoc, charsIn_append_of_le_start (Nat.le_refl _),
    charsIn_append_of_within (Nat.le_refl _) (Nat.le_refl _), charsIn_of_stop_le (Nat.le_refl _), List.append_nil]

end Span

/-! ## Lines and columns -/

/-- The characters after the last line feed. -/
def lastLine (cs : List Char) : List Char := (cs.reverse.takeWhile (· != '\n')).reverse

theorem lastLine_concat (cs : List Char) (c : Char) :
    lastLine (cs ++ [c]) = if c = '\n' then [] else lastLine cs ++ [c] := by
  unfold lastLine
  rw [List.reverse_append, List.reverse_singleton, List.singleton_append, List.takeWhile_cons]
  split <;> simp_all

namespace Position

theorem advance_append (p : Position) (before after : List Char) :
    p.advance (before ++ after) (byteLength before) = before.foldl next p := by
  induction before generalizing p with
  | nil => cases after <;> rfl
  | cons c before ih =>
      obtain ⟨n, hn⟩ : ∃ n, byteLength (c :: before) = n + 1 :=
        Nat.exists_eq_succ_of_ne_zero (Nat.ne_of_gt (byteLength_pos (List.cons_ne_nil c before)))
      have hrest : n + 1 - c.utf8Size = byteLength before := by rw [← hn, byteLength_cons, Nat.add_sub_cancel_left]
      rw [hn, List.cons_append, advance, hrest, ih]
      rfl

theorem foldl_next (cs : List Char) :
    cs.foldl next ⟨1, 1⟩ = ⟨1 + cs.count '\n', 1 + (lastLine cs).length⟩ := by
  induction cs using List.reverseRecOn with
  | nil => rfl
  | append_singleton cs c ih =>
      rw [List.foldl_append, ih, List.foldl_cons, List.foldl_nil, next, lastLine_concat, List.count_append]
      split <;> simp_all [Nat.add_assoc]

/-- The lines are counted by their line feeds, and the columns from the last of them on. -/
theorem ofOffset_append (before after : List Char) :
    ofOffset (before ++ after) (byteLength before) = ⟨1 + before.count '\n', 1 + (lastLine before).length⟩ := by
  rw [ofOffset, advance_append, foldl_next]

end Position

end MetricFormula
