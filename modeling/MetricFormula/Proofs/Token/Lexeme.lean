import MetricFormula.Proofs.Number.ReadBack
import MetricFormula.Proofs.Token.Printed

/-!
# Pieces of canonical text

Canonical text is a sequence of blanks and tokens, each of which allows only some characters after it. A sequence that
keeps to this is read piece by piece, whatever the pieces are: also after one of them was taken out, if the piece before
it allows what comes next.
-/

namespace MetricFormula

namespace Lexer

/-! ## Single tokens -/

theorem begins_operator (op : Operator) (rest : List Char) :
    Begins (op.symbol.toList ++ ' ' :: rest) (.operator op) (' ' :: rest) := by
  cases op <;> exact ⟨_, _, rfl, by decide, by simp, rfl⟩

theorem begins_sign (rest : List Char) : Begins ('-' :: rest) (.operator .sub) rest :=
  ⟨_, _, rfl, by decide, Nat.le_refl _, rfl⟩

theorem begins_openParen (rest : List Char) : Begins ('(' :: rest) .openParen rest :=
  ⟨_, _, rfl, by decide, Nat.le_refl _, rfl⟩

theorem begins_closeParen (rest : List Char) : Begins (')' :: rest) .closeParen rest :=
  ⟨_, _, rfl, by decide, Nat.le_refl _, rfl⟩

theorem begins_comma (rest : List Char) : Begins (',' :: rest) .comma rest :=
  ⟨_, _, rfl, by decide, Nat.le_refl _, rfl⟩

theorem begins_ifKeyword (rest : List Char) : Begins ('i' :: 'f' :: ' ' :: rest) .ifKeyword (' ' :: rest) :=
  ⟨_, _, rfl, by decide, by simp, rfl⟩

theorem begins_elseKeyword (rest : List Char) :
    Begins ('e' :: 'l' :: 's' :: 'e' :: ' ' :: rest) .elseKeyword (' ' :: rest) :=
  ⟨_, _, rfl, by decide, by simp, rfl⟩

theorem begins_builtin (f : Builtin) (rest : List Char) :
    Begins (f.name.toList ++ '(' :: rest) (.word f.name) ('(' :: rest) := by
  cases f <;> exact ⟨_, _, rfl, by decide, by simp, rfl⟩

/-- The text of a number without a sign is read back. -/
theorem begins_number {u : Nat} (h : Binary64.Representable u) {rest : List Char} (hr : EndsNumeral rest) :
    Begins (Binary64.positional (Binary64.shortest .up u) ++ rest) (.number (.finite false u h)) rest := by
  obtain ⟨n, hscan, hvalue⟩ := Binary64.scan_shortest h hr
  obtain ⟨c, cs, hc, hdigit⟩ := Binary64.positional_head (Binary64.shortest .up u)
  rw [hc] at hscan ⊢
  refine ⟨c, cs ++ rest, rfl, ?_, by simp, ?_⟩
  · exact isBlank_of_isWordChar (isWordChar_of_isDigit hdigit)
  · rw [token, if_pos (startsAt_of_isDigit hdigit _), number, ← List.cons_append, hscan]
    dsimp only
    rw [hvalue]
    rfl

end Lexer

inductive Lexeme where
  | blank
  | openParen
  | closeParen
  | comma
  /-- The sign of a number. -/
  | sign
  | number (units : Nat) (h : Binary64.Representable units)
  | event (event : Event)
  | operator (op : Operator)
  | ifKeyword
  | elseKeyword
  | function (function : Builtin)

namespace Lexeme

def chars : Lexeme → List Char
  | .blank => [' ']
  | .openParen => ['(']
  | .closeParen => [')']
  | .comma => [',']
  | .sign => ['-']
  | .number u _ => Binary64.positional (Binary64.shortest .up u)
  | .event e => e.text
  | .operator op => op.symbol.toList
  | .ifKeyword => "if".toList
  | .elseKeyword => "else".toList
  | .function f => f.name.toList

def token? : Lexeme → Option Token
  | .blank => none
  | .openParen => some .openParen
  | .closeParen => some .closeParen
  | .comma => some .comma
  | .sign => some (.operator .sub)
  | .number u h => some (.number (.finite false u h))
  | .event e => some e.token
  | .operator op => some (.operator op)
  | .ifKeyword => some .ifKeyword
  | .elseKeyword => some .elseKeyword
  | .function f => some (.word f.name)

def WellFormed : Lexeme → Prop
  | .event e => e.WellFormed ∧ e.name ≠ ""
  | _ => True

/-- What ends a number or an event in canonical text: the end of the text, or one of these characters. -/
def Ends (c : Option Char) : Prop := ∀ d ∈ c, d = ' ' ∨ d = ')' ∨ d = ','

/-- Whether the lexeme may come before a character, or at the end. -/
def Allows : Lexeme → Option Char → Prop
  | .number .., c | .event _, c | .closeParen, c => Ends c
  | .operator _, c | .ifKeyword, c | .elseKeyword, c => c = some ' '
  | .function _, c => c = some '('
  | .blank, _ | .openParen, _ | .comma, _ | .sign, _ => True

theorem Ends.delimited {cs : List Char} (h : Ends cs.head?) : Lexer.Delimited cs := by
  intro c hc
  rcases h c hc with rfl | rfl | rfl <;> simp

theorem begins {l : Lexeme} (h : l.WellFormed) {t : Token} (ht : l.token? = some t) {rest : List Char}
    (hr : l.Allows rest.head?) : Lexer.Begins (l.chars ++ rest) t rest := by
  cases l with
  | blank => cases ht
  | openParen => cases ht; exact Lexer.begins_openParen rest
  | closeParen => cases ht; exact Lexer.begins_closeParen rest
  | comma => cases ht; exact Lexer.begins_comma rest
  | sign => cases ht; exact Lexer.begins_sign rest
  | number u hu => cases ht; exact Lexer.begins_number hu (Ends.delimited hr).endsNumeral
  | event e => cases ht; exact Lexer.begins_of_text (.reference (Lexer.referenceText_text h.1 h.2)) (Ends.delimited hr)
  | operator op =>
      cases ht
      obtain ⟨rest, rfl⟩ := List.head?_eq_some_iff.mp hr
      exact Lexer.begins_operator op rest
  | ifKeyword =>
      cases ht
      obtain ⟨rest, rfl⟩ := List.head?_eq_some_iff.mp hr
      exact Lexer.begins_ifKeyword rest
  | elseKeyword =>
      cases ht
      obtain ⟨rest, rfl⟩ := List.head?_eq_some_iff.mp hr
      exact Lexer.begins_elseKeyword rest
  | function f =>
      cases ht
      obtain ⟨rest, rfl⟩ := List.head?_eq_some_iff.mp hr
      exact Lexer.begins_builtin f rest

theorem chars_ne_nil {l : Lexeme} (h : l.WellFormed) : l.chars ≠ [] := by
  cases l with
  | number u hu =>
      obtain ⟨c, cs, hc, -⟩ := Binary64.positional_head (Binary64.shortest .up u)
      simp [chars, hc]
  | event e =>
      obtain ⟨c, cs, hc, -⟩ := (Lexer.referenceText_text h.1 h.2).head
      simp [chars, hc]
  | operator op => cases op <;> simp [chars, Operator.symbol]
  | function f => cases f <;> simp [chars, Builtin.name]
  | _ => simp [chars]

/-! ## Sequences of lexemes -/

def spelling (ls : List Lexeme) : List Char := ls.flatMap chars

@[simp] theorem spelling_nil : spelling [] = [] := rfl

@[simp] theorem spelling_cons (l : Lexeme) (ls : List Lexeme) : spelling (l :: ls) = l.chars ++ spelling ls := rfl

@[simp] theorem spelling_append (ls ls' : List Lexeme) : spelling (ls ++ ls') = spelling ls ++ spelling ls' :=
  List.flatMap_append

theorem head?_spelling_cons {l : Lexeme} (h : l.WellFormed) (ls : List Lexeme) :
    (spelling (l :: ls)).head? = l.chars.head? := by
  rw [spelling_cons, List.head?_append, Option.or_of_isSome]
  exact List.isSome_head?.mpr (chars_ne_nil h)

/-- Every lexeme allows the character after it. -/
def Spaced : List Lexeme → Prop
  | [] => True
  | l :: ls => l.WellFormed ∧ l.Allows (spelling ls).head? ∧ Spaced ls

/-- The tokens of a text that begins at an offset. -/
def located (start : Nat) : List Lexeme → List LocatedToken
  | [] => []
  | l :: ls =>
    let stop := start + byteLength l.chars
    match l.token? with
    | none => located stop ls
    | some t => ⟨t, start, stop⟩ :: located stop ls

theorem located_cons_of_none {l : Lexeme} (h : l.token? = none) (start : Nat) (ls : List Lexeme) :
    located start (l :: ls) = located (start + byteLength l.chars) ls := by
  rw [located, h]

theorem located_cons_of_some {l : Lexeme} {t : Token} (h : l.token? = some t) (start : Nat) (ls : List Lexeme) :
    located start (l :: ls) =
      ⟨t, start, start + byteLength l.chars⟩ :: located (start + byteLength l.chars) ls := by
  rw [located, h]

theorem token_located (start : Nat) (ls : List Lexeme) :
    (located start ls).map LocatedToken.token = ls.filterMap token? := by
  induction ls generalizing start with
  | nil => rfl
  | cons l ls ih =>
      cases ht : l.token? with
      | none => rw [located_cons_of_none ht, ih, List.filterMap_cons_none ht]
      | some t => rw [located_cons_of_some ht, List.map_cons, ih, List.filterMap_cons_some ht]

/-- The end of a text in lexemes is read as their tokens. -/
theorem tokens_spelling {ls : List Lexeme} (h : Spaced ls) {start size fuel : Nat}
    (hsize : start + byteLength (spelling ls) = size) (hfuel : (spelling ls).length ≤ fuel) :
    Lexer.tokens size fuel (spelling ls) = .ok (located start ls) := by
  induction ls generalizing start fuel with
  | nil => cases fuel <;> rfl
  | cons l ls ih =>
      obtain ⟨hl, hnext, hspaced⟩ := h
      have hrest : start + byteLength l.chars + byteLength (spelling ls) = size := by
        rw [← hsize, spelling_cons, byteLength_append, Nat.add_assoc]
      rw [spelling_cons] at hfuel ⊢
      cases ht : l.token? with
      | none =>
          obtain rfl : l = .blank := by cases l <;> first | rfl | cases ht
          obtain ⟨fuel, rfl⟩ : ∃ n, fuel = n + 1 := ⟨fuel - 1, by simp [chars] at hfuel; omega⟩
          have hshorter : (spelling ls).length ≤ fuel + 1 := by simp [chars] at hfuel; omega
          rw [located_cons_of_none ht]
          exact ih hspaced hrest hshorter
      | some t =>
          obtain ⟨fuel', hfuel', hstep⟩ := Lexer.tokens_of_begins (begins hl ht hnext) size hfuel
          rw [hstep, ih hspaced hrest hfuel', located_cons_of_some ht]
          have hstart : Lexer.offset size (l.chars ++ spelling ls) = start := by
            rw [Lexer.offset, ← hsize, spelling_cons, Nat.add_sub_cancel]
          have hstop : Lexer.offset size (spelling ls) = start + byteLength l.chars := by
            rw [Lexer.offset, ← hrest, Nat.add_sub_cancel]
          rw [hstart, hstop]
          rfl

theorem lex_spelling {ls : List Lexeme} (h : Spaced ls) : lex (String.ofList (spelling ls)) = .ok (located 0 ls) := by
  rw [lex, String.toList_ofList]
  exact tokens_spelling h (Nat.zero_add _) (Nat.le_refl _)

theorem located_append (start : Nat) (ls ls' : List Lexeme) :
    located start (ls ++ ls') = located start ls ++ located (start + byteLength (spelling ls)) ls' := by
  induction ls generalizing start with
  | nil => rfl
  | cons l ls ih =>
      rw [List.cons_append, spelling_cons, byteLength_append, ← Nat.add_assoc]
      cases ht : l.token? with
      | none => rw [located_cons_of_none ht, located_cons_of_none ht, ih]
      | some t => rw [located_cons_of_some ht, located_cons_of_some ht, ih, List.cons_append]

theorem exists_of_located {start : Nat} {ls : List Lexeme} {xs ys : List LocatedToken} {x : LocatedToken}
    (h : located start ls = xs ++ x :: ys) :
    ∃ pre l post, ls = pre ++ l :: post ∧ l.token? = some x.token ∧ located start pre = xs := by
  induction ls generalizing start xs with
  | nil => simp [located] at h
  | cons l ls ih =>
      cases ht : l.token? with
      | none =>
          rw [located_cons_of_none ht] at h
          obtain ⟨pre, l', post, rfl, htoken, hpre⟩ := ih h
          exact ⟨l :: pre, l', post, rfl, htoken, by rw [located_cons_of_none ht, hpre]⟩
      | some t =>
          rw [located_cons_of_some ht] at h
          cases xs with
          | nil =>
              obtain ⟨rfl, -⟩ := List.cons.inj h
              exact ⟨[], l, ls, rfl, ht, rfl⟩
          | cons y xs =>
              rw [List.cons_append] at h
              obtain ⟨rfl, htail⟩ := List.cons.inj h
              obtain ⟨pre, l', post, rfl, htoken, hpre⟩ := ih htail
              exact ⟨l :: pre, l', post, rfl, htoken, by rw [located_cons_of_some ht, hpre]⟩

/-- Each of the tokens is that of a lexeme, and found at its place. -/
theorem located_eq_append_cons {start : Nat} {ls : List Lexeme} {xs ys : List LocatedToken} {x : LocatedToken}
    (h : located start ls = xs ++ x :: ys) :
    ∃ pre l post, ls = pre ++ l :: post ∧ l.token? = some x.token ∧ located start pre = xs ∧
      x.span.start = start + byteLength (spelling pre) ∧
      located (start + byteLength (spelling (pre ++ [l]))) post = ys := by
  obtain ⟨pre, l, post, rfl, ht, rfl⟩ := exists_of_located h
  rw [located_append, located_cons_of_some ht] at h
  obtain ⟨hx, hpost⟩ := List.cons.inj (List.append_cancel_left h)
  exact ⟨pre, l, post, rfl, ht, rfl, by rw [← hx], by simpa [Nat.add_assoc] using hpost⟩

/-! ## Deletion -/

theorem Spaced.of_append {pre ls : List Lexeme} (h : Spaced (pre ++ ls)) : Spaced ls := by
  induction pre with
  | nil => exact h
  | cons l pre ih => exact ih h.2.2

/-- A lexeme can be taken out if the one before it allows what comes next. -/
theorem Spaced.delete {pre post : List Lexeme} {x : Lexeme} (h : Spaced (pre ++ x :: post))
    (hlast : ∀ l ∈ pre.getLast?, l.Allows (spelling (x :: post)).head? → l.Allows (spelling post).head?) :
    Spaced (pre ++ post) := by
  induction pre with
  | nil => exact h.2.2
  | cons l pre ih =>
      obtain ⟨hl, hnext, hrest⟩ := h
      cases pre with
      | nil => exact ⟨hl, hlast l rfl hnext, hrest.2.2⟩
      | cons m pre =>
          refine ⟨hl, ?_, ih hrest fun l' hl' => hlast l' (by rwa [List.getLast?_cons_cons])⟩
          have hbefore : l.Allows (spelling (m :: (pre ++ x :: post))).head? := hnext
          change l.Allows (spelling (m :: (pre ++ post))).head?
          rw [head?_spelling_cons hrest.1] at hbefore ⊢
          exact hbefore

/-- Only the name of a function needs a parenthesis after it. -/
theorem Allows.of_openParen {l : Lexeme} (h : l.Allows (some '(')) (hl : ∀ f, l ≠ .function f) (c : Option Char) :
    l.Allows c := by
  cases l with
  | function f => exact absurd rfl (hl f)
  | _ => simp_all [Allows, Ends]

/-- Whatever may come after a closing parenthesis may come in its place. -/
theorem Allows.of_closeParen {l : Lexeme} (h : l.Allows (some ')')) {c : Option Char} (hc : closeParen.Allows c) :
    l.Allows c := by
  cases l with
  | number u hu => exact hc
  | event e => exact hc
  | closeParen => exact hc
  | _ => simp_all [Allows]

theorem Spaced.delete_openParen {pre post : List Lexeme} (h : Spaced (pre ++ .openParen :: post))
    (hlast : ∀ l ∈ pre.getLast?, ∀ f, l ≠ .function f) : Spaced (pre ++ post) :=
  h.delete fun l hl hallows => hallows.of_openParen (hlast l hl) _

theorem Spaced.delete_closeParen {pre post : List Lexeme} (h : Spaced (pre ++ .closeParen :: post)) :
    Spaced (pre ++ post) :=
  h.delete fun _ _ hallows => hallows.of_closeParen h.of_append.2.1

end Lexeme

/-- Beginnings of one text with the same length in bytes are the same. -/
theorem append_inj_of_byteLength {as bs cs ds : List Char} (h : as ++ cs = bs ++ ds)
    (hlen : byteLength as = byteLength bs) : as = bs ∧ cs = ds := by
  induction as generalizing bs with
  | nil =>
      cases bs with
      | nil => exact ⟨rfl, h⟩
      | cons b bs =>
          have := b.utf8Size_pos
          simp only [byteLength] at hlen
          omega
  | cons a as ih =>
      cases bs with
      | nil =>
          have := a.utf8Size_pos
          simp only [byteLength] at hlen
          omega
      | cons b bs =>
          rw [List.cons_append, List.cons_append] at h
          obtain ⟨rfl, htail⟩ := List.cons.inj h
          obtain ⟨rfl, rfl⟩ := ih htail (Nat.add_left_cancel hlen)
          exact ⟨rfl, rfl⟩

end MetricFormula
