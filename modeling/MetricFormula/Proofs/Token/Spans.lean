import MetricFormula.Proofs.Text.Place
import MetricFormula.Proofs.Token.Completeness
import MetricFormula.Proofs.Token.Soundness

/-!
# The places of tokens

The tokens of a text and the blanks between them are the whole text. So the texts of the tokens, set one after another
with a blank between them, are read as the same tokens.
-/

namespace MetricFormula

namespace Lexer

/-- From `start` on, the text consists of blanks and of spellings of the tokens, each in its place. -/
inductive Lexed : Nat → List Char → List LocatedToken → Prop where
  | done {start gap} : (∀ c ∈ gap, isBlank c) → Lexed start gap []
  | token {start gap ws rest t ls} : (∀ c ∈ gap, isBlank c) → TokenText t ws →
      Lexed (start + byteLength (gap ++ ws)) rest ls →
      Lexed start (gap ++ (ws ++ rest)) (⟨t, start + byteLength gap, start + byteLength (gap ++ ws)⟩ :: ls)

theorem tokenText_ne_nil {t : Token} {ws : List Char} (h : TokenText t ws) : ws ≠ [] := by
  obtain ⟨c, cs, rfl, -⟩ := token_complete h delimited_nil
  exact List.cons_ne_nil c cs

theorem offset_append (before rest : List Char) (start : Nat) :
    offset (start + byteLength (before ++ rest)) rest = start + byteLength before := by
  rw [offset, byteLength_append]
  omega

theorem tokens_lexed {start size fuel : Nat} {cs : List Char} {ls : List LocatedToken}
    (h : tokens size fuel cs = .ok ls) (hsize : size = start + byteLength cs) (hfuel : cs.length ≤ fuel) :
    Lexed start cs ls := by
  induction fuel generalizing start cs ls with
  | zero =>
      cases h
      rw [List.eq_nil_of_length_eq_zero (Nat.le_zero.mp hfuel)]
      exact .done nofun
  | succ fuel ih =>
      rcases tokens_succ size fuel cs with ⟨hblank, heq⟩ | ⟨_, _, _, _, -, -, -, heq⟩ | ⟨gap, ws, t, rest, hgap, rfl, htext, heq⟩
      · rw [heq] at h
        cases h
        exact .done hblank
      · rw [heq] at h
        cases h
      · rw [heq] at h
        obtain ⟨ls', hls', rfl⟩ := map_eq_ok.mp h
        have hpos := List.length_pos_iff.mpr (tokenText_ne_nil htext)
        have hrest : size = start + byteLength (gap ++ ws) + byteLength rest := by
          simp only [hsize, byteLength_append, Nat.add_assoc]
        have hlexed := ih hls' hrest (by simp only [List.length_append] at hfuel; omega)
        subst hsize
        rw [offset_append, ← List.append_assoc gap, offset_append, List.append_assoc]
        exact .token hgap htext hlexed

theorem lex_lexed {text : String} {ls : List LocatedToken} (h : lex text = .ok ls) : Lexed 0 text.toList ls :=
  tokens_lexed h (Nat.zero_add _).symm (Nat.le_refl _)

variable {start : Nat} {cs : List Char} {ls : List LocatedToken}

/-- Each token is spelled at its place. -/
theorem Lexed.place (h : Lexed start cs ls) {t : LocatedToken} (ht : t ∈ ls) :
    ∃ before ws after, cs = before ++ (ws ++ after) ∧
      t.span = ⟨start + byteLength before, start + byteLength (before ++ ws)⟩ ∧ TokenText t.token ws := by
  induction h with
  | done => cases ht
  | @token start gap ws rest _ _ _ htext _ ih =>
      rcases List.mem_cons.mp ht with rfl | ht
      · exact ⟨gap, ws, rest, rfl, rfl, htext⟩
      · obtain ⟨before, ws', after, rfl, hspan, htext'⟩ := ih ht
        refine ⟨gap ++ (ws ++ before), ws', after, by simp only [List.append_assoc], ?_, htext'⟩
        rw [hspan]
        simp only [byteLength_append, Nat.add_assoc]

theorem Lexed.tokenText_charsIn (h : Lexed start cs ls) {t : LocatedToken} (ht : t ∈ ls) :
    TokenText t.token (t.span.charsIn start cs) := by
  obtain ⟨before, ws, after, rfl, hspan, htext⟩ := h.place ht
  rw [hspan, Span.charsIn_between]
  exact htext

theorem Lexed.start_lt_stop (h : Lexed start cs ls) {t : LocatedToken} (ht : t ∈ ls) : t.span.start < t.span.stop := by
  obtain ⟨before, ws, after, rfl, hspan, htext⟩ := h.place ht
  have hpos := byteLength_pos (tokenText_ne_nil htext)
  simp only [hspan, byteLength_append]
  omega

theorem Lexed.le_start (h : Lexed start cs ls) {t : LocatedToken} (ht : t ∈ ls) : start ≤ t.span.start := by
  obtain ⟨before, ws, after, rfl, hspan, -⟩ := h.place ht
  rw [hspan]
  exact Nat.le_add_right _ _

theorem Lexed.within (h : Lexed 0 cs ls) {t : LocatedToken} (ht : t ∈ ls) : t.span.Within cs := by
  obtain ⟨before, ws, after, rfl, hspan, -⟩ := h.place ht
  rw [hspan, Nat.zero_add, Nat.zero_add]
  exact Span.within_append before ws after

theorem Lexed.pairwise (h : Lexed start cs ls) : ls.Pairwise fun t u => t.span.stop ≤ u.span.start := by
  induction h with
  | done => exact .nil
  | token _ _ hrest ih => exact .cons (fun u hu => hrest.le_start hu) ih

/-- What is in no token is blank. -/
theorem Lexed.isBlank (h : Lexed start cs ls) {before after : List Char} {c : Char} (hcs : cs = before ++ c :: after)
    (hout : ∀ t ∈ ls, ¬t.span.Contains (start + byteLength before)) : isBlank c := by
  induction h generalizing before with
  | done hgap => exact hgap c (by simp [hcs])
  | @token start gap ws rest t ls hgap htext hrest ih =>
      obtain ⟨htoken, hlater⟩ := List.forall_mem_cons.mp hout
      rcases List.append_eq_append_iff.mp hcs with ⟨mid, rfl, hmid⟩ | ⟨mid, rfl, hmid⟩
      · -- The character comes after the blanks: in the token, or later.
        rcases List.append_eq_append_iff.mp hmid with ⟨mid', rfl, hmid'⟩ | ⟨mid', rfl, hmid'⟩
        · refine ih hmid' fun u hu hin => hlater u hu ?_
          simpa only [byteLength_append, Nat.add_assoc] using hin
        · cases mid' with
          | nil =>
              have hrest : rest = [] ++ c :: after := by simpa using hmid'.symm
              refine ih hrest fun u hu hin => hlater u hu ?_
              simpa only [byteLength_append, Nat.add_assoc, List.append_nil, byteLength, Nat.add_zero] using hin
          | cons d mid' =>
              obtain ⟨rfl, -⟩ := List.cons.inj hmid'
              have hpos := c.utf8Size_pos
              refine absurd ⟨?_, ?_⟩ htoken
              · simp only [byteLength_append]; omega
              · simp only [byteLength_append, byteLength_cons]; omega
      · cases mid with
        | nil =>
            have hcs' : ws ++ rest = c :: after := by simpa using hmid.symm
            obtain ⟨d, ws, rfl⟩ := List.exists_cons_of_ne_nil (tokenText_ne_nil htext)
            have hpos := d.utf8Size_pos
            refine absurd ⟨?_, ?_⟩ htoken
            · simp only [List.append_nil]; omega
            · simp only [List.append_nil, byteLength_append, byteLength_cons]; omega
        | cons d mid =>
            obtain ⟨rfl, -⟩ := List.cons.inj hmid
            exact hgap c (by simp)

/-! ## Other blanks -/

theorem tokens_blank (size fuel : Nat) (cs : List Char) :
    tokens size (fuel + 1) (' ' :: cs) = tokens size (fuel + 1) cs := by
  rw [tokens, tokens, List.dropWhile_cons_of_pos (by decide)]

/-- Spellings with a blank between any two of them are read one by one. -/
theorem tokens_joined {f : LocatedToken → List Char} (h : ∀ t ∈ ls, TokenText t.token (f t)) (size : Nat) {fuel : Nat}
    (hfuel : ([' '].intercalate (ls.map f)).length ≤ fuel) :
    ∃ ls', tokens size fuel ([' '].intercalate (ls.map f)) = .ok ls' ∧
      ls'.map LocatedToken.token = ls.map LocatedToken.token := by
  induction ls generalizing fuel with
  | nil => exact ⟨[], by cases fuel <;> rfl, rfl⟩
  | cons t ls ih =>
      obtain ⟨ht, hls⟩ := List.forall_mem_cons.mp h
      cases ls with
      | nil =>
          have hone : [' '].intercalate (List.map f [t]) = f t ++ [] := by simp [List.intercalate]
          rw [hone] at hfuel ⊢
          obtain ⟨fuel', -, hstep⟩ := tokens_of_begins (begins_of_text ht delimited_nil) size hfuel
          refine ⟨[⟨t.token, ⟨offset size (f t ++ []), offset size []⟩⟩], ?_, rfl⟩
          rw [hstep]
          cases fuel' <;> rfl
      | cons u ls =>
          have hmore : [' '].intercalate (List.map f (t :: u :: ls)) =
              f t ++ ' ' :: [' '].intercalate (List.map f (u :: ls)) := by
            simp [List.intercalate]
          rw [hmore] at hfuel ⊢
          obtain ⟨fuel', hfuel', hstep⟩ := tokens_of_begins (begins_of_text ht (delimited_cons.mpr (.inl rfl))) size hfuel
          obtain ⟨fuel', rfl⟩ : ∃ n, fuel' = n + 1 := ⟨fuel' - 1, by simp only [List.length_cons] at hfuel'; omega⟩
          obtain ⟨ls', hrest, htokens⟩ := ih hls (Nat.le_of_succ_le hfuel')
          exact ⟨_, by rw [hstep, tokens_blank, hrest]; rfl, by simp [htokens]⟩

end Lexer

end MetricFormula
