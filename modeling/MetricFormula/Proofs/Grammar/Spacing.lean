import MetricFormula.Proofs.Grammar.Places
import MetricFormula.Proofs.Token.Spans

/-!
# Tokens and the text around them

A text is its tokens and blanks. How many blanks there are between two tokens does not matter to what is read.
-/

namespace MetricFormula

/-- The tokens are found in the text one after another, and there are only blanks around them. -/
structure Covers (text : String) (ls : List LocatedToken) : Prop where
  nonempty : ∀ t ∈ ls, t.span.start < t.span.stop
  boundaries : ∀ t ∈ ls, Boundary text.toList t.span.start ∧ Boundary text.toList t.span.stop
  increasing : ls.Pairwise fun t u => t.span.stop ≤ u.span.start
  outside : ∀ before c after, text.toList = before ++ c :: after →
    (∀ t ∈ ls, ¬t.span.Contains (byteLength before)) → isBlank c

/-- The texts of the tokens with a blank between any two of them. -/
def respaced (text : String) (ls : List LocatedToken) : String :=
  " ".intercalate (ls.map fun t => t.span.slice text)

variable {text other : String} {ls us : List LocatedToken}

theorem covers_of_lex (h : lex text = .ok ls) : Covers text ls where
  nonempty _ ht := (Lexer.lex_lexed h).start_lt_stop ht
  boundaries _ ht := ⟨((Lexer.lex_lexed h).within ht).start, ((Lexer.lex_lexed h).within ht).stop⟩
  increasing := (Lexer.lex_lexed h).pairwise
  outside before c after hcs hout := (Lexer.lex_lexed h).isBlank hcs (by rwa [Nat.zero_add])

theorem respaced_toList (text : String) (ls : List LocatedToken) :
    (respaced text ls).toList = [' '].intercalate (ls.map fun t => t.span.charsIn 0 text.toList) := by
  rw [respaced, String.toList_intercalate, List.map_map]
  congr 1
  exact List.map_congr_left fun t _ => String.toList_ofList

theorem lex_respaced (h : lex text = .ok ls) :
    ∃ us, lex (respaced text ls) = .ok us ∧ us.map LocatedToken.token = ls.map LocatedToken.token := by
  unfold lex
  rw [respaced_toList]
  exact Lexer.tokens_joined (fun t ht => (Lexer.lex_lexed h).tokenText_charsIn ht) _ (Nat.le_refl _)

/-- Any place corresponds to any other. -/
def Parser.Correspondence.any : Parser.Correspondence := ⟨fun _ _ => True, fun _ _ => True, trivial, id, fun _ h => h⟩

theorem parse_of_lex (h : lex text = .ok ls) :
    (parse text).mapError SyntaxError.cause = (Parser.formula (byteLength text.toList) ls).mapError Fault.cause := by
  unfold parse
  rw [h, ok_bind]
  cases Parser.formula (byteLength text.toList) ls <;> rfl

/-- The same tokens are read as the same tree or have the same fault. -/
theorem parse_of_same_tokens (h : lex text = .ok ls) (h' : lex other = .ok us)
    (htokens : us.map LocatedToken.token = ls.map LocatedToken.token) :
    (parse other).mapError SyntaxError.cause = (parse text).mapError SyntaxError.cause := by
  have hsame : List.Forall₂ (Parser.SameToken .any) us ls := by
    have heq : List.Forall₂ Eq (us.map LocatedToken.token) (ls.map LocatedToken.token) := by
      rw [htokens, List.forall₂_eq_eq_eq]
    rw [List.forall₂_map_left_iff, List.forall₂_map_right_iff] at heq
    exact heq.imp fun _ _ htoken => ⟨htoken, trivial⟩
  rw [parse_of_lex h, parse_of_lex h']
  obtain ⟨e, he, he'⟩ | ⟨cause, a, b, he, he', -⟩ :=
    Parser.formula_places hsame (m := byteLength other.toList) (n := byteLength text.toList) trivial
  · rw [he, he']
  · rw [he, he']
    rfl

/-- The tokenizer leaves out blanks and nothing else, and the parser does not see them. -/
theorem tokenize_covers (h : tokenize text = .ok ls) :
    Covers text ls ∧
      (∃ us, tokenize (respaced text ls) = .ok us ∧ us.map LocatedToken.token = ls.map LocatedToken.token) ∧
      ∀ other us, tokenize other = .ok us → us.map LocatedToken.token = ls.map LocatedToken.token →
        (parse other).mapError SyntaxError.cause = (parse text).mapError SyntaxError.cause := by
  have hlex := tokenize_eq_ok.mp h
  refine ⟨covers_of_lex hlex, ?_, ?_⟩
  · obtain ⟨us, hus, htokens⟩ := lex_respaced hlex
    exact ⟨us, tokenize_eq_ok.mpr hus, htokens⟩
  · exact fun other us hus htokens => parse_of_same_tokens hlex (tokenize_eq_ok.mp hus) htokens

theorem tokenize_covers_product :
    ∃ ls, tokenize "\\é\t*a" = .ok ls ∧ Covers "\\é\t*a" ls ∧ respaced "\\é\t*a" ls = "\\é * a" ∧
      (parse "\\é * a").mapError SyntaxError.cause = (parse "\\é\t*a").mapError SyntaxError.cause := by
  have h : tokenize "\\é\t*a" =
      .ok [⟨.event (.bare "é"), ⟨0, 3⟩⟩, ⟨.operator .mul, ⟨4, 5⟩⟩, ⟨.word "a", ⟨5, 6⟩⟩] := rfl
  obtain ⟨hcovers, ⟨us, hus, htokens⟩, hparse⟩ := tokenize_covers h
  have hrespaced : respaced "\\é\t*a" [⟨.event (.bare "é"), ⟨0, 3⟩⟩, ⟨.operator .mul, ⟨4, 5⟩⟩, ⟨.word "a", ⟨5, 6⟩⟩] =
      "\\é * a" := by decide +kernel
  rw [hrespaced] at hus
  exact ⟨_, h, hcovers, hrespaced, hparse _ us hus htokens⟩

end MetricFormula
