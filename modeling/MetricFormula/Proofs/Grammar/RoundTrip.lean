import MetricFormula.Proofs.Expr.Equality
import MetricFormula.Proofs.Grammar.Canonical
import MetricFormula.Proofs.Grammar.Completeness
import MetricFormula.Proofs.Grammar.Soundness
import MetricFormula.Proofs.Token.Spans
import MetricFormula.Proofs.Token.WellFormed

/-!
# Reading and printing

The texts that are read are those whose tokens are a phrase within the limits, and the canonical text of what was read
is one of them.
-/

namespace MetricFormula

theorem parse_eq_ok {text : String} {t : Expr} :
    parse text = .ok t ↔ ∃ ls, lex text = .ok ls ∧ Parser.formula (byteLength text.toList) ls = .ok t := by
  rw [parse, mapError_eq_ok, bind_eq_ok]

theorem lex_wellFormed {text : String} {ls : List LocatedToken} (h : lex text = .ok ls) :
    ∀ t ∈ ls.map LocatedToken.token, t.WellFormed := by
  intro x hx
  obtain ⟨t, ht, rfl⟩ := List.mem_map.mp hx
  exact Lexer.tokenText_wellFormed ((Lexer.lex_lexed h).tokenText_charsIn ht)

/-- A text is read exactly if its tokens are a phrase that opens no more levels than there are, for a tree that is not
too tall. -/
theorem parse_iff_phrase {text : String} {t : Expr} :
    parse text = .ok t ↔
      ∃ ls, tokenize text = .ok ls ∧ Phrase 0 maxNesting (ls.map LocatedToken.token) t ∧ t.depth ≤ maxDepth := by
  simp only [tokenize_eq_ok, parse_eq_ok]
  constructor
  · rintro ⟨ls, hls, hformula⟩
    exact ⟨ls, hls, Parser.formula_sound hformula⟩
  · rintro ⟨ls, hls, hphrase, hdepth⟩
    exact ⟨ls, hls, Parser.formula_complete hphrase hdepth⟩

mutual

theorem Expr.WellFormed.finite {t : Expr} (h : t.WellFormed) : t.Finite := by
  match t with
  | .literal x => exact h
  | .event e => trivial
  | .binary op l r => exact ⟨Expr.WellFormed.finite h.1, Expr.WellFormed.finite h.2⟩
  | .call f as => exact Expr.WellFormedList.finiteList h.2.2
  | .conditional v t o =>
      exact ⟨Expr.WellFormed.finite h.1, Expr.WellFormed.finite h.2.1, Expr.WellFormed.finite h.2.2⟩

theorem Expr.WellFormedList.finiteList {as : List Expr} (h : Expr.WellFormedList as) : Expr.FiniteList as := by
  match as with
  | [] => trivial
  | a :: as => exact ⟨Expr.WellFormed.finite h.1, Expr.WellFormedList.finiteList h.2⟩

end

/-- The canonical text of a tree that was read is read as the same tree. -/
theorem parse_print {text : String} {t : Expr} (h : parse text = .ok t) : parse t.print = .ok t ∧ t == t := by
  obtain ⟨ls, hls, hformula⟩ := parse_eq_ok.mp h
  obtain ⟨hphrase, hdepth⟩ := Parser.formula_sound hformula
  have htokens := lex_wellFormed hls
  obtain ⟨hwell, hnamed⟩ := hphrase.wellFormed htokens
  have hcanonical := (Expr.canonical_tokens t hwell hnamed (Nat.le_sub_one_of_lt (hphrase.fits htokens).lt)).formula
  obtain ⟨ls', hls', htokens'⟩ := Expr.lex_print hwell hnamed
  refine ⟨parse_eq_ok.mpr ⟨ls', hls', Parser.formula_complete ?_ hdepth⟩, Expr.beq_self t hwell.finite⟩
  rw [htokens']
  exact hcanonical

theorem parse_print_sign : ∃ t, parse "-(a | b) * c@edge@" = .ok t ∧ parse t.print = .ok t ∧ t == t := by
  have hread : parse "-(a | b) * c@edge@" = .ok (.binary .mul
      (.binary .sub (.literal 0) (.binary .or (.ref "a") (.ref "b"))) (.event ⟨"c", [⟨"edge", none⟩], none⟩)) := rfl
  exact ⟨_, hread, parse_print hread⟩

example : (parse "-(a | b) * 2.50").toOption.map Expr.print = some "(0 - (a | b)) * 2.5" := by decide +kernel

end MetricFormula
