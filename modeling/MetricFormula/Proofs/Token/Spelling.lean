import MetricFormula.Proofs.Expr.WellFormed
import MetricFormula.Proofs.Number.Spelling
import MetricFormula.Proofs.Outcome
import MetricFormula.Proofs.Token.Characters

/-!
# How tokens are spelled

The texts of a token, described without regard to what follows them: backslashes stand where a character needs one or
where one is wanted, and separators have one or not. Whatever spelling is chosen, a token is read up to its end and no
further, if the text ends there or goes on with a delimiter.
-/

namespace MetricFormula

/-- The characters `cs` as they may be written: plain ones alone, and any of them after a backslash. -/
inductive Written (plain : Char → Bool) : List Char → List Char → Prop where
  | nil : Written plain [] []
  | plain {c cs ws} : plain c → Written plain cs ws → Written plain (c :: cs) (c :: ws)
  | escaped {c cs ws} : Written plain cs ws → Written plain (c :: cs) ('\\' :: c :: ws)

/-- Only some plain characters begin a name. -/
inductive NameText : List Char → List Char → Prop where
  | plain {c cs ws} : isWordStart c → Written isWordChar cs ws → NameText (c :: cs) (c :: ws)
  | escaped {c cs ws} : Written isWordChar cs ws → NameText (c :: cs) ('\\' :: c :: ws)

/-- A separator, with or without a backslash. -/
inductive Separator (c : Char) : List Char → Prop where
  | plain : Separator c [c]
  | escaped : Separator c ['\\', c]

namespace Lexer

/-- A key or a value in a block. -/
structure TermWord (s : String) (ws : List Char) : Prop where
  writable : Writable s
  written : Written isTermChar s.toList ws

inductive TermText : Modifier → List Char → Prop where
  | flag {key ws} : TermWord key ws → TermText ⟨key, none⟩ ws
  | pair {key value ks sep vs} : TermWord key ks → Separator '=' sep → TermWord value vs →
      TermText ⟨key, some value⟩ (ks ++ (sep ++ vs))

/-- Further terms up to the closing mark of a block. -/
inductive TermsText : List Modifier → List Char → Prop where
  | close : TermsText [] ['@']
  | more {m ms sep ws vs} : Separator ',' sep → TermText m ws → TermsText ms vs → TermsText (m :: ms) (sep ++ (ws ++ vs))

/-- A block after its opening mark. -/
inductive BlockText : Modifier → List Modifier → List Char → Prop where
  | terms {m ms ws vs} : TermText m ws → TermsText ms vs → BlockText m ms (ws ++ vs)

/-- An item after its colon. -/
inductive ItemText : Modifier → List Char → Prop where
  | flag {key} : key ≠ "" → key.toList.all isKeyChar → ItemText ⟨key, none⟩ key.toList
  | pair {key value} : key ≠ "" → key.toList.all isKeyChar → value ≠ "" → value.toList.all isWordChar →
      ItemText ⟨key, some value⟩ (key.toList ++ '=' :: value.toList)

end Lexer

theorem Event.modifier?_eq_none {e : Event} {key : String} :
    e.modifier? key = none ↔ key ∉ e.modifiers.map Modifier.key := by
  simp [Event.modifier?]

/-- What an item of a list makes of an event. -/
inductive Event.Takes : Event → Modifier → Event → Prop where
  | qualifier {e} : Takes e ⟨"R", none⟩ (e.withQualifier .retireLatency)
  | modifier {e m} : m ≠ ⟨"R", none⟩ → e.modifier? (Lexer.expandShort m).key = none →
      Takes e m (e.withModifier (Lexer.expandShort m))

namespace Lexer

/-- A list of items makes the second event of the first. -/
inductive ListText : Event → List Char → Event → Prop where
  | nil {e} : ListText e [] e
  | item {e e₁ e₂ m ws vs} : ItemText m ws → e.Takes m e₁ → ListText e₁ vs e₂ → ListText e (':' :: (ws ++ vs)) e₂

/-- What may follow a block. -/
inductive TailText : Event → List Char → Event → Prop where
  | list {e e' ws} : ListText e ws e' → TailText e ws e'
  | retired {e e' ws} : ListText (e.withQualifier .retireLatency) ws e' → TailText e ('R' :: ws) e'

inductive ReferenceText : Token → List Char → Prop where
  | leading {name ms ws vs e} : BlockText ⟨name, none⟩ ms ws → (ms.map Modifier.key).Nodup →
      TailText ⟨name, ms, none⟩ vs e → ReferenceText (.event e) ('@' :: (ws ++ vs))
  | block {cs ns m ms ws vs e} : NameText cs ns → BlockText m ms ws → ((m :: ms).map Modifier.key).Nodup →
      TailText ⟨String.ofList cs, m :: ms, none⟩ vs e → ReferenceText (.event e) (ns ++ '@' :: (ws ++ vs))
  | list {cs ns ws e} : NameText cs ns → ListText (.bare (String.ofList cs)) (':' :: ws) e →
      ReferenceText (.event e) (ns ++ ':' :: ws)
  | escaped {cs ns} : NameText cs ns → '\\' ∈ ns → ReferenceText (.event (.bare (String.ofList cs))) ns
  | word {cs ns} : NameText cs ns → '\\' ∉ ns → ReferenceText (.ofWord (String.ofList cs)) ns

end Lexer

/-- The texts that stand for a token. -/
inductive TokenText : Token → List Char → Prop where
  | number {n ws} : Numeral.NumeralText n ws → n.whole ≠ [] ∨ n.fraction ≠ [] → (n.toBinary64 false).isFinite →
      TokenText (.number (n.toBinary64 false)) ws
  | reference {t ws} : Lexer.ReferenceText t ws → TokenText t ws
  | operator (op : Operator) : TokenText (.operator op) op.symbol.toList
  | openParen : TokenText .openParen ['(']
  | closeParen : TokenText .closeParen [')']
  | comma : TokenText .comma [',']

end MetricFormula
