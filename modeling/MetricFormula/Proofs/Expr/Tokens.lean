import MetricFormula.Proofs.Token.Lexeme

/-! The tokens that the text of a tree is read as. -/

namespace MetricFormula

open Lexeme

/-! ## Tokens of a tree -/

/-- The sign of a literal is a token of its own. -/
def Binary64.tokens : Binary64 → List Token
  | .finite true u h => [.operator .sub, .number (.finite false u h)]
  | x => [.number x]

namespace Expr

def groupedTokens (parens : Bool) (ts : List Token) : List Token :=
  if parens then .openParen :: (ts ++ [.closeParen]) else ts

mutual

def tokens : Expr → List Token
  | .literal x => x.tokens
  | .event e => [e.token]
  | .binary op l r =>
    groupedTokens (groupsLeft op l) l.tokens ++ .operator op :: groupedTokens (groupsRight op r) r.tokens
  | .call f as => .word f.name :: .openParen :: (argumentsTokens as ++ [.closeParen])
  | .conditional v t o =>
    groupedTokens v.isConditional v.tokens ++
      .ifKeyword :: (groupedTokens t.isConditional t.tokens ++ .elseKeyword :: o.tokens)

def argumentsTokens : List Expr → List Token
  | [] => []
  | a :: as => a.tokens ++ moreArgumentsTokens as

def moreArgumentsTokens : List Expr → List Token
  | [] => []
  | a :: as => .comma :: (a.tokens ++ moreArgumentsTokens as)

end

end Expr

/-! ## Texts in lexemes -/

/-- The characters `cs` are lexemes with the tokens `us`, which may come wherever such text may end. -/
def Spells (cs : List Char) (us : List Token) : Prop :=
  ∃ ls, spelling ls = cs ∧ ls.filterMap token? = us ∧
    ∀ rest, Ends (spelling rest).head? → Spaced rest → Spaced (ls ++ rest)

theorem Spells.nil : Spells [] [] := ⟨[], rfl, rfl, fun _ _ hrest => hrest⟩

theorem Spells.grouped {cs : List Char} {us : List Token} (h : Spells cs us) (parens : Bool) :
    Spells (Expr.grouped parens cs) (Expr.groupedTokens parens us) := by
  cases parens with
  | false => exact h
  | true =>
      obtain ⟨ls, rfl, rfl, hls⟩ := h
      refine ⟨.openParen :: (ls ++ [.closeParen]), ?_, ?_, fun rest hends hrest => ?_⟩
      · simp [Expr.grouped, chars]
      · simp [Expr.groupedTokens, token?]
      · have hinner := hls (.closeParen :: rest) (by simp [Ends, chars]) ⟨trivial, hends, hrest⟩
        simpa [Spaced, WellFormed, Allows] using hinner

theorem spells_literal {x : Binary64} (hx : x.isFinite) : Spells x.text x.tokens := by
  cases x with
  | nan => cases hx
  | infinite n => cases hx
  | finite n u hu =>
      cases n with
      | false =>
          refine ⟨[.number u hu], ?_, rfl, fun rest hends hrest => ⟨trivial, hends, hrest⟩⟩
          simp [chars, Binary64.text, Binary64.signText]
      | true =>
          refine ⟨[.sign, .number u hu], ?_, rfl, fun rest hends hrest => ⟨trivial, trivial, trivial, hends, hrest⟩⟩
          simp [chars, Binary64.text, Binary64.signText]

theorem spells_event {e : Event} (he : e.WellFormed) (hname : e.name ≠ "") : Spells e.text [e.token] :=
  ⟨[.event e], by simp [chars], rfl, fun _ hends hrest => ⟨⟨he, hname⟩, hends, hrest⟩⟩

theorem Spells.binary {cs ds : List Char} {us vs : List Token} (h : Spells cs us) (h' : Spells ds vs) (op : Operator) :
    Spells (cs ++ ' ' :: op.symbol.toList ++ ' ' :: ds) (us ++ .operator op :: vs) := by
  obtain ⟨ls, rfl, rfl, hls⟩ := h
  obtain ⟨ms, rfl, rfl, hms⟩ := h'
  refine ⟨ls ++ .blank :: .operator op :: .blank :: ms, ?_, ?_, fun rest hends hrest => ?_⟩
  · simp [chars]
  · simp [List.filterMap_cons, token?]
  · have hright := hms rest hends hrest
    have hleft := hls (.blank :: .operator op :: .blank :: (ms ++ rest)) (by simp [Ends, chars])
      ⟨trivial, trivial, trivial, rfl, trivial, trivial, hright⟩
    simpa using hleft

theorem Spells.conditional {cs ds es : List Char} {us vs ws : List Token} (h : Spells cs us) (h' : Spells ds vs)
    (h'' : Spells es ws) :
    Spells (cs ++ " if ".toList ++ ds ++ " else ".toList ++ es) (us ++ .ifKeyword :: (vs ++ .elseKeyword :: ws)) := by
  obtain ⟨ls, rfl, rfl, hls⟩ := h
  obtain ⟨ms, rfl, rfl, hms⟩ := h'
  obtain ⟨ns, rfl, rfl, hns⟩ := h''
  refine ⟨ls ++ .blank :: .ifKeyword :: .blank :: (ms ++ .blank :: .elseKeyword :: .blank :: ns), ?_, ?_,
    fun rest hends hrest => ?_⟩
  · simp [chars]
  · simp [List.filterMap_cons, token?]
  · have hlast := hns rest hends hrest
    have hsecond := hms (.blank :: .elseKeyword :: .blank :: (ns ++ rest)) (by simp [Ends, chars])
      ⟨trivial, trivial, trivial, rfl, trivial, trivial, hlast⟩
    have hfirst := hls (.blank :: .ifKeyword :: .blank :: (ms ++ .blank :: .elseKeyword :: .blank :: (ns ++ rest)))
      (by simp [Ends, chars]) ⟨trivial, trivial, trivial, rfl, trivial, trivial, hsecond⟩
    simpa using hfirst

/-- The characters `cs` spell the tokens `us`, and begin with a comma, if there are any. -/
def Continues (cs : List Char) (us : List Token) : Prop := Spells cs us ∧ ∀ c ∈ cs.head?, c = ','

theorem Continues.nil : Continues [] [] := ⟨.nil, nofun⟩

theorem Spells.append {cs ds : List Char} {us vs : List Token} (h : Spells cs us) (h' : Continues ds vs) :
    Spells (cs ++ ds) (us ++ vs) := by
  obtain ⟨ls, rfl, rfl, hls⟩ := h
  obtain ⟨⟨ms, rfl, rfl, hms⟩, hcomma⟩ := h'
  refine ⟨ls ++ ms, spelling_append ls ms, List.filterMap_append, fun rest hends hrest => ?_⟩
  have hnext : Ends (spelling (ms ++ rest)).head? := by
    rw [spelling_append, List.head?_append]
    cases hhead : (spelling ms).head? with
    | none => exact hends
    | some c => simp [Ends, hcomma c hhead]
  rw [List.append_assoc]
  exact hls (ms ++ rest) hnext (hms rest hends hrest)

theorem Spells.comma {cs ds : List Char} {us vs : List Token} (h : Spells cs us) (h' : Continues ds vs) :
    Continues (',' :: ' ' :: cs ++ ds) (.comma :: (us ++ vs)) := by
  obtain ⟨ls, hcs, hus, hls⟩ := h.append h'
  refine ⟨⟨.comma :: .blank :: ls, ?_, ?_, fun rest hends hrest => ?_⟩, by simp⟩
  · simp [chars, hcs]
  · simp [token?, List.filterMap_cons, hus]
  · exact ⟨trivial, trivial, trivial, trivial, hls rest hends hrest⟩

theorem Spells.call {cs : List Char} {us : List Token} (h : Spells cs us) (f : Builtin) :
    Spells (f.name.toList ++ '(' :: cs ++ [')']) (.word f.name :: .openParen :: (us ++ [.closeParen])) := by
  obtain ⟨ls, rfl, rfl, hls⟩ := h
  refine ⟨.function f :: .openParen :: (ls ++ [.closeParen]), ?_, ?_, fun rest hends hrest => ?_⟩
  · simp [chars]
  · simp [token?]
  · have hinner := hls (.closeParen :: rest) (by simp [Ends, chars]) ⟨trivial, hends, hrest⟩
    simpa [Spaced, WellFormed, Allows, chars] using hinner

namespace Expr

mutual

theorem spells_text (t : Expr) (h : t.WellFormed) (hn : t.Named) : Spells t.text t.tokens := by
  match t with
  | .literal x => exact spells_literal h
  | .event e => exact spells_event h (hn e (by simp [events]))
  | .binary op l r =>
      obtain ⟨hln, hrn⟩ := List.forall_mem_append.mp hn
      have hleft := (spells_text l h.1 hln).grouped (groupsLeft op l)
      exact hleft.binary ((spells_text r h.2 hrn).grouped (groupsRight op r)) op
  | .call f as => exact (spells_argumentsText as h.2.2 hn).call f
  | .conditional v t o =>
      obtain ⟨hvtn, hon⟩ := List.forall_mem_append.mp hn
      obtain ⟨hvn, htn⟩ := List.forall_mem_append.mp hvtn
      have hvalue := (spells_text v h.1 hvn).grouped v.isConditional
      have htest := (spells_text t h.2.1 htn).grouped t.isConditional
      exact hvalue.conditional htest (spells_text o h.2.2 hon)

theorem spells_argumentsText (as : List Expr) (h : WellFormedList as) (hn : ∀ e ∈ eventsList as, e.name ≠ "") :
    Spells (argumentsText as) (argumentsTokens as) := by
  match as with
  | [] => exact .nil
  | a :: as =>
      obtain ⟨han, hasn⟩ := List.forall_mem_append.mp hn
      exact (spells_text a h.1 han).append (continues_moreArgumentsText as h.2 hasn)

theorem continues_moreArgumentsText (as : List Expr) (h : WellFormedList as) (hn : ∀ e ∈ eventsList as, e.name ≠ "") :
    Continues (moreArgumentsText as) (moreArgumentsTokens as) := by
  match as with
  | [] => exact .nil
  | a :: as =>
      obtain ⟨han, hasn⟩ := List.forall_mem_append.mp hn
      exact (spells_text a h.1 han).comma (continues_moreArgumentsText as h.2 hasn)

end

/-- The text of a well-formed tree is a sequence of lexemes with the tokens of the tree. -/
theorem exists_spaced {t : Expr} (h : t.WellFormed) (hn : t.Named) :
    ∃ ls, spelling ls = t.text ∧ ls.filterMap token? = t.tokens ∧ Spaced ls := by
  obtain ⟨ls, htext, htokens, hspaced⟩ := spells_text t h hn
  have hall := hspaced [] (by simp [Ends]) trivial
  rw [List.append_nil] at hall
  exact ⟨ls, htext, htokens, hall⟩

/-- The text of a well-formed tree is read as the tokens of the tree. -/
theorem lex_print {t : Expr} (h : t.WellFormed) (hn : t.Named) :
    ∃ ls, lex t.print = .ok ls ∧ ls.map LocatedToken.token = t.tokens := by
  obtain ⟨ls, htext, htokens, hspaced⟩ := exists_spaced h hn
  rw [print, ← htext, lex_spelling hspaced]
  exact ⟨_, rfl, by rw [token_located, htokens]⟩

end Expr

end MetricFormula
