import MetricFormula.Proofs.Grammar.Printable

/-!
# Parentheses of canonical text

No parentheses can go. Every phrase for a tree has the parentheses that the canonical phrase has, but for a sign: it
stands for a subtraction from zero, whose text has a number more, and may be grouped where the sign is not. So the
parentheses are counted against the numbers.
-/

namespace MetricFormula

def Token.weight : Token → Int
  | .openParen => 1
  | .number _ => -1
  | _ => 0

/-- The opening parentheses, less the numbers. -/
def weight : List Token → Int
  | [] => 0
  | t :: ts => t.weight + weight ts

@[simp] theorem weight_nil : weight [] = 0 := rfl

@[simp] theorem weight_cons (t : Token) (ts : List Token) : weight (t :: ts) = t.weight + weight ts := rfl

@[simp] theorem weight_append (ts us : List Token) : weight (ts ++ us) = weight ts + weight us := by
  induction ts with
  | nil => simp
  | cons t ts ih => simp [ih, Int.add_assoc]

namespace Expr

/-- The pairs of parentheses around a tree as a phrase of strength `k`. -/
def pairs (k : Nat) (e : Expr) : Int := if e.precedence < k then 1 else 0

theorem pairs_nonneg (k : Nat) (e : Expr) : 0 ≤ e.pairs k := by
  unfold pairs
  split <;> decide

theorem pairs_le_one (k : Nat) (e : Expr) : e.pairs k ≤ 1 := by
  unfold pairs
  split <;> decide

@[simp] theorem pairs_zero (e : Expr) : e.pairs 0 = 0 := if_neg (Nat.not_lt_zero _)

theorem pairs_mono {k m : Nat} (h : k ≤ m) (e : Expr) : e.pairs k ≤ e.pairs m := by
  by_cases hk : e.precedence < k
  · have hm : e.precedence < m := Nat.lt_of_lt_of_le hk h
    simp [pairs, hk, hm]
  · rw [pairs, if_neg hk]
    exact e.pairs_nonneg m

theorem pairs_of_le {k : Nat} {e : Expr} (h : k ≤ e.precedence) : e.pairs k = 0 := if_neg (Nat.not_lt_of_le h)

theorem weight_groupedTokens {parens : Bool} {k : Nat} {e : Expr} (h : parens ↔ e.precedence < k) :
    weight (groupedTokens parens e.tokens) = weight e.tokens + e.pairs k := by
  cases parens with
  | false => simp [groupedTokens, pairs, ← h]
  | true => simp [groupedTokens, pairs, ← h, Token.weight, Int.add_comm]

/-! ## Weights of trees -/

@[simp] theorem weight_literal (x : Binary64) : weight (literal x).tokens = -1 := by
  rw [tokens]
  unfold Binary64.tokens
  split <;> rfl

@[simp] theorem weight_event (e : Event) : weight (event e).tokens = 0 := by
  rw [tokens]
  unfold Event.token
  split <;> rfl

theorem weight_binary (op : Operator) (l r : Expr) : weight (binary op l r).tokens =
    weight l.tokens + l.pairs op.leftStrength + (weight r.tokens + r.pairs (op.precedence + 1)) := by
  rw [tokens, weight_append, weight_cons, weight_groupedTokens groupsLeft_iff, weight_groupedTokens groupsRight_iff]
  simp [Token.weight]

theorem weight_call (f : Builtin) (as : List Expr) : weight (call f as).tokens = 1 + weight (argumentsTokens as) := by
  simp [tokens, Token.weight]

theorem weight_conditional (v t o : Expr) : weight (conditional v t o).tokens =
    weight v.tokens + v.pairs 1 + (weight t.tokens + t.pairs 1) + weight o.tokens := by
  simp only [tokens, weight_append, weight_cons, weight_groupedTokens isConditional_iff, Token.weight]
  omega

theorem weight_arguments_cons (a : Expr) (as : List Expr) :
    weight (argumentsTokens (a :: as)) = weight a.tokens + weight (argumentsTokens as) := by
  cases as with
  | nil => simp [argumentsTokens, moreArgumentsTokens]
  | cons b bs => simp [argumentsTokens, moreArgumentsTokens, Token.weight]

theorem precedence_of_beq {a b : Expr} (h : a == b) : a.precedence = b.precedence := by
  cases a with
  | literal x =>
      obtain ⟨y, rfl, -⟩ := literal_beq.mp h
      rfl
  | event e =>
      obtain rfl := event_beq.mp h
      rfl
  | binary op l r =>
      obtain ⟨l', r', rfl, -, -⟩ := binary_beq.mp h
      rfl
  | call f as =>
      obtain ⟨bs, rfl, -⟩ := call_beq.mp h
      rfl
  | conditional v t o =>
      obtain ⟨v', t', o', rfl, -, -, -⟩ := conditional_beq.mp h
      rfl

theorem pairs_of_beq {a b : Expr} (h : a == b) (k : Nat) : a.pairs k = b.pairs k := by
  rw [pairs, pairs, precedence_of_beq h]

mutual

theorem weight_of_beq {a b : Expr} (h : a == b) : weight a.tokens = weight b.tokens := by
  match a with
  | .literal x =>
      obtain ⟨y, rfl, -⟩ := literal_beq.mp h
      rw [weight_literal, weight_literal]
  | .event e =>
      obtain rfl := event_beq.mp h
      rfl
  | .binary op l r =>
      obtain ⟨l', r', rfl, hl, hr⟩ := binary_beq.mp h
      rw [weight_binary, weight_binary, weight_of_beq hl, weight_of_beq hr, pairs_of_beq hl, pairs_of_beq hr]
  | .call f as =>
      obtain ⟨bs, rfl, hs⟩ := call_beq.mp h
      rw [weight_call, weight_call, weight_of_equalList hs]
  | .conditional v t o =>
      obtain ⟨v', t', o', rfl, hv, ht, ho⟩ := conditional_beq.mp h
      rw [weight_conditional, weight_conditional, weight_of_beq hv, weight_of_beq ht, weight_of_beq ho,
        pairs_of_beq hv, pairs_of_beq ht]

theorem weight_of_equalList {as bs : List Expr} (h : equalList as bs) :
    weight (argumentsTokens as) = weight (argumentsTokens bs) := by
  match as with
  | [] =>
      obtain rfl := nil_equalList.mp h
      rfl
  | a :: as =>
      obtain ⟨b, bs, rfl, hab, hs⟩ := cons_equalList.mp h
      rw [weight_arguments_cons, weight_arguments_cons, weight_of_beq hab, weight_of_equalList hs]

end

/-- A sign is no more than the subtraction from zero that it stands for. -/
theorem weight_negated (e : Expr) :
    weight e.negated.tokens + e.negated.pairs 6 ≤ weight e.tokens + e.pairs 6 := by
  unfold negated
  split
  · simp [pairs, precedence]
  · have hzero : (literal 0).pairs Operator.sub.leftStrength = 0 := rfl
    have hone := (binary .sub (literal 0) e).pairs_le_one 6
    have hmono := pairs_mono (k := Operator.sub.precedence + 1) (m := 6) (by decide) e
    rw [weight_binary, weight_literal, hzero]
    omega

end Expr

/-! ## Weights of phrases -/

mutual

/-- No phrase for a tree weighs less than the canonical one, with the parentheses that a phrase of its strength needs. -/
theorem Phrase.weight_le {k n ts e} (h : Phrase k n ts e) : weight e.tokens + e.pairs (min k 6) ≤ weight ts := by
  match h with
  | .plain h =>
      have hle := h.weight_le
      have hnonneg := e.pairs_nonneg (min 1 6)
      simp only [Nat.zero_min, Expr.pairs_zero]
      omega
  | .conditional hv ht ho =>
      have hvalue := hv.weight_le
      have htest := ht.weight_le
      have hlast := ho.weight_le
      simp only [Nat.zero_min, Expr.pairs_zero, Int.add_zero] at hlast ⊢
      simp only [Expr.weight_conditional, weight_append, weight_cons, Token.weight]
      have hone : min 1 6 = 1 := rfl
      rw [hone] at hvalue htest
      omega
  | @Phrase.binary _ _ op _ _ l r hk hl hr =>
      have hleft := hl.weight_le
      have hright := hr.weight_le
      have hlt : op.precedence + 1 ≤ 6 := op.precedence_lt
      rw [Nat.min_eq_left (Nat.le_succ_of_le op.leftStrength_le)] at hleft
      rw [← hk, Nat.min_eq_left hlt] at hright
      have hnone : (Expr.binary op l r).pairs (min k 6) = 0 := Expr.pairs_of_le (by rw [← hk]; exact Nat.min_le_left _ _)
      rw [hnone, Expr.weight_binary]
      simp only [weight_append, weight_cons, Token.weight]
      omega
  | .tighter _ _ h =>
      have hle := h.weight_le
      have hmono := e.pairs_mono (k := min k 6) (m := min (k + 1) 6) (by omega)
      omega
  | @Phrase.sign _ _ e h =>
      have hle := h.weight_le
      have hsign := e.weight_negated
      rw [weight_cons]
      exact Int.le_trans hsign (by simpa [Token.weight] using hle)
  | .number => simp [Expr.pairs, Expr.precedence, Token.weight]
  | .event => simp [Expr.pairs, Expr.precedence, Token.weight]
  | .name _ => simp [Expr.ref, Expr.pairs, Expr.precedence, Token.weight]
  | .group h =>
      have hle := h.weight_le
      have hone := e.pairs_le_one (min 7 6)
      simp only [Nat.zero_min, Expr.pairs_zero, Int.add_zero] at hle
      simp only [weight_cons, weight_append, weight_nil, Token.weight]
      omega
  | @Phrase.call _ _ f _ args _ h _ _ =>
      have hargs := h.weight_le
      have hnone : (Expr.call f args).pairs (min 7 6) = 0 := rfl
      rw [hnone, Expr.weight_call]
      simp only [weight_cons, weight_append, weight_nil, Token.weight]
      omega

theorem Arguments.weight_le {n ts as} (h : Arguments n ts as) : weight (Expr.argumentsTokens as) ≤ weight ts := by
  match h with
  | .last h =>
      have hle := h.weight_le
      simpa [Expr.argumentsTokens, Expr.moreArgumentsTokens] using hle
  | .more h hs =>
      have hfirst := h.weight_le
      have hrest := hs.weight_le
      simp only [Nat.zero_min, Expr.pairs_zero, Int.add_zero] at hfirst
      simp only [Expr.weight_arguments_cons, weight_append, weight_cons, Token.weight]
      omega

end

/-! ## Text without a pair -/

/-- In the text `a(b)c` both parentheses are tokens, and no name is before the first, so that they do not hold the
arguments of a call. -/
def Grouping (a b c : List Char) : Prop :=
  ∃ xs ys zs,
    lex (String.ofList (a ++ '(' :: (b ++ ')' :: c))) =
      .ok (xs ++ ⟨.openParen, byteLength a, byteLength a + 1⟩ ::
        (ys ++ ⟨.closeParen, byteLength (a ++ '(' :: b), byteLength (a ++ '(' :: b) + 1⟩ :: zs)) ∧
    ∀ x ∈ xs.getLast?, ∀ name, x.token ≠ .word name

namespace Lexeme

theorem eq_of_token? {l p : Lexeme} (hp : p = .openParen ∨ p = .closeParen) (h : l.token? = p.token?) : l = p := by
  cases l with
  | event e =>
      have htoken : e.token = .word e.name ∨ e.token = .event e := by
        unfold Event.token
        split <;> simp
      rcases hp with rfl | rfl <;> rcases htoken with he | he <;> simp [token?, he] at h
  | _ => rcases hp with rfl | rfl <;> first | rfl | cases h

/-- The parentheses are lexemes, and the first does not follow the name of a function. -/
theorem exists_of_grouping {ls : List Lexeme} {a b c : List Char} (hs : Spaced ls)
    (hls : spelling ls = a ++ '(' :: (b ++ ')' :: c)) (h : Grouping a b c) :
    ∃ pre mid post, ls = pre ++ .openParen :: (mid ++ .closeParen :: post) ∧ spelling pre = a ∧ spelling mid = b ∧
      spelling post = c ∧ ∀ l ∈ pre.getLast?, ∀ f, l ≠ .function f := by
  obtain ⟨xs, ys, zs, hlex, hlast⟩ := h
  rw [← hls, lex_spelling hs] at hlex
  obtain ⟨pre, l, tail, rfl, hl, hpre, hstart, hrest⟩ := located_eq_append_cons (Except.ok.inj hlex)
  obtain rfl := eq_of_token? (.inl rfl) hl
  obtain ⟨mid, l', post, rfl, hl', -, hstart', -⟩ := located_eq_append_cons hrest
  obtain rfl := eq_of_token? (.inr rfl) hl'
  rw [spelling_append, spelling_cons, spelling_append, spelling_cons] at hls
  -- The texts before the parentheses are as long as the spans of the tokens say.
  obtain ⟨rfl, hafter⟩ := append_inj_of_byteLength hls (by simpa using hstart.symm)
  have hinner : byteLength (spelling mid) = byteLength b := by
    simp only [spelling_append, spelling_cons, spelling_nil, chars, byteLength_append, byteLength, List.append_nil]
      at hstart'
    omega
  have hafter : spelling mid ++ ')' :: spelling post = b ++ ')' :: c := (List.cons.inj hafter).2
  obtain ⟨rfl, hend⟩ := append_inj_of_byteLength hafter hinner
  refine ⟨pre, mid, post, rfl, rfl, rfl, (List.cons.inj hend).2, ?_⟩
  rintro l hl f rfl
  obtain ⟨pre, rfl⟩ := List.getLast?_eq_some_iff.mp hl
  rw [located_append] at hpre
  exact hlast _ (by rw [← hpre, List.getLast?_append]; rfl) f.name rfl

end Lexeme

/-- Canonical text without a pair of its grouping parentheses is refused, or read as a tree that is not equal. So it is
without any opening parenthesis that groups and any closing one after it, whether they belong together or not. -/
theorem grouping_needed {text : String} {t : Expr} (h : parse text = .ok t) {a b c : List Char}
    (htext : t.text = a ++ '(' :: (b ++ ')' :: c)) (hgrouping : Grouping a b c) {t' : Expr}
    (h' : parse (String.ofList (a ++ b ++ c)) = .ok t') : ¬ t' == t := by
  intro hequal
  obtain ⟨hwell, hnamed, -⟩ := wellFormed_of_parse h
  obtain ⟨ls, hls, htokens, hspaced⟩ := Expr.exists_spaced hwell hnamed
  obtain ⟨pre, mid, post, rfl, rfl, rfl, rfl, hlast⟩ := Lexeme.exists_of_grouping hspaced (hls.trans htext) hgrouping
  have hdeleted : Lexeme.Spaced (pre ++ (mid ++ post)) := by
    rw [← List.cons_append, ← List.append_assoc] at hspaced
    have hopened := hspaced.delete_closeParen
    rw [List.append_assoc] at hopened
    exact hopened.delete_openParen hlast
  have hlighter : weight ((pre ++ .openParen :: (mid ++ .closeParen :: post)).filterMap Lexeme.token?) =
      weight ((pre ++ (mid ++ post)).filterMap Lexeme.token?) + 1 := by
    simp only [List.filterMap_append, List.filterMap_cons, Lexeme.token?, weight_append, weight_cons, Token.weight]
    omega
  obtain ⟨ls, hlex, hformula⟩ := parse_eq_ok.mp h'
  rw [List.append_assoc, ← Lexeme.spelling_append, ← Lexeme.spelling_append, Lexeme.lex_spelling hdeleted] at hlex
  cases hlex
  have hle := (Parser.formula_sound hformula).1.weight_le
  rw [Lexeme.token_located, Expr.weight_of_beq hequal, ← htokens, hlighter, Nat.zero_min, Expr.pairs_zero] at hle
  omega

theorem grouping_difference : Grouping "a - ".toList "b - c".toList [] := by
  refine ⟨[⟨.word "a", 0, 1⟩, ⟨.operator .sub, 2, 3⟩], [⟨.word "b", 5, 6⟩, ⟨.operator .sub, 7, 8⟩, ⟨.word "c", 9, 10⟩], [],
    rfl, ?_⟩
  rintro x ⟨rfl⟩ name h
  cases h

theorem grouping_needed_difference : ∃ t t', parse "a - (b - c)" = .ok t ∧
    t.text = "a - ".toList ++ '(' :: ("b - c".toList ++ ')' :: []) ∧ parse "a - b - c" = .ok t' ∧ ¬ t' == t := by
  let difference (l r : Expr) : Expr := .binary .sub l r
  have hread : parse "a - (b - c)" = .ok (difference (.ref "a") (difference (.ref "b") (.ref "c"))) := rfl
  have hread' : parse "a - b - c" = .ok (difference (difference (.ref "a") (.ref "b")) (.ref "c")) := rfl
  exact ⟨_, _, hread, rfl, hread', grouping_needed hread rfl grouping_difference hread'⟩

end MetricFormula
