import MetricFormula.Proofs.Grammar.Completeness

/-!
# The grammar is unambiguous

Two phrases of one strength at the front of the same tokens, each followed by something that it cannot go on with, are
the same phrase. The argument is by the number of tokens, and from the tightest phrases to the loosest.
-/

namespace MetricFormula

/-- A phrase of strength `k` made of `ts` stands for one tree, and every phrase at the front of the same tokens ends
where it ends. -/
def Unique (k : Nat) (ts : List Token) : Prop :=
  ∀ ⦃n m us rest rest' e e'⦄, Phrase k n ts e → Phrase k m us e' → ts ++ rest = us ++ rest' → EndsBefore k rest →
    EndsBefore k rest' → e = e' ∧ rest = rest'

/-! ## Operands -/

theorem Arguments.unique {n m ts us rest rest' as bs} (h : Arguments n ts as) (h' : Arguments m us bs)
    (hu : ∀ vs, vs.length ≤ ts.length → Unique 0 vs)
    (heq : ts ++ .closeParen :: rest = us ++ .closeParen :: rest') : as = bs ∧ rest = rest' := by
  have hclose : ∀ vs, EndsBefore 0 (.closeParen :: vs) := fun vs => endsBefore_cons.mpr (Nat.le_refl _)
  have hcomma : ∀ vs, EndsBefore 0 (.comma :: vs) := fun vs => endsBefore_cons.mpr (Nat.le_refl _)
  match h, h' with
  | .last h, .last h' =>
      obtain ⟨rfl, htail⟩ := hu _ (Nat.le_refl _) h h' heq (hclose _) (hclose _)
      exact ⟨rfl, List.tail_eq_of_cons_eq htail⟩
  | .last h, .more h' _ =>
      rw [List.append_assoc] at heq
      obtain ⟨-, htail⟩ := hu _ (Nat.le_refl _) h h' heq (hclose _) (hcomma _)
      cases htail
  | .more h _, .last h' =>
      rw [List.append_assoc] at heq
      obtain ⟨-, htail⟩ := hu _ (by simp) h h' heq (hcomma _) (hclose _)
      cases htail
  | @Arguments.more _ _ ws _ _ h hs, .more h' hs' =>
      rw [List.append_assoc, List.append_assoc] at heq
      obtain ⟨rfl, htail⟩ := hu _ (by simp) h h' heq (hcomma _) (hcomma _)
      have hshorter (vs : List Token) (hvs : vs.length ≤ ws.length) : Unique 0 vs := by
        apply hu
        simp only [List.length_append, List.length_cons]
        omega
      obtain ⟨rfl, hrest⟩ := hs.unique hs' hshorter (List.tail_eq_of_cons_eq htail)
      exact ⟨rfl, hrest⟩

/-- The kinds of operands without a sign. -/
theorem Phrase.operand {n ts e} (h : Phrase 7 n ts e) :
    (∃ x, ts = [.number x] ∧ e = .literal x) ∨ (∃ v, ts = [.event v] ∧ e = .event v) ∨
      (∃ s, ts = [.word s] ∧ e = .ref s) ∨
      (∃ us, ts = .openParen :: (us ++ [.closeParen]) ∧ Phrase 0 n us e) ∨
      ∃ s f us args, Builtin.ofName? s = some f ∧ ts = .word s :: .openParen :: (us ++ [.closeParen]) ∧
        Arguments n us args ∧ e = .call f args := by
  cases h with
  | @binary _ _ op _ _ _ _ hop => have := op.precedence_lt; omega
  | tighter _ h₇ => exact absurd h₇ (by decide)
  | number => exact .inl ⟨_, rfl, rfl⟩
  | event => exact .inr (.inl ⟨_, rfl, rfl⟩)
  | name _ => exact .inr (.inr (.inl ⟨_, rfl, rfl⟩))
  | group h => exact .inr (.inr (.inr (.inl ⟨_, rfl, h⟩)))
  | call hf hargs _ _ => exact .inr (.inr (.inr (.inr ⟨_, _, _, _, hf, rfl, hargs, rfl⟩)))

theorem not_endsBefore_openParen {ts : List Token} : ¬ EndsBefore 7 (.openParen :: ts) := by
  rw [endsBefore_cons]
  decide

theorem unique_operand {ts : List Token} (hu : ∀ vs, vs.length < ts.length → Unique 0 vs) : Unique 7 ts := by
  intro n m us rest rest' e e' h h' heq hr hr'
  -- The first token tells what kind of operand it is, but for a word, which the second one decides.
  rcases h.operand with ⟨x, rfl, rfl⟩ | ⟨v, rfl, rfl⟩ | ⟨s, rfl, rfl⟩ | ⟨ws, rfl, hp⟩ |
      ⟨s, f, ws, args, hf, rfl, hargs, rfl⟩ <;>
    rcases h'.operand with ⟨x', rfl, rfl⟩ | ⟨v', rfl, rfl⟩ | ⟨s', rfl, rfl⟩ | ⟨ws', rfl, hp'⟩ |
      ⟨s', f', ws', args', hf', rfl, hargs', rfl⟩ <;>
    simp only [List.cons_append, List.nil_append, List.append_assoc, List.cons.injEq, Token.number.injEq,
      Token.event.injEq, Token.word.injEq, reduceCtorEq, false_and, true_and] at heq
  · exact ⟨congrArg Expr.literal heq.1, heq.2⟩
  · exact ⟨congrArg Expr.event heq.1, heq.2⟩
  · exact ⟨congrArg Expr.ref heq.1, heq.2⟩
  · rw [heq.2] at hr
    exact absurd hr not_endsBefore_openParen
  · have hclose : ∀ vs, EndsBefore 0 (.closeParen :: vs) := fun vs => endsBefore_cons.mpr (Nat.le_refl _)
    have hlen : ws.length < (Token.openParen :: (ws ++ [.closeParen])).length := by
      simp only [List.length_append, List.length_cons]
      omega
    obtain ⟨rfl, htail⟩ := hu ws hlen hp hp' heq (hclose _) (hclose _)
    exact ⟨rfl, List.tail_eq_of_cons_eq htail⟩
  · rw [← heq.2] at hr'
    exact absurd hr' not_endsBefore_openParen
  · obtain ⟨rfl, heq⟩ := heq
    obtain rfl := Option.some.inj (hf.symm.trans hf')
    have hshorter (vs : List Token) (hvs : vs.length ≤ ws.length) : Unique 0 vs := by
      apply hu
      simp only [List.length_append, List.length_cons]
      omega
    obtain ⟨rfl, hrest⟩ := hargs.unique hargs' hshorter heq
    exact ⟨rfl, hrest⟩

/-- An operand with a sign begins with it, and no other operand does. -/
theorem unique_unary {ts : List Token} (hu : ∀ vs, vs.length < ts.length → Unique 6 vs) (h₇ : Unique 7 ts) :
    Unique 6 ts := by
  have hsign {n us rest ws rest' : _} {e : Expr} (h : Phrase 7 n us e) :
      us ++ rest ≠ .operator .sub :: ws ++ rest' := by
    intro heq
    obtain ⟨x, vs, rfl, hx⟩ := h.head
    cases List.head_eq_of_cons_eq heq
    rcases hx with hx | ⟨hx, -⟩
    · exact absurd hx (by decide)
    · exact absurd hx (by decide)
  intro n m us rest rest' e e' h h' heq hr hr'
  cases h with
  | @binary _ _ op _ _ _ _ hop => have := op.precedence_lt; omega
  | tighter _ _ h =>
      cases h' with
      | @binary _ _ op _ _ _ _ hop => have := op.precedence_lt; omega
      | tighter _ _ h' => exact h₇ h h' heq (hr.mono (by decide)) (hr'.mono (by decide))
      | sign h' => exact absurd heq (hsign h)
  | sign h =>
      cases h' with
      | @binary _ _ op _ _ _ _ hop => have := op.precedence_lt; omega
      | tighter _ _ h' => exact absurd heq.symm (hsign h')
      | sign h' =>
          obtain ⟨rfl, hrest⟩ := hu _ (by simp) h h' (List.tail_eq_of_cons_eq heq) hr hr'
          exact ⟨rfl, hrest⟩

/-! ## Operators -/

/-- `Tail k n first ts e`: with the operators of precedence `k` and their right operands in `ts`, the chain that begins
with `first` becomes `e`. -/
inductive Tail (k n : Nat) : Expr → List Token → Expr → Prop where
  | nil {e} : Tail k n e [] e
  | cons {e op us r ts e'} : op.precedence = k → Phrase (k + 1) n us r → Tail k n (.binary op e r) ts e' →
      Tail k n e (.operator op :: (us ++ ts)) e'

theorem Tail.snoc {k n op us first ts e r} (h : Tail k n first ts e) (hop : op.precedence = k)
    (hr : Phrase (k + 1) n us r) : Tail k n first (ts ++ .operator op :: us) (.binary op e r) := by
  induction h with
  | @nil first =>
      have hlast : Tail k n first (.operator op :: (us ++ [])) (.binary op first r) := .cons hop hr .nil
      rwa [List.append_nil] at hlast
  | cons hop' hr' _ ih =>
      rw [List.cons_append, List.append_assoc]
      exact .cons hop' hr' ih

/-- A chain is its first operand with a tail. -/
theorem Phrase.tail {k n ts e} (h : Phrase k n ts e) (h₀ : 0 < k) (h₆ : k < 6) :
    ∃ us first ws, ts = us ++ ws ∧ Phrase (k + 1) n us first ∧ Tail k n first ws e := by
  match h with
  | .tighter _ _ h => exact ⟨_, _, [], (List.append_nil _).symm, h, .nil⟩
  | @Phrase.binary _ _ op ls us left right hop hl hr =>
      by_cases h₃ : k = 3
      · rw [op.leftStrength_of_eq (hop.trans h₃)] at hl
        subst h₃
        have htail : Tail 3 n left ([] ++ .operator op :: us) (.binary op left right) := Tail.nil.snoc hop hr
        exact ⟨ls, left, _, rfl, hl, htail⟩
      · rw [op.leftStrength_of_ne (hop ▸ h₃), hop] at hl
        obtain ⟨vs, first, ws, rfl, hfirst, htail⟩ := hl.tail h₀ h₆
        exact ⟨vs, first, _, List.append_assoc .., hfirst, htail.snoc hop hr⟩
  | .plain _ => omega
  | .conditional _ _ _ => omega
  | .sign _ => omega
  | .number => omega
  | .event => omega
  | .name _ => omega
  | .group _ => omega
  | .call _ _ _ _ => omega

theorem Tail.ends {k n first ts e rest} (h : Tail k n first ts e) (hr : EndsBefore k rest) :
    EndsBefore (k + 1) (ts ++ rest) := by
  cases h with
  | nil => exact hr.mono (Nat.le_succ k)
  | cons hop _ _ => exact endsBefore_cons.mpr (by simp [Token.pull, hop])

theorem Tail.unique {k n m first ts us rest rest' e e'} (h : Tail k n first ts e) (h' : Tail k m first us e')
    (hu : ∀ vs, vs.length ≤ ts.length → Unique (k + 1) vs) (heq : ts ++ rest = us ++ rest') (hr : EndsBefore k rest)
    (hr' : EndsBefore k rest') : e = e' ∧ rest = rest' := by
  have hstop {op : Operator} {vs : List Token} (hop : op.precedence = k) : ¬ EndsBefore k (.operator op :: vs) := by
    rw [endsBefore_cons, Token.pull, hop]
    exact Nat.not_succ_le_self k
  induction h generalizing us with
  | nil =>
      cases h' with
      | nil => exact ⟨rfl, heq⟩
      | cons hop _ _ =>
          rw [List.nil_append] at heq
          rw [heq] at hr
          exact absurd hr (hstop hop)
  | cons hop hright htail ih =>
      rw [List.length_cons, List.length_append] at hu
      cases h' with
      | nil =>
          rw [List.nil_append] at heq
          rw [← heq] at hr'
          exact absurd hr' (hstop hop)
      | cons hop' hright' htail' =>
          simp only [List.cons_append, List.append_assoc, List.cons.injEq, Token.operator.injEq] at heq
          obtain ⟨rfl, heq⟩ := heq
          obtain ⟨rfl, heq⟩ := hu _ (by omega) hright hright' heq (htail.ends hr) (htail'.ends hr')
          exact ih htail' (fun vs hvs => hu vs (by omega)) heq

theorem unique_chain {k : Nat} {ts : List Token} (h₀ : 0 < k) (h₆ : k < 6)
    (hu : ∀ vs, vs.length ≤ ts.length → Unique (k + 1) vs) : Unique k ts := by
  intro n m us rest rest' e e' h h' heq hr hr'
  obtain ⟨vs, first, ws, rfl, hfirst, htail⟩ := h.tail h₀ h₆
  obtain ⟨vs', first', ws', rfl, hfirst', htail'⟩ := h'.tail h₀ h₆
  rw [List.append_assoc, List.append_assoc] at heq
  rw [List.length_append] at hu
  obtain ⟨rfl, heq⟩ := hu vs (by omega) hfirst hfirst' heq (htail.ends hr) (htail'.ends hr')
  exact htail.unique htail' (fun vs hvs => hu vs (by omega)) heq hr hr'

/-! ## Formulas -/

theorem unique_formula {ts : List Token} (hu : ∀ vs, vs.length < ts.length → Unique 0 vs)
    (h₁ : ∀ vs, vs.length ≤ ts.length → Unique 1 vs) : Unique 0 ts := by
  have hif {vs : List Token} : EndsBefore 1 (.ifKeyword :: vs) := endsBefore_cons.mpr (by decide)
  have helse {vs : List Token} : EndsBefore 1 (.elseKeyword :: vs) := endsBefore_cons.mpr (by decide)
  have hstop {vs : List Token} : ¬ EndsBefore 0 (.ifKeyword :: vs) := by
    rw [endsBefore_cons]
    decide
  intro n m us rest rest' e e' h h' heq hr hr'
  cases h with
  | @binary _ _ op _ _ _ _ hop => have := op.precedence_pos; omega
  | tighter h₀ => exact absurd h₀ (by decide)
  | plain h =>
      cases h' with
      | @binary _ _ op _ _ _ _ hop => have := op.precedence_pos; omega
      | tighter h₀ => exact absurd h₀ (by decide)
      | plain h' => exact h₁ _ (Nat.le_refl _) h h' heq (hr.mono (by decide)) (hr'.mono (by decide))
      | conditional hv' _ _ =>
          rw [List.append_assoc] at heq
          obtain ⟨-, rfl⟩ := h₁ _ (Nat.le_refl _) h hv' heq (hr.mono (by decide)) hif
          exact absurd hr hstop
  | conditional hv ht ho =>
      cases h' with
      | @binary _ _ op _ _ _ _ hop => have := op.precedence_pos; omega
      | tighter h₀ => exact absurd h₀ (by decide)
      | plain h' =>
          rw [List.append_assoc] at heq
          obtain ⟨-, rfl⟩ := h₁ _ (by simp) hv h' heq hif (hr'.mono (by decide))
          exact absurd hr' hstop
      | conditional hv' ht' ho' =>
          simp only [List.append_assoc, List.cons_append] at heq
          simp only [List.length_append, List.length_cons] at hu h₁
          obtain ⟨rfl, heq⟩ := h₁ _ (by omega) hv hv' heq hif hif
          obtain ⟨rfl, heq⟩ := h₁ _ (by omega) ht ht' (List.tail_eq_of_cons_eq heq) helse helse
          obtain ⟨rfl, hrest⟩ := hu _ (by omega) ho ho' (List.tail_eq_of_cons_eq heq) hr hr'
          exact ⟨rfl, hrest⟩

theorem unique_of_le {k : Nat} (hk : k ≤ 7) (ts : List Token) : Unique k ts := by
  induction hlen : ts.length using Nat.strongRecOn generalizing ts k with
  | ind len ih =>
      have hshorter {k : Nat} (hk : k ≤ 7) {vs : List Token} (hvs : vs.length < len) : Unique k vs :=
        ih _ hvs hk vs rfl
      have h₇ (vs : List Token) (hvs : vs.length ≤ len) : Unique 7 vs :=
        unique_operand fun ws hws => hshorter (by decide) (by omega)
      have h₆ (vs : List Token) (hvs : vs.length ≤ len) : Unique 6 vs :=
        unique_unary (fun ws hws => hshorter (by decide) (by omega)) (h₇ vs hvs)
      have hchain {k : Nat} (h₀ : 0 < k) (hk₆ : k < 6) (hu : ∀ vs, vs.length ≤ len → Unique (k + 1) vs)
          (vs : List Token) (hvs : vs.length ≤ len) : Unique k vs :=
        unique_chain h₀ hk₆ fun ws hws => hu ws (by omega)
      have h₅ := hchain (k := 5) (by decide) (by decide) h₆
      have h₄ := hchain (k := 4) (by decide) (by decide) h₅
      have h₃ := hchain (k := 3) (by decide) (by decide) h₄
      have h₂ := hchain (k := 2) (by decide) (by decide) h₃
      have h₁ := hchain (k := 1) (by decide) (by decide) h₂
      have h₀ (vs : List Token) (hvs : vs.length ≤ len) : Unique 0 vs :=
        unique_formula (fun ws hws => hshorter (by decide) (by omega)) fun ws hws => h₁ ws (by omega)
      match k, hk with
      | 0, _ => exact h₀ ts (by omega)
      | 1, _ => exact h₁ ts (by omega)
      | 2, _ => exact h₂ ts (by omega)
      | 3, _ => exact h₃ ts (by omega)
      | 4, _ => exact h₄ ts (by omega)
      | 5, _ => exact h₅ ts (by omega)
      | 6, _ => exact h₆ ts (by omega)
      | 7, _ => exact h₇ ts (by omega)

/-- A list of tokens is a formula for one tree at most, whatever the levels that it may open. -/
theorem Phrase.unique {n m ts e e'} (h : Phrase 0 n ts e) (h' : Phrase 0 m ts e') : e = e' :=
  (unique_of_le (Nat.zero_le 7) ts h h' rfl (endsBefore_nil 0) (endsBefore_nil 0)).1

end MetricFormula
