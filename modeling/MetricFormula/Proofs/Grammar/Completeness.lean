import MetricFormula.Proofs.Grammar.State

/-! The parser finds every tree of the grammar. -/

namespace MetricFormula

/-- A phrase begins with an operand or, if it may have a sign, with a sign. -/
theorem Phrase.head {k n ts e} (h : Phrase k n ts e) :
    ∃ x us, ts = x :: us ∧ (x.pull = 8 ∨ k < 7 ∧ x = .operator .sub) := by
  match h with
  | .plain h =>
      obtain ⟨x, us, rfl, hx⟩ := h.head
      exact ⟨x, us, rfl, hx.imp_right fun hx => ⟨by decide, hx.2⟩⟩
  | .conditional h _ _ =>
      obtain ⟨x, us, rfl, hx⟩ := h.head
      exact ⟨x, _, rfl, hx.imp_right fun hx => ⟨by decide, hx.2⟩⟩
  | @Phrase.binary _ _ op _ _ _ _ hk h _ =>
      obtain ⟨x, us, rfl, hx⟩ := h.head
      exact ⟨x, _, rfl, hx.imp_right fun hx => ⟨by have := op.precedence_lt; omega, hx.2⟩⟩
  | .tighter _ h₇ h =>
      obtain ⟨x, us, rfl, hx⟩ := h.head
      exact ⟨x, us, rfl, hx.imp_right fun hx => ⟨h₇, hx.2⟩⟩
  | .sign _ => exact ⟨_, _, rfl, .inr ⟨by decide, rfl⟩⟩
  | .number => exact ⟨_, _, rfl, .inl rfl⟩
  | .event => exact ⟨_, _, rfl, .inl rfl⟩
  | .name _ => exact ⟨_, _, rfl, .inl rfl⟩
  | .group _ => exact ⟨_, _, rfl, .inl rfl⟩
  | .call _ _ _ _ => exact ⟨_, _, rfl, .inl rfl⟩

theorem Arguments.head {n ts args} (h : Arguments n ts args) :
    ∃ x us, ts = x :: us ∧ (x.pull = 8 ∨ x = .operator .sub) := by
  match h with
  | .last h =>
      obtain ⟨x, us, rfl, hx⟩ := h.head
      exact ⟨x, us, rfl, hx.imp_right And.right⟩
  | .more h _ =>
      obtain ⟨x, us, rfl, hx⟩ := h.head
      exact ⟨x, _, rfl, hx.imp_right And.right⟩

/-- There is a comma between any two arguments. -/
theorem Arguments.length_le {n ts args} (h : Arguments n ts args) : args.length ≤ ts.length + 1 := by
  match h with
  | .last _ => simp
  | .more _ h => have := h.length_le; simp; omega

/-- A phrase of the operators of one strength is a single phrase of the next strength or ends in an operation. -/
theorem Phrase.tighter_or_binary {k n ts e} (h : Phrase k n ts e) (h₀ : 0 < k) (h₆ : k < 6) :
    Phrase (k + 1) n ts e ∨ ∃ op ls us left right, op.precedence = k ∧ Phrase op.leftStrength n ls left ∧
      Phrase (k + 1) n us right ∧ ts = ls ++ .operator op :: us ∧ e = .binary op left right := by
  cases h with
  | tighter _ _ h => exact .inl h
  | binary hop hl hright => exact .inr ⟨_, _, _, _, _, hop, hl, hright, rfl, rfl⟩
  | plain _ | conditional _ _ _ | sign _ | number | event | name _ | group _ | call _ _ _ _ => omega

namespace Parser

/-- A parser that reads every phrase of strength `k` with at most `n` levels, wherever it ends before what follows.
The state has room for `room` more levels. -/
def Accepts (room k n : Nat) (p : Parser) : Prop :=
  ∀ ⦃s ts rest e⦄, s.nesting + room = maxNesting → s.tokens = ts ++ rest → Phrase k n ts e → e.depth ≤ maxDepth →
    EndsBefore k rest → ∃ t, p s = .ok (e, t) ∧ t.tokens = rest ∧ t.nesting = s.nesting

structure Level.Complete (n : Nat) (l : Level) : Prop where
  expr : Accepts n 0 n l.expr
  unary : ∀ m, n = m + 1 → Accepts n 6 m l.unary

variable {k n : Nat}

/-! ## Operators -/

/-- Every phrase of a chain is the left operand of what follows it: the chain comes to a point where it goes on from
there. -/
theorem chain_reaches {operand : Parser} (ho : Accepts n (k + 1) n operand) (h₀ : 0 < k) (h₆ : k < 6) (h₃ : k ≠ 3)
    {ts rest : List Token} {e : Expr} {s : State} (h : Phrase k n ts e) (hn : s.nesting + n = maxNesting)
    (hs : s.tokens = ts ++ rest) (hd : e.depth ≤ maxDepth) (hr : EndsBefore (k + 1) rest) :
    ∃ t fuel, chain operand k s = chainRest operand k s fuel e t ∧ t.rest.length ≤ fuel ∧ t.tokens = rest ∧
      t.nesting = s.nesting := by
  obtain h | ⟨op, ls, us, left, right, hop, hl, hright, hts, rfl⟩ := h.tighter_or_binary h₀ h₆
  · obtain ⟨t, hp, ht, hnt⟩ := ho hn hs h hd hr
    refine ⟨t, t.rest.length, ?_, Nat.le_refl _, ht, hnt⟩
    unfold chain
    rw [hp]
    rfl
  · rw [op.leftStrength_of_ne (hop ▸ h₃), hop] at hl
    have hpull : (Token.operator op).pull ≤ k + 1 := by simp [Token.pull, hop]
    simp only [Expr.depth] at hd
    rw [hts, List.append_assoc, List.cons_append] at hs
    obtain ⟨t, fuel, hrun, hfuel, ht, hnt⟩ :=
      chain_reaches ho h₀ h₆ h₃ hl hn hs (by omega) (endsBefore_cons.mpr hpull)
    have hnext : t.next.tokens = us ++ rest := State.next_tokens_of_cons ht
    obtain ⟨u, hu, hrest, hnu⟩ :=
      ho (s := t.next) (by rw [State.next_nesting, hnt, hn]) hnext hright (by omega) hr
    -- The operator is a token, so there was fuel for one more round.
    have hlen : us.length + u.rest.length + 1 = t.rest.length := by
      have := congrArg List.length ht
      have := congrArg List.length hrest
      simp only [State.tokens, List.length_map, List.length_cons, List.length_append] at *
      omega
    obtain ⟨fuel, rfl⟩ : ∃ m, fuel = m + 1 := ⟨fuel - 1, by omega⟩
    have hchecked : checked s (.binary op left right) u = .ok (.binary op left right, u) :=
      checked_eq_ok.mpr ⟨by simp only [Expr.depth]; omega, rfl, rfl⟩
    refine ⟨u, fuel, ?_, by omega, hrest, by rw [hnu, State.next_nesting, hnt]⟩
    rw [hrun, chainRest, State.operator?_of_cons ht hop]
    dsimp only
    rw [hu, ok_bind, hchecked, ok_bind]
termination_by ts.length
decreasing_by
  simp only [hts, List.length_append, List.length_cons]
  omega

theorem chain_complete {operand : Parser} (ho : Accepts n (k + 1) n operand) (h₀ : 0 < k) (h₆ : k < 6)
    (h₃ : k ≠ 3) : Accepts n k n (chain operand k) := by
  intro s ts rest e hn hs hp hd hr
  obtain ⟨t, fuel, hrun, -, ht, hn'⟩ := chain_reaches ho h₀ h₆ h₃ hp hn hs hd (hr.mono (Nat.le_succ k))
  refine ⟨t, ?_, ht, hn'⟩
  rw [hrun]
  cases fuel with
  | zero => rfl
  | succ fuel => rw [chainRest, State.operator?_of_ends (ht ▸ hr)]

theorem comparison_complete {operand : Parser} (ho : Accepts n 4 n operand) : Accepts n 3 n (comparison operand) := by
  intro s ts rest e hn hs hp hd hr
  cases hp with
  | tighter _ _ hp =>
      obtain ⟨t, hrun, ht, hn'⟩ := ho hn hs hp hd (hr.mono (by decide))
      refine ⟨t, ?_, ht, hn'⟩
      have hop : t.operator? (Operator.precedence .less) = none := State.operator?_of_ends (ht ▸ hr)
      rw [comparison, hrun, ok_bind]
      dsimp only
      rw [hop]
      rfl
  | @binary _ _ op ls us left right hop hl hright =>
      rw [op.leftStrength_of_eq hop] at hl
      simp only [Expr.depth] at hd
      rw [List.append_assoc, List.cons_append] at hs
      obtain ⟨t, hrun, ht, hn'⟩ := ho hn hs hl (by omega) (endsBefore_cons.mpr (by simp [Token.pull, hop]))
      obtain ⟨u, hu, hrest, hn''⟩ := ho (s := t.next) (by rw [State.next_nesting, hn', hn])
        (State.next_tokens_of_cons ht) hright (by omega) (hr.mono (by decide))
      have hop' : t.operator? (Operator.precedence .less) = some op := State.operator?_of_cons ht hop
      have hend : u.operator? (Operator.precedence .less) = none := State.operator?_of_ends (hrest ▸ hr)
      refine ⟨u, ?_, hrest, by rw [hn'', State.next_nesting, hn']⟩
      rw [comparison, hrun, ok_bind]
      dsimp only
      rw [hop']
      dsimp only
      rw [hu, ok_bind]
      dsimp only
      rw [hend]
      exact checked_eq_ok.mpr ⟨by simp only [Expr.depth]; omega, rfl, rfl⟩

/-! ## Operands -/

/-- The arguments of a call are read up to its closing parenthesis. -/
theorem argumentList_complete {l : Level} (hl : l.Complete n) {n' : Nat} {ts rest : List Token} {args : List Expr}
    {s : State} (h : Arguments n' ts args) (hn' : n' = n) (fuel : Nat) (hfuel : args.length ≤ fuel)
    (hn : s.nesting + n = maxNesting) (hs : s.tokens = ts ++ .closeParen :: rest)
    (hd : ∀ a ∈ args, a.depth ≤ maxDepth) :
    ∃ t, argumentList l fuel s = .ok (args, t) ∧ t.tokens = rest ∧ t.nesting = s.nesting := by
  obtain ⟨fuel, rfl⟩ : ∃ m, fuel = m + 1 := ⟨fuel - 1, by cases h <;> simp only [List.length_cons] at hfuel <;> omega⟩
  match h with
  | .last h =>
      rw [hn'] at h
      obtain ⟨t, ht, hrest, hnt⟩ := hl.expr hn hs h (hd _ (by simp)) (endsBefore_cons.mpr (Nat.le_refl _))
      refine ⟨t.next, ?_, State.next_tokens_of_cons hrest, by rw [State.next_nesting, hnt]⟩
      rw [argumentList, ht, ok_bind]
      dsimp only
      rw [State.token?_of_cons hrest]
      rfl
  | .more h hs' =>
      rw [hn'] at h
      rw [List.append_assoc] at hs
      obtain ⟨t, ht, hrest, hnt⟩ := hl.expr hn hs h (hd _ (by simp)) (endsBefore_cons.mpr (Nat.le_refl _))
      obtain ⟨u, hu, hrest', hnu⟩ := argumentList_complete (s := t.next) hl hs' hn' fuel
        (by simpa using hfuel) (by rw [State.next_nesting, hnt, hn]) (State.next_tokens_of_cons hrest)
        (fun b hb => hd b (by simp [hb]))
      refine ⟨u, ?_, hrest', by rw [hnu, State.next_nesting, hnt]⟩
      rw [argumentList, ht, ok_bind]
      dsimp only
      rw [State.token?_of_cons hrest]
      dsimp only
      rw [hu, ok_bind]
      rfl

theorem depth_le_depthList {a : Expr} {args : List Expr} (h : a ∈ args) : a.depth ≤ Expr.depthList args := by
  induction args with
  | nil => cases h
  | cons b bs ih =>
      simp only [Expr.depthList]
      rcases List.mem_cons.mp h with rfl | h
      · omega
      · have := ih h; omega

theorem call_complete {l : Level} (hl : l.Complete n) {name : String} {f : Builtin} {ts rest : List Token}
    {args : List Expr} {s : State} (hf : Builtin.ofName? name = some f) (hargs : Arguments n ts args)
    (hlen : args.length = f.arity) (hev : f.takesEvent → ∀ a ∈ args, ∃ e, a = .event e)
    (hn : s.nesting + n = maxNesting) (hs : s.tokens = .word name :: .openParen :: (ts ++ .closeParen :: rest))
    (hd : (Expr.call f args).depth ≤ maxDepth) :
    ∃ t, call l name s = .ok (.call f args, t) ∧ t.tokens = rest ∧ t.nesting = s.nesting := by
  simp only [Expr.depth] at hd
  have hbody : s.next.next.tokens = ts ++ .closeParen :: rest :=
    State.next_tokens_of_cons (State.next_tokens_of_cons hs)
  obtain ⟨x, us, hx, hhead⟩ : ∃ x us, ts = x :: us ∧ x ≠ .closeParen := by
    obtain ⟨x, us, rfl, hx⟩ := hargs.head
    exact ⟨x, us, rfl, by rintro rfl; rcases hx with hx | hx <;> simp [Token.pull] at hx⟩
  have hfuel : args.length ≤ s.next.next.rest.length + 1 := by
    have := congrArg List.length hbody
    have := hargs.length_le
    simp only [State.tokens, List.length_map, List.length_append, List.length_cons] at *
    omega
  obtain ⟨t, ht, hrest, hnt⟩ := argumentList_complete (s := s.next.next) hl hargs rfl _ hfuel (by simpa using hn) hbody
    (fun a ha => by have := depth_le_depthList ha; omega)
  have hrun : arguments l s.next.next = .ok (args, t) := by
    unfold arguments
    rw [State.token?_of_cons (hx ▸ hbody)]
    split
    · rename_i h; cases h; exact absurd rfl hhead
    · exact ht
  refine ⟨t, ?_, hrest, by simpa using hnt⟩
  unfold call
  rw [hf]
  dsimp only
  rw [hrun, ok_bind]
  dsimp only
  rw [checkArguments_eq_ok.mpr ⟨hlen, hev⟩]
  exact checked_eq_ok.mpr ⟨by simpa only [Expr.depth] using hd, rfl, rfl⟩

theorem primary_complete {l : Level} (hl : l.Complete n) : Accepts n 7 n (primary l) := by
  intro s ts rest e hn hs hp hd hr
  cases hp with
  | @binary _ _ op _ _ _ _ hop => have := op.precedence_lt; omega
  | tighter _ h₇ => exact absurd h₇ (by decide)
  | number =>
      refine ⟨s.next, ?_, State.next_tokens_of_cons hs, s.next_nesting⟩
      unfold primary
      rw [State.token?_of_cons hs]
  | event =>
      refine ⟨s.next, ?_, State.next_tokens_of_cons hs, s.next_nesting⟩
      unfold primary
      rw [State.token?_of_cons hs]
  | name hname =>
      have hnext : s.next.tokens = rest := State.next_tokens_of_cons hs
      refine ⟨s.next, ?_, hnext, s.next_nesting⟩
      unfold primary
      rw [State.token?_of_cons hs]
      dsimp only
      rw [hname]
      split
      · rename_i hopen
        have hpull : Token.openParen.pull ≤ 7 := State.token?_of_ends (hnext ▸ hr) hopen
        exact absurd hpull (by decide)
      · rename_i h _; cases h
      · rfl
  | @group _ ts _ hp =>
      rw [List.cons_append, List.append_assoc] at hs
      obtain ⟨t, ht, hrest, hnt⟩ := hl.expr (s := s.next) (by rw [State.next_nesting, hn])
        (State.next_tokens_of_cons hs) hp hd (endsBefore_cons.mpr (Nat.le_refl _))
      refine ⟨t.next, ?_, State.next_tokens_of_cons hrest, by rw [State.next_nesting, hnt, State.next_nesting]⟩
      unfold primary
      rw [State.token?_of_cons hs]
      dsimp only
      rw [group, ht, ok_bind]
      dsimp only
      rw [State.token?_of_cons hrest]
      rfl
  | call hf hargs hlen hev =>
      rw [List.cons_append, List.cons_append, List.append_assoc] at hs
      obtain ⟨t, ht, hrest, hnt⟩ := call_complete hl hf hargs hlen hev hn hs hd
      refine ⟨t, ?_, hrest, hnt⟩
      unfold primary
      rw [State.token?_of_cons hs]
      dsimp only
      rw [State.token?_of_cons (State.next_tokens_of_cons hs)]
      exact ht

theorem depth_le_negated (e : Expr) : e.depth ≤ e.negated.depth := by
  cases e <;> simp only [Expr.negated, Expr.depth] <;> omega

theorem unary_complete {l : Level} (hl : l.Complete n) : Accepts n 6 n (unary l) := by
  intro s ts rest e hn hs hp hd hr
  cases hp with
  | @binary _ _ op _ _ _ _ hop => have := op.precedence_lt; omega
  | tighter _ _ hp =>
      obtain ⟨t, ht, hrest, hnt⟩ := primary_complete hl hn hs hp hd (hr.mono (by decide))
      obtain ⟨x, us, rfl, hx⟩ := hp.head
      refine ⟨t, ?_, hrest, hnt⟩
      unfold unary
      rw [State.token?_of_cons hs]
      split
      · rename_i h
        cases h
        rcases hx with hx | ⟨hx, -⟩
        · exact absurd hx (by decide)
        · exact absurd hx (by decide)
      · exact ht
  | @sign m ts e hp =>
      obtain ⟨t, ht, hrest, hnt⟩ := hl.unary m rfl (s := s.next) (by rw [State.next_nesting, hn])
        (State.next_tokens_of_cons hs) hp (Nat.le_trans (depth_le_negated e) hd) hr
      refine ⟨t, ?_, hrest, by rw [hnt, State.next_nesting]⟩
      unfold unary
      rw [State.token?_of_cons hs]
      dsimp only
      rw [ht, ok_bind]
      cases e with
      | literal x => rfl
      | _ => exact checked_eq_ok.mpr ⟨hd, rfl, rfl⟩

/-! ## Formulas -/

theorem disjunction_complete {l : Level} (hl : l.Complete n) : Accepts n 1 n (disjunction l) := by
  have hproduct : Accepts n 5 n (product l) :=
    chain_complete (unary_complete hl) (by decide) (by decide) (by decide)
  have hsum : Accepts n 4 n (sum l) := chain_complete hproduct (by decide) (by decide) (by decide)
  have hconjunction : Accepts n 2 n (conjunction l) :=
    chain_complete (comparison_complete hsum) (by decide) (by decide) (by decide)
  exact chain_complete hconjunction (by decide) (by decide) (by decide)

theorem conditional_complete {l : Level} (hl : l.Complete n) : Accepts n 0 (n + 1) (conditional l) := by
  intro s ts rest e hn hs hp hd hr
  cases hp with
  | @binary _ _ op _ _ _ _ hop => have := op.precedence_pos; omega
  | tighter h₀ => exact absurd h₀ (by decide)
  | plain hp =>
      obtain ⟨t, ht, hrest, hnt⟩ := disjunction_complete hl hn hs hp hd (hr.mono (by decide))
      refine ⟨t, ?_, hrest, hnt⟩
      unfold conditional
      rw [ht, ok_bind]
      dsimp only
      split
      · rename_i hif
        have hpull : Token.ifKeyword.pull ≤ 0 := State.token?_of_ends (hrest ▸ hr) hif
        exact absurd hpull (by decide)
      · rfl
  | @conditional _ ts us ws value test otherwise hv ht ho =>
      simp only [Expr.depth] at hd
      rw [List.append_assoc, List.cons_append, List.append_assoc, List.cons_append] at hs
      obtain ⟨t₁, hrun₁, hrest₁, hn₁⟩ := disjunction_complete hl hn hs hv (by omega) (endsBefore_cons.mpr (by decide))
      obtain ⟨t₂, hrun₂, hrest₂, hn₂⟩ := disjunction_complete hl (s := t₁.next)
        (by rw [State.next_nesting, hn₁, hn]) (State.next_tokens_of_cons hrest₁) ht (by omega)
        (endsBefore_cons.mpr (by decide))
      obtain ⟨t₃, hrun₃, hrest₃, hn₃⟩ := hl.expr (s := t₂.next)
        (by rw [State.next_nesting, hn₂, State.next_nesting, hn₁, hn]) (State.next_tokens_of_cons hrest₂) ho
        (by omega) hr
      refine ⟨t₃, ?_, hrest₃, by rw [hn₃, State.next_nesting, hn₂, State.next_nesting, hn₁]⟩
      unfold conditional
      rw [hrun₁, ok_bind]
      dsimp only
      rw [State.token?_of_cons hrest₁]
      dsimp only
      rw [hrun₂, ok_bind]
      dsimp only
      rw [State.token?_of_cons hrest₂]
      dsimp only
      rw [hrun₃, ok_bind]
      exact checked_eq_ok.mpr ⟨by simp only [Expr.depth]; omega, rfl, rfl⟩

/-- Where there is room, a level more is entered. -/
theorem nested_complete {m : Nat} {p : Parser} (hp : Accepts n k m p) : Accepts (n + 1) k m (nested p) := by
  intro s ts rest e hn hs hphrase hd hr
  obtain ⟨t, ht, hrest, hnt⟩ := hp (s := { s with nesting := s.nesting + 1 })
    (show s.nesting + 1 + n = maxNesting by omega) hs hphrase hd hr
  refine ⟨{ t with nesting := t.nesting - 1 }, ?_, hrest, by simp [hnt]⟩
  unfold nested
  rw [if_pos (by omega), ht]
  rfl

theorem level_complete (n : Nat) : (level n).Complete n := by
  induction n with
  | zero =>
      refine ⟨?_, fun m hm => by cases hm⟩
      intro s ts rest e _ _ hp
      cases hp with
      | @binary _ _ op _ _ _ _ hop => have := op.precedence_pos; omega
      | tighter h₀ => exact absurd h₀ (by decide)
  | succ n ih =>
      refine ⟨nested_complete (conditional_complete ih), fun m hm => ?_⟩
      cases hm
      exact nested_complete (unary_complete ih)

/-- Every formula of the grammar is returned for its tokens. -/
theorem formula_complete {textEnd : Nat} {ts : List LocatedToken} {e : Expr}
    (h : Phrase 0 maxNesting (ts.map LocatedToken.token) e) (hd : e.depth ≤ maxDepth) :
    formula textEnd ts = .ok e := by
  have hs : State.tokens ⟨ts, 0, textEnd, 0⟩ = ts.map LocatedToken.token ++ [] := (List.append_nil _).symm
  obtain ⟨t, ht, hrest, -⟩ := (level_complete maxNesting).expr (Nat.zero_add _) hs h hd (endsBefore_nil 0)
  unfold formula
  rw [ht, ok_bind]
  dsimp only
  rw [List.map_eq_nil_iff.mp hrest]
  rfl

end Parser

end MetricFormula
