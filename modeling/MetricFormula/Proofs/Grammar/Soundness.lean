import MetricFormula.Proofs.Grammar.State

/-! The parser returns nothing but trees of the grammar. -/

namespace MetricFormula.Parser

/-! ## Phrases read by a run -/

/-- On the way from `s` to `t` a phrase of strength `k` was read, for the tree `e`. -/
structure Reads (k n : Nat) (s : State) (e : Expr) (t : State) : Prop where
  nesting : t.nesting = s.nesting
  textEnd : t.textEnd = s.textEnd
  depth : e.depth ≤ maxDepth
  phrase : ∃ ts, s.rest = ts ++ t.rest ∧ Phrase k n (ts.map LocatedToken.token) e

/-- A parser that returns nothing but phrases of strength `k`. -/
def Sound (k n : Nat) (p : Parser) : Prop := ∀ ⦃s e t⦄, p s = .ok (e, t) → Reads k n s e t

/-- The parsers of a level with room for `n` more levels; the operand of a sign is in the level that the sign opens. -/
structure Level.Sound (n : Nat) (l : Level) : Prop where
  expr : Parser.Sound 0 n l.expr
  unary : ∀ ⦃s e t⦄, l.unary s = .ok (e, t) → ∃ m, n = m + 1 ∧ Reads 6 m s e t

variable {k n : Nat} {s t u : State} {e left right : Expr}

theorem Reads.tighter (h : Reads (k + 1) n s e t) (h₀ : 0 < k) (h₇ : k < 7) : Reads k n s e t := by
  obtain ⟨ts, hs, hp⟩ := h.phrase
  exact ⟨h.nesting, h.textEnd, h.depth, ts, hs, .tighter h₀ h₇ hp⟩

/-- A single token is an operand. -/
theorem Reads.token {x : Token} (hx : s.token? = some x) (hd : e.depth ≤ maxDepth) (h : Phrase 7 n [x] e) :
    Reads 7 n s e s.next := by
  obtain ⟨l, hl, rfl⟩ := State.token?_eq_some hx
  exact ⟨s.next_nesting, s.next_textEnd, hd, [l], hl, h⟩

theorem Reads.binary {op : Operator} (hl : Reads op.leftStrength n s left t) (ht : t.token? = some (.operator op))
    (hk : op.precedence = k) (hr : Reads (k + 1) n t.next right u) (hd : (Expr.binary op left right).depth ≤ maxDepth) :
    Reads k n s (.binary op left right) u := by
  obtain ⟨ts, hts, hl'⟩ := hl.phrase
  obtain ⟨x, hx, hop⟩ := State.token?_eq_some ht
  obtain ⟨us, hus, hr'⟩ := hr.phrase
  refine ⟨?_, ?_, hd, ts ++ x :: us, ?_, ?_⟩
  · rw [hr.nesting, State.next_nesting, hl.nesting]
  · rw [hr.textEnd, State.next_textEnd, hl.textEnd]
  · rw [hts, hx, hus]; simp
  · rw [List.map_append, List.map_cons, hop]
    exact .binary hk hl' hr'

/-! ## Operators -/

theorem chainRest_sound {operand : Parser} (ho : Sound (k + 1) n operand) (hk : k ≠ 3) (fuel : Nat)
    (hl : Reads k n s left t) (h : chainRest operand k s fuel left t = .ok (e, u)) : Reads k n s e u := by
  induction fuel generalizing left t with
  | zero => cases h; exact hl
  | succ fuel ih =>
      unfold chainRest at h
      split at h
      · cases h; exact hl
      · rename_i op hop
        obtain ⟨⟨right, v⟩, hr, h⟩ := bind_eq_ok.mp h
        obtain ⟨⟨e', w⟩, hc, h⟩ := bind_eq_ok.mp h
        obtain ⟨hd, rfl, rfl⟩ := checked_eq_ok.mp hc
        obtain ⟨ht, hp⟩ := State.operator?_eq_some hop
        have hs : op.leftStrength = k := by rw [op.leftStrength_of_ne (hp ▸ hk), hp]
        exact ih (Reads.binary (hs.symm ▸ hl) ht hp (ho hr) hd) h

theorem chain_sound {operand : Parser} (ho : Sound (k + 1) n operand) (h₀ : 0 < k) (h₇ : k < 7) (hk : k ≠ 3) :
    Sound k n (chain operand k) := by
  intro s e u h
  obtain ⟨⟨left, t⟩, hl, h⟩ := bind_eq_ok.mp h
  exact chainRest_sound ho hk _ ((ho hl).tighter h₀ h₇) h

theorem comparison_sound {operand : Parser} (ho : Sound 4 n operand) : Sound 3 n (comparison operand) := by
  intro s e u h
  obtain ⟨⟨left, t⟩, hl, h⟩ := bind_eq_ok.mp h
  dsimp only at h
  split at h
  · cases h; exact (ho hl).tighter (by decide) (by decide)
  · rename_i op hop
    obtain ⟨⟨right, v⟩, hr, h⟩ := bind_eq_ok.mp h
    dsimp only at h
    split at h
    · cases h
    · obtain ⟨hd, rfl, rfl⟩ := checked_eq_ok.mp h
      obtain ⟨ht, hp⟩ := State.operator?_eq_some hop
      exact Reads.binary ((op.leftStrength_of_eq hp).symm ▸ ho hl) ht hp (ho hr) hd

/-! ## Operands -/

theorem argumentList_sound {l : Level} (hl : l.Sound n) (fuel : Nat) {args : List Expr}
    (h : argumentList l fuel s = .ok (args, t)) :
    t.nesting = s.nesting ∧ t.textEnd = s.textEnd ∧ (∀ a ∈ args, a.depth ≤ maxDepth) ∧
      ∃ ts x, s.rest = ts ++ x :: t.rest ∧ x.token = .closeParen ∧
        Arguments n (ts.map LocatedToken.token) args := by
  induction fuel generalizing s args with
  | zero => cases h
  | succ fuel ih =>
      obtain ⟨⟨a, u⟩, ha, h⟩ := bind_eq_ok.mp h
      obtain ⟨ts, hts, hp⟩ := (hl.expr ha).phrase
      dsimp only at h
      split at h
      · rename_i hu
        obtain ⟨⟨as, v⟩, has, h⟩ := bind_eq_ok.mp h
        cases h
        obtain ⟨x, hx, hcomma⟩ := State.token?_eq_some hu
        obtain ⟨hn, hend, hd, us, y, hus, hy, hargs⟩ := ih has
        refine ⟨by rw [hn, State.next_nesting, (hl.expr ha).nesting],
          by rw [hend, State.next_textEnd, (hl.expr ha).textEnd], ?_, ts ++ x :: us, y, ?_, hy, ?_⟩
        · intro b hb
          rcases List.mem_cons.mp hb with rfl | hb
          · exact (hl.expr ha).depth
          · exact hd b hb
        · rw [hts, hx, hus]; simp
        · rw [List.map_append, List.map_cons, hcomma]
          exact .more hp hargs
      · rename_i hu
        cases h
        obtain ⟨x, hx, hclose⟩ := State.token?_eq_some hu
        refine ⟨by rw [State.next_nesting, (hl.expr ha).nesting], by rw [State.next_textEnd, (hl.expr ha).textEnd], ?_,
          ts, x, by rw [hts, hx], hclose, .last hp⟩
        intro b hb
        rw [List.mem_singleton.mp hb]
        exact (hl.expr ha).depth
      · cases h

theorem group_sound {l : Level} (hl : l.Sound n) {x : LocatedToken} (hs : s.rest = x :: s.next.rest)
    (hx : x.token = .openParen) (h : group l s.next = .ok (e, t)) : Reads 7 n s e t := by
  obtain ⟨⟨e', u⟩, he, h⟩ := bind_eq_ok.mp h
  dsimp only at h
  split at h
  · rename_i hu
    cases h
    obtain ⟨y, hy, hclose⟩ := State.token?_eq_some hu
    obtain ⟨ts, hts, hp⟩ := (hl.expr he).phrase
    refine ⟨by simp [(hl.expr he).nesting], by simp [(hl.expr he).textEnd], (hl.expr he).depth, x :: (ts ++ [y]), ?_, ?_⟩
    · rw [hs, hts, hy]; simp
    · rw [List.map_cons, List.map_append, hx, List.map_cons, hclose]
      exact .group hp
  · cases h

theorem call_sound {l : Level} (hl : l.Sound n) {name : String} (hs : s.token? = some (.word name))
    (hs' : s.next.token? = some .openParen) (h : call l name s = .ok (e, t)) : Reads 7 n s e t := by
  obtain ⟨x, hx, hname⟩ := State.token?_eq_some hs
  obtain ⟨y, hy, hopen⟩ := State.token?_eq_some hs'
  unfold call at h
  split at h
  · cases h
  · rename_i f hf
    obtain ⟨⟨args, u⟩, hargs, h⟩ := bind_eq_ok.mp h
    dsimp only at h
    split at h
    · cases h
    · rename_i hc
      obtain ⟨hd, rfl, rfl⟩ := checked_eq_ok.mp h
      obtain ⟨hlen, hev⟩ := checkArguments_eq_ok.mp hc
      unfold arguments at hargs
      split at hargs
      · cases hargs
        exact absurd hlen (Nat.ne_of_lt (Builtin.arity_pos f))
      · obtain ⟨hn, hend, -, ts, z, hts, hz, hp⟩ := argumentList_sound hl _ hargs
        refine ⟨by simp [hn], by simp [hend], hd, x :: y :: (ts ++ [z]), ?_, ?_⟩
        · rw [hx, hy, hts]; simp
        · rw [List.map_cons, List.map_cons, List.map_append, hname, hopen, List.map_cons, hz]
          exact .call hf hp hlen hev

theorem primary_sound {l : Level} (hl : l.Sound n) : Sound 7 n (primary l) := by
  intro s e t h
  unfold primary at h
  split at h
  · rename_i hs; cases h; exact Reads.token hs (by simp [Expr.depth, maxDepth]) .number
  · rename_i hs; cases h; exact Reads.token hs (by simp [Expr.depth, maxDepth]) .event
  · rename_i hs
    obtain ⟨x, hx, hopen⟩ := State.token?_eq_some hs
    exact group_sound hl hx hopen h
  · rename_i hs
    split at h
    · exact call_sound hl hs ‹_› h
    · cases h
    · cases h; exact Reads.token hs (by simp [Expr.ref, Expr.depth, maxDepth]) (.name ‹_›)
  · cases h

theorem unary_sound {l : Level} (hl : l.Sound n) : Sound 6 n (unary l) := by
  intro s e t h
  unfold unary at h
  split at h
  · rename_i hs
    obtain ⟨⟨e', u⟩, he, h⟩ := bind_eq_ok.mp h
    obtain ⟨m, rfl, hr⟩ := hl.unary he
    obtain ⟨x, hx, hsub⟩ := State.token?_eq_some hs
    obtain ⟨ts, hts, hp⟩ := hr.phrase
    have hrest : ∀ v : State, v.rest = u.rest → s.rest = (x :: ts) ++ v.rest := by
      intro v hv; rw [hx, hts, hv]; rfl
    have hphrase : Phrase 6 (m + 1) ((x :: ts).map LocatedToken.token) e'.negated := by
      rw [List.map_cons, hsub]; exact .sign hp
    have hnest : u.nesting = s.nesting := by rw [hr.nesting, State.next_nesting]
    have hend : u.textEnd = s.textEnd := by rw [hr.textEnd, State.next_textEnd]
    dsimp only at h
    split at h
    · cases h
      exact ⟨hnest, hend, hr.depth, x :: ts, hrest _ rfl, hphrase⟩
    · rename_i hlit
      obtain ⟨hd, rfl, rfl⟩ := checked_eq_ok.mp h
      have hneg : e'.negated = .binary .sub (.literal 0) e' := by
        unfold Expr.negated
        split
        · exact absurd rfl (hlit _)
        · rfl
      exact ⟨hnest, hend, hd, x :: ts, hrest _ rfl, hneg ▸ hphrase⟩
  · exact (primary_sound hl h).tighter (by decide) (by decide)

/-! ## Formulas -/

theorem disjunction_sound {l : Level} (hl : l.Sound n) : Sound 1 n (disjunction l) := by
  have hproduct : Sound 5 n (product l) :=
    chain_sound (unary_sound hl) (by decide) (by decide) (by decide)
  have hsum : Sound 4 n (sum l) := chain_sound hproduct (by decide) (by decide) (by decide)
  have hconjunction : Sound 2 n (conjunction l) :=
    chain_sound (comparison_sound hsum) (by decide) (by decide) (by decide)
  exact chain_sound hconjunction (by decide) (by decide) (by decide)

theorem conditional_sound {l : Level} (hl : l.Sound n) : Sound 0 (n + 1) (conditional l) := by
  intro s e u h
  obtain ⟨⟨value, t⟩, hv, h⟩ := bind_eq_ok.mp h
  have hv := disjunction_sound hl hv
  obtain ⟨ts, hts, hpv⟩ := hv.phrase
  dsimp only at h
  split at h
  · rename_i hif
    obtain ⟨⟨test, t'⟩, ht, h⟩ := bind_eq_ok.mp h
    have ht := disjunction_sound hl ht
    obtain ⟨x, hx, hif⟩ := State.token?_eq_some hif
    obtain ⟨us, hus, hpt⟩ := ht.phrase
    dsimp only at h
    split at h
    · rename_i helse
      obtain ⟨⟨otherwise, v⟩, ho, h⟩ := bind_eq_ok.mp h
      have ho := hl.expr ho
      obtain ⟨y, hy, helse⟩ := State.token?_eq_some helse
      obtain ⟨ws, hws, hpo⟩ := ho.phrase
      obtain ⟨hd, rfl, rfl⟩ := checked_eq_ok.mp h
      refine ⟨by simp [ho.nesting, ht.nesting, hv.nesting], by simp [ho.textEnd, ht.textEnd, hv.textEnd], hd, ts ++ x :: (us ++ y :: ws), ?_, ?_⟩
      · rw [hts, hx, hus, hy, hws]; simp
      · rw [List.map_append, List.map_cons, List.map_append, List.map_cons, hif, helse]
        exact .conditional hpv hpt hpo
    · cases h
  · cases h
    exact ⟨hv.nesting, hv.textEnd, hv.depth, ts, hts, .plain hpv⟩

/-- A level that is entered is left again, and nothing else is changed. -/
theorem nested_sound {p : Parser} (hp : Sound k n p) : Sound k n (nested p) := by
  intro s e t h
  unfold nested at h
  split at h
  · obtain ⟨⟨e', u⟩, he, h⟩ := bind_eq_ok.mp h
    cases h
    obtain ⟨hn, hend, hd, hp⟩ := hp he
    exact ⟨by simp [hn], hend, hd, hp⟩
  · cases h

theorem level_sound (n : Nat) : (level n).Sound n := by
  induction n with
  | zero => exact ⟨nofun, nofun⟩
  | succ n ih =>
      exact ⟨nested_sound (conditional_sound ih), fun _ _ _ h => ⟨n, rfl, nested_sound (unary_sound ih) h⟩⟩

/-- What is returned for a whole list of tokens is a formula of the grammar. -/
theorem formula_sound {textEnd : Nat} {ts : List LocatedToken} (h : formula textEnd ts = .ok e) :
    Phrase 0 maxNesting (ts.map LocatedToken.token) e ∧ e.depth ≤ maxDepth := by
  obtain ⟨⟨e', t⟩, he, h⟩ := bind_eq_ok.mp h
  obtain ⟨-, -, hd, us, hus, hp⟩ := (level_sound maxNesting).expr he
  dsimp only at h hus
  split at h
  · rename_i ht
    cases h
    rw [hus, ht, List.append_nil]
    exact ⟨hp, hd⟩
  · cases h

end MetricFormula.Parser
