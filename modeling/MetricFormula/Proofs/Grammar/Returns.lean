import MetricFormula.Proofs.Grammar.Procedures

/-!
# What the procedures of the parser return

A procedure returns with as many levels open as there were when it was entered, a tree only after it took a token, and
what the parser of the same name returns. Here each procedure does so if those that it enters do, and it enters them with
fewer tokens left, or with as many where they come after it in the grammar.
-/

namespace MetricFormula.Parser

/-! ## States -/

/-- `t` comes after `s`, with the same levels open. -/
structure State.Precedes (s t : State) : Prop where
  nesting : t.nesting = s.nesting
  suffix : t.rest <:+ s.rest

/-- The parsers with room for the levels that can still be opened. -/
def State.level (s : State) : Level := Parser.level (maxNesting - s.nesting)

/-- A state that the parser of the tokens `ts` may be in. -/
structure State.Legal (ts : List LocatedToken) (s : State) : Prop where
  nesting : s.nesting ≤ maxNesting
  suffix : s.rest <:+ ts

variable {ts : List LocatedToken} {s t u : State}

namespace State

theorem Precedes.refl (s : State) : s.Precedes s := ⟨rfl, List.suffix_rfl⟩

theorem Precedes.trans (h : s.Precedes t) (h' : t.Precedes u) : s.Precedes u :=
  ⟨h'.nesting.trans h.nesting, h'.suffix.trans h.suffix⟩

theorem Precedes.length_le (h : s.Precedes t) : t.rest.length ≤ s.rest.length := h.suffix.length_le

theorem Precedes.level_eq (h : s.Precedes t) : t.level = s.level := by rw [level, level, h.nesting]

theorem Precedes.legal (h : s.Precedes t) (hs : s.Legal ts) : t.Legal ts :=
  ⟨h.nesting.symm ▸ hs.nesting, h.suffix.trans hs.suffix⟩

theorem precedes_next (s : State) : s.Precedes s.next := by
  refine ⟨s.next_nesting, ?_⟩
  rcases s with ⟨_ | ⟨l, ls⟩, _, _, _⟩
  · exact List.suffix_rfl
  · exact List.suffix_cons l ls

theorem length_next {x : Token} (h : s.token? = some x) : s.next.rest.length + 1 = s.rest.length := by
  obtain ⟨l, hl, -⟩ := token?_eq_some h
  rw [hl, List.length_cons]

theorem length_next_of_operator? {k : Nat} {op : Operator} (h : s.operator? k = some op) :
    s.next.rest.length + 1 = s.rest.length := length_next (operator?_eq_some h).1

end State

/-! ## What procedures return -/

/-- The tree, if there is one, with the state. -/
def outcome (r : Except Fault Expr) (t : State) : Except Fault (Expr × State) := r.map fun e => (e, t)

namespace Chain

variable (l : Level)

def operandParser : Chain → Parser
  | or => conjunction l
  | and => comparison (Parser.sum l)
  | add => product l
  | mul => Parser.unary l

def parser (c : Chain) : Parser := Parser.chain (c.operandParser l) c.precedence

end Chain

/-- The end of a call, after the closing parenthesis. -/
def endCall (f : Builtin) (start : State) (args : List Expr) (s : State) : Except Fault (Expr × State) :=
  match checkArguments f args with
  | .error cause => .error ⟨cause, start.spanTo s⟩
  | .ok () => checked start (.call f args) s

namespace Procedure

/-- What the parser of the same name returns. The two loops do not depend on the bound of their turns. -/
def Parses (l : Level) : Procedure → State → Except Fault (Expr × State) → Prop
  | expr, s, x => l.expr s = x
  | conditional, s, x => Parser.conditional l s = x
  | chain c, s, x => c.parser l s = x
  | chainRest c start left, s, x =>
    ∀ fuel, s.rest.length ≤ fuel → Parser.chainRest (c.operandParser l) c.precedence start fuel left s = x
  | comparison, s, x => Parser.comparison (sum l) s = x
  | unary, s, x => Parser.unary l s = x
  | primary, s, x => Parser.primary l s = x
  | call name start, s, x => s = start.next → Parser.call l name start = x
  | arguments f start args, s, x =>
    ∀ fuel, s.rest.length ≤ fuel →
      (argumentList l (fuel + 1) s >>= fun (es, t) => endCall f start (args ++ es) t) = x

/-- How many tokens a procedure takes at least for a tree. A chain may be at its end already. -/
def least : Procedure → Nat
  | chainRest .. => 0
  | _ => 1

/-- A procedure that is entered at `s` returns as it should: with the levels open that were open, a tree after as many
tokens as it takes at least, and what the parser of the same name returns. -/
structure Returns (p : Procedure) (s : State) (r : Except Fault Expr) (t : State) : Prop where
  precedes : s.Precedes t
  least : ∀ e, r = .ok e → t.rest.length + p.least ≤ s.rest.length
  parses : p.Parses s.level s (outcome r t)

/-- The place in the grammar, the tightest first. -/
def rank : Procedure → Nat
  | chainRest .. | primary => 0
  | unary => 1
  | chain .mul => 2
  | chain .add => 3
  | comparison => 4
  | chain .and => 5
  | chain .or => 6
  | conditional => 7
  | expr => 8
  | arguments .. => 9
  | call .. => 10

/-- Goes down whenever a procedure enters another. -/
def size (p : Procedure) (s : State) : Nat := 11 * s.rest.length + p.rank

end Procedure

/-- What holds of what is returned. -/
abbrev Post := Except Fault Expr → State → Prop

/-- Code for the tokens `ts` that returns as `post` says if the procedures that it enters return as they should. -/
def Code.Ensures (ts : List LocatedToken) (size : Nat) (post : Post) : Code → Prop
  | .done r t => t.Legal ts ∧ post r t
  | .enter q u resume => u.Legal ts ∧ q.size u < size ∧ ∀ r t, q.Returns u r t → (resume r t).Ensures ts size post

namespace Procedure

variable {p q : Procedure} {r : Except Fault Expr} {e : Expr} {f : Fault}

theorem rank_le (p : Procedure) : p.rank ≤ 10 := by
  cases p with
  | chain c => cases c <;> decide
  | _ => exact Nat.le_of_ble_eq_true rfl

theorem least_le (p : Procedure) : p.least ≤ 1 := by
  cases p with
  | chainRest => exact Nat.zero_le 1
  | _ => exact Nat.le_refl 1

theorem Returns.length_lt (h : q.Returns u r t) (hq : q.least = 1) (e : Expr) (he : r = .ok e) :
    t.rest.length < u.rest.length := by
  have hleast := h.least e he
  rwa [hq] at hleast

theorem size_lt_of_length_lt (h : u.rest.length < s.rest.length) : q.size u < p.size s := by
  have hrank := q.rank_le
  simp only [size]
  omega

theorem size_lt_of_rank_lt (h : s.Precedes u) (hrank : q.rank < p.rank) : q.size u < p.size s := by
  have hle := h.length_le
  simp only [size]
  omega

/-! ## Steps of a procedure -/

/-- Code of a procedure that is entered at `s`. -/
def Ensures (ts : List LocatedToken) (p : Procedure) (s : State) (c : Code) : Prop :=
  c.Ensures ts (p.size s) (p.Returns s)

theorem ensures_fault (hs : s.Legal ts) (ht : s.Precedes t) (hparses : p.Parses s.level s (.error f)) :
    p.Ensures ts s (.done (.error f) t) := ⟨ht.legal hs, ht, nofun, hparses⟩

theorem ensures_tree (hs : s.Legal ts) (ht : s.Precedes t) (hlt : t.rest.length < s.rest.length)
    (hparses : p.Parses s.level s (.ok (e, t))) : p.Ensures ts s (.done (.ok e) t) :=
  ⟨ht.legal hs, ht, fun _ _ => Nat.le_trans (Nat.add_le_add_left p.least_le _) hlt, hparses⟩

/-- What another procedure returns is returned. -/
theorem ensures_enter_done (hs : s.Legal ts) (hu : s.Precedes u) (hsize : q.size u < p.size s)
    (hleast : u.rest.length + p.least ≤ s.rest.length + q.least)
    (hparses : ∀ x, q.Parses s.level u x → p.Parses s.level s x) : p.Ensures ts s (.enter q u .done) := by
  refine ⟨hu.legal hs, hsize, fun r t h => ⟨(hu.trans h.precedes).legal hs, hu.trans h.precedes, fun e he => ?_, ?_⟩⟩
  · have hle := h.least e he
    omega
  · exact hparses _ (hu.level_eq ▸ h.parses)

/-- A procedure goes on after a tree that another one returned. -/
theorem ensures_enter_andThen {next : Expr → State → Code} (hs : s.Legal ts) (hu : s.Precedes u)
    (hsize : q.size u < p.size s) (hq : q.least = 1)
    (hfault : ∀ f, q.Parses s.level u (.error f) → p.Parses s.level s (.error f))
    (hnext : ∀ e t, s.Precedes t → t.rest.length < u.rest.length → q.Parses s.level u (.ok (e, t)) →
      p.Ensures ts s (next e t)) : p.Ensures ts s (.enter q u (.andThen next)) := by
  refine ⟨hu.legal hs, hsize, fun r t h => ?_⟩
  have hparses : q.Parses s.level u (outcome r t) := hu.level_eq ▸ h.parses
  cases r with
  | error f => exact ensures_fault hs (hu.trans h.precedes) (hfault f hparses)
  | ok e => exact hnext e t (hu.trans h.precedes) (h.length_lt hq e rfl) hparses

theorem ensures_checked {start : State} {next : Code} (hs : s.Legal ts) (ht : s.Precedes t)
    (hfault : ∀ f, Parser.checked start e t = .error f → p.Parses s.level s (.error f))
    (hnext : Parser.checked start e t = .ok (e, t) → p.Ensures ts s next) :
    p.Ensures ts s (.checked start e t next) := by
  rw [Code.checked]
  split
  · exact hnext (if_pos ‹_›)
  · exact ensures_fault hs ht (hfault _ (if_neg ‹_›))

/-- One level deeper, a procedure is as in the level that it opens. -/
theorem ensures_nested (opener inner : Level → Parser) {resume : Code.Resume} (hs : s.Legal ts)
    (hu : s.Precedes u) (hsize : q.size u < p.size s) (hzero : opener (Parser.level 0) = nestingTooDeep)
    (hsucc : ∀ n, opener (Parser.level (n + 1)) = Parser.nested (inner (Parser.level n)))
    (hinner : ∀ l v x, q.Parses l v x → inner l v = x)
    (hq : q.least = 1)
    (hresume : ∀ r t, s.Precedes t → (∀ e, r = .ok e → t.rest.length < u.rest.length) →
      opener s.level u = outcome r t → p.Ensures ts s (resume r t)) :
    p.Ensures ts s (.nested q u resume) := by
  rw [Code.nested]
  split
  -- With room, what the inner procedure returns has one level more, and that is taken back for a fault as well.
  · rename_i hlt
    refine ⟨⟨hlt, hu.suffix.trans hs.suffix⟩, hsize, fun r t h => ?_⟩
    have hnesting : t.nesting = u.nesting + 1 := h.precedes.nesting
    have hlevel : s.level = Parser.level (maxNesting - (u.nesting + 1) + 1) := by
      rw [← hu.level_eq, State.level]
      congr 1
      omega
    refine hresume r _ ⟨?_, h.precedes.suffix.trans hu.suffix⟩ (h.length_lt hq) ?_
    · rw [← hu.nesting]
      exact Nat.sub_eq_of_eq_add hnesting
    · have hparses : inner (Parser.level (maxNesting - (u.nesting + 1))) { u with nesting := u.nesting + 1 } =
        outcome r t := hinner _ _ _ h.parses
      rw [hlevel, hsucc, Parser.nested, if_pos hlt, hparses]
      cases r <;> rfl
  -- Without room nothing is entered, and the parsers of the last level refuse it too.
  · rename_i hlt
    refine hresume _ u hu nofun ?_
    have hlevel : s.level = Parser.level 0 := by
      rw [← hu.level_eq, State.level]
      congr 1
      omega
    rw [hlevel, hzero]
    rfl

/-! ## Conditionals -/

theorem ensures_expr (hs : s.Legal ts) : expr.Ensures ts s (expr.code s) := by
  refine ensures_nested Level.expr Parser.conditional hs (.refl s) (size_lt_of_rank_lt (.refl s) (by decide)) rfl
    (fun _ => rfl) (fun _ _ _ h => h) rfl fun r t ht hlt hparses => ?_
  exact ⟨ht.legal hs, ht, hlt, hparses⟩

theorem ensures_conditional (hs : s.Legal ts) : conditional.Ensures ts s (conditional.code s) := by
  refine ensures_enter_andThen hs (.refl s) (size_lt_of_rank_lt (.refl s) (by decide)) rfl
    (fun f hf => bind_eq_error.mpr (.inl hf)) fun value t ht hvalue hparses => ?_
  replace hparses : disjunction s.level s = .ok (value, t) := hparses
  split
  · rename_i hif
    have hnext := State.length_next hif
    have hu := ht.trans t.precedes_next
    refine ensures_enter_andThen hs hu (size_lt_of_length_lt (by omega)) rfl (fun f hf => ?_)
      fun test v hv htest hparses' => ?_
    · replace hf : disjunction s.level t.next = .error f := hf
      simp only [Parses, Parser.conditional, hparses, ok_bind, hif, hf]
      rfl
    · replace hparses' : disjunction s.level t.next = .ok (test, v) := hparses'
      split
      · rename_i helse
        have hnext' := State.length_next helse
        refine ensures_enter_andThen hs (hv.trans v.precedes_next) (size_lt_of_length_lt (by omega)) rfl
          (fun f hf => ?_) fun otherwise w hw hotherwise hparses'' => ?_
        · replace hf : s.level.expr v.next = .error f := hf
          simp only [Parses, Parser.conditional, hparses, ok_bind, hif, hparses', helse, hf]
          rfl
        · replace hparses'' : s.level.expr v.next = .ok (otherwise, w) := hparses''
          refine ensures_checked hs hw (fun f hf => ?_) fun hok => ensures_tree hs hw (by omega) ?_
          · simp only [Parses, Parser.conditional, hparses, ok_bind, hif, hparses', helse, hparses'', hf]
          · simp only [Parses, Parser.conditional, hparses, ok_bind, hif, hparses', helse, hparses'', hok]
      · rename_i helse
        refine ensures_fault hs hv ?_
        simp only [Parses, Parser.conditional, hparses, ok_bind, hif, hparses']
  · refine ensures_tree hs ht hvalue ?_
    simp only [Parses, Parser.conditional, hparses, ok_bind]
    rfl

/-! ## Operators -/

theorem size_operand_lt (c : Chain) (s : State) : c.operand.size s < (chain c).size s :=
  size_lt_of_rank_lt (.refl s) (by cases c <;> decide)

theorem least_operand (c : Chain) : c.operand.least = 1 := by cases c <;> rfl

theorem parses_operand {c : Chain} {l : Level} {x : Except Fault (Expr × State)} :
    c.operand.Parses l s x ↔ c.operandParser l s = x := by cases c <;> rfl

theorem ensures_chain (c : Chain) (hs : s.Legal ts) : (chain c).Ensures ts s ((chain c).code s) := by
  refine ensures_enter_andThen hs (.refl s) (size_operand_lt c s) (least_operand c)
    (fun f hf => bind_eq_error.mpr (.inl (parses_operand.mp hf))) fun left t ht hleft hparses => ?_
  rw [parses_operand] at hparses
  refine ensures_enter_done hs ht (size_lt_of_length_lt (by omega)) hleft fun x hx => ?_
  simp only [Parses, Chain.parser, Parser.chain, hparses, ok_bind]
  exact hx _ (Nat.le_refl _)

section ChainRest

variable {operand : Parser} {start : State} {left : Expr} {k fuel : Nat}

theorem chainRest_of_none (h : s.operator? k = none) :
    Parser.chainRest operand k start fuel left s = .ok (left, s) := by
  cases fuel with
  | zero => rfl
  | succ fuel => simp only [Parser.chainRest, h]

/-- The bound is not reached while there is a token. -/
theorem chainRest_of_operator {op : Operator} (h : s.operator? k = some op) (hfuel : s.rest.length ≤ fuel) :
    Parser.chainRest operand k start fuel left s = (operand s.next >>= fun (right, t) =>
      Parser.checked start (.binary op left right) t >>= fun (e, t) =>
        Parser.chainRest operand k start (fuel - 1) e t) := by
  have hnext := State.length_next_of_operator? h
  cases fuel with
  | zero => omega
  | succ fuel =>
      simp only [Parser.chainRest, h]
      rfl

end ChainRest

theorem ensures_chainRest (c : Chain) (start : State) (left : Expr) (hs : s.Legal ts) :
    (chainRest c start left).Ensures ts s ((chainRest c start left).code s) := by
  rw [code]
  split
  · rename_i hop
    exact ⟨hs, .refl s, fun _ _ => Nat.le_refl _, fun fuel _ => chainRest_of_none hop⟩
  -- The operator is a token, so the next turn has fewer of them left although it may take none.
  · rename_i op hop
    have hnext := State.length_next_of_operator? hop
    refine ensures_enter_andThen hs s.precedes_next (size_lt_of_length_lt (by omega)) (least_operand c)
      (fun f hf fuel hfuel => ?_) fun right t ht hright hparses => ?_
    · rw [chainRest_of_operator hop hfuel, parses_operand.mp hf]
      rfl
    · rw [parses_operand] at hparses
      refine ensures_checked hs ht (fun f hf fuel hfuel => ?_) fun hok =>
        ensures_enter_done hs ht (size_lt_of_length_lt (by omega)) ht.length_le fun x hx fuel hfuel => ?_
      · simp only [chainRest_of_operator hop hfuel, hparses, ok_bind, hf]
        rfl
      · simp only [chainRest_of_operator hop hfuel, hparses, ok_bind, hok]
        exact hx _ (by omega)

theorem ensures_comparison (hs : s.Legal ts) : comparison.Ensures ts s (comparison.code s) := by
  refine ensures_enter_andThen hs (.refl s) (size_lt_of_rank_lt (.refl s) (by decide)) rfl
    (fun f hf => bind_eq_error.mpr (.inl hf)) fun left t ht hleft hparses => ?_
  replace hparses : sum s.level s = .ok (left, t) := hparses
  split
  · rename_i hop
    refine ensures_tree hs ht hleft ?_
    simp only [Parses, Parser.comparison, hparses, ok_bind, hop]
    rfl
  · rename_i op hop
    have hnext := State.length_next_of_operator? hop
    refine ensures_enter_andThen hs (ht.trans t.precedes_next) (size_lt_of_length_lt (by omega)) rfl
      (fun f hf => ?_) fun right v hv hright hparses' => ?_
    · replace hf : sum s.level t.next = .error f := hf
      simp only [Parses, Parser.comparison, hparses, ok_bind, hop, hf]
      rfl
    · replace hparses' : sum s.level t.next = .ok (right, v) := hparses'
      split
      · rename_i hop'
        refine ensures_fault hs hv ?_
        simp only [Parses, Parser.comparison, hparses, ok_bind, hop, hparses', hop']
      · rename_i hop'
        refine ensures_checked hs hv (fun f hf => ?_) fun hok => ensures_tree hs hv (by omega) ?_
        · simp only [Parses, Parser.comparison, hparses, ok_bind, hop, hparses', hop', hf]
        · simp only [Parses, Parser.comparison, hparses, ok_bind, hop, hparses', hop', hok]

/-! ## Operands -/

theorem ensures_unary (hs : s.Legal ts) : unary.Ensures ts s (unary.code s) := by
  rw [code]
  split
  · rename_i hsign
    have hnext := State.length_next hsign
    refine ensures_nested Level.unary Parser.unary hs s.precedes_next (size_lt_of_length_lt (by omega)) rfl
      (fun _ => rfl) (fun _ _ _ h => h) rfl fun r t ht hlt hparses => ?_
    cases r with
    | error f =>
        refine ensures_fault hs ht ?_
        simp only [Parses, Parser.unary, hsign, hparses]
        rfl
    | ok e =>
        replace hparses : s.level.unary s.next = .ok (e, t) := hparses
        have htaken := hlt e rfl
        rw [Code.andThen]
        split
        · refine ensures_tree hs ht (by omega) ?_
          simp only [Parses, Parser.unary, hsign, hparses, ok_bind]
          rfl
        · refine ensures_checked hs ht (fun f hf => ?_) fun hok => ensures_tree hs ht (by omega) ?_
          · simp only [Parses, Parser.unary, hsign, hparses, ok_bind, hf]
          · simp only [Parses, Parser.unary, hsign, hparses, ok_bind, hok]
  · refine ensures_enter_done hs (.refl s) (size_lt_of_rank_lt (.refl s) (by decide)) (Nat.le_refl _) fun x hx => ?_
    simp only [Parses, Parser.unary]
    exact hx

theorem ensures_primary (hs : s.Legal ts) : primary.Ensures ts s (primary.code s) := by
  rw [code]
  split
  · rename_i hnumber
    refine ensures_tree hs s.precedes_next (Nat.le_of_eq (State.length_next hnumber)) ?_
    simp only [Parses, Parser.primary, hnumber]
  · rename_i hevent
    refine ensures_tree hs s.precedes_next (Nat.le_of_eq (State.length_next hevent)) ?_
    simp only [Parses, Parser.primary, hevent]
  · rename_i hopen
    have hnext := State.length_next hopen
    refine ensures_enter_andThen hs s.precedes_next (size_lt_of_length_lt (by omega)) rfl (fun f hf => ?_)
      fun e t ht he hparses => ?_
    · replace hf : s.level.expr s.next = .error f := hf
      simp only [Parses, Parser.primary, hopen, group, hf]
      rfl
    · replace hparses : s.level.expr s.next = .ok (e, t) := hparses
      split
      · rename_i hclose
        have hnext' := State.length_next hclose
        refine ensures_tree hs (ht.trans t.precedes_next) (by omega) ?_
        simp only [Parses, Parser.primary, hopen, group, hparses, ok_bind, hclose]
        rfl
      · refine ensures_fault hs ht ?_
        simp only [Parses, Parser.primary, hopen, group, hparses, ok_bind]
  · rename_i name hname
    have hnext := State.length_next hname
    split
    · rename_i hopen
      refine ensures_enter_done hs s.precedes_next (size_lt_of_length_lt (by omega))
        (Nat.add_le_add_right s.precedes_next.length_le 1) fun x hx => ?_
      simp only [Parses, Parser.primary, hname, hopen]
      exact hx rfl
    · rename_i f hf hopen
      refine ensures_fault hs s.precedes_next ?_
      simp only [Parses, Parser.primary, hname, hf]
    · rename_i hf hopen
      refine ensures_tree hs s.precedes_next (Nat.le_of_eq hnext) ?_
      simp only [Parses, Parser.primary, hname, hf]
  · refine ensures_fault hs (.refl s) ?_
    simp only [Parses, Parser.primary]

theorem endCall_eq_ok {g : Builtin} {start : State} {args : List Expr} (h : checkArguments g args = .ok ()) :
    endCall g start args s = Parser.checked start (.call g args) s := by rw [endCall, h]

theorem endCall_eq_error {g : Builtin} {start : State} {args : List Expr} {cause : Cause}
    (h : checkArguments g args = .error cause) : endCall g start args s = .error ⟨cause, start.spanTo s⟩ := by
  rw [endCall, h]

theorem ensures_endCall {g : Builtin} {start : State} {args : List Expr} (hs : s.Legal ts) (ht : s.Precedes t)
    (hlt : t.rest.length < s.rest.length) (hparses : p.Parses s.level s (endCall g start args t)) :
    p.Ensures ts s (.endCall g start args t) := by
  rw [Code.endCall]
  split
  · rename_i cause hcheck
    rw [endCall_eq_error hcheck] at hparses
    exact ensures_fault hs ht hparses
  · rename_i hcheck
    rw [endCall_eq_ok hcheck] at hparses
    exact ensures_checked hs ht (fun f hf => hf ▸ hparses) fun hok => ensures_tree hs ht hlt (hok ▸ hparses)

theorem ensures_arguments (g : Builtin) (start : State) (args : List Expr) (hs : s.Legal ts) :
    (arguments g start args).Ensures ts s ((arguments g start args).code s) := by
  refine ensures_enter_andThen hs (.refl s) (size_lt_of_rank_lt (.refl s) (Nat.lt_succ_self _)) rfl
    (fun f hf fuel hfuel => ?_) fun e t ht he hparses => ?_
  · replace hf : s.level.expr s = .error f := hf
    simp only [argumentList, hf]
    rfl
  · replace hparses : s.level.expr s = .ok (e, t) := hparses
    split
    · rename_i hcomma
      have hnext := State.length_next hcomma
      have hu := ht.trans t.precedes_next
      refine ensures_enter_done hs hu (size_lt_of_length_lt (by omega)) (Nat.add_le_add_right hu.length_le 1)
        fun x hx fuel hfuel => ?_
      obtain ⟨fuel, rfl⟩ := Nat.exists_eq_add_one_of_ne_zero (show fuel ≠ 0 by omega)
      rw [← hx fuel (by omega), argumentList]
      simp only [hparses, ok_bind, hcomma, List.append_assoc]
      cases argumentList s.level (fuel + 1) t.next <;> rfl
    · rename_i hclose
      have hnext := State.length_next hclose
      refine ensures_endCall hs (ht.trans t.precedes_next) (by omega) fun fuel hfuel => ?_
      simp only [argumentList, hparses, ok_bind, hclose]
      rfl
    · refine ensures_fault hs ht fun fuel hfuel => ?_
      simp only [argumentList, hparses, ok_bind]
      rfl

theorem ensures_call (name : String) (start : State) (hs : s.Legal ts) :
    (call name start).Ensures ts s ((call name start).code s) := by
  rw [code]
  split
  · rename_i hname
    refine ensures_fault hs (.refl s) fun hstart => ?_
    simp only [Parser.call, hname, ← hstart]
  · rename_i g hname
    split
    · rename_i hclose
      have hnext := State.length_next hclose
      have hle := s.precedes_next.length_le
      refine ensures_endCall hs (s.precedes_next.trans s.next.precedes_next) (by omega) fun hstart => ?_
      simp only [Parser.call, hname, ← hstart, Parser.arguments, hclose]
      rfl
    · refine ensures_enter_done hs s.precedes_next (size_lt_of_rank_lt s.precedes_next (Nat.lt_succ_self _))
        (Nat.add_le_add_right s.precedes_next.length_le 1) fun x hx hstart => ?_
      have hlist := hx s.next.rest.length (Nat.le_refl _)
      simp only [Parser.call, hname, ← hstart, Parser.arguments]
      exact hlist

/-- Every procedure returns as it should if those that it enters do. -/
theorem ensures_code (p : Procedure) (hs : s.Legal ts) : p.Ensures ts s (p.code s) :=
  match p with
  | expr => ensures_expr hs
  | conditional => ensures_conditional hs
  | chain c => ensures_chain c hs
  | chainRest c start left => ensures_chainRest c start left hs
  | comparison => ensures_comparison hs
  | unary => ensures_unary hs
  | primary => ensures_primary hs
  | call name start => ensures_call name start hs
  | arguments g start args => ensures_arguments g start args hs

end Procedure

end MetricFormula.Parser
