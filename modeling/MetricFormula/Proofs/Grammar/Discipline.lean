import MetricFormula.Proofs.Grammar.Returns

/-!
# The state of the parser

Every procedure enters smaller ones only. So all of them return as they should, and no run goes on for ever. What waits
while a procedure runs relies on no more than that, and so the state stays within its bounds on the whole way.
-/

namespace MetricFormula.Parser

variable {ts : List LocatedToken} {s t : State}

/-! ## Whole runs -/

section Runs

variable {post : Post} {size : Nat} {c : Code}

theorem Code.Ensures.exists_runs (h : c.Ensures ts size post)
    (hcalls : ∀ (q : Procedure) (u : State), u.Legal ts → q.size u < size →
      ∃ r t, (q.code u).Runs r t ∧ q.Returns u r t) :
    ∃ r t, c.Runs r t ∧ post r t := by
  induction c with
  | done r t => exact ⟨r, t, .done, h.2⟩
  | enter q u resume ih =>
      obtain ⟨hu, hsize, hresume⟩ := h
      obtain ⟨r, t, hruns, hreturns⟩ := hcalls q u hu hsize
      obtain ⟨r', t', hruns', hpost⟩ := ih r t (hresume r t hreturns)
      exact ⟨r', t', hruns.enter hruns', hpost⟩

/-- A procedure comes to an end wherever it is entered. -/
theorem Procedure.exists_runs (p : Procedure) (s : State) (hs : s.Legal ts) :
    ∃ r t, (p.code s).Runs r t ∧ p.Returns s r t :=
  (p.ensures_code hs).exists_runs fun q u hu _ => q.exists_runs u hu
termination_by p.size s

theorem Procedure.returns_of_runs {p : Procedure} {r : Except Fault Expr} (hs : s.Legal ts)
    (h : (p.code s).Runs r t) : p.Returns s r t := by
  obtain ⟨r', t', hruns, hreturns⟩ := p.exists_runs s hs
  obtain ⟨rfl, rfl⟩ := h.unique hruns
  exact hreturns

/-- All that wait return as they should if what they wait for returns as `post` says. -/
inductive Waits (ts : List LocatedToken) : Post → List Code.Resume → Prop where
  | nil {post : Post} : Waits ts post []
  | cons {post post' : Post} {size : Nat} {resume : Code.Resume} {waiting : List Code.Resume} :
      (∀ r t, post r t → (resume r t).Ensures ts size post') → Waits ts post' waiting →
      Waits ts post (resume :: waiting)

/-- The machine is as it should be: what runs and what waits fit together. -/
def Machine.Sound (ts : List LocatedToken) (m : Machine) : Prop :=
  ∃ size post, m.code.Ensures ts size post ∧ Waits ts post m.waiting

/-- What is entered ensures its own return, and what waits was promised just that. -/
theorem Machine.Sound.step {m m' : Machine} (h : m.Sound ts) (hstep : m.step = some m') : m'.Sound ts := by
  obtain ⟨size, post, hcode, hwaits⟩ := h
  rcases m with ⟨_ | ⟨p, s, resume⟩, waiting⟩
  · cases hwaits with
    | nil => cases hstep
    | cons hresume hwaits =>
        cases hstep
        exact ⟨_, _, hresume _ _ hcode.2, hwaits⟩
  · cases hstep
    obtain ⟨hs, -, hresume⟩ := hcode
    exact ⟨_, _, p.ensures_code hs, .cons hresume hwaits⟩

theorem Machine.Run.sound {k : Nat} {m m' : Machine} (h : Run k m m') (hm : m.Sound ts) : m'.Sound ts := by
  induction h with
  | done => exact hm
  | step hstep _ ih => exact ih (hm.step hstep)

theorem Machine.Sound.legal {m : Machine} (h : m.Sound ts) : m.code.state.Legal ts := by
  obtain ⟨size, post, hcode, -⟩ := h
  cases hc : m.code with
  | done r t =>
      rw [hc] at hcode
      exact hcode.1
  | enter p s resume =>
      rw [hc] at hcode
      exact hcode.1

theorem legal_start (textEnd : Nat) (ts : List LocatedToken) : State.Legal ts ⟨ts, 0, textEnd, 0⟩ :=
  ⟨Nat.zero_le _, List.suffix_rfl⟩

theorem Machine.sound_start (textEnd : Nat) (ts : List LocatedToken) : (start textEnd ts).Sound ts := by
  have hs := legal_start textEnd ts
  exact ⟨_, _, ⟨hs, Nat.lt_succ_self _, fun r t h => ⟨h.precedes.legal hs, h⟩⟩, .nil⟩

end Runs

theorem formula_eq_ok_of_returns {textEnd : Nat} {r : Except Fault Expr} {e : Expr}
    (h : Procedure.expr.Returns ⟨ts, 0, textEnd, 0⟩ r t) : formula textEnd ts = .ok e ↔ r = .ok e ∧ t.rest = [] := by
  have hparses : (level maxNesting).expr ⟨ts, 0, textEnd, 0⟩ = outcome r t := h.parses
  rw [formula, hparses]
  cases r with
  | error f => exact ⟨nofun, nofun⟩
  | ok e' =>
      have houtcome : outcome (.ok e') t = .ok (e', t) := rfl
      rw [houtcome, ok_bind]
      dsimp only
      cases t.rest with
      | nil => simp [pure, Except.pure]
      | cons x xs => simp

/-- Whatever the tokens, on the way no more levels are open than there may be, and the tokens left are the last ones.
What is entered comes to an end and returns as it should. So does the whole run, and no run is longer. -/
theorem run_disciplined (textEnd : Nat) (ts : List LocatedToken) :
    (∀ k m, Machine.Run k (.start textEnd ts) m →
      m.code.state.nesting ≤ maxNesting ∧ m.code.state.rest <:+ ts ∧
      ∀ p s resume, m.code = .enter p s resume →
        (∃ r t, (p.code s).Runs r t) ∧ ∀ r t, (p.code s).Runs r t → p.Returns s r t) ∧
    ∃ n r t, Machine.Run n (.start textEnd ts) ⟨.done r t, []⟩ ∧
      (∀ k m, Machine.Run k (.start textEnd ts) m → k ≤ n) ∧
      Procedure.expr.Returns ⟨ts, 0, textEnd, 0⟩ r t ∧ ∀ e, formula textEnd ts = .ok e ↔ r = .ok e ∧ t.rest = [] := by
  have hstart := legal_start textEnd ts
  refine ⟨fun k m hrun => ?_, ?_⟩
  · have hsound := hrun.sound (Machine.sound_start textEnd ts)
    refine ⟨hsound.legal.nesting, hsound.legal.suffix, fun p s resume hcode => ?_⟩
    have hs : s.Legal ts := by
      have hlegal := hsound.legal
      rwa [hcode] at hlegal
    obtain ⟨r, t, hruns, -⟩ := p.exists_runs s hs
    exact ⟨⟨r, t, hruns⟩, fun r t => Procedure.returns_of_runs hs⟩
  · obtain ⟨r, t, hruns, hreturns⟩ := Procedure.expr.exists_runs _ hstart
    obtain ⟨n, hn⟩ := hruns.enter (Code.Runs.done (r := r) (t := t))
    refine ⟨n, r, t, hn [], fun k m hrun => ?_, hreturns, fun e => formula_eq_ok_of_returns hreturns⟩
    exact (hrun.of_ended (hn []) rfl).1

/-- A sign and a parenthesis that is not closed. -/
def unclosed : List LocatedToken :=
  [⟨.operator .sub, ⟨0, 1⟩⟩, ⟨.openParen, ⟨1, 2⟩⟩, ⟨.word "a", ⟨2, 3⟩⟩]

/-- Three levels are open at the name, and none when the fault is returned. -/
theorem run_disciplined_unclosed :
    (∃ m s resume, Machine.Run 11 (.start 3 unclosed) m ∧ m.code = .enter .conditional s resume ∧ s.nesting = 3 ∧
      ∃ r t, (Procedure.conditional.code s).Runs r t ∧ Procedure.conditional.Returns s r t) ∧
    ∃ n f t, Machine.Run n (.start 3 unclosed) ⟨.done (.error f) t, []⟩ ∧ t.nesting = 0 := by
  obtain ⟨hreached, n, r, t, hend, -, hreturns, -⟩ := run_disciplined 3 unclosed
  constructor
  · obtain ⟨m, s, resume, hrun, hcode, hnesting⟩ : ∃ m s resume, Machine.Run 11 (.start 3 unclosed) m ∧
        m.code = .enter .conditional s resume ∧ s.nesting = 3 :=
      ⟨_, _, _, .step rfl (.step rfl (.step rfl (.step rfl (.step rfl (.step rfl (.step rfl (.step rfl (.step rfl
        (.step rfl (.step rfl .done)))))))))), rfl, rfl⟩
    obtain ⟨-, -, hentered⟩ := hreached 11 m hrun
    obtain ⟨⟨r, t, hruns⟩, hreturns⟩ := hentered _ _ _ hcode
    exact ⟨m, s, resume, hrun, hcode, hnesting, r, t, hruns, hreturns r t hruns⟩
  · have hfault : ((level maxNesting).expr ⟨unclosed, 0, 3, 0⟩).isOk = false := by decide +kernel
    have hparses : (level maxNesting).expr ⟨unclosed, 0, 3, 0⟩ = outcome r t := hreturns.parses
    cases r with
    | error f => exact ⟨n, f, t, hend, hreturns.precedes.nesting⟩
    | ok e =>
        rw [hparses] at hfault
        cases hfault

end MetricFormula.Parser
