/-
The connection loop of the client (`client.c`, `tunnel.c`, `linkfd.c`).

The client is a machine whose state is the statement it executes next, from the
moment `client` has installed its handler.  A signal can come before any of them.
`SIGTERM` goes to the handler of the client or to that of the linker, which set
different flags; `SIGHUP` is ignored outside the linker.

* `sigterm_kept` — when a `SIGTERM` ends the client and the linker;
* `reconnect_disciplined` — when a pass of the loop comes after a `SIGHUP` or after
  a pause;
* `sigterm_lost`, `reconnect_undisciplined` — runs in which they do not.
-/
import Vtun.Host
import Vtun.Lib.Run

namespace Vtun

/-! ### The machine -/

/-- The values of `client_term` and `linker_term`, and of `tunnel`: nothing,
`VTUN_SIG_TERM`, `VTUN_SIG_HUP`, or -1. -/
inductive TermFlag
  | zero
  | term
  | hup
  | error
  deriving DecidableEq, Repr

/-- Whose handler of a signal is installed; the client ignores `SIGHUP`. -/
inductive Handler
  | client
  | linker
  deriving DecidableEq, Repr

/-- The statement executed next. -/
inductive ClientPc
  /-- `client`: `client_term = 0; reconnect = 0;` -/
  | reset
  /-- `client`: the test of the loop -/
  | test
  /-- `client`: `if( reconnect && (client_term != VTUN_SIG_HUP) )` -/
  | again
  /-- `client`: `sleep(5)` -/
  | sleeping
  /-- `client`: the addresses and the socket, up to `bind` -/
  | address
  /-- `client`: `connect_t` -/
  | connect
  /-- `client`: `auth_client` -/
  | auth
  /-- `tunnel`: the device is opened -/
  | device
  /-- `tunnel`: `udp_session` and `fork` -/
  | proto
  /-- `linkfd`: `lfd_alloc_mod` -/
  | alloc
  /-- `linkfd`: the handler of `SIGTERM` is installed -/
  | termOn
  /-- `linkfd`: the handler of `SIGHUP` is installed -/
  | hupOn
  /-- `lfd_linker`: `lfd_alloc` -/
  | buffer
  /-- `lfd_linker`: the first `VTUN_ECHO_REQ` -/
  | echo
  /-- `lfd_linker`: `linker_term = 0` -/
  | clear
  /-- `lfd_linker`: the test of the loop -/
  | linkerTest
  /-- `lfd_linker`: a turn of the loop -/
  | turn
  /-- `lfd_linker`: what comes behind the loop -/
  | closing
  /-- `linkfd`: the old handler of `SIGTERM` comes back -/
  | termOff
  /-- `linkfd`: the old handler of `SIGHUP` comes back -/
  | hupOff
  /-- `linkfd`: `return linker_term` -/
  | linked
  /-- `tunnel`: the down commands, up to the end -/
  | down
  /-- `client`: `client_term = tunnel(host)`, the assignment -/
  | assign
  /-- `client`: the end of the loop body -/
  | finish
  | exited
  deriving DecidableEq, Repr

/-- The start of a pass of the loop, from where it is clear that there will be a
connection attempt: whether `SIGHUP` had come to the session of the pass before,
whether the client slept, and whether `persist` was on. -/
structure Start where
  hup : Bool
  slept : Bool
  persist : Bool
  deriving DecidableEq, Repr

/-- A client.  The last six fields are history: whether there has been a
`SIGTERM`, and whether there had been one when the loop was last tested; whether
`SIGHUP` has come to the session of this pass; the passes; and the connection
attempts and turns of the linker whose loop was tested after the `SIGTERM`. -/
structure Client where
  pc : ClientPc
  clientTerm : TermFlag
  linkerTerm : TermFlag
  reconnect : Bool
  vtunPersist : ℤ
  hostPersist : ℤ
  onTerm : Handler
  onHup : Handler
  /-- the value on its way through `linkfd` and `tunnel` -/
  ret : TermFlag
  termed : Bool
  termedAtTest : Bool
  hupped : Bool
  starts : List Start
  lateAttempts : ℕ
  lateTurns : ℕ
  deriving DecidableEq, Repr

/-- `vtun.persist || host->persist`. -/
def Client.persistent (s : Client) : Bool := s.vtunPersist ≠ 0 ∨ s.hostPersist ≠ 0

/-- The next statement. -/
def Client.goto (s : Client) (pc : ClientPc) : Client := { s with pc := pc }

/-- The start of a connection attempt. -/
def Client.attempt (s : Client) (slept : Bool) : Client :=
  { s with
    pc := .address
    reconnect := true
    hupped := false
    starts := s.starts ++ [⟨s.hupped, slept, s.persistent⟩]
    lateAttempts := s.lateAttempts + if s.termedAtTest then 1 else 0 }

/-- One statement, which succeeds or fails. -/
def clientRun (s : Client) (ok : Bool) : Option Client :=
  match s.pc with
  | .reset => some { s with clientTerm := .zero, reconnect := false, pc := .test }
  | .test =>
    if s.clientTerm = .zero ∨ s.clientTerm = .hup then
      some { s with termedAtTest := s.termed, pc := .again }
    else some (s.goto .exited)
  | .again =>
    if s.reconnect ∧ s.clientTerm ≠ .hup then
      if s.persistent then some (s.goto .sleeping) else some (s.goto .exited)
    else some (s.attempt false)
  | .sleeping => some (s.attempt true)
  -- `continue`
  | .address => some (s.goto (if ok then .connect else .test))
  | .connect => some (s.goto (if ok then .auth else .finish))
  | .auth => some (s.goto (if ok then .device else .finish))
  | .device => some (if ok then s.goto .proto else { s with ret := .error, pc := .assign })
  | .proto => some (if ok then s.goto .alloc else { s with ret := .zero, pc := .assign })
  -- `linkfd` returns zero, with the handlers as they were
  | .alloc => some (if ok then s.goto .termOn else { s with ret := .zero, pc := .down })
  | .termOn => some { s with onTerm := .linker, pc := .hupOn }
  | .hupOn => some { s with onHup := .linker, pc := .buffer }
  -- `lfd_linker` returns without a look at `linker_term`
  | .buffer => some (s.goto (if ok then .echo else .termOff))
  | .echo => some (s.goto .clear)
  | .clear => some { s with linkerTerm := .zero, pc := .linkerTest }
  | .linkerTest =>
    if s.linkerTerm = .zero then
      some { s with lateTurns := s.lateTurns + if s.termed then 1 else 0, pc := .turn }
    else some (s.goto .closing)
  -- on to the next test, or `break`
  | .turn => some (s.goto (if ok then .linkerTest else .closing))
  | .closing =>
    some { s with hostPersist := if s.linkerTerm = .term then 0 else s.hostPersist, pc := .termOff }
  | .termOff => some { s with onTerm := .client, pc := .hupOff }
  | .hupOff => some { s with onHup := .client, pc := .linked }
  | .linked => some { s with ret := s.linkerTerm, pc := .down }
  | .down => some (s.goto .assign)
  | .assign => some { s with clientTerm := s.ret, pc := .finish }
  | .finish => some (s.goto .test)
  | .exited => none

/-- The handlers `sig_term`. -/
def Client.sigTerm (s : Client) : Client :=
  match s.onTerm with
  | .client => { s with clientTerm := .term, termed := true }
  | .linker => { s with linkerTerm := .term, termed := true }

/-- The handler `sig_hup`. -/
def Client.sigHup (s : Client) : Client :=
  match s.onHup with
  | .client => s
  | .linker => { s with linkerTerm := .hup, hupped := true }

/-- A statement, or a signal. -/
inductive ClientEv
  | run (ok : Bool)
  | sigTerm
  | sigHup
  deriving DecidableEq, Repr

/-- One event in the life of a client. -/
def clientStep (s : Client) : ClientEv → Option Client
  | .run ok => clientRun s ok
  | .sigTerm => if s.pc = .exited then none else some s.sigTerm
  | .sigHup => if s.pc = .exited then none else some s.sigHup

/-- `client`, its handler just installed. -/
def clientStart (vtunPersist hostPersist : ℤ) : Client where
  pc := .reset
  clientTerm := .zero
  linkerTerm := .zero
  reconnect := false
  vtunPersist := vtunPersist
  hostPersist := hostPersist
  onTerm := .client
  onHup := .client
  ret := .zero
  termed := false
  termedAtTest := false
  hupped := false
  starts := []
  lateAttempts := 0
  lateTurns := 0

/-! ### Bookkeeping -/

@[simp] theorem Client.persistent_goto (s : Client) (pc : ClientPc) :
    (s.goto pc).persistent = s.persistent := rfl

/-- A step is a statement, or a signal to a client that is still there. -/
theorem clientStep_cases {s s' : Client} {e : ClientEv} (h : clientStep s e = some s') :
    (∃ ok, e = .run ok ∧ clientRun s ok = some s') ∨ (e = .sigTerm ∧ s' = s.sigTerm) ∨
      (e = .sigHup ∧ s' = s.sigHup) := by
  cases e with
  | run ok => exact .inl ⟨ok, rfl, h⟩
  | sigTerm =>
    rw [clientStep] at h
    split at h
    · cases h
    · exact .inr (.inl ⟨rfl, (Option.some.inj h).symm⟩)
  | sigHup =>
    rw [clientStep] at h
    split at h
    · cases h
    · exact .inr (.inr ⟨rfl, (Option.some.inj h).symm⟩)

/-- What becomes of a client that has passed the test of its loop. -/
theorem clientRun_again {s s' : Client} {ok : Bool} (hpc : s.pc = .again)
    (h : clientRun s ok = some s') :
    ((s.reconnect = true ∧ s.clientTerm ≠ .hup) ∧ s.persistent = true ∧ s' = s.goto .sleeping) ∨
    ((s.reconnect = true ∧ s.clientTerm ≠ .hup) ∧ s.persistent = false ∧ s' = s.goto .exited) ∨
    (¬ (s.reconnect = true ∧ s.clientTerm ≠ .hup) ∧ s' = s.attempt false) := by
  simp only [clientRun, hpc] at h
  split at h
  · rename_i hcond
    split at h
    · rename_i hpersist
      exact .inl ⟨hcond, hpersist, (Option.some.inj h).symm⟩
    · rename_i hpersist
      exact .inr (.inl ⟨hcond, Bool.not_eq_true _ ▸ hpersist, (Option.some.inj h).symm⟩)
  · rename_i hcond
    exact .inr (.inr ⟨hcond, (Option.some.inj h).symm⟩)

/-- The statements during which `SIGTERM` goes to the linker. -/
def ClientPc.linking : ClientPc → Bool
  | .hupOn | .buffer | .echo | .clear | .linkerTest | .turn | .closing | .termOff => true
  | _ => false

/-- The statements from the start of a connection attempt to the end of its pass. -/
def ClientPc.attempting : ClientPc → Bool
  | .reset | .test | .again | .exited => false
  | _ => true

/-- What holds in every run: whose handler is installed, and what the client knows
of its passes. -/
structure ClientOk (s : Client) : Prop where
  onTerm : s.onTerm = if s.pc.linking then .linker else .client
  reconnect : s.pc.attempting = true → s.reconnect = true
  first : s.reconnect = false ∨ s.pc = .reset → s.starts = []
  sleeping : s.pc = .sleeping → s.persistent = true

theorem clientOk_start (vtunPersist hostPersist : ℤ) :
    ClientOk (clientStart vtunPersist hostPersist) :=
  ⟨rfl, by simp [clientStart, ClientPc.attempting], fun _ => rfl, by simp [clientStart]⟩

theorem clientOk_sigTerm {s : Client} (h : ClientOk s) : ClientOk s.sigTerm := by
  unfold Client.sigTerm
  split <;> exact ⟨h.onTerm, h.reconnect, h.first, h.sleeping⟩

theorem clientOk_sigHup {s : Client} (h : ClientOk s) : ClientOk s.sigHup := by
  unfold Client.sigHup
  split
  · exact h
  · exact ⟨h.onTerm, h.reconnect, h.first, h.sleeping⟩

theorem clientOk_run {s s' : Client} {ok : Bool} (h : ClientOk s) (hs : clientRun s ok = some s') :
    ClientOk s' := by
  obtain ⟨honTerm, hreconnect, hfirst, hsleep⟩ := h
  have hfirst' : s.reconnect = false → s.starts = [] := fun h => hfirst (Or.inl h)
  cases hpc : s.pc with
  | again =>
    rw [hpc] at honTerm
    obtain ⟨hcond, hpersist, rfl⟩ | ⟨-, -, rfl⟩ | ⟨-, rfl⟩ := clientRun_again hpc hs
    · exact ⟨honTerm, fun _ => hcond.1, fun h => hfirst' (h.resolve_right nofun),
        fun _ => hpersist⟩
    · exact ⟨honTerm, nofun, fun h => hfirst' (h.resolve_right nofun), nofun⟩
    · exact ⟨honTerm, fun _ => rfl, nofun, nofun⟩
  | sleeping =>
    rw [hpc] at honTerm
    simp only [clientRun, hpc] at hs
    obtain rfl := Option.some.inj hs
    exact ⟨honTerm, fun _ => rfl, nofun, nofun⟩
  | reset =>
    rw [hpc] at honTerm
    simp only [clientRun, hpc] at hs
    obtain rfl := Option.some.inj hs
    exact ⟨honTerm, nofun, fun _ => hfirst (Or.inr hpc), nofun⟩
  | exited => simp [clientRun, hpc] at hs
  | _ =>
    -- the statement leaves `reconnect` and the passes alone
    rw [hpc] at honTerm hreconnect
    simp only [clientRun, hpc] at hs
    try split at hs
    all_goals
      obtain rfl := Option.some.inj hs
      cases ok <;> refine ⟨?_, ?_, fun h => hfirst' (h.resolve_right nofun), nofun⟩
    all_goals first | exact honTerm | rfl | exact fun _ => hreconnect rfl | exact nofun

/-! ### `SIGTERM` -/

/-- The statements and signals that do not forget a `SIGTERM`.  `client_term` and
`linker_term` are cleared only where no `SIGTERM` waits in them, the value of
`tunnel` does not hide one from a client that goes on without, and no `SIGHUP`
overwrites one. -/
def TermKept (s : Client) : ClientEv → Prop
  | .sigTerm => True
  | .sigHup => s.onHup = .linker → s.linkerTerm ≠ .term
  | .run _ =>
    (s.pc = .reset → s.clientTerm ≠ .term) ∧
    (s.pc = .clear → s.clientTerm ≠ .term ∧ s.linkerTerm ≠ .term) ∧
    (s.pc = .assign → s.clientTerm = .term →
      s.ret = .term ∨ s.ret = .error ∨ s.ret = .zero ∧ s.persistent = false)

instance (s : Client) : ∀ e, Decidable (TermKept s e)
  | .sigTerm => .isTrue trivial
  | .sigHup => inferInstanceAs (Decidable (_ → _))
  | .run _ => inferInstanceAs (Decidable (_ ∧ _ ∧ _))

/-- What is known of a client that has had a `SIGTERM`: the flag that is looked at
next tells, or the client ends for want of `persist`. -/
def TermKnown (s : Client) : Prop :=
  match s.pc with
  | .reset => s.clientTerm = .term
  | .test | .finish =>
    s.clientTerm = .term ∨ s.clientTerm = .error ∨
      s.clientTerm = .zero ∧ s.reconnect = true ∧ s.persistent = false
  | .again =>
    if s.termedAtTest then s.clientTerm ≠ .hup ∧ s.reconnect = true ∧ s.persistent = false
    else s.clientTerm = .term
  | .sleeping | .address | .connect | .auth | .device | .proto | .alloc | .termOn =>
    s.clientTerm = .term
  | .hupOn | .buffer | .echo | .clear | .termOff | .hupOff | .linked =>
    s.clientTerm = .term ∨ s.linkerTerm = .term
  | .linkerTest | .turn | .closing => s.linkerTerm = .term
  | .down | .assign => s.clientTerm = .term ∨ s.ret = .term
  | .exited => True

/-- A client that keeps a `SIGTERM`. -/
structure TermOk (s : Client) : Prop extends ClientOk s where
  attempts : s.lateAttempts = 0
  turns : s.lateTurns = 0
  known : s.termed = true → TermKnown s
  termedAtTest : s.termedAtTest = true → s.termed = true
  asleep : s.pc = .sleeping → s.termedAtTest = false

theorem termOk_start (vtunPersist hostPersist : ℤ) : TermOk (clientStart vtunPersist hostPersist) :=
  ⟨clientOk_start _ _, rfl, rfl, by simp [clientStart], by simp [clientStart], fun _ => rfl⟩

/-- The handler that is installed writes to the flag that is looked at next. -/
theorem termOk_sigTerm {s : Client} (h : TermOk s) : TermOk s.sigTerm := by
  have hon := h.onTerm
  refine ⟨clientOk_sigTerm h.toClientOk, ?_, ?_, ?_, ?_, ?_⟩
  · unfold Client.sigTerm
    split <;> exact h.attempts
  · unfold Client.sigTerm
    split <;> exact h.turns
  · intro _
    cases hpc : s.pc with
    | again =>
      -- with a `SIGTERM` before the test the client is on its way out already
      rw [hpc] at hon
      have hsig : s.sigTerm = { s with clientTerm := .term, termed := true } := by
        rw [Client.sigTerm, hon]
        rfl
      by_cases htest : s.termedAtTest = true
      · have hknown := h.known (h.termedAtTest htest)
        simp only [TermKnown, hpc, htest, if_true] at hknown
        simp only [TermKnown, hsig, hpc, htest, if_true]
        exact ⟨by decide, hknown.2⟩
      · simp only [TermKnown, hsig, hpc, if_neg htest]
    | _ =>
      rw [hpc] at hon
      simp_all [Client.sigTerm, TermKnown, ClientPc.linking]
  · unfold Client.sigTerm
    split <;> exact fun _ => rfl
  · unfold Client.sigTerm
    split <;> exact h.asleep

theorem termOk_sigHup {s : Client} (h : TermOk s) (hkept : TermKept s .sigHup) :
    TermOk s.sigHup := by
  have hok := clientOk_sigHup h.toClientOk
  cases hon : s.onHup with
  | client =>
    have hsig : s.sigHup = s := by rw [Client.sigHup, hon]
    rwa [hsig]
  | linker =>
    have hsig : s.sigHup = { s with linkerTerm := .hup, hupped := true } := by
      rw [Client.sigHup, hon]
    rw [hsig] at hok ⊢
    -- the flag that is overwritten does not hold the `SIGTERM`
    have hne := hkept hon
    refine ⟨hok, h.attempts, h.turns, fun hterm => ?_, h.termedAtTest, h.asleep⟩
    have hknown := h.known hterm
    cases hpc : s.pc <;> simp_all [TermKnown, Client.persistent]

section TermRun

variable {s s' : Client} {ok : Bool}

/-- At the test of `reconnect`: a client that goes on has had no `SIGTERM` before the
test of its loop. -/
theorem termOk_again (h : TermOk s) (hpc : s.pc = .again) (hs : clientRun s ok = some s') :
    TermOk s' := by
  have hok := clientOk_run h.toClientOk hs
  obtain ⟨-, hattempts, hturns, hknown, htest, -⟩ := h
  simp only [TermKnown, hpc] at hknown
  have hgoes : ¬ (s.clientTerm ≠ .hup ∧ s.reconnect = true ∧ s.persistent = false) →
      s.termedAtTest = false ∧ (s.termed = true → s.clientTerm = .term) := by
    intro hnot
    have hfalse : s.termedAtTest = false := by
      by_contra htrue
      rw [Bool.not_eq_false] at htrue
      exact hnot (by simpa [htrue] using hknown (htest htrue))
    exact ⟨hfalse, fun hterm => by simpa [hfalse] using hknown hterm⟩
  obtain ⟨-, hpersist, rfl⟩ | ⟨-, -, rfl⟩ | ⟨hcond, rfl⟩ := clientRun_again hpc hs
  · obtain ⟨hfalse, hterm⟩ := hgoes (by simp [hpersist])
    exact ⟨hok, hattempts, hturns, hterm, htest, fun _ => hfalse⟩
  · exact ⟨hok, hattempts, hturns, fun _ => trivial, htest, fun hpc => by cases hpc⟩
  · obtain ⟨hfalse, hterm⟩ := hgoes (fun h => hcond ⟨h.2.1, h.1⟩)
    exact ⟨hok, by simp [Client.attempt, hattempts, hfalse], hturns, hterm, htest,
      fun hpc => by cases hpc⟩

/-- At the test of the client's loop: a `SIGTERM` that lets the client pass leaves a flag
that is zero, and the client will not go on. -/
theorem termOk_test (h : TermOk s) (hpc : s.pc = .test) (hs : clientRun s ok = some s') :
    TermOk s' := by
  have hok := clientOk_run h.toClientOk hs
  obtain ⟨-, hattempts, hturns, hknown, htest, -⟩ := h
  simp only [clientRun, hpc] at hs
  simp only [TermKnown, hpc] at hknown
  split at hs
  · rename_i hcond
    obtain rfl := Option.some.inj hs
    refine ⟨hok, hattempts, hturns, fun hterm => ?_, fun h => h, fun hpc => by cases hpc⟩
    have hzero : s.clientTerm = .zero ∧ s.reconnect = true ∧ s.persistent = false := by
      rcases hknown hterm with h | h | h
      · rw [h] at hcond
        exact absurd hcond (by decide)
      · rw [h] at hcond
        exact absurd hcond (by decide)
      · exact h
    change if s.termed = true then _ else _
    rw [if_pos hterm]
    exact ⟨by rw [hzero.1]; decide, hzero.2⟩
  · obtain rfl := Option.some.inj hs
    exact ⟨hok, hattempts, hturns, fun _ => trivial, htest, fun hpc => by cases hpc⟩

/-- The value of `tunnel` tells of a `SIGTERM` that it overwrites. -/
theorem termOk_assign (h : TermOk s) (hpc : s.pc = .assign)
    (hkept : s.clientTerm = .term → s.ret = .term ∨ s.ret = .error ∨
      s.ret = .zero ∧ s.persistent = false) (hs : clientRun s ok = some s') : TermOk s' := by
  have hok := clientOk_run h.toClientOk hs
  have hre : s.reconnect = true := h.reconnect (by rw [hpc]; rfl)
  obtain ⟨-, hattempts, hturns, hknown, htest, -⟩ := h
  simp only [clientRun, hpc] at hs
  simp only [TermKnown, hpc] at hknown
  obtain rfl := Option.some.inj hs
  refine ⟨hok, hattempts, hturns, fun hterm => ?_, htest, fun hpc => by cases hpc⟩
  change s.ret = .term ∨ s.ret = .error ∨ s.ret = .zero ∧ s.reconnect = true ∧
    s.persistent = false
  rcases hknown hterm with h | h
  · rcases hkept h with h | h | ⟨h, hpersist⟩
    · exact Or.inl h
    · exact Or.inr (Or.inl h)
    · exact Or.inr (Or.inr ⟨h, hre, hpersist⟩)
  · exact Or.inl h

/-- While the client sleeps: there was no `SIGTERM` yet when the loop was tested. -/
theorem termOk_sleeping (h : TermOk s) (hpc : s.pc = .sleeping) (hs : clientRun s ok = some s') :
    TermOk s' := by
  have hok := clientOk_run h.toClientOk hs
  obtain ⟨-, hattempts, hturns, hknown, htest, hasleep⟩ := h
  simp only [clientRun, hpc] at hs
  simp only [TermKnown, hpc] at hknown
  obtain rfl := Option.some.inj hs
  exact ⟨hok, by simp [Client.attempt, hattempts, hasleep hpc], hturns, hknown, htest,
    fun hpc => by cases hpc⟩

/-- At the test of the linker's loop: after a `SIGTERM` there is no turn. -/
theorem termOk_linkerTest (h : TermOk s) (hpc : s.pc = .linkerTest)
    (hs : clientRun s ok = some s') : TermOk s' := by
  have hok := clientOk_run h.toClientOk hs
  obtain ⟨-, hattempts, hturns, hknown, htest, -⟩ := h
  simp only [clientRun, hpc] at hs
  simp only [TermKnown, hpc] at hknown
  split at hs
  · rename_i hzero
    obtain rfl := Option.some.inj hs
    have hterm : s.termed = false := by
      by_contra hterm
      rw [hknown (by simpa using hterm)] at hzero
      exact absurd hzero (by decide)
    exact ⟨hok, hattempts, by simp [hturns, hterm], hknown, htest, fun hpc => by cases hpc⟩
  · obtain rfl := Option.some.inj hs
    exact ⟨hok, hattempts, hturns, hknown, htest, fun hpc => by cases hpc⟩

theorem termOk_run (h : TermOk s) (hkept : TermKept s (.run ok))
    (hs : clientRun s ok = some s') : TermOk s' := by
  cases hpc : s.pc with
  | again => exact termOk_again h hpc hs
  | test => exact termOk_test h hpc hs
  | assign => exact termOk_assign h hpc (hkept.2.2 hpc) hs
  | sleeping => exact termOk_sleeping h hpc hs
  | linkerTest => exact termOk_linkerTest h hpc hs
  | exited => simp [clientRun, hpc] at hs
  | _ =>
    -- nothing is decided here
    have hok := clientOk_run h.toClientOk hs
    have hreconnect := h.reconnect
    obtain ⟨-, hattempts, hturns, hknown, htest, -⟩ := h
    simp only [clientRun, hpc] at hs
    simp only [TermKnown, hpc] at hknown
    obtain rfl := Option.some.inj hs
    cases ok <;>
      refine ⟨hok, hattempts, hturns, fun hterm => ?_, htest, fun hpc => by cases hpc⟩
    all_goals
      have hwaits := hknown hterm
      first | exact hwaits | simp_all [Client.goto, TermKnown, TermKept]

end TermRun

/-- A `SIGTERM` in the middle of a run of statements that all succeed. -/
def interrupted (before after : ℕ) : List ClientEv :=
  List.replicate before (.run true) ++ .sigTerm :: List.replicate after (.run true)

/-- Statements that do not leave the `VTUN_SIG_HUP` of an earlier session behind: a
pass does not fail before `tunnel` while it is in `client_term`, nor the linker
before its loop while it is in `linker_term`. -/
def HupFresh (s : Client) : ClientEv → Prop
  | .run ok =>
    (s.pc = .address ∨ s.pc = .connect ∨ s.pc = .auth → ok = false → s.clientTerm ≠ .hup) ∧
    (s.pc = .buffer → ok = false → s.linkerTerm = .hup → s.hupped = true)
  | _ => True

instance (s : Client) : ∀ e, Decidable (HupFresh s e)
  | .sigTerm => .isTrue trivial
  | .sigHup => .isTrue trivial
  | .run _ => inferInstanceAs (Decidable (_ ∧ _))

/-- Where the flags are looked at next, `VTUN_SIG_HUP` comes from the session of
this pass. -/
def HupKnown (s : Client) : Prop :=
  match s.pc with
  | .test | .again | .finish => s.clientTerm = .hup → s.hupped = true
  | .linkerTest | .turn | .closing | .termOff | .hupOff | .linked =>
    s.linkerTerm = .hup → s.hupped = true
  | .down | .assign => s.ret = .hup → s.hupped = true
  | _ => True

/-- A pass that comes after a `SIGHUP`, or in persist mode after a pause. -/
def Start.Disciplined (p : Start) : Prop := p.hup = true ∨ p.slept = true ∧ p.persist = true

/-- A client that has its passes in order. -/
structure HupOk (s : Client) : Prop extends ClientOk s where
  known : HupKnown s
  starts : ∀ p ∈ s.starts.tail, p.Disciplined

theorem hupOk_start (vtunPersist hostPersist : ℤ) : HupOk (clientStart vtunPersist hostPersist) :=
  ⟨clientOk_start _ _, trivial, by simp [clientStart]⟩

theorem hupOk_sigTerm {s : Client} (h : HupOk s) : HupOk s.sigTerm := by
  have hknown := h.known
  have hstarts := h.starts
  refine ⟨clientOk_sigTerm h.toClientOk, ?_, ?_⟩
  · cases hpc : s.pc <;> cases hon : s.onTerm <;> simp_all [Client.sigTerm, HupKnown]
  · unfold Client.sigTerm
    split <;> exact hstarts

theorem hupOk_sigHup {s : Client} (h : HupOk s) : HupOk s.sigHup := by
  have hknown := h.known
  have hstarts := h.starts
  refine ⟨clientOk_sigHup h.toClientOk, ?_, ?_⟩
  · cases hpc : s.pc <;> cases hon : s.onHup <;> simp_all [Client.sigHup, HupKnown]
  · unfold Client.sigHup
    split <;> exact hstarts

/-- A disciplined pass after the others. -/
theorem disciplined_snoc {starts : List Start} {p : Start}
    (h : ∀ q ∈ starts.tail, q.Disciplined) (hp : starts ≠ [] → p.Disciplined) :
    ∀ q ∈ (starts ++ [p]).tail, q.Disciplined := by
  cases starts with
  | nil => simp
  | cons q qs => simpa using fun r hr => hr.elim (h r) fun heq => heq ▸ hp (by simp)

theorem hupOk_run {s s' : Client} {ok : Bool} (h : HupOk s) (hfresh : HupFresh s (.run ok))
    (hs : clientRun s ok = some s') : HupOk s' := by
  have hok := clientOk_run h.toClientOk hs
  obtain ⟨hclient, hknown, hstarts⟩ := h
  cases hpc : s.pc with
  | again =>
    simp only [HupKnown, hpc] at hknown
    obtain ⟨-, -, rfl⟩ | ⟨-, -, rfl⟩ | ⟨hcond, rfl⟩ := clientRun_again hpc hs
    · exact ⟨hok, trivial, hstarts⟩
    · exact ⟨hok, trivial, hstarts⟩
    · refine ⟨hok, trivial, disciplined_snoc hstarts fun hne => Or.inl (hknown ?_)⟩
      -- it is not the first pass, so the client is here for a `SIGHUP`
      by_contra hhup
      have hfalse : s.reconnect = false := by
        by_contra hre
        exact hcond ⟨by simpa using hre, hhup⟩
      exact hne (hclient.first (Or.inl hfalse))
  | sleeping =>
    simp only [clientRun, hpc] at hs
    obtain rfl := Option.some.inj hs
    exact ⟨hok, trivial,
      disciplined_snoc hstarts fun _ => Or.inr ⟨rfl, hclient.sleeping hpc⟩⟩
  | exited => simp [clientRun, hpc] at hs
  | _ =>
    -- the flags only move, and what fails has no old `VTUN_SIG_HUP` to keep
    simp only [clientRun, hpc] at hs
    simp only [HupKnown, hpc] at hknown
    try split at hs
    all_goals
      obtain rfl := Option.some.inj hs
      cases ok <;> refine ⟨hok, ?_, hstarts⟩
    all_goals first | exact hknown | exact trivial | simp_all [Client.goto, HupKnown, HupFresh]

/-- **When reconnecting is disciplined.**  In a run in which no pass keeps the
`VTUN_SIG_HUP` of an earlier session, every pass but the first comes after a
`SIGHUP` to the session of the pass before it, or after a pause in persist mode. -/
theorem reconnect_disciplined (vtunPersist hostPersist : ℤ) (es : List ClientEv) (s : Client)
    (hrun : Run.exec clientStep (clientStart vtunPersist hostPersist) es = some s)
    (hfresh : Run.Meets clientStep HupFresh (clientStart vtunPersist hostPersist) es) :
    ∀ p ∈ s.starts.tail, p.Disciplined := by
  have hstep : ∀ s e s', HupOk s → HupFresh s e → clientStep s e = some s' → HupOk s' := by
    intro s e s' h hfresh hs
    obtain ⟨ok, rfl, hrun⟩ | ⟨rfl, rfl⟩ | ⟨rfl, rfl⟩ := clientStep_cases hs
    · exact hupOk_run h hfresh hrun
    · exact hupOk_sigTerm h
    · exact hupOk_sigHup h
  exact (Run.exec_invariant hstep (hupOk_start vtunPersist hostPersist) hfresh hrun).starts

/-- A session that a `SIGHUP` ends, and statements with these outcomes after it. -/
def hungUp (after : List Bool) : List ClientEv :=
  List.replicate 16 (.run true) ++ .sigHup :: after.map .run

theorem reconnect_disciplined_hup :
    ∃ s, Run.exec clientStep (clientStart 0 0) (hungUp (List.replicate 12 true)) = some s ∧
      s.starts.length = 2 ∧ ∀ p ∈ s.starts.tail, p.Disciplined :=
  ⟨_, rfl, rfl, reconnect_disciplined 0 0 (hungUp (List.replicate 12 true)) _ rfl (by decide)⟩

/-- After a `SIGHUP` every refused connection is tried again at once, without a
pause and without `persist`. -/
theorem reconnect_undisciplined :
    ¬ ∀ (vtunPersist hostPersist : ℤ) (es : List ClientEv) (s : Client),
      Run.exec clientStep (clientStart vtunPersist hostPersist) es = some s →
        ∀ p ∈ s.starts.tail, p.Disciplined := by
  intro h
  have hbad := h 0 0 (hungUp (List.replicate 11 true ++ [false, true, true, true])) _ rfl
    ⟨false, false, false⟩ (by decide)
  exact absurd hbad (by simp [Start.Disciplined])

end Vtun
