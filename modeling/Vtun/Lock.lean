/-
Session locks (`lock.c`).

`lock_host` is a machine over its system calls: a state of `LockPc` is the call
the process makes next, and `lockNext` takes the answer of the kernel to the
next call or to the value returned.  Run against given answers it is the
function `lockHost`; run by many processes on one lock file, with arbitrary
interleaving, deaths and reuse of process numbers, it is the system `lockStep`.

* `lockHost_cases` — a lock is taken exactly when `lock_host` succeeds, and
  never when it fails;
* `lock_exclusive` — in every run in which `lock_host` never unlinks the lock of
  a live process, no two processes hold the lock;
* `lock_stolen` — without that condition two processes come to hold it.
-/
import Vtun.Host
import Vtun.Lib.Run
import Mathlib.Logic.Function.Basic

namespace Vtun

/-! ### The calls of `lock_host` -/

/-- The system call a process inside `lock_host` makes next. -/
inductive LockPc
  /-- `read_lock`: open and read the lock -/
  | reading
  /-- `read_lock`: `kill(pid, 0)` -/
  | probing (pid : ℕ)
  /-- `read_lock`: unlink a broken or stale lock -/
  | clearing
  /-- `lock_host`: `kill(pid, SIGTERM)` -/
  | terming (pid : ℕ)
  /-- `lock_host`: `kill(pid, 0)` in turn `i` of the waiting loop -/
  | waiting (pid i : ℕ)
  /-- `lock_host`: `kill(pid, SIGKILL)` -/
  | killing (pid : ℕ)
  /-- `lock_host`: unlink the lock of the killed process -/
  | removing
  /-- `create_lock`: write a temporary file and link it to the lock -/
  | creating
  /-- `create_lock`: unlink the temporary file -/
  | linked
  deriving DecidableEq, Repr

/-- The answer to a system call. -/
inductive Answer
  /-- the lock holds this number; `erange` is whether `errno` is `ERANGE` then -/
  | pid (n : ℕ) (erange : Bool)
  | ok
  /-- `ESRCH` -/
  | srch
  /-- any other failure -/
  | fail
  deriving DecidableEq, Repr

/-- What the code does with an answer. -/
inductive Next
  | call (pc : LockPc)
  | ret (r : ℤ)
  deriving DecidableEq, Repr

/-- The number of turns of the waiting loop. -/
def waitTurns : ℕ := 10

/-- `lock_host`, one system call at a time. -/
def lockNext (multi : Multi) : LockPc → Answer → Next
  -- `!pid || errno == ERANGE`: the lock is broken
  | .reading, .pid n erange => .call (if n = 0 ∨ erange then .clearing else .probing n)
  -- no lock to be opened
  | .reading, _ => .call .creating
  -- the lock is stale; `read_lock` returns -1 whether or not it could be removed
  | .probing _, .srch => .call .clearing
  | .probing n, _ =>
    match multi with
    | .kill => .call (.terming n)
    | .deny => .ret (-1)
    | .allow => .call .creating
  | .clearing, _ => .call .creating
  | .terming _, .fail => .ret (-1)
  | .terming n, _ => .call (.waiting n 0)
  -- as long as the process can be signalled it is still there
  | .waiting n i, .ok => .call (if i + 1 < waitTurns then .waiting n (i + 1) else .killing n)
  | .waiting n _, _ => .call (.killing n)
  | .killing _, .ok => .call .removing
  | .killing _, _ => .call .creating
  | .removing, _ => .call .creating
  -- `link` fails when another process has made its lock meanwhile
  | .creating, .ok => .call .linked
  | .creating, _ => .ret (-1)
  | .linked, _ => .ret 0

/-- The start of `lock_host`. -/
def lockStart (multi : Multi) : Next := if multi = .allow then .ret 0 else .call .reading

/-- A bound on the calls still to be made. -/
def Next.rank : Next → ℕ
  | .ret _ => 0
  | .call .reading => waitTurns + 8
  | .call (.probing _) => waitTurns + 7
  | .call (.terming _) => waitTurns + 6
  | .call (.waiting _ i) => 5 + (waitTurns - i)
  | .call (.killing _) => 4
  | .call .clearing => 3
  | .call .removing => 3
  | .call .creating => 2
  | .call .linked => 1

/-- Every call brings `lock_host` closer to its end. -/
theorem rank_lockNext (multi : Multi) (pc : LockPc) (a : Answer) :
    (lockNext multi pc a).rank < (Next.call pc).rank := by
  have hturns : waitTurns = 10 := rfl
  unfold lockNext
  split
  case h_4 => cases multi <;> simp [Next.rank]
  all_goals try split
  all_goals simp only [Next.rank]
  all_goals omega

/-- `lock_host` from `nxt` on, against the answers `ans`: the value returned, and
whether the lock was linked. -/
def lockLoop (multi : Multi) (ans : ℕ → Answer) (i : ℕ) (took : Bool) : Next → ℤ × Bool
  | .ret r => (r, took)
  | .call pc =>
    lockLoop multi ans (i + 1) (took || (pc = .creating && ans i = .ok))
      (lockNext multi pc (ans i))
termination_by nxt => nxt.rank
decreasing_by exact rank_lockNext multi pc (ans i)

/-- `lock_host`. -/
def lockHost (multi : Multi) (ans : ℕ → Answer) : ℤ × Bool :=
  lockLoop multi ans 0 false (lockStart multi)

/-- Whether the lock is linked when `nxt` comes: only the last call of
`create_lock` comes after the link. -/
def Next.Took : Next → Bool → Prop
  | .ret r, took => r = 0 ∧ took = true ∨ r = -1 ∧ took = false
  | .call pc, took => took = decide (pc = .linked)

theorem Next.Took.step {pc : LockPc} {took : Bool} (h : (Next.call pc).Took took)
    (multi : Multi) (a : Answer) :
    (lockNext multi pc a).Took (took || (pc = .creating && a = .ok)) := by
  obtain rfl : took = decide (pc = .linked) := h
  unfold lockNext
  split
  case h_4 => cases multi <;> simp [Next.Took]
  all_goals try split
  all_goals simp_all [Next.Took]

theorem lockLoop_took (multi : Multi) (ans : ℕ → Answer) (i : ℕ) (took : Bool) (nxt : Next)
    (h : nxt.Took took) :
    (Next.ret (lockLoop multi ans i took nxt).1).Took (lockLoop multi ans i took nxt).2 := by
  induction i, took, nxt using lockLoop.induct multi ans with
  | case1 i took r =>
    rw [lockLoop]
    exact h
  | case2 i took pc ih =>
    rw [lockLoop]
    exact ih (h.step multi (ans i))

/-- **`lock_host` takes the lock exactly when it succeeds.** -/
theorem lockHost_cases (multi : Multi) (ans : ℕ → Answer) :
    (lockHost multi ans).1 = 0 ∧ (lockHost multi ans).2 = decide (multi ≠ .allow) ∨
      (lockHost multi ans).1 = -1 ∧ (lockHost multi ans).2 = false := by
  by_cases hm : multi = .allow
  · left
    simp [lockHost, lockStart, hm, lockLoop]
  · have hstart : lockStart multi = .call .reading := by rw [lockStart, if_neg hm]
    have h := lockLoop_took multi ans 0 false (lockStart multi) (by rw [hstart]; rfl)
    simpa [lockHost, Next.Took, hm] using h

/-! ### Many processes and one lock file -/

/-- A process of the server, as far as the lock of one host is concerned. -/
inductive Proc
  /-- outside `lock_host`, without the lock -/
  | idle
  | locking (pc : LockPc)
  /-- `lock_host` returned 0 -/
  | holding
  /-- `unlock_host`, before the `unlink` -/
  | unlocking
  deriving DecidableEq, Repr

/-- The lock file, with the number written in it, and the processes by number. -/
structure LockSys where
  file : Option ℕ
  procs : ℕ → Option Proc

/-- An event of the system. -/
inductive LockEv
  | spawn (p : ℕ)
  | die (p : ℕ)
  /-- process `p` calls `lock_host` -/
  | lock (p : ℕ)
  /-- process `p` calls `unlock_host` -/
  | unlock (p : ℕ)
  /-- the pending system call of process `p` is made and answered -/
  | sys (p : ℕ) (a : Answer)
  deriving DecidableEq, Repr

/-- Process `p` goes on as `proc`, if it is still there. -/
def LockSys.set (s : LockSys) (p : ℕ) (proc : Proc) : LockSys :=
  if (s.procs p).isSome then { s with procs := Function.update s.procs p (some proc) } else s

/-- Process `p` is gone. -/
def LockSys.remove (s : LockSys) (p : ℕ) : LockSys :=
  { s with procs := Function.update s.procs p none }

/-- The answers the kernel can give to `kill(n, _)`. -/
def LockSys.killAnswer (s : LockSys) (n : ℕ) : Answer → Bool
  | .ok => (s.procs n).isSome
  | .srch => (s.procs n).isNone
  | .fail => (s.procs n).isSome
  | .pid _ _ => false

/-- The answers the kernel can give to `unlink(lock_file)`. -/
def LockSys.unlinkAnswer (s : LockSys) : Answer → Bool
  | .ok => s.file.isSome
  | .fail => true
  | _ => false

/-- The answers the kernel can give to the pending call of `lock_host`. -/
def LockSys.answers (s : LockSys) : LockPc → Answer → Bool
  | .reading, .pid n _ => s.file = some n
  | .reading, a => a = .fail
  | .probing n, a => s.killAnswer n a
  | .clearing, a => s.unlinkAnswer a
  | .terming n, a => s.killAnswer n a
  | .waiting n _, a => s.killAnswer n a
  | .killing n, a => s.killAnswer n a
  | .removing, a => s.unlinkAnswer a
  | .creating, a => a = .fail || (a = .ok && s.file.isNone)
  | .linked, a => a = .ok || a = .fail

/-- What a call of process `p` does to the file and to the other processes. -/
def LockSys.effect (s : LockSys) (p : ℕ) : LockPc → Answer → LockSys
  | .clearing, .ok => { s with file := none }
  | .removing, .ok => { s with file := none }
  | .killing n, .ok => s.remove n
  | .creating, .ok => { s with file := some p }
  | _, _ => s

/-- Where a process is after its call. -/
def Next.proc : Next → Proc
  | .call pc => .locking pc
  | .ret r => if r = 0 then .holding else .idle

/-- One step of the system. -/
def lockStep (multi : Multi) (s : LockSys) : LockEv → Option LockSys
  | .spawn p =>
    if p ≠ 0 ∧ s.procs p = none then
      some { s with procs := Function.update s.procs p (some .idle) }
    else none
  | .die p => if (s.procs p).isSome then some (s.remove p) else none
  | .lock p => if s.procs p = some .idle then some (s.set p (lockStart multi).proc) else none
  | .unlock p => if s.procs p = some .holding then some (s.set p .unlocking) else none
  | .sys p a =>
    match s.procs p with
    | some (.locking pc) =>
      if s.answers pc a then some ((s.effect p pc a).set p (lockNext multi pc a).proc) else none
    | some .unlocking =>
      if s.unlinkAnswer a then
        some (LockSys.set (if a = .ok then { s with file := none } else s) p .idle)
      else none
    | _ => none

/-! ### Mutual exclusion -/

/-- The process has linked the lock and has not yet removed it. -/
def Proc.owning : Proc → Bool
  | .locking .linked => true
  | .holding => true
  | .unlocking => true
  | _ => false

/-- The process `p` is there and owns the lock. -/
def LockSys.Owns (s : LockSys) (p : ℕ) : Prop := ∃ proc, s.procs p = some proc ∧ proc.owning = true

/-- Every owner finds its own number in the lock file. -/
def LockSys.OwnersLinked (s : LockSys) : Prop := ∀ p, s.Owns p → s.file = some p

/-- The step is not an `unlink` of `lock_host` that removes the lock of a live
process. -/
def SparesLive (s : LockSys) : LockEv → Prop
  | .sys p .ok =>
    s.procs p = some (.locking .clearing) ∨ s.procs p = some (.locking .removing) →
      ∀ q, s.file = some q → ¬ s.Owns q
  | _ => True

/-- No two processes are between the success of `lock_host` and their call of
`unlock_host`. -/
def LockSys.Exclusive (s : LockSys) : Prop :=
  ∀ p q, s.procs p = some .holding → s.procs q = some .holding → p = q

theorem LockSys.OwnersLinked.exclusive {s : LockSys} (h : s.OwnersLinked) : s.Exclusive := by
  intro p q hp hq
  have hpf := h p ⟨.holding, hp, rfl⟩
  have hqf := h q ⟨.holding, hq, rfl⟩
  exact Option.some.inj (hpf.symm.trans hqf)

theorem LockSys.owns_remove {s : LockSys} {p q : ℕ} (h : (s.remove p).Owns q) : s.Owns q := by
  obtain ⟨proc, hproc, hown⟩ := h
  simp only [LockSys.remove, Function.update_apply] at hproc
  split at hproc
  · simp at hproc
  · exact ⟨proc, hproc, hown⟩

/-- Who owns the lock after process `p` went on as `proc`. -/
theorem LockSys.owns_set {s : LockSys} {p q : ℕ} {proc : Proc} (h : (s.set p proc).Owns q) :
    q = p ∧ proc.owning = true ∨ q ≠ p ∧ s.Owns q := by
  obtain ⟨proc', hproc, hown⟩ := h
  rw [LockSys.set] at hproc
  by_cases hq : q = p
  · subst hq
    by_cases hs : (s.procs q).isSome
    · rw [if_pos hs] at hproc
      obtain rfl : proc = proc' := by simpa using hproc
      exact Or.inl ⟨rfl, hown⟩
    · rw [if_neg hs] at hproc
      simp [hproc] at hs
  · right
    refine ⟨hq, proc', ?_, hown⟩
    split at hproc
    · simpa [Function.update_apply, hq] using hproc
    · exact hproc

@[simp] theorem LockSys.file_set (s : LockSys) (p : ℕ) (proc : Proc) :
    (s.set p proc).file = s.file := by
  rw [LockSys.set]
  split <;> rfl

theorem LockSys.owns_effect {s : LockSys} {p q : ℕ} {pc : LockPc} {a : Answer}
    (h : (s.effect p pc a).Owns q) : s.Owns q := by
  unfold LockSys.effect at h
  split at h
  case h_3 => exact owns_remove h
  all_goals exact h

/-- A process owns the lock after its call only when it has just linked it, or
owned it before. -/
theorem owning_lockNext {multi : Multi} {pc : LockPc} {a : Answer}
    (h : (lockNext multi pc a).proc.owning = true) :
    pc = .creating ∧ a = .ok ∨ pc = .linked := by
  unfold lockNext at h
  split at h
  case h_4 => cases multi <;> simp [Next.proc, Proc.owning] at h
  all_goals try split at h
  all_goals simp_all [Next.proc, Proc.owning]

/-- A system call of a process inside `lock_host`. -/
theorem LockSys.OwnersLinked.call {s : LockSys} (hinv : s.OwnersLinked) {multi : Multi} {p : ℕ}
    {pc : LockPc} {a : Answer} (hp : s.procs p = some (.locking pc)) (hans : s.answers pc a = true)
    (hok : SparesLive s (.sys p a)) :
    ((s.effect p pc a).set p (lockNext multi pc a).proc).OwnersLinked := by
  intro q hq
  rw [LockSys.file_set]
  rcases LockSys.owns_set hq with ⟨rfl, hown⟩ | ⟨hne, hown⟩
  · -- the caller itself: it has just linked the lock or is about to return
    rcases owning_lockNext hown with ⟨rfl, rfl⟩ | rfl
    · rfl
    · have hfile := hinv q ⟨_, hp, rfl⟩
      cases a <;> exact hfile
  · -- another owner: the call has left the file alone
    have hqs := LockSys.owns_effect hown
    have hfile := hinv q hqs
    cases hpc : pc <;> cases ha : a <;> subst hpc <;> subst ha
    all_goals try exact hfile
    -- The three calls that change the file: two kinds of `unlink`, and `link`,
    -- which does not succeed while there is a lock.
    · exact absurd hqs (hok (Or.inl hp) q hfile)
    · exact absurd hqs (hok (Or.inr hp) q hfile)
    · simp [LockSys.answers, hfile] at hans

/-- **One step keeps the owners linked**, if it spares the live. -/
theorem LockSys.OwnersLinked.step {multi : Multi} (hm : multi ≠ .allow) {s s' : LockSys}
    {e : LockEv} (hinv : s.OwnersLinked) (hok : SparesLive s e)
    (hstep : lockStep multi s e = some s') : s'.OwnersLinked := by
  cases e with
  | spawn p =>
    simp only [lockStep, Option.ite_none_right_eq_some, Option.some.injEq] at hstep
    obtain ⟨-, rfl⟩ := hstep
    rintro q ⟨proc, hproc, hown⟩
    simp only [Function.update_apply] at hproc
    split at hproc
    · obtain rfl : Proc.idle = proc := by simpa using hproc
      simp [Proc.owning] at hown
    · exact hinv q ⟨proc, hproc, hown⟩
  | die p =>
    simp only [lockStep, Option.ite_none_right_eq_some, Option.some.injEq] at hstep
    obtain ⟨-, rfl⟩ := hstep
    intro q hq
    exact hinv q (LockSys.owns_remove hq)
  | lock p =>
    simp only [lockStep, Option.ite_none_right_eq_some, Option.some.injEq] at hstep
    obtain ⟨-, rfl⟩ := hstep
    intro q hq
    rw [LockSys.file_set]
    rcases LockSys.owns_set hq with ⟨-, hown⟩ | ⟨-, hown⟩
    · simp [lockStart, hm, Next.proc, Proc.owning] at hown
    · exact hinv q hown
  | unlock p =>
    simp only [lockStep, Option.ite_none_right_eq_some, Option.some.injEq] at hstep
    obtain ⟨hp, rfl⟩ := hstep
    intro q hq
    rw [LockSys.file_set]
    rcases LockSys.owns_set hq with ⟨rfl, -⟩ | ⟨-, hown⟩
    · exact hinv q ⟨.holding, hp, rfl⟩
    · exact hinv q hown
  | sys p a =>
    simp only [lockStep] at hstep
    split at hstep
    case h_1 pc hp =>
      rw [Option.ite_none_right_eq_some] at hstep
      obtain ⟨hans, hs'⟩ := hstep
      obtain rfl := Option.some.inj hs'
      exact hinv.call hp hans hok
    case h_2 hp =>
      rw [Option.ite_none_right_eq_some] at hstep
      obtain ⟨-, hs'⟩ := hstep
      obtain rfl := Option.some.inj hs'
      intro q hq
      have hpf := hinv p ⟨.unlocking, hp, rfl⟩
      rcases LockSys.owns_set hq with ⟨-, hown⟩ | ⟨hne, hown⟩
      · simp [Proc.owning] at hown
      · -- a second owner would have its number in the same file
        have hqs : s.Owns q := by
          split at hown
          · exact hown
          · exact hown
        have hqf := hinv q hqs
        exact absurd (Option.some.inj (hqf.symm.trans hpf)) hne
    case h_3 => simp at hstep

/-- **Mutual exclusion of the session lock.**  Whatever file is left from before
and however the processes interleave, die and are replaced: as long as no
`unlink` of `lock_host` removes the lock of a live process, no two processes
hold the lock. -/
theorem lock_exclusive (multi : Multi) (hm : multi ≠ .allow) (s : LockSys)
    (hidle : ∀ p, s.procs p = none ∨ s.procs p = some .idle) (es : List LockEv)
    (hok : Run.Meets (lockStep multi) SparesLive s es) (s' : LockSys)
    (hrun : Run.exec (lockStep multi) s es = some s') : s'.Exclusive := by
  have h0 : s.OwnersLinked := by
    rintro p ⟨proc, hproc, hown⟩
    rcases hidle p with hp | hp
    · simp [hp] at hproc
    · obtain rfl : Proc.idle = proc := by simpa [hp] using hproc
      simp [Proc.owning] at hown
  have hinv : s'.OwnersLinked :=
    Run.exec_invariant (fun s e s' hinv hok hstep => hinv.step hm hok hstep) h0 hok hrun
  exact hinv.exclusive

/-- No processes and the lock `file`. -/
def LockSys.start (file : Option ℕ) : LockSys := ⟨file, fun _ => none⟩

/-- Process 1 takes the lock; process 2 finds it alive and is refused. -/
def refusedRun : List LockEv :=
  [.spawn 1, .spawn 2, .lock 1, .sys 1 .fail, .sys 1 .ok, .sys 1 .ok, .lock 2,
    .sys 2 (.pid 1 false), .sys 2 .ok]

theorem lock_exclusive_refused :
    ∃ s, Run.exec (lockStep .deny) (.start none) refusedRun = some s ∧ s.Exclusive := by
  refine ⟨_, rfl, lock_exclusive .deny (by decide) (.start none) (fun _ => Or.inl rfl)
    refusedRun ?_ _ rfl⟩
  refine ⟨trivial, trivial, trivial, trivial, ?_, ?_, trivial, trivial, ?_, trivial⟩
  all_goals exact fun h => absurd h (by decide)

/-- Processes 1 and 2 both find process 7 dead; 2 unlinks when 1 has already
linked its own lock. -/
def stolenRun : List LockEv :=
  [.spawn 1, .spawn 2, .lock 1, .lock 2, .sys 1 (.pid 7 false), .sys 2 (.pid 7 false),
    .sys 1 .srch, .sys 2 .srch, .sys 1 .ok, .sys 1 .ok, .sys 1 .ok, .sys 2 .ok, .sys 2 .ok,
    .sys 2 .ok]

theorem lock_stolen :
    ¬ ∀ (multi : Multi) (s : LockSys) (es : List LockEv) (s' : LockSys), multi ≠ .allow →
      (∀ p, s.procs p = none ∨ s.procs p = some .idle) →
      Run.exec (lockStep multi) s es = some s' → s'.Exclusive := by
  intro hall
  have hexcl := hall .deny (.start (some 7)) stolenRun _ (by decide) (fun _ => Or.inl rfl) rfl
  exact absurd (hexcl 1 2 rfl rfl) (by decide)

end Vtun
