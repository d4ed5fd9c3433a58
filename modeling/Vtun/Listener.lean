/-
The end of the listener and of a session (`server.c`, `lock.c`).

* `server_terminates` — behind a SIGTERM the listener accepts one more connection at most;
* `lock_recovered` — the lock of a process that has died does not shut its host.
-/
import Vtun.Connections

namespace Vtun

/-! ### The end of the listener -/

/-- A step of the listener itself. -/
def ServerEv.own : ServerEv → Bool
  | .test => true
  | .accept _ => true
  | .fork _ => true
  | .close => true
  | _ => false

/-- A connection is accepted. -/
def ServerEv.accepts : ServerEv → Bool
  | .accept ok => ok
  | _ => false

/-- A bound on the steps the listener takes once `server_term` is set. -/
def ListenPc.rank : ListenPc → ℕ
  | .accepting => 4
  | .forking => 3
  | .closing => 2
  | .testing => 1
  | .left => 0

/-- The connections that can still be accepted then. -/
def ListenPc.room (pc : ListenPc) : ℕ := if pc = .accepting then 1 else 0

theorem Server.set_listener (s : Server) (p : ℕ) (c : Conn) :
    (s.set p c).pc = s.pc ∧ (s.set p c).term = s.term := by
  rw [Server.set]
  split <;> exact ⟨rfl, rfl⟩

theorem Server.effect_listener (s : Server) (p : ℕ) (name : List Byte) (pc : LockPc) (a : Answer) :
    (s.effect p name pc a).pc = s.pc ∧ (s.effect p name pc a).term = s.term := by
  unfold Server.effect
  split <;> exact ⟨rfl, rfl⟩

/-- What a connection does is no matter of the listener. -/
theorem conn_listener {s s' : Server} {e : ServerEv} (hown : e.own = false) (hterm : s.term = true)
    (hstep : serverStep s e = some s') : s'.term = true ∧ (s'.pc = s.pc ∨ s'.pc = .left) := by
  have hset : ∀ (t : Server) (p : ℕ) (c : Conn), t.pc = s.pc → t.term = s.term →
      (t.set p c).term = true ∧ ((t.set p c).pc = s.pc ∨ (t.set p c).pc = .left) := by
    intro t p c hpc ht
    obtain ⟨hpc', hterm'⟩ := t.set_listener p c
    exact ⟨hterm'.trans (ht.trans hterm), .inl (hpc'.trans hpc)⟩
  cases e with
  | test => exact absurd hown (by simp [ServerEv.own])
  | accept ok => exact absurd hown (by simp [ServerEv.own])
  | fork child => exact absurd hown (by simp [ServerEv.own])
  | close => exact absurd hown (by simp [ServerEv.own])
  | term =>
    obtain ⟨-, hstep⟩ := Option.ite_none_right_eq_some.mp hstep
    obtain rfl := Option.some.inj hstep
    exact ⟨rfl, .inl rfl⟩
  | hup hosts =>
    obtain ⟨-, hstep⟩ := Option.ite_none_right_eq_some.mp hstep
    obtain rfl := Option.some.inj hstep
    refine ⟨hterm, ?_⟩
    dsimp only
    split
    · exact .inr rfl
    · exact .inl rfl
  | spawn p =>
    obtain ⟨-, hstep⟩ := Option.ite_none_right_eq_some.mp hstep
    obtain rfl := Option.some.inj hstep
    exact ⟨hterm, .inl rfl⟩
  | die p =>
    obtain ⟨-, hstep⟩ := Option.ite_none_right_eq_some.mp hstep
    obtain rfl := Option.some.inj hstep
    exact ⟨hterm, .inl rfl⟩
  | auth p =>
    obtain ⟨c, -, hstep⟩ := Option.bind_eq_some_iff.mp hstep
    rw [Server.auth] at hstep
    split at hstep
    · obtain rfl := Option.some.inj hstep
      exact hset _ _ _ rfl rfl
    · exact absurd hstep (by simp)
  | sys p a =>
    obtain ⟨c, -, hstep⟩ := Option.bind_eq_some_iff.mp hstep
    rw [Server.call] at hstep
    split at hstep
    · rename_i g pc hpc
      obtain ⟨-, hstep⟩ := Option.ite_none_right_eq_some.mp hstep
      obtain rfl := Option.some.inj hstep
      obtain ⟨hpc', hterm'⟩ := s.effect_listener p g.host pc a
      exact hset _ _ _ hpc' hterm'
    · obtain ⟨-, hstep⟩ := Option.ite_none_right_eq_some.mp hstep
      obtain rfl := Option.some.inj hstep
      exact hset _ _ _ rfl rfl
    · exact absurd hstep (by simp)
  | ended p =>
    obtain ⟨c, -, hstep⟩ := Option.bind_eq_some_iff.mp hstep
    rw [Server.ended] at hstep
    split at hstep
    · obtain rfl := Option.some.inj hstep
      exact hset _ _ _ rfl rfl
    · exact absurd hstep (by simp)
  | exit p =>
    obtain ⟨c, -, hstep⟩ := Option.bind_eq_some_iff.mp hstep
    rw [Server.exit] at hstep
    split at hstep
    · obtain rfl := Option.some.inj hstep
      exact ⟨hterm, .inl rfl⟩
    · exact absurd hstep (by simp)

/-- A step of the listener brings it closer to its end. -/
theorem own_listener {s s' : Server} {e : ServerEv} (hown : e.own = true) (hterm : s.term = true)
    (hstep : serverStep s e = some s') :
    s'.term = true ∧ s'.pc.rank < s.pc.rank ∧
      s'.pc.room + (if e.accepts then 1 else 0) ≤ s.pc.room := by
  cases e with
  | test =>
    obtain ⟨hpc, hstep⟩ := Option.ite_none_right_eq_some.mp hstep
    obtain rfl := Option.some.inj hstep
    rw [hpc, if_pos hterm]
    exact ⟨hterm, by simp [ListenPc.rank], by simp [ListenPc.room, ServerEv.accepts]⟩
  | accept ok =>
    obtain ⟨hpc, hstep⟩ := Option.ite_none_right_eq_some.mp hstep
    obtain rfl := Option.some.inj hstep
    rw [hpc]
    refine ⟨hterm, ?_⟩
    cases ok with
    | false => simp [ListenPc.rank, ListenPc.room, ServerEv.accepts]
    | true => simp [ListenPc.rank, ListenPc.room, ServerEv.accepts]
  | fork child =>
    cases child with
    | none =>
      obtain ⟨hpc, hstep⟩ := Option.ite_none_right_eq_some.mp hstep
      obtain rfl := Option.some.inj hstep
      rw [hpc]
      exact ⟨hterm, by simp [ListenPc.rank], by simp [ListenPc.room, ServerEv.accepts]⟩
    | some child =>
      obtain ⟨⟨hpc, -⟩, hstep⟩ := Option.ite_none_right_eq_some.mp hstep
      obtain rfl := Option.some.inj hstep
      rw [hpc]
      exact ⟨hterm, by simp [ListenPc.rank], by simp [ListenPc.room, ServerEv.accepts]⟩
  | close =>
    obtain ⟨hpc, hstep⟩ := Option.ite_none_right_eq_some.mp hstep
    obtain rfl := Option.some.inj hstep
    rw [hpc]
    exact ⟨hterm, by simp [ListenPc.rank], by simp [ListenPc.room, ServerEv.accepts]⟩
  | _ => exact absurd hown (by simp [ServerEv.own])

/-- The listener on its way out. -/
theorem listener_run {s s' : Server} (hterm : s.term = true) {es : List ServerEv}
    (hrun : Run.exec serverStep s es = some s') :
    es.countP ServerEv.own + s'.pc.rank ≤ s.pc.rank ∧
      es.countP ServerEv.accepts + s'.pc.room ≤ s.pc.room := by
  induction es generalizing s with
  | nil =>
    obtain rfl := Option.some.inj hrun
    simp
  | cons e es ih =>
    obtain ⟨t, hone, hrest⟩ := Run.exec_cons.mp hrun
    rw [List.countP_cons, List.countP_cons]
    by_cases hown : e.own = true
    · obtain ⟨hterm', hrank, hroom⟩ := own_listener hown hterm hone
      obtain ⟨hrank', hroom'⟩ := ih hterm' hrest
      rw [if_pos hown]
      omega
    · have hown : e.own = false := Bool.eq_false_iff.mpr hown
      have haccepts : e.accepts = false := by cases e <;> simp_all [ServerEv.own, ServerEv.accepts]
      obtain ⟨hterm', hpc⟩ := conn_listener hown hterm hone
      obtain ⟨hrank', hroom'⟩ := ih hterm' hrest
      simp only [hown, haccepts, Bool.false_eq_true, if_false, Nat.add_zero]
      rcases hpc with hpc | hpc
      · rw [← hpc]
        exact ⟨hrank', hroom'⟩
      · rw [hpc] at hrank' hroom'
        exact ⟨hrank'.trans (Nat.zero_le _), hroom'.trans (Nat.zero_le _)⟩

/-- How many calls process `p` still has to make until it serves `h`, when the lock of `h`
was left by the process `q`. -/
inductive Recovers (q p : ℕ) (h : VtunHost) : Option ℕ → ConnPc → ℕ → Prop
  | reading : Recovers q p h (some q) (.locking h .reading) 5
  | probing : Recovers q p h (some q) (.locking h (.probing q)) 4
  | clearing : Recovers q p h (some q) (.locking h .clearing) 3
  | creating : Recovers q p h none (.locking h .creating) 2
  | linked : Recovers q p h (some p) (.locking h .linked) 1
  | serving : Recovers q p h (some p) (.serving h) 0

/-- A process that has died, and one that wants its lock, after `n` of its calls. -/
def Recovering (q p : ℕ) (h : VtunHost) (n : ℕ) (s : Server) : Prop :=
  s.procs q = none ∧ ∃ c k, s.conn p = some c ∧ Recovers q p h (s.files h.host) c.pc k ∧ n + k ≤ 5

/-- A call of process `p`. -/
def ServerEv.isCall (p : ℕ) : ServerEv → Bool
  | .sys q _ => q = p
  | _ => false

/-- The calls of `p` do not fail for no reason, and nothing else touches the lock of the host,
the number that is left in it, or the process. -/
def Undisturbs (q p : ℕ) (name : List Byte) (s : Server) (e : ServerEv) : Prop :=
  (∃ a, a ≠ .fail ∧ e = .sys p a) ∨ e.isCall p = false ∧ ∀ s', serverStep s e = some s' →
    s'.files name = s.files name ∧ s'.procs q = s.procs q ∧ s'.procs p = s.procs p

theorem Server.files_set (s : Server) (p : ℕ) (c : Conn) : (s.set p c).files = s.files := by
  rw [Server.set]
  split <;> rfl

theorem Server.conn_set {s : Server} {p : ℕ} (hp : (s.procs p).isSome = true) (c : Conn) :
    (s.set p c).conn p = some c := by
  rw [Server.conn_eq_some, Server.set, if_pos hp]
  exact Function.update_self ..

theorem Server.procs_set_of_ne {s : Server} {p q : ℕ} (hne : q ≠ p) (c : Conn) :
    (s.set p c).procs q = s.procs q := by
  rw [Server.set]
  split
  · exact Function.update_of_ne hne _ _
  · rfl

/-- **A call brings the process closer to its session.** -/
theorem recovering_call {q p : ℕ} {h : VtunHost} {n : ℕ} {s s' : Server} {a : Answer}
    (hrec : Recovering q p h n s) (ha : a ≠ .fail) (hstep : serverStep s (.sys p a) = some s') :
    Recovering q p h (n + 1) s' := by
  obtain ⟨hdead, c, k, hc, hat, hle⟩ := hrec
  obtain ⟨c', hc', hstep⟩ := Option.bind_eq_some_iff.mp hstep
  obtain rfl : c = c' := Option.some.inj (hc.symm.trans hc')
  have hproc : s.procs p = some (.conn c) := Server.conn_eq_some.mp hc
  have hne : q ≠ p := by
    rintro rfl
    exact absurd (hdead.symm.trans hproc) (by simp)
  -- the process goes on, and the file is what the call leaves
  have hnext : ∀ (t : Server) (d : Conn) (k' : ℕ), t.procs = s.procs →
      Recovers q p h (t.files h.host) d.pc k' → k' + 1 ≤ k →
        Recovering q p h (n + 1) (t.set p d) := by
    intro t d k' hprocs hat' hk
    refine ⟨?_, d, k', Server.conn_set ?_ d, ?_, by omega⟩
    · rw [Server.procs_set_of_ne hne, hprocs, hdead]
    · rw [hprocs, hproc]
      rfl
    · rwa [Server.files_set]
  have hanswers : ∀ pc, c.pc = .locking h pc → ∃ d, d.pc = (lockNext h.multi pc a).conn h ∧
      (s.view h.host).answers pc a = true ∧ (s.effect p h.host pc a).set p d = s' := by
    intro pc hpc
    rw [Server.call, hpc] at hstep
    obtain ⟨hans, hstep⟩ := Option.ite_none_right_eq_some.mp hstep
    exact ⟨_, rfl, hans, Option.some.inj hstep⟩
  have hgone : ((s.view h.host).procs q).isSome = false := by simp [Server.view, hdead]
  generalize hfile : s.files h.host = file at hat
  generalize hpc : c.pc = pc at hat
  cases hat with
  | reading =>
    obtain ⟨d, hd, hans, rfl⟩ := hanswers _ hpc
    cases a with
    | pid m erange =>
      obtain rfl : q = m := by
        have hm : s.files h.host = some m := of_decide_eq_true hans
        exact Option.some.inj (hfile.symm.trans hm)
      by_cases hbroken : q = 0 ∨ erange = true
      · rw [lockNext, if_pos hbroken] at hd
        exact hnext s d 3 rfl (hfile ▸ hd ▸ .clearing) (by omega)
      · rw [lockNext, if_neg hbroken] at hd
        exact hnext s d 4 rfl (hfile ▸ hd ▸ .probing) (by omega)
    | fail => exact absurd rfl ha
    | ok => exact absurd hans (by simp [LockSys.answers])
    | srch => exact absurd hans (by simp [LockSys.answers])
  | probing =>
    obtain ⟨d, hd, hans, rfl⟩ := hanswers _ hpc
    cases a with
    | srch => exact hnext s d 3 rfl (hfile ▸ hd ▸ .clearing) (by omega)
    | fail => exact absurd rfl ha
    | ok => exact absurd (hgone.symm.trans hans) (by simp)
    | pid m erange => exact absurd hans (by simp [LockSys.answers, LockSys.killAnswer])
  | clearing =>
    obtain ⟨d, hd, hans, rfl⟩ := hanswers _ hpc
    cases a with
    | ok =>
      refine hnext _ d 2 rfl ?_ (by omega)
      rw [hd]
      have hnone : (s.effect p h.host .clearing .ok).files h.host = none := Function.update_self ..
      rw [hnone]
      exact .creating
    | fail => exact absurd rfl ha
    | srch => exact absurd hans (by simp [LockSys.answers, LockSys.unlinkAnswer])
    | pid m erange => exact absurd hans (by simp [LockSys.answers, LockSys.unlinkAnswer])
  | creating =>
    obtain ⟨d, hd, hans, rfl⟩ := hanswers _ hpc
    cases a with
    | ok =>
      refine hnext _ d 1 rfl ?_ (by omega)
      rw [hd]
      have hown : (s.effect p h.host .creating .ok).files h.host = some p := Function.update_self ..
      rw [hown]
      exact .linked
    | fail => exact absurd rfl ha
    | srch => exact absurd hans (by simp [LockSys.answers])
    | pid m erange => exact absurd hans (by simp [LockSys.answers])
  | linked =>
    obtain ⟨d, hd, -, rfl⟩ := hanswers _ hpc
    refine hnext _ d 0 ?_ ?_ (by omega)
    · cases a <;> rfl
    · have hkept : (s.effect p h.host .linked a).files = s.files := by cases a <;> rfl
      rw [hkept, hfile, hd]
      exact .serving
  | serving =>
    rw [Server.call, hpc] at hstep
    exact absurd hstep (by simp)

/-- As long as the process is not serving its host, its next call can be answered. -/
theorem Recovering.progress {q p : ℕ} {h : VtunHost} {n : ℕ} {s : Server}
    (hrec : Recovering q p h n s) :
    ∃ c, s.conn p = some c ∧ (c.pc = .serving h ∨
      ∃ a, a ≠ .fail ∧ (serverStep s (.sys p a)).isSome = true) := by
  obtain ⟨hdead, c, k, hc, hat, -⟩ := hrec
  refine ⟨c, hc, ?_⟩
  have hcall : ∀ pc a, c.pc = .locking h pc → (s.view h.host).answers pc a = true →
      (serverStep s (.sys p a)).isSome = true := by
    intro pc a hpc hans
    rw [serverStep, hc, Option.bind_some, Server.call, hpc]
    dsimp only
    rw [if_pos hans]
    rfl
  have hgone : ((s.view h.host).procs q).isNone = true := by simp [Server.view, hdead]
  generalize hfile : s.files h.host = file at hat
  generalize hpc : c.pc = pc at hat
  have hview : (s.view h.host).file = file := hfile
  cases hat with
  | reading =>
    refine .inr ⟨.pid q false, by simp, hcall _ _ hpc ?_⟩
    exact decide_eq_true hview
  | probing => exact .inr ⟨.srch, by simp, hcall _ _ hpc hgone⟩
  | clearing =>
    refine .inr ⟨.ok, by simp, hcall _ _ hpc ?_⟩
    simp [LockSys.answers, LockSys.unlinkAnswer, hview]
  | creating =>
    refine .inr ⟨.ok, by simp, hcall _ _ hpc ?_⟩
    simp [LockSys.answers, hview]
  | linked => exact .inr ⟨.ok, by simp, hcall _ _ hpc rfl⟩
  | serving => exact .inl rfl

/-- **The lock of a process that has died does not shut its host.**  A new connection to the
host makes at most five calls and never fails: it serves the host, or can go on. -/
theorem lock_recovered (s : Server) (q p : ℕ) (c : Conn) (h : VtunHost)
    (hdead : s.procs q = none) (hfile : s.files h.host = some q) (hc : s.procs p = some (.conn c))
    (hpc : c.pc = .locking h .reading) (es : List ServerEv)
    (hok : Run.Meets serverStep (Undisturbs q p h.host) s es) (s' : Server)
    (hrun : Run.exec serverStep s es = some s') :
    es.countP (ServerEv.isCall p) ≤ 5 ∧ ∃ d, s'.procs p = some (.conn d) ∧
      (d.pc = .serving h ∨ ∃ a, a ≠ .fail ∧ (serverStep s' (.sys p a)).isSome = true) := by
  have hrec : Recovering q p h 0 s :=
    ⟨hdead, c, 5, Server.conn_eq_some.mpr hc, hpc ▸ hfile ▸ .reading, le_rfl⟩
  have hruns : ∀ (es : List ServerEv) (s : Server) (n : ℕ), Recovering q p h n s →
      Run.Meets serverStep (Undisturbs q p h.host) s es → Run.exec serverStep s es = some s' →
        Recovering q p h (n + es.countP (ServerEv.isCall p)) s' := by
    intro es
    induction es with
    | nil =>
      intro s n hrec _ hrun
      obtain rfl := Option.some.inj hrun
      exact hrec
    | cons e es ih =>
      intro s n hrec hok hrun
      obtain ⟨t, hone, hrest⟩ := Run.exec_cons.mp hrun
      rw [Run.Meets, hone] at hok
      obtain ⟨hstep, hok⟩ := hok
      rw [List.countP_cons]
      rcases hstep with ⟨a, ha, rfl⟩ | ⟨hcall, hother⟩
      · have hcall : (ServerEv.sys p a).isCall p = true := decide_eq_true rfl
        rw [if_pos hcall, Nat.add_comm _ 1, ← Nat.add_assoc]
        exact ih t (n + 1) (recovering_call hrec ha hone) hok hrest
      · rw [hcall, if_neg (by simp)]
        refine ih t n ?_ hok hrest
        obtain ⟨hfiles, hq, hp⟩ := hother t hone
        obtain ⟨hdead, c, k, hc, hat, hle⟩ := hrec
        exact ⟨hq.trans hdead, c, k, (Server.conn_congr hp).trans hc, hfiles ▸ hat, hle⟩
  have hend := hruns es s 0 hrec hok hrun
  obtain ⟨d, hd, hgoes⟩ := hend.progress
  obtain ⟨-, -, k, -, -, hle⟩ := hend
  exact ⟨by omega, d, Server.conn_eq_some.mp hd, hgoes⟩

/-- The lock is the one of process 7, which has died. -/
def recoveredRun : List ServerEv :=
  [.sys 5 (.pid 7 false), .sys 5 .srch, .sys 5 .ok, .sys 5 .ok, .sys 5 .ok]

/-- The host whose lock is about to be read. -/
def ConnPc.reads : ConnPc → Option VtunHost
  | .locking h .reading => some h
  | _ => none

theorem ConnPc.reads_eq_some {pc : ConnPc} {h : VtunHost} (hpc : pc.reads = some h) :
    pc = .locking h .reading := by
  unfold reads at hpc
  split at hpc
  · rw [Option.some.inj hpc]
  · exact absurd hpc (by simp)

theorem lock_recovered_lion :
    ∃ s s' d, Run.exec serverStep (lionServer (some 7)) forkedRun = some s ∧
      Run.exec serverStep s recoveredRun = some s' ∧ s'.procs 5 = some (.conn d) ∧
        (d.pc = .serving denyHost ∨
          ∃ a, a ≠ .fail ∧ (serverStep s' (.sys 5 a)).isSome = true) := by
  have hall : (Run.exec serverStep (lionServer (some 7)) forkedRun).bind (fun s =>
      (s.conn 5).map fun c =>
        ((c.pc.reads, (s.procs 7).isNone),
          (s.files (lit "lion"), (Run.exec serverStep s recoveredRun).isSome))) =
        some ((some denyHost, true), (some 7, true)) := by
    decide +kernel
  obtain ⟨s, hrun, hconn⟩ := Option.bind_eq_some_iff.mp hall
  obtain ⟨c, hc, hpair⟩ := Option.map_eq_some_iff.mp hconn
  simp only [Prod.mk.injEq] at hpair
  obtain ⟨⟨hlocking, hdead⟩, hfile, hrest⟩ := hpair
  obtain ⟨s', hrun'⟩ := Option.isSome_iff_exists.mp hrest
  have hcalls : ∀ e ∈ recoveredRun, ∃ a, a ≠ .fail ∧ e = .sys 5 a := by
    simp [recoveredRun]
  obtain ⟨-, d, hd, hgoes⟩ := lock_recovered s 7 5 c denyHost (Option.isNone_iff_eq_none.mp hdead)
    hfile (Server.conn_eq_some.mp hc) (ConnPc.reads_eq_some hlocking) recoveredRun
    (Run.meets_of_mem fun e he _ => .inl (hcalls e he)) s' hrun'
  exact ⟨s, s', d, hrun, hrun', hd, hgoes⟩

end Vtun
