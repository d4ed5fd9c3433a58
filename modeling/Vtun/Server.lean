/-
The standing server (`server.c`).

The listener accepts connections and forks a process for each.  The processes authenticate
their peers, take the locks of their hosts and run their tunnels side by side; some of them are
killed, also by each other.

* `Server`, `serverStep` — the listener, the lock files and the processes;
* `Server.view` — the lock of one host and its processes;
* `view_step` — seen from one host, every step of the server is a step of its lock or nothing.
-/
import Vtun.AuthClient

namespace Vtun

/-! ### The server -/

/-- What a process of a connection does next. -/
inductive ConnPc
  /-- `auth_server`, up to `lock_host` -/
  | greeting
  /-- a call of `lock_host` -/
  | locking (h : VtunHost) (pc : LockPc)
  /-- `tunnel` -/
  | serving (h : VtunHost)
  /-- the `unlink` of `unlock_host` -/
  | unlocking (h : VtunHost)
  /-- `close` and `exit`, behind the session or the denial -/
  | closing (h : Option VtunHost)

/-- A connection: what its peer sends and what `auth_server` depends on, and the answers to
the calls of `lock_host` so far. -/
structure Conn where
  env : AuthEnv
  fd : Input
  buf : List Byte
  got : List Answer
  pc : ConnPc

/-- A process of the machine. -/
inductive ServerProc
  | other
  | conn (c : Conn)

/-- What the listener does next. -/
inductive ListenPc
  /-- the condition of the loop -/
  | testing
  | accepting
  | forking
  /-- `close` of the socket that the child has now -/
  | closing
  | left
  deriving DecidableEq, Repr

/-- The listener with its `host_list` and `server_term`, the lock files by host and the
processes by number. -/
structure Server where
  pc : ListenPc
  hosts : List VtunHost
  term : Bool
  files : List Byte → Option ℕ
  procs : ℕ → Option ServerProc

/-- What can happen next. -/
inductive ServerEv
  | test
  | accept (ok : Bool)
  /-- `fork`: the number of the child with what it will meet, or -1 -/
  | fork (child : Option (ℕ × AuthEnv × Input × List Byte))
  | close
  /-- SIGTERM or SIGINT -/
  | term
  /-- SIGHUP, and the hosts that are then defined -/
  | hup (hosts : List VtunHost)
  /-- some other process starts -/
  | spawn (p : ℕ)
  | die (p : ℕ)
  /-- `auth_server` comes to `lock_host`, or gives up -/
  | auth (p : ℕ)
  /-- the pending call on the lock is made and answered -/
  | sys (p : ℕ) (a : Answer)
  /-- `tunnel` returns -/
  | ended (p : ℕ)
  | exit (p : ℕ)

/-- The host whose lock `auth_server` goes for. -/
def Conn.target (c : Conn) : Option VtunHost :=
  (authServer { c.env with ans := fun _ => .ok } c.fd c.buf).h

/-- What a connection does when `lock_host` goes on. -/
def Next.conn (h : VtunHost) : Next → ConnPc
  | .call pc => .locking h pc
  | .ret r => if r < 0 then .closing none else .serving h

/-- The process as far as the lock of `name` is concerned. -/
def ServerProc.lockProc (name : List Byte) : ServerProc → Proc
  | .other => .idle
  | .conn c =>
    match c.pc with
    | .locking h pc => if h.host = name then .locking pc else .idle
    | .serving h => if h.host = name ∧ h.multi ≠ .allow then .holding else .idle
    | .unlocking h => if h.host = name then .unlocking else .idle
    | _ => .idle

/-- The lock of one host and its processes. -/
def Server.view (s : Server) (name : List Byte) : LockSys where
  file := s.files name
  procs p := (s.procs p).map (ServerProc.lockProc name)

/-- Process `p` goes on, if it is still there. -/
def Server.set (s : Server) (p : ℕ) (c : Conn) : Server :=
  if (s.procs p).isSome then { s with procs := Function.update s.procs p (some (.conn c)) } else s

/-- What a call of process `p` does to the lock of `name` and to the other processes. -/
def Server.effect (s : Server) (p : ℕ) (name : List Byte) : LockPc → Answer → Server
  | .clearing, .ok => { s with files := Function.update s.files name none }
  | .removing, .ok => { s with files := Function.update s.files name none }
  | .killing n, .ok => { s with procs := Function.update s.procs n none }
  | .creating, .ok => { s with files := Function.update s.files name (some p) }
  | _, _ => s

/-- The connection of process `p`. -/
def Server.conn (s : Server) (p : ℕ) : Option Conn :=
  match s.procs p with
  | some (.conn c) => some c
  | _ => none

/-- The connection `c` of process `p` comes to `lock_host`, or gives up. -/
def Server.auth (s : Server) (p : ℕ) (c : Conn) : Option Server :=
  match c.pc with
  | .greeting =>
    let pc := match c.target with
      | none => .closing none
      | some h => (lockStart h.multi).conn h
    some (s.set p { c with pc := pc })
  | _ => none

/-- Its pending call is made and answered. -/
def Server.call (s : Server) (p : ℕ) (c : Conn) (a : Answer) : Option Server :=
  match c.pc with
  | .locking h pc =>
    if (s.view h.host).answers pc a then
      let c := { c with got := c.got ++ [a], pc := (lockNext h.multi pc a).conn h }
      some ((s.effect p h.host pc a).set p c)
    else none
  | .unlocking h =>
    if (s.view h.host).unlinkAnswer a then
      let files := if a = .ok then Function.update s.files h.host none else s.files
      some (({ s with files := files } : Server).set p { c with pc := .closing (some h) })
    else none
  | _ => none

/-- Its tunnel returns. -/
def Server.ended (s : Server) (p : ℕ) (c : Conn) : Option Server :=
  match c.pc with
  | .serving h =>
    let pc := if h.multi = .allow then .closing (some h) else .unlocking h
    some (s.set p { c with pc := pc })
  | _ => none

/-- It exits. -/
def Server.exit (s : Server) (p : ℕ) (c : Conn) : Option Server :=
  match c.pc with
  | .closing _ => some { s with procs := Function.update s.procs p none }
  | _ => none

/-- One step of the server. -/
def serverStep (s : Server) : ServerEv → Option Server
  | .test =>
    if s.pc = .testing then some { s with pc := if s.term then .left else .accepting } else none
  | .accept ok =>
    if s.pc = .accepting then some { s with pc := if ok then .forking else .testing } else none
  | .fork none => if s.pc = .forking then some { s with pc := .closing } else none
  | .fork (some (p, env, fd, buf)) =>
    if s.pc = .forking ∧ p ≠ 0 ∧ s.procs p = none then
      let c : Conn := ⟨{ env with hosts := s.hosts }, fd, buf, [], .greeting⟩
      some { s with pc := .closing, procs := Function.update s.procs p (some (.conn c)) }
    else none
  | .close => if s.pc = .closing then some { s with pc := .testing } else none
  | .term => if s.pc ≠ .left then some { s with term := true } else none
  -- `reread_config` exits when no host is defined
  | .hup hosts =>
    if s.pc ≠ .left then
      some { s with hosts := hosts, pc := if hosts = [] then .left else s.pc }
    else none
  | .spawn p =>
    if p ≠ 0 ∧ s.procs p = none then
      some { s with procs := Function.update s.procs p (some .other) }
    else none
  | .die p =>
    if (s.procs p).isSome then some { s with procs := Function.update s.procs p none } else none
  | .auth p => (s.conn p).bind (s.auth p)
  | .sys p a => (s.conn p).bind (s.call p · a)
  | .ended p => (s.conn p).bind (s.ended p)
  | .exit p => (s.conn p).bind (s.exit p)

/-! ### The lock of one host -/

theorem Server.conn_eq_some {s : Server} {p : ℕ} {c : Conn} :
    s.conn p = some c ↔ s.procs p = some (.conn c) := by
  rw [Server.conn]
  split
  · rename_i c' h
    rw [h]
    simp
  · rename_i h
    exact ⟨fun h' => absurd h' (by simp), fun h' => absurd h' (h c)⟩

theorem LockSys.set_self {s : LockSys} {p : ℕ} {proc : Proc} (h : s.procs p = some proc) :
    s.set p proc = s := by
  rw [LockSys.set]
  split
  · rw [← h, Function.update_eq_self]
  · rfl

/-- A process that is gone does not go on. -/
theorem LockSys.set_remove {s : LockSys} {p n : ℕ} {proc : Proc} (h : s.procs p = some proc) :
    (s.remove n).set p proc = s.remove n := by
  by_cases hn : p = n
  · have hgone : (s.remove n).procs p = none := by simp [LockSys.remove, hn]
    rw [LockSys.set, hgone]
    rfl
  · exact LockSys.set_self ((Function.update_of_ne hn _ _).trans h)

/-- A connection that goes on, seen from a host. -/
theorem Server.view_set (s : Server) (p : ℕ) (c : Conn) (name : List Byte) :
    (s.set p c).view name = (s.view name).set p ((ServerProc.conn c).lockProc name) := by
  have hsome : ((s.view name).procs p).isSome = (s.procs p).isSome := Option.isSome_map
  rw [Server.set, LockSys.set, hsome]
  split
  · rw [Server.view, Server.view, LockSys.mk.injEq]
    refine ⟨rfl, funext fun q => ?_⟩
    dsimp only
    rw [Function.update_apply, Function.update_apply]
    split <;> rfl
  · rfl

/-- A process that is gone. -/
theorem Server.view_remove (s : Server) (p : ℕ) (name : List Byte) :
    ({ s with procs := Function.update s.procs p none } : Server).view name =
      (s.view name).remove p := by
  rw [Server.view, Server.view, LockSys.remove, LockSys.mk.injEq]
  refine ⟨rfl, funext fun q => ?_⟩
  dsimp only
  rw [Function.update_apply, Function.update_apply]
  split <;> rfl

/-- A process that has just started. -/
theorem Server.view_spawn (s : Server) (p : ℕ) (proc : ServerProc) (name : List Byte)
    (hidle : proc.lockProc name = .idle) :
    ({ s with procs := Function.update s.procs p (some proc) } : Server).view name =
      { s.view name with procs := Function.update (s.view name).procs p (some .idle) } := by
  rw [Server.view, Server.view, LockSys.mk.injEq]
  refine ⟨rfl, funext fun q => ?_⟩
  dsimp only
  rw [Function.update_apply, Function.update_apply]
  split
  · rw [Option.map_some, hidle]
  · rfl

/-- A call on the lock of the host. -/
theorem Server.view_effect (s : Server) (p : ℕ) (name : List Byte) (pc : LockPc) (a : Answer) :
    (s.effect p name pc a).view name = (s.view name).effect p pc a := by
  cases pc <;> cases a <;> try rfl
  case clearing.ok => simp [effect, view, LockSys.effect]
  case killing.ok => exact view_remove ..
  case removing.ok => simp [effect, view, LockSys.effect]
  case creating.ok => simp [effect, view, LockSys.effect]

/-- A call on the lock of another host can only kill a process. -/
theorem Server.view_effect_other (s : Server) (p : ℕ) {name other : List Byte} (hne : name ≠ other)
    (pc : LockPc) (a : Answer) :
    (s.effect p other pc a).view name = s.view name ∨
      ∃ n, pc = .killing n ∧ a = .ok ∧
        (s.effect p other pc a).view name = (s.view name).remove n := by
  cases pc <;> cases a <;> try exact .inl rfl
  case clearing.ok => exact .inl (by simp [effect, view, Function.update_of_ne hne])
  case killing.ok n => exact .inr ⟨n, rfl, rfl, view_remove ..⟩
  case removing.ok => exact .inl (by simp [effect, view, Function.update_of_ne hne])
  case creating.ok => exact .inl (by simp [effect, view, Function.update_of_ne hne])

/-- What `lock_host` does next, as a process. -/
theorem lockProc_conn {name : List Byte} {h : VtunHost} (hname : h.host = name)
    (hm : h.multi ≠ .allow) (c : Conn) (nxt : Next) (hret : ∀ r, nxt = .ret r → r = 0 ∨ r = -1) :
    (ServerProc.conn { c with pc := nxt.conn h }).lockProc name = nxt.proc := by
  cases nxt with
  | call pc => simp [ServerProc.lockProc, Next.conn, Next.proc, hname]
  | ret r =>
    rcases hret r rfl with rfl | rfl
    · simp [ServerProc.lockProc, Next.conn, Next.proc, hname, hm]
    · simp [ServerProc.lockProc, Next.conn, Next.proc]

theorem lockProc_other {name : List Byte} {h : VtunHost} (hname : h.host ≠ name) (c : Conn)
    (nxt : Next) : (ServerProc.conn { c with pc := nxt.conn h }).lockProc name = .idle := by
  cases nxt with
  | call pc => simp [ServerProc.lockProc, Next.conn, hname]
  | ret r =>
    rw [Next.conn]
    split
    · rfl
    · simp [ServerProc.lockProc, hname]

theorem lockNext_ret {multi : Multi} {pc : LockPc} {a : Answer} {r : ℤ}
    (h : lockNext multi pc a = .ret r) : r = 0 ∨ r = -1 := by
  unfold lockNext at h
  split at h
  case h_4 => cases multi <;> simp_all
  all_goals try split at h
  all_goals simp_all

/-- The host whose lock is being taken or given back wants its sessions one at a time. -/
def Conn.Locks (c : Conn) : Prop :=
  match c.pc with
  | .locking h _ => h.multi ≠ .allow
  | .unlocking h => h.multi ≠ .allow
  | _ => True

/-- A step of the lock of a host, when the server takes the step `e`. -/
def LockStepped (v v' : LockSys) (e : ServerEv) : Prop :=
  v' = v ∨ ∃ multi e', multi ≠ .allow ∧ lockStep multi v e' = some v' ∧
    ∀ p a, e' = .sys p a → e = .sys p a

section View

variable {s s' : Server} {e : ServerEv} {name : List Byte} {p : ℕ}

/-- A step that the processes and the files do not notice. -/
theorem LockStepped.same (hfiles : s'.files = s.files) (hprocs : s'.procs = s.procs) :
    LockStepped (s.view name) (s'.view name) e :=
  .inl (by rw [Server.view, Server.view, hfiles, hprocs])

/-- A new process. -/
theorem LockStepped.spawned {proc : ServerProc} (hp : p ≠ 0) (hnone : s.procs p = none)
    (hidle : proc.lockProc name = .idle) (hfiles : s'.files = s.files)
    (hprocs : s'.procs = Function.update s.procs p (some proc)) :
    LockStepped (s.view name) (s'.view name) e := by
  refine .inr ⟨.deny, .spawn p, by decide, ?_, by simp⟩
  have hview : (s.view name).procs p = none := by simp [Server.view, hnone]
  have heq : s'.view name =
      ({ s with procs := Function.update s.procs p (some proc) } : Server).view name := by
    rw [Server.view, Server.view, hfiles, hprocs]
  rw [lockStep, if_pos ⟨hp, hview⟩, heq, Server.view_spawn s p proc name hidle]

/-- A process that is gone. -/
theorem LockStepped.died (hsome : (s.procs p).isSome = true) (hfiles : s'.files = s.files)
    (hprocs : s'.procs = Function.update s.procs p none) :
    LockStepped (s.view name) (s'.view name) e := by
  refine .inr ⟨.deny, .die p, by decide, ?_, by simp⟩
  have hview : ((s.view name).procs p).isSome = true := by
    rwa [Server.view, Option.isSome_map]
  have heq : s'.view name =
      ({ s with procs := Function.update s.procs p none } : Server).view name := by
    rw [Server.view, Server.view, hfiles, hprocs]
  rw [lockStep, if_pos hview, heq, Server.view_remove]

/-- What a host sees of a process. -/
theorem Server.view_procs {c : Conn} (hc : s.conn p = some c) :
    (s.view name).procs p = some ((ServerProc.conn c).lockProc name) := by
  rw [Server.view]
  dsimp only
  rw [Server.conn_eq_some.mp hc, Option.map_some]

/-- A connection goes on, and the host does not notice. -/
theorem LockStepped.went {c c' : Conn} (hc : s.conn p = some c)
    (hsame : (ServerProc.conn c').lockProc name = (ServerProc.conn c).lockProc name) :
    LockStepped (s.view name) ((s.set p c').view name) e := by
  refine .inl ?_
  rw [Server.view_set, hsame]
  exact LockSys.set_self (Server.view_procs hc)

/-- `lock_host` is called. -/
theorem lockStepped_auth {c : Conn} (hc : s.conn p = some c) (hstep : s.auth p c = some s') :
    LockStepped (s.view name) (s'.view name) e := by
  rw [Server.auth] at hstep
  split at hstep
  swap
  · exact absurd hstep (by simp)
  rename_i hpc
  obtain rfl := Option.some.inj hstep
  have hidle : (ServerProc.conn c).lockProc name = .idle := by simp [ServerProc.lockProc, hpc]
  cases htarget : c.target with
  | none => exact .went hc (hidle ▸ rfl)
  | some h =>
    dsimp only
    by_cases hlock : h.host = name ∧ h.multi ≠ .allow
    · refine .inr ⟨h.multi, .lock p, hlock.2, ?_, by simp⟩
      have hview : (s.view name).procs p = some .idle := by rw [Server.view_procs hc, hidle]
      rw [lockStep, if_pos hview, Server.view_set, lockProc_conn hlock.1 hlock.2]
      intro r hr
      rw [lockStart, if_neg hlock.2] at hr
      exact absurd hr (by simp)
    · refine .went hc (Eq.trans ?_ hidle.symm)
      rw [lockStart]
      split
      · rename_i hm
        simp [ServerProc.lockProc, Next.conn, hm]
      · rename_i hm
        have hother : h.host ≠ name := fun h' => hlock ⟨h', hm⟩
        simp [ServerProc.lockProc, Next.conn, hother]

/-- A call on a lock. -/
theorem lockStepped_call {c : Conn} {a : Answer} (hc : s.conn p = some c) (hlocks : c.Locks)
    (hstep : s.call p c a = some s') :
    LockStepped (s.view name) (s'.view name) (.sys p a) := by
  rw [Server.call] at hstep
  rw [Conn.Locks] at hlocks
  split at hstep
  · rename_i h pc hpc
    rw [hpc] at hlocks
    rw [Option.ite_none_right_eq_some] at hstep
    obtain ⟨hans, hstep⟩ := hstep
    obtain rfl := Option.some.inj hstep
    by_cases hname : h.host = name
    · subst hname
      refine .inr ⟨h.multi, .sys p a, hlocks, ?_, by simp⟩
      have hview : (s.view h.host).procs p = some (.locking pc) := by
        rw [Server.view_procs hc]
        simp [ServerProc.lockProc, hpc]
      rw [lockStep, hview]
      dsimp only
      rw [if_pos hans, Server.view_set, Server.view_effect,
        lockProc_conn rfl hlocks { c with got := c.got ++ [a] }]
      exact fun r hr => lockNext_ret hr
    · have hidle : (s.view name).procs p = some .idle := by
        rw [Server.view_procs hc]
        simp [ServerProc.lockProc, hpc, hname]
      rw [Server.view_set, lockProc_other hname { c with got := c.got ++ [a] }]
      rcases Server.view_effect_other s p (Ne.symm hname) pc a with heq | ⟨n, rfl, rfl, heq⟩
      · rw [heq, LockSys.set_self hidle]
        exact .inl rfl
      -- the process that is killed is one of every host
      · rw [heq, LockSys.set_remove hidle]
        refine .inr ⟨.deny, .die n, by decide, ?_, by simp⟩
        have hsome : ((s.view name).procs n).isSome = true := by
          have halive : ((s.view h.host).procs n).isSome = true := hans
          rw [Server.view, Option.isSome_map] at halive ⊢
          exact halive
        rw [lockStep, if_pos hsome]
  · rename_i h hpc
    rw [hpc] at hlocks
    rw [Option.ite_none_right_eq_some] at hstep
    obtain ⟨hans, hstep⟩ := hstep
    obtain rfl := Option.some.inj hstep
    rw [Server.view_set]
    by_cases hname : h.host = name
    · subst hname
      refine .inr ⟨h.multi, .sys p a, hlocks, ?_, by simp⟩
      have hview : (s.view h.host).procs p = some .unlocking := by
        rw [Server.view_procs hc]
        simp [ServerProc.lockProc, hpc]
      rw [lockStep, hview]
      dsimp only
      rw [if_pos hans]
      refine congrArg some (congrArg (fun v => LockSys.set v p .idle) ?_)
      split
      · simp [Server.view]
      · rfl
    · have hidle : (s.view name).procs p = some .idle := by
        rw [Server.view_procs hc]
        simp [ServerProc.lockProc, hpc, hname]
      refine .inl (Eq.trans ?_ (LockSys.set_self hidle))
      refine congrArg (fun v => LockSys.set v p .idle) ?_
      split
      · simp [Server.view, Function.update_of_ne (Ne.symm hname)]
      · rfl
  · exact absurd hstep (by simp)

/-- `unlock_host` is called. -/
theorem lockStepped_ended {c : Conn} (hc : s.conn p = some c) (hstep : s.ended p c = some s') :
    LockStepped (s.view name) (s'.view name) e := by
  rw [Server.ended] at hstep
  split at hstep
  swap
  · exact absurd hstep (by simp)
  rename_i h hpc
  obtain rfl := Option.some.inj hstep
  by_cases hlock : h.host = name ∧ h.multi ≠ .allow
  · refine .inr ⟨h.multi, .unlock p, hlock.2, ?_, by simp⟩
    have hview : (s.view name).procs p = some .holding := by
      rw [Server.view_procs hc]
      simp [ServerProc.lockProc, hpc, hlock]
    rw [lockStep, if_pos hview, Server.view_set]
    simp [ServerProc.lockProc, hlock]
  · refine .went hc ?_
    by_cases hm : h.multi = .allow
    · simp [ServerProc.lockProc, hpc, hm]
    · have hother : h.host ≠ name := fun h' => hlock ⟨h', hm⟩
      simp [ServerProc.lockProc, hpc, hm, hother]

theorem lockStepped_exit {c : Conn} (hc : s.conn p = some c) (hstep : s.exit p c = some s') :
    LockStepped (s.view name) (s'.view name) e := by
  rw [Server.exit] at hstep
  split at hstep
  swap
  · exact absurd hstep (by simp)
  obtain rfl := Option.some.inj hstep
  refine .died ?_ rfl rfl
  rw [Server.conn_eq_some.mp hc]
  rfl

/-- **Seen from one host**, a step of the server is a step of its lock or nothing. -/
theorem view_step (hlocks : ∀ p c, s.conn p = some c → c.Locks) (hstep : serverStep s e = some s')
    (name : List Byte) : LockStepped (s.view name) (s'.view name) e := by
  cases e with
  | test =>
    obtain ⟨-, h⟩ := Option.ite_none_right_eq_some.mp hstep
    obtain rfl := Option.some.inj h
    exact .same rfl rfl
  | accept ok =>
    obtain ⟨-, h⟩ := Option.ite_none_right_eq_some.mp hstep
    obtain rfl := Option.some.inj h
    exact .same rfl rfl
  | fork child =>
    cases child with
    | none =>
      obtain ⟨-, h⟩ := Option.ite_none_right_eq_some.mp hstep
      obtain rfl := Option.some.inj h
      exact .same rfl rfl
    | some child =>
      obtain ⟨⟨-, hp, hnone⟩, h⟩ := Option.ite_none_right_eq_some.mp hstep
      obtain rfl := Option.some.inj h
      exact .spawned hp hnone rfl rfl rfl
  | close =>
    obtain ⟨-, h⟩ := Option.ite_none_right_eq_some.mp hstep
    obtain rfl := Option.some.inj h
    exact .same rfl rfl
  | term =>
    obtain ⟨-, h⟩ := Option.ite_none_right_eq_some.mp hstep
    obtain rfl := Option.some.inj h
    exact .same rfl rfl
  | hup hosts =>
    obtain ⟨-, h⟩ := Option.ite_none_right_eq_some.mp hstep
    obtain rfl := Option.some.inj h
    exact .same rfl rfl
  | spawn p =>
    obtain ⟨⟨hp, hnone⟩, h⟩ := Option.ite_none_right_eq_some.mp hstep
    obtain rfl := Option.some.inj h
    exact .spawned hp hnone rfl rfl rfl
  | die p =>
    obtain ⟨hsome, h⟩ := Option.ite_none_right_eq_some.mp hstep
    obtain rfl := Option.some.inj h
    exact .died hsome rfl rfl
  | auth p =>
    obtain ⟨c, hc, h⟩ := Option.bind_eq_some_iff.mp hstep
    exact lockStepped_auth hc h
  | sys p a =>
    obtain ⟨c, hc, h⟩ := Option.bind_eq_some_iff.mp hstep
    exact lockStepped_call hc (hlocks p c hc) h
  | ended p =>
    obtain ⟨c, hc, h⟩ := Option.bind_eq_some_iff.mp hstep
    exact lockStepped_ended hc h
  | exit p =>
    obtain ⟨c, hc, h⟩ := Option.bind_eq_some_iff.mp hstep
    exact lockStepped_exit hc h

end View

end Vtun
