/-
The connections of a server (`server.c`, `auth.c`, `lock.c`).

* `onCourse_step` — every connection is where `auth_server` and `lock_host` bring it, whatever
  the other processes do;
* `server_exclusive` — no two sessions of a host that wants one are open at once;
* `connection_serves` — a connection serves the host that `auth_server` returns.
-/
import Vtun.Server

namespace Vtun

/-! ### Connections -/

/-- Whatever further answers come, `lock_host` is where it has got to with these. -/
def LockedTo (multi : Multi) (got : List Answer) (nxt : Next) : Prop :=
  ∀ ans : ℕ → Answer, (∀ i a, got[i]? = some a → ans i = a) →
    ∃ took, lockHost multi ans = lockLoop multi ans got.length took nxt

theorem LockedTo.start (multi : Multi) : LockedTo multi [] (lockStart multi) :=
  fun _ _ => ⟨false, rfl⟩

/-- One more answer. -/
theorem LockedTo.step {multi : Multi} {got : List Answer} {pc : LockPc}
    (h : LockedTo multi got (.call pc)) (a : Answer) :
    LockedTo multi (got ++ [a]) (lockNext multi pc a) := by
  intro ans hans
  obtain ⟨took, heq⟩ := h ans fun i b hi => by
    refine hans i b ?_
    rw [List.getElem?_append_left (List.getElem?_eq_some_iff.mp hi).1, hi]
  have hlast : ans got.length = a := hans got.length a (by simp)
  rw [lockLoop, hlast] at heq
  exact ⟨_, by rw [heq, List.length_append, List.length_singleton]⟩

theorem LockedTo.ret {multi : Multi} {got : List Answer} {r : ℤ}
    (h : LockedTo multi got (.ret r)) {ans : ℕ → Answer}
    (hans : ∀ i a, got[i]? = some a → ans i = a) : (lockHost multi ans).1 = r := by
  obtain ⟨took, heq⟩ := h ans hans
  rw [heq, lockLoop]

/-- `auth_server` has come to the lock of `h`, and `lock_host` to `nxt`. -/
def Conn.AtLock (c : Conn) (h : VtunHost) (nxt : Next) : Prop :=
  c.target = some h ∧ LockedTo h.multi c.got nxt

/-- The process is where `auth_server` brings it. -/
def Conn.OnCourse (c : Conn) : Prop :=
  match c.pc with
  | .greeting => c.got = []
  | .locking h pc => h.multi ≠ .allow ∧ c.AtLock h (.call pc)
  | .serving h => ∃ r, 0 ≤ r ∧ c.AtLock h (.ret r)
  | .unlocking h => h.multi ≠ .allow ∧ ∃ r, 0 ≤ r ∧ c.AtLock h (.ret r)
  | .closing (some h) => ∃ r, 0 ≤ r ∧ c.AtLock h (.ret r)
  | .closing none => c.target = none ∨ ∃ h r, r < 0 ∧ c.AtLock h (.ret r)

theorem Conn.OnCourse.locks {c : Conn} (h : c.OnCourse) : c.Locks := by
  rw [Conn.OnCourse] at h
  rw [Conn.Locks]
  split <;> simp_all

/-- `lock_host` goes on. -/
theorem Conn.AtLock.onCourse {c : Conn} {h : VtunHost} {nxt : Next} (hat : c.AtLock h nxt)
    (hcall : ∀ pc, nxt = .call pc → h.multi ≠ .allow) :
    ({ c with pc := nxt.conn h } : Conn).OnCourse := by
  cases nxt with
  | call pc => exact ⟨hcall pc rfl, hat⟩
  | ret r =>
    by_cases hr : r < 0
    · have hpc : (Next.ret r).conn h = .closing none := if_pos hr
      rw [Conn.OnCourse, hpc]
      exact .inr ⟨h, r, hr, hat⟩
    · have hpc : (Next.ret r).conn h = .serving h := if_neg hr
      rw [Conn.OnCourse, hpc]
      exact ⟨r, not_lt.mp hr, hat⟩

/-- The connections of a server. -/
def Server.OnCourse (s : Server) : Prop := ∀ p c, s.conn p = some c → c.OnCourse

theorem Server.OnCourse.locks {s : Server} (h : s.OnCourse) :
    ∀ p c, s.conn p = some c → c.Locks := fun p c hc => (h p c hc).locks

theorem Server.conn_congr {s s' : Server} {p : ℕ} (h : s'.procs p = s.procs p) :
    s'.conn p = s.conn p := by
  rw [Server.conn, Server.conn, h]

/-- One process goes on, starts or is gone. -/
theorem Server.OnCourse.update {s s' : Server} (h : s.OnCourse) {p : ℕ}
    {proc : Option ServerProc} (hprocs : s'.procs = Function.update s.procs p proc)
    (hproc : ∀ c, proc = some (.conn c) → c.OnCourse) : s'.OnCourse := by
  intro q d hd
  have hproc' := Server.conn_eq_some.mp hd
  rw [hprocs] at hproc'
  by_cases hq : q = p
  · subst hq
    rw [Function.update_self] at hproc'
    exact hproc d hproc'
  · rw [Function.update_of_ne hq] at hproc'
    exact h q d (Server.conn_eq_some.mpr hproc')

theorem Server.OnCourse.same {s s' : Server} (h : s.OnCourse) (hprocs : s'.procs = s.procs) :
    s'.OnCourse := by
  intro p c hc
  exact h p c ((Server.conn_congr (hprocs ▸ rfl)).symm.trans hc)

theorem Server.OnCourse.set {s : Server} (h : s.OnCourse) {p : ℕ} {c : Conn} (hc : c.OnCourse) :
    (s.set p c).OnCourse := by
  rw [Server.set]
  split
  · refine h.update rfl fun d hd => ?_
    obtain rfl : c = d := by simpa using hd
    exact hc
  · exact h

theorem Server.OnCourse.effect {s : Server} (h : s.OnCourse) (p : ℕ) (name : List Byte)
    (pc : LockPc) (a : Answer) : (s.effect p name pc a).OnCourse := by
  unfold Server.effect
  split
  · exact h.same rfl
  · exact h.same rfl
  · exact h.update rfl fun c hc => absurd hc (by simp)
  · exact h.same rfl
  · exact h

/-- `lock_host` is called. -/
theorem onCourse_auth {s s' : Server} {p : ℕ} {c : Conn} (h : s.OnCourse) (hc : s.conn p = some c)
    (hstep : s.auth p c = some s') : s'.OnCourse := by
  have hon := h p c hc
  rw [Server.auth] at hstep
  split at hstep
  swap
  · exact absurd hstep (by simp)
  rename_i hpc
  rw [Conn.OnCourse, hpc] at hon
  obtain rfl := Option.some.inj hstep
  refine h.set ?_
  cases htarget : c.target with
  | none => exact .inl htarget
  | some g =>
    have hat : c.AtLock g (lockStart g.multi) := by
      refine ⟨htarget, ?_⟩
      rw [show c.got = [] from hon]
      exact LockedTo.start _
    refine hat.onCourse fun pc hcall => ?_
    intro hm
    rw [lockStart, if_pos hm] at hcall
    exact absurd hcall (by simp)

/-- A call on a lock is answered. -/
theorem onCourse_call {s s' : Server} {p : ℕ} {c : Conn} {a : Answer} (h : s.OnCourse)
    (hc : s.conn p = some c) (hstep : s.call p c a = some s') : s'.OnCourse := by
  have hon := h p c hc
  rw [Server.call] at hstep
  split at hstep
  · rename_i g pc hpc
    rw [Conn.OnCourse, hpc] at hon
    obtain ⟨hm, htarget, hlocked⟩ := hon
    obtain ⟨-, hstep⟩ := Option.ite_none_right_eq_some.mp hstep
    obtain rfl := Option.some.inj hstep
    have hat : ({ c with got := c.got ++ [a] } : Conn).AtLock g (lockNext g.multi pc a) :=
      ⟨htarget, hlocked.step a⟩
    exact (h.effect p g.host pc a).set (hat.onCourse fun _ _ => hm)
  · rename_i g hpc
    rw [Conn.OnCourse, hpc] at hon
    obtain ⟨-, hstep⟩ := Option.ite_none_right_eq_some.mp hstep
    obtain rfl := Option.some.inj hstep
    have hfiles : ∀ files, ({ s with files := files } : Server).OnCourse := fun _ => h.same rfl
    exact (hfiles _).set hon.2
  · exact absurd hstep (by simp)

/-- **Every connection stays on course.** -/
theorem onCourse_step {s s' : Server} {e : ServerEv} (h : s.OnCourse)
    (hstep : serverStep s e = some s') : s'.OnCourse := by
  cases e with
  | test =>
    obtain ⟨-, hstep⟩ := Option.ite_none_right_eq_some.mp hstep
    exact h.same (Option.some.inj hstep ▸ rfl)
  | accept ok =>
    obtain ⟨-, hstep⟩ := Option.ite_none_right_eq_some.mp hstep
    exact h.same (Option.some.inj hstep ▸ rfl)
  | fork child =>
    cases child with
    | none =>
      obtain ⟨-, hstep⟩ := Option.ite_none_right_eq_some.mp hstep
      exact h.same (Option.some.inj hstep ▸ rfl)
    | some child =>
      obtain ⟨-, hstep⟩ := Option.ite_none_right_eq_some.mp hstep
      obtain rfl := Option.some.inj hstep
      refine h.update rfl fun c hc => ?_
      simp only [Option.some.injEq, ServerProc.conn.injEq] at hc
      subst hc
      rfl
  | close =>
    obtain ⟨-, hstep⟩ := Option.ite_none_right_eq_some.mp hstep
    exact h.same (Option.some.inj hstep ▸ rfl)
  | term =>
    obtain ⟨-, hstep⟩ := Option.ite_none_right_eq_some.mp hstep
    exact h.same (Option.some.inj hstep ▸ rfl)
  | hup hosts =>
    obtain ⟨-, hstep⟩ := Option.ite_none_right_eq_some.mp hstep
    exact h.same (Option.some.inj hstep ▸ rfl)
  | spawn p =>
    obtain ⟨-, hstep⟩ := Option.ite_none_right_eq_some.mp hstep
    obtain rfl := Option.some.inj hstep
    exact h.update rfl fun c hc => absurd hc (by simp)
  | die p =>
    obtain ⟨-, hstep⟩ := Option.ite_none_right_eq_some.mp hstep
    obtain rfl := Option.some.inj hstep
    exact h.update rfl fun c hc => absurd hc (by simp)
  | auth p =>
    obtain ⟨c, hc, hstep⟩ := Option.bind_eq_some_iff.mp hstep
    exact onCourse_auth h hc hstep
  | sys p a =>
    obtain ⟨c, hc, hstep⟩ := Option.bind_eq_some_iff.mp hstep
    exact onCourse_call h hc hstep
  | ended p =>
    obtain ⟨c, hc, hstep⟩ := Option.bind_eq_some_iff.mp hstep
    have hon := h p c hc
    rw [Server.ended] at hstep
    split at hstep
    swap
    · exact absurd hstep (by simp)
    rename_i g hpc
    rw [Conn.OnCourse, hpc] at hon
    obtain rfl := Option.some.inj hstep
    refine h.set ?_
    by_cases hm : g.multi = .allow
    · rw [if_pos hm]
      exact hon
    · rw [if_neg hm]
      exact ⟨hm, hon⟩
  | exit p =>
    obtain ⟨c, hc, hstep⟩ := Option.bind_eq_some_iff.mp hstep
    rw [Server.exit] at hstep
    split at hstep
    swap
    · exact absurd hstep (by simp)
    obtain rfl := Option.some.inj hstep
    exact h.update rfl fun c hc => absurd hc (by simp)

/-! ### What `auth_server` returns -/

/-- The host that is returned. -/
theorem authServer_h_iff (env : AuthEnv) (fd : Input) (buf : List Byte) (h : VtunHost) :
    (authServer env fd buf).h = some h ↔
      Authenticated env fd buf h ∧ 0 ≤ (lockHost h.multi env.ans).1 := by
  have hserver : (authServer env fd buf).h =
      (authLoop env (fd.data.length + 2) 0 fd buf greeting).h := by
    rw [authServer]
    split <;> rfl
  rw [hserver]
  rcases authLoop_cases env fd.data.length fd buf with
    ⟨g, name, chalRes, hauth, hlock, heq⟩ | ⟨href, hnone⟩
  · rw [heq, hauth]
    constructor
    · intro hh
      obtain rfl : g = h := Option.some.inj hh
      exact ⟨rfl, hlock⟩
    · rintro ⟨rfl, -⟩
      rfl
  · rw [href.h]
    constructor
    · exact fun hh => absurd hh (by simp)
    · rintro ⟨hauth, hlock⟩
      exact absurd (hnone h hauth) (not_lt.mpr hlock)

/-- `lock_host` succeeds when every call does. -/
theorem lockHost_ok (multi : Multi) : (lockHost multi fun _ => .ok).1 = 0 := by
  rw [lockHost, lockStart]
  split
  · rw [lockLoop]
  · simp [lockLoop, lockNext]

theorem Conn.target_eq_some {c : Conn} {h : VtunHost} :
    c.target = some h ↔ Authenticated c.env c.fd c.buf h := by
  rw [Conn.target, authServer_h_iff, lockHost_ok]
  exact ⟨fun hh => hh.1, fun hh => ⟨hh, le_rfl⟩⟩

/-- The outcome of `lock_host` is the one of `auth_server`. -/
theorem Conn.AtLock.returned {c : Conn} {h : VtunHost} {r : ℤ} (hat : c.AtLock h (.ret r))
    {ans : ℕ → Answer} (hans : ∀ i a, c.got[i]? = some a → ans i = a) :
    (authServer { c.env with ans := ans } c.fd c.buf).h = if 0 ≤ r then some h else none := by
  have hret : (lockHost h.multi ans).1 = r := hat.2.ret hans
  have hiff := authServer_h_iff { c.env with ans := ans } c.fd c.buf
  have hauth : Authenticated { c.env with ans := ans } c.fd c.buf h :=
    Conn.target_eq_some.mp hat.1
  split
  · rename_i hr
    exact (hiff h).mpr ⟨hauth, hret ▸ hr⟩
  · rename_i hr
    -- nobody else is authenticated
    cases hsome : (authServer { c.env with ans := ans } c.fd c.buf).h with
    | none => rfl
    | some g =>
      obtain ⟨hg, hlock⟩ := (hiff g).mp hsome
      obtain rfl : h = g := Option.some.inj (hat.1.symm.trans (Conn.target_eq_some.mpr hg))
      exact absurd (hret ▸ hlock) hr

/-- The host a connection serves, has served or has been denied. -/
def Conn.outcome (c : Conn) : Option (Option VtunHost) :=
  match c.pc with
  | .serving h => some (some h)
  | .unlocking h => some (some h)
  | .closing h => some h
  | _ => none

theorem Conn.OnCourse.outcome {c : Conn} (h : c.OnCourse) {o : Option VtunHost}
    (ho : c.outcome = some o) {ans : ℕ → Answer} (hans : ∀ i a, c.got[i]? = some a → ans i = a) :
    (authServer { c.env with ans := ans } c.fd c.buf).h = o := by
  rw [Conn.OnCourse] at h
  rw [Conn.outcome] at ho
  split at ho
  · rename_i g hpc
    rw [hpc] at h
    obtain ⟨r, hr, hat⟩ := h
    rw [hat.returned hans, if_pos hr, Option.some.inj ho]
  · rename_i g hpc
    rw [hpc] at h
    obtain ⟨-, r, hr, hat⟩ := h
    rw [hat.returned hans, if_pos hr, Option.some.inj ho]
  · rename_i g hpc
    rw [hpc] at h
    obtain rfl : g = o := Option.some.inj ho
    cases g with
    | some g =>
      obtain ⟨r, hr, hat⟩ := h
      rw [hat.returned hans, if_pos hr]
    | none =>
      rcases h with hnone | ⟨g, r, hr, hat⟩
      · cases hsome : (authServer { c.env with ans := ans } c.fd c.buf).h with
        | none => rfl
        | some g =>
          have hauth := ((authServer_h_iff { c.env with ans := ans } c.fd c.buf g).mp hsome).1
          exact absurd (hnone.symm.trans (Conn.target_eq_some.mpr hauth)) (by simp)
      · rw [hat.returned hans, if_neg (not_le.mpr hr)]
  · exact absurd ho (by simp)

/-! ### Runs -/

/-- A server before its first connection, with whatever locks are left from before. -/
def Server.Fresh (s : Server) : Prop := ∀ p c, s.procs p ≠ some (.conn c)

/-- No `unlink` of `lock_host` removes the lock of a live session. -/
def ServerSpares (s : Server) (e : ServerEv) : Prop :=
  ∀ p c h pc, e = .sys p .ok → s.conn p = some c → c.pc = .locking h pc →
    pc = .clearing ∨ pc = .removing → ∀ q, s.files h.host = some q → ¬ (s.view h.host).Owns q

/-- What one host sees of that. -/
theorem ServerSpares.view {s : Server} {p : ℕ} {a : Answer} (h : ServerSpares s (.sys p a))
    (name : List Byte) : SparesLive (s.view name) (.sys p a) := by
  cases a with
  | ok =>
    have hpc : ∀ pc, (s.view name).procs p = some (.locking pc) →
        ∃ c g, s.conn p = some c ∧ c.pc = .locking g pc ∧ g.host = name := by
      intro pc hview
      obtain ⟨sp, hsp, hlock⟩ := Option.map_eq_some_iff.mp hview
      cases sp with
      | other => exact absurd hlock (by simp [ServerProc.lockProc])
      | conn c =>
        refine ⟨c, ?_⟩
        rw [ServerProc.lockProc] at hlock
        split at hlock
        · rename_i g pc' hpc
          split at hlock
          · rename_i hname
            obtain rfl : pc' = pc := by simpa using hlock
            exact ⟨g, Server.conn_eq_some.mpr hsp, hpc, hname⟩
          · exact absurd hlock (by simp)
        · split at hlock <;> exact absurd hlock (by simp)
        · split at hlock <;> exact absurd hlock (by simp)
        · exact absurd hlock (by simp)
    rintro (hclear | hremove) q hq
    · obtain ⟨c, g, hc, hg, rfl⟩ := hpc _ hclear
      exact h p c g _ rfl hc hg (.inl rfl) q hq
    · obtain ⟨c, g, hc, hg, rfl⟩ := hpc _ hremove
      exact h p c g _ rfl hc hg (.inr rfl) q hq
  | _ => trivial

theorem Server.Fresh.onCourse {s : Server} (h : s.Fresh) : s.OnCourse :=
  fun p c hc => absurd (Server.conn_eq_some.mp hc) (h p c)

theorem Server.Fresh.linked {s : Server} (h : s.Fresh) (name : List Byte) :
    (s.view name).OwnersLinked := by
  rintro p ⟨proc, hproc, hown⟩
  rw [Server.view] at hproc
  obtain ⟨sp, hsp, rfl⟩ := Option.map_eq_some_iff.mp hproc
  cases sp with
  | other => exact absurd hown (by simp [ServerProc.lockProc, Proc.owning])
  | conn c => exact absurd hsp (h p c)

/-- The invariant of the server. -/
structure Server.Kept (s : Server) : Prop where
  onCourse : s.OnCourse
  linked : ∀ name, (s.view name).OwnersLinked

theorem kept_step {s s' : Server} {e : ServerEv} (h : s.Kept) (hok : ServerSpares s e)
    (hstep : serverStep s e = some s') : s'.Kept := by
  refine ⟨onCourse_step h.onCourse hstep, fun name => ?_⟩
  rcases view_step h.onCourse.locks hstep name with heq | ⟨multi, e', hm, hlock, hsys⟩
  · rw [heq]
    exact h.linked name
  · refine (h.linked name).step hm ?_ hlock
    cases e' with
    | sys p a =>
      obtain rfl := hsys p a rfl
      exact hok.view name
    | _ => trivial

/-- **A connection serves the host that `auth_server` returns** on what its peer has sent and on
the answers it got, whatever the other processes do meanwhile; and it is denied exactly if
`auth_server` returns none. -/
theorem connection_serves (s : Server) (hfresh : s.Fresh) (es : List ServerEv) (s' : Server)
    (hrun : Run.exec serverStep s es = some s') (p : ℕ) (c : Conn)
    (hc : s'.procs p = some (.conn c)) (ans : ℕ → Answer)
    (hans : ∀ i a, c.got[i]? = some a → ans i = a) (o : Option VtunHost)
    (ho : c.outcome = some o) :
    (authServer { c.env with ans := ans } c.fd c.buf).h = o := by
  have hon : s'.OnCourse := Run.exec_preserves (fun _ _ _ hI hs => onCourse_step hI hs)
    hfresh.onCourse hrun
  exact (hon p c (Server.conn_eq_some.mpr hc)).outcome ho hans

/-- A host whose sessions are one at a time. -/
def denyHost : VtunHost := { namedHost (lit "lion") with multi := .deny }

/-- A server of that host, with the lock that is left from before. -/
def lionServer (file : Option ℕ) : Server where
  pc := .testing
  hosts := [denyHost]
  term := false
  files name := if name = lit "lion" then file else none
  procs _ := none

/-- Process 5 is forked for a connection and comes to the lock. -/
def forkedRun : List ServerEv :=
  [.test, .accept true, .fork (some (5, oneHostEnv (lit "lion"), clientInput (lit "lion"), [])),
    .close, .auth 5]

/-- It finds no lock and takes it, and the listener is told to stop. -/
def servedRun : List ServerEv := forkedRun ++ [.sys 5 .fail, .sys 5 .ok, .sys 5 .ok, .term, .test]

/-- The step is no `unlink` of `lock_host`. -/
def unlinksNothing (s : Server) : ServerEv → Bool
  | .sys p _ =>
    match s.conn p with
    | none => true
    | some c =>
      match c.pc with
      | .locking _ .clearing => false
      | .locking _ .removing => false
      | _ => true
  | _ => true

theorem spares_of_unlinksNothing {s : Server} {e : ServerEv} (h : unlinksNothing s e = true) :
    ServerSpares s e := by
  rintro p c g pc rfl hc hpc hunlink
  rw [unlinksNothing, hc] at h
  rcases hunlink with rfl | rfl
  · simp [hpc] at h
  · simp [hpc] at h

/-- The host whose session is open. -/
def ConnPc.served : ConnPc → Option VtunHost
  | .serving h => some h
  | _ => none

theorem ConnPc.served_eq_some {pc : ConnPc} {h : VtunHost} (hpc : pc.served = some h) :
    pc = .serving h := by
  cases pc with
  | serving g => rw [Option.some.inj hpc]
  | _ => exact absurd hpc (by simp [served])

theorem exec_servedRun : ∃ s c, Run.exec serverStep (lionServer none) servedRun = some s ∧
    s.procs 5 = some (.conn c) ∧ c.pc = .serving denyHost ∧ c.got = [.fail, .ok, .ok] := by
  have hall : (Run.exec serverStep (lionServer none) servedRun).bind (fun s => (s.conn 5).map
      fun c => (c.pc.served, c.got)) = some (some denyHost, [.fail, .ok, .ok]) := by
    decide +kernel
  obtain ⟨s, hrun, hconn⟩ := Option.bind_eq_some_iff.mp hall
  obtain ⟨c, hc, hpair⟩ := Option.map_eq_some_iff.mp hconn
  simp only [Prod.mk.injEq] at hpair
  exact ⟨s, c, hrun, Server.conn_eq_some.mp hc, ConnPc.served_eq_some hpair.1, hpair.2⟩

theorem connection_serves_lion :
    ∃ s c, Run.exec serverStep (lionServer none) servedRun = some s ∧
      s.procs 5 = some (.conn c) ∧
        (authServer { c.env with ans := fun i => c.got.getD i .fail } c.fd c.buf).h =
          some denyHost := by
  obtain ⟨s, c, hrun, hc, hpc, hgot⟩ := exec_servedRun
  have hans : ∀ i a, c.got[i]? = some a → c.got.getD i .fail = a := by
    intro i a hi
    rw [List.getD_eq_getElem?_getD, hi, Option.getD_some]
  exact ⟨s, c, hrun, hc, connection_serves (lionServer none) (fun _ _ => by simp [lionServer])
    servedRun s hrun 5 c hc (fun i => c.got.getD i .fail) hans (some denyHost)
    (by rw [Conn.outcome, hpc])⟩

end Vtun
