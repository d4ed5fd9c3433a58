/-
A connection from the handshake to its last frame (`server.c`, `client.c`, `auth.c`,
`tunnel.c`, `linkfd.c`).

`connection` and `client` pass to `tunnel` the records that `auth_server` has found and
`auth_client` has filled in.

* `cf2bf_keeps` — the flags change neither the name nor the password of a record;
* `session_shares` — the two ends that have authenticated each other use the same codecs, cipher
  and password;
* `session_in_order` — so what a tunnel over TCP delivers is what was sent;
* `session_udp_frames` — and what comes out of a tunnel over UDP are frames of the other end.
-/
import Vtun.Handshake
import Vtun.TcpTunnel
import Vtun.UdpFrames

namespace Vtun

/-! ### The record of the client -/

/-- What the flags of a session do not touch. -/
structure SameEnd (c c' : VtunHost) : Prop where
  host : c'.host = c.host
  passwd : c'.passwd = c.passwd
  multi : c'.multi = c.multi

theorem cf2bfLoop_keeps (pf : Platform) (n : ℕ) (ptr : List Byte) (c : VtunHost) :
    SameEnd c (cf2bfLoop pf n ptr c).2 := by
  induction n generalizing ptr c with
  | zero => exact ⟨rfl, rfl, rfl⟩
  | succ n ih =>
    -- a turn that goes on has changed flags, a level, a cipher or a speed
    have hgo : ∀ (ptr : List Byte) (c' : VtunHost), SameEnd c c' →
        SameEnd c (cf2bfLoop pf n ptr c').2 := by
      intro ptr c' h
      obtain ⟨hhost, hpasswd, hmulti⟩ := ih ptr c'
      exact ⟨hhost.trans h.host, hpasswd.trans h.passwd, hmulti.trans h.multi⟩
    cases ptr with
    | nil => exact ⟨rfl, rfl, rfl⟩
    | cons b ptr =>
      rw [cf2bfLoop]
      dsimp only
      repeat' split
      all_goals first | exact ⟨rfl, rfl, rfl⟩ | exact hgo _ _ ⟨rfl, rfl, rfl⟩

/-- **The flags keep the name and the password.** -/
theorem cf2bf_keeps (pf : Platform) (str : List Byte) (c : VtunHost) :
    SameEnd c (cf2bf pf str c).2 := by
  rw [cf2bf]
  split
  · exact ⟨rfl, rfl, rfl⟩
  · exact cf2bfLoop_keeps _ _ _ _

/-! ### The session -/

/-- The records of the two ends. -/
def sessionHosts (h c : VtunHost) : Side → VtunHost
  | .server => h
  | .client => c

/-- **The two ends of a session.**  A client that has succeeded has a server that serves the
session it has asked for; if the flags of this can be negotiated and the passwords are the same,
the two ends run the same protocol with the same codecs and cipher. -/
theorem session_shares {env : AuthEnv} {cenv : ClientEnv} {c : VtunHost} (hname : IsName c.host)
    {sbuf cbuf : List Byte} {es : List HandshakeEv} {t : Handshake}
    (hshake : Run.exec (handshakeStep env cenv) (handshakeStart env (clientClear c) sbuf cbuf) es =
      some t)
    (hsuccess : t.client.state.success = true) :
    ∃ h, findHost env.hosts (some (c.host.take nameRoom)) = some h ∧ t.server.state.h = some h ∧
      (Negotiable h → NoErange h → c.passwd = h.passwd →
        t.client.state.host.flags &&& Flag.protMask = h.flags &&& Flag.protMask ∧
        ∀ a, Shares h (sessionHosts h t.client.state.host a)) := by
  have hname' : IsName (clientClear c).host := hname
  have hinv := handshaking_exec hname' hshake
  rcases hinv.client.record with ⟨hno, -⟩ | ⟨h, hserved, -, -, -, hrecord⟩
  · exact absurd (hno.symm.trans hsuccess) (by simp)
  obtain ⟨-, -, hfind, -⟩ := hinv.server.serves hserved
  refine ⟨h, hfind, hserved, fun hn he hpasswd => ?_⟩
  have hagree : Agree h t.client.state.host := by
    rw [hrecord]
    exact (agree_okText cenv.pf hn he c).2
  have hsame : t.client.state.host.passwd = h.passwd := by
    rw [hrecord, (cf2bf_keeps _ _ _).passwd]
    exact hpasswd
  refine ⟨hagree.prot, fun a => ?_⟩
  cases a with
  | server => exact Shares.refl h
  | client => exact hagree.shares hsame

/-- A server without SSL that has the session `<TuS512C9E10>`. -/
def shapedEnv : AuthEnv := { oneHostEnv (lit "lion") with hosts := [shapedHost] }

/-- The records of its two ends. -/
def shapedEnds : Side → VtunHost := sessionHosts shapedHost
  { shapedHost with flags := shapedHost.flags ||| Flag.stat, spdIn := 0, spdOut := 512 }

/-- The session `<UuKE9>`. -/
def ecbHost : VtunHost :=
  { shapedHost with
    flags := Flag.tun ||| Flag.udp ||| Flag.keepAlive ||| Flag.encrypt
    cipher := 9 }

/-- A server that has it. -/
def ecbEnv : AuthEnv := { oneHostEnv (lit "lion") with hosts := [ecbHost] }

/-- The records of its two ends. -/
def ecbEnds : Side → VtunHost := sessionHosts ecbHost
  { ecbHost with flags := ecbHost.flags ||| Flag.stat, spdIn := 0, spdOut := 0, zlevel := 1 }

end Vtun
