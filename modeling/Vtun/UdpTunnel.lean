/-
A tunnel over UDP (`netlib.c`, `linkfd.c`, `generic/udp_proto.c`).

Both ends open their sockets and tell each other the ports over the TCP connection; then the
sockets carry the datagrams of the tunnel.  The network may lose them, change their order and
deliver them more than once, and anyone may send datagrams to a socket: one that is connected
only takes those of its peer.

* `udpSession_parts` — `udp_session` up to the write of our port, and from the read of the other;
* `UdpTunnel`, `udpTunnelStep` — both ends and what can happen to them;
* `tellPort_spec`, `takePort_spec` — what the parts do to a session;
* `connected_linkerPart` — a socket stays connected.
-/
import Vtun.DatagramLink
import Vtun.UdpSession

namespace Vtun

/-! ### The parts of udp_session -/

/-- What the new socket is bound to, if there is one. -/
def UdpCalls.own (c : UdpCalls) : Option Port :=
  if c.socket.isSome && c.bind then c.getsockname else none

/-- `udp_session`, up to the write of our own port. -/
def tellPort (c : UdpCalls) (w : UdpSetup) : Option Port × UdpSetup :=
  match c.socket, c.bind, c.getsockname with
  | some _, true, some own =>
    let sent := w.sendPort own
    let w := { w with out := sent.2, canceled := sent.2.canceled }
    if sent.1 < 0 then (none, w)
    else (some own, { w with host := { w.host with lport := own.number } })
  | _, _, _ => (none, w)

/-- `udp_session`, from the read of the other port; `s` is our socket. -/
def takePort (c : UdpCalls) (s : ℕ) (own : Port) (w : UdpSetup) : ℤ × UdpSetup :=
  let got := readnT (c.select w.host.timeout) { w.net with canceled := w.canceled } 2
  let w := { w with net := got.2, canceled := got.2.canceled }
  if got.1.ret < 0 then (-1, w)
  else
    match c.getpeername with
    | none => (-1, w)
    | some saddr =>
      let port := own.overlay got.1.bytes
      if w.host.natHack then replaceFd s port { w with connected := false }
      else if c.connect then
        replaceFd s port { w with connected := true, peer := some { saddr with port := port } }
      else (-1, w)

/-- **The two parts make up `udp_session`.** -/
theorem udpSession_parts (c : UdpCalls) (w : UdpSetup) :
    udpSession c w =
      match tellPort c w with
      | (none, w') => (-1, w')
      | (some own, w') => takePort c (c.socket.getD 0) own w' := by
  rw [udpSession, tellPort]
  rcases hs : c.socket with _ | s
  · rfl
  rcases hb : c.bind with _ | _
  · rfl
  rcases ho : c.getsockname with _ | own
  · rfl
  dsimp only
  rw [exchangePorts]
  dsimp only
  by_cases hwrite : (w.sendPort own).1 < 0
  · rw [if_pos hwrite, if_pos hwrite]
  rw [if_neg hwrite, if_neg hwrite]
  dsimp only [Option.getD_some]
  rw [takePort]
  dsimp only
  generalize readnT (c.select w.host.timeout) _ 2 = got
  by_cases hread : got.1.ret < 0
  · rw [if_pos hread, if_pos hread]
  · rw [if_neg hread, if_neg hread]
    cases c.getpeername with
    | none => rfl
    | some saddr => rfl

/-- The first part does not look at what the other end has written. -/
theorem tellPort_net (c : UdpCalls) (w : UdpSetup) (net : Input) :
    tellPort c { w with net := net } =
      ((tellPort c w).1, { (tellPort c w).2 with net := net }) := by
  rw [tellPort, tellPort]
  split
  · dsimp only [UdpSetup.sendPort]
    split
    · rfl
    · rfl
  · rfl

/-! ### Both ends -/

variable {ε σ : Type}

/-- Where one end is in `tunnel`. -/
inductive UdpPc
  /-- before `udp_session` -/
  | opening
  /-- before `readn_t` -/
  | reading (own : Port)
  | failed
  /-- in `lfd_linker` -/
  | linked (pc : LinkPc) (closed : Bool)
  deriving DecidableEq, Repr

/-- One end, with its side of the TCP connection and its UDP socket.  `linker_term`, the modules
and what has arrived on the socket are in `link`. -/
structure UdpEnd (ε σ : Type) where
  pc : UdpPc
  /-- what the calls of `udp_session` answer -/
  calls : UdpCalls
  setup : UdpSetup
  /-- what the UDP socket is bound to -/
  own : Option Port
  link : DgramLinker ε σ
  /-- the senders of the datagrams that have arrived and are not yet read -/
  sources : List SockAddr
  /-- the numbers of the datagrams of the other end that have arrived -/
  arrived : List ℕ

/-- Both ends. -/
abbrev UdpTunnel (ε σ : Type) : Type := Side → UdpEnd ε σ

namespace UdpTunnel

/-- The frames `dev_read` has returned at one end. -/
def read (t : UdpTunnel ε σ) (a : Side) : List (List Byte) := (t a).link.io.dev.read

/-- The frames handed to `dev_write` at one end. -/
def written (t : UdpTunnel ε σ) (a : Side) : List (List Byte) := devs (t a).link.trace

/-- The datagrams one end has sent. -/
def sent (t : UdpTunnel ε σ) (a : Side) : List (List Byte) := (t a).link.io.out.sent

end UdpTunnel

/-- What can happen next. -/
inductive UdpTunnelEv (ε : Type)
  /-- `udp_session`, up to the write of our port -/
  | tell (a : Side) (calls : UdpCalls) (writes : List IoEvent)
  /-- the rest of `udp_session`, and the start of `lfd_linker` -/
  | take (a : Side) (reads : List IoEvent) (inp : DgramIn ε)
  /-- the next part of one end's turn -/
  | part (a : Side) (inp : DgramIn ε)
  | signal (a : Side) (x : Sig)
  /-- behind its loop, one end tells the other that it closes the connection -/
  | close (a : Side) (inp : DgramIn ε)
  /-- the `i`-th datagram of the other end arrives at the socket of `a` -/
  | arrive (a : Side) (i : ℕ)
  /-- a datagram from somewhere else arrives there -/
  | stray (a : Side) (src : SockAddr) (dgram : List Byte)

namespace UdpEnd

/-- The linker before its next part. -/
def ready (e : UdpEnd ε σ) (inp : DgramIn ε) : DgramLinker ε σ :=
  let dev := e.link.io.dev
  { e.link with
    buf := inp.buf
    io := { e.link.io with
      out := ⟨e.link.io.out.sent, inp.writes⟩
      dev := ⟨inp, 0, dev.read, { dev.sock with sched := inp.reads, connect := inp.connect },
        false⟩ } }

/-- The end behind a part.  A late `connect` takes the sender of the datagram that is there. -/
def ran (e : UdpEnd ε σ) (link : DgramLinker ε σ) (pc : LinkPc) (closed : Bool) : UdpEnd ε σ :=
  let sock := e.link.io.dev.sock
  let sock' := link.io.dev.sock
  { e with
    link := link
    pc := .linked pc closed
    setup := { e.setup with
      peer := if !sock.connected && sock'.connected then e.sources.head? else e.setup.peer }
    sources := e.sources.drop (sock.queue.length - sock'.queue.length) }

/-- A datagram arrives: a socket that is connected takes none but those of its peer. -/
def receive (e : UdpEnd ε σ) (src : SockAddr) (dgram : List Byte) : Option (UdpEnd ε σ) :=
  if e.own.isSome ∧ (e.setup.peer = none ∨ e.setup.peer = some src) then
    let dev := e.link.io.dev
    some { e with
      sources := e.sources ++ [src]
      link := { e.link with io := { e.link.io with dev := { dev with
        sock := { dev.sock with queue := dev.sock.queue ++ [dgram] } } } } }
  else none

/-- `lfd_linker` up to its loop: without the hack for broken routers, an echo request. -/
def enter (e : UdpEnd ε σ) (inp : DgramIn ε) : UdpEnd ε σ :=
  let l := e.ready inp
  let l := { l with io := { l.io with dev := { l.io.dev with
    sock := { l.io.dev.sock with connected := e.setup.connected } } } }
  let l := if e.setup.host.natHack then l else (putProto dgramLink l l.buf echoReq).2
  { e with pc := .linked .top false, link := { l with io := l.io.termZero } }

end UdpEnd

/-- The address of the UDP socket of one end. -/
def UdpTunnel.sockAddr (addr : Side → BitVec 32) (t : UdpTunnel ε σ) (a : Side) : Option SockAddr :=
  (t a).own.map fun port => ⟨addr a, port⟩

/-- One step of the two ends, which have the addresses `addr`. -/
def udpTunnelStep (S : Side → Session ε σ) (addr : Side → BitVec 32) (t : UdpTunnel ε σ) :
    UdpTunnelEv ε → Option (UdpTunnel ε σ)
  | .tell a calls writes =>
    -- `getpeername` knows the other end
    if (t a).pc = .opening ∧ ∀ p ∈ calls.getpeername, p.addr = addr a.other then
      let e := t a
      let r := tellPort calls { e.setup with out := { e.setup.out with sched := writes } }
      some (Function.update t a { e with
        calls := calls
        setup := r.2
        own := calls.own
        pc := match r.1 with
          | none => .failed
          | some own => .reading own })
    else none
  | .take a reads inp =>
    match (t a).pc with
    | .reading own =>
      let e := t a
      let net : Input := ⟨(t a.other).setup.out.sent, reads, false⟩
      let r := takePort e.calls (e.calls.socket.getD 0) own { e.setup with net := net }
      let e := { e with setup := r.2 }
      some (Function.update t a (if r.1 = -1 then { e with pc := .failed } else e.enter inp))
    | _ => none
  | .part a inp =>
    match (t a).pc with
    | .linked pc closed =>
      let r := linkerPart (S a) dgramLink pc ((t a).ready inp)
      -- a read goes on only when a datagram comes
      if r.1.io.dev.waits then none
      else some (Function.update t a ((t a).ran r.1 r.2 closed))
    | _ => none
  | .signal a x =>
    match (t a).pc with
    | .linked _ _ =>
      let e := t a
      some (Function.update t a { e with
        link := { e.link with io := { e.link.io with term := some x } } })
    | _ => none
  | .close a inp =>
    match (t a).pc with
    | .linked .left false =>
      let l := (t a).ready inp
      some (Function.update t a ((t a).ran (putProto dgramLink l l.buf connClose).2 .left true))
    | _ => none
  | .arrive a i =>
    match (t.sent a.other)[i]?, t.sockAddr addr a.other with
    | some dgram, some src =>
      -- it was sent to the address to which the socket of the other end is connected
      if (t a.other).setup.peer = t.sockAddr addr a then
        ((t a).receive src dgram).map fun e =>
          Function.update t a { e with arrived := e.arrived ++ [i] }
      else none
    | _, _ => none
  | .stray a src dgram =>
    if t.sockAddr addr a.other ≠ some src then
      ((t a).receive src dgram).map fun e => Function.update t a e
    else none

/-- Both ends before `udp_session`. -/
def udpTunnelStart (mods : Side → σ) (host : Side → UdpHost) (calls : UdpCalls)
    (inp : DgramIn ε) : UdpTunnel ε σ := fun a =>
  { pc := .opening
    calls := calls
    setup := ⟨host a, ⟨[], [], false⟩, ⟨[], [], false⟩, false, none, true⟩
    own := none
    link :=
      { buf := []
        idle := 0
        kaNeedVerify := false
        mods := mods a
        io := ⟨⟨[], []⟩, none, ⟨inp, 0, [], ⟨[], [], true, false⟩, false⟩⟩
        trace := [] }
    sources := []
    arrived := [] }

/-! ### What the parts do -/

section Parts

variable {c : UdpCalls} {w : UdpSetup}

/-- The first part writes no more than our own port. -/
theorem tellPort_spec (c : UdpCalls) (w : UdpSetup) :
    (∃ front, front <+: c.own.elim [] Port.bytes ∧
        (tellPort c w).2.out.sent = w.out.sent ++ front) ∧
      (tellPort c w).2.peer = w.peer ∧ ∀ own, (tellPort c w).1 = some own → c.own = some own := by
  have hnone : ∃ front, front <+: c.own.elim [] Port.bytes ∧ w.out.sent = w.out.sent ++ front :=
    ⟨[], List.nil_prefix, (List.append_nil _).symm⟩
  rw [tellPort]
  split
  · rename_i s own hsocket hbind hown
    have hself : c.own = some own := by
      rw [UdpCalls.own, hsocket, hbind, hown]
      rfl
    have hfront : ∃ front, front <+: own.bytes ∧
        (w.sendPort own).2.sent = w.out.sent ++ front := by
      rw [UdpSetup.sendPort, writeN]
      split
      · exact ⟨[], List.nil_prefix, (List.append_nil _).symm⟩
      · exact writeLoop_front _ _ _ _
    rw [hself]
    dsimp only
    split
    · exact ⟨hfront, rfl, fun _ h => absurd h (by simp)⟩
    · exact ⟨hfront, rfl, fun _ h => h⟩
  · exact ⟨hnone, rfl, fun _ h => absurd h (by simp)⟩

/-- **The second part**: it fails and connects nothing, or, if the read does not end early, it
connects the socket to the port it has read, or leaves this to the first datagram. -/
theorem takePort_spec {s : ℕ} {own : Port} :
    (takePort c s own w).2.out = w.out ∧
      ((takePort c s own w).1 = -1 → (takePort c s own w).2.peer = w.peer) ∧
      ((takePort c s own w).1 ≠ -1 →
        ¬ Input.EndsEarly { w.net with canceled := w.canceled } 2 →
        ∃ port saddr, c.getpeername = some saddr ∧ port.bytes <+: w.net.data ∧
          (takePort c s own w).2.host.rport = port.number ∧
          ((takePort c s own w).2.peer = w.peer ∧ (takePort c s own w).2.connected = false ∨
            (takePort c s own w).2.peer = some { saddr with port := port } ∧
              (takePort c s own w).2.connected = true)) := by
  rw [takePort]
  dsimp only
  split
  · exact ⟨rfl, fun _ => rfl, fun h => absurd rfl h⟩
  · rename_i hread
    rcases hpeer : c.getpeername with _ | saddr
    · exact ⟨rfl, fun _ => rfl, fun h => absurd rfl h⟩
    -- what a read that does not end early has taken
    have hport : ¬ Input.EndsEarly { w.net with canceled := w.canceled } 2 →
        (own.overlay (readnT (c.select w.host.timeout)
          { w.net with canceled := w.canceled } 2).1.bytes).bytes <+: w.net.data := by
      intro hends
      rw [readnT] at hread ⊢
      split at hread
      · exact absurd (by norm_num) hread
      · rename_i hselect
        rw [if_neg hselect]
        obtain ⟨hlen, hbytes, -⟩ := readN_whole hends (not_lt.mp hread)
        rw [hbytes]
        dsimp only at hlen ⊢
        rcases hdata : w.net.data with _ | ⟨hi, _ | ⟨lo, rest⟩⟩
        · rw [hdata] at hlen
          exact absurd hlen (by norm_num)
        · rw [hdata] at hlen
          exact absurd hlen (by norm_num)
        · exact ⟨rest, rfl⟩
    dsimp only
    split
    · refine ⟨rfl, fun h => ?_, fun _ hends => ?_⟩
      · exact absurd h (by simp only [replaceFd]; omega)
      · exact ⟨_, saddr, rfl, hport hends, rfl, .inl ⟨rfl, rfl⟩⟩
    · split
      · refine ⟨rfl, fun h => ?_, fun _ hends => ?_⟩
        · exact absurd h (by simp only [replaceFd]; omega)
        · exact ⟨_, saddr, rfl, hport hends, rfl, .inr ⟨rfl, rfl⟩⟩
      · exact ⟨rfl, fun _ => rfl, fun h => absurd rfl h⟩

end Parts

/-- No call takes the connection of a socket away. -/
theorem keeps_connected :
    (dgramLink (ε := ε)).Keeps fun w => w.dev.sock.connected = true where
  select := fun _ h => h
  protoWrite := fun _ _ _ h => h
  devRead := by
    intro w h
    change (dgramPorts.devRead w.dev).2.sock.connected = true
    simp only [dgramPorts]
    split
    · exact h
    · exact h
    · exact h
  devWrite := fun _ _ h => h
  modEnv := fun _ h => h
  alarm := fun _ h => h
  protoRead := by
    intro w buf h
    change (dgramPorts.protoRead w.dev buf).2.2.sock.connected = true
    simp only [dgramPorts]
    split
    · exact h
    · rename_i r hread
      obtain ⟨t, ht, hr⟩ := Option.bind_eq_some_iff.mp hread
      rw [lateConnect, if_pos h] at ht
      obtain rfl := Option.some.inj ht
      rw [if_pos rfl, readDatagram] at hr
      split at hr
      · obtain rfl := Option.some.inj hr
        exact h
      · cases hr
      · dsimp only at hr
        split at hr
        · obtain rfl := Option.some.inj hr
          exact h
        · obtain rfl := Option.some.inj hr
          exact h

/-- **A socket stays connected.** -/
theorem connected_linkerPart (S : Session ε σ) (pc : LinkPc) {l : DgramLinker ε σ}
    (h : l.io.dev.sock.connected = true) :
    (linkerPart S dgramLink pc l).1.io.dev.sock.connected = true := by
  have hkeeps := keeps_connected (ε := ε)
  cases pc with
  | left => exact h
  | packet net dev => exact hkeeps.toSpares.sendPacket h
  | net net dev => exact hkeeps.netFrame h net
  | dev dev => exact hkeeps.toSpares.devFrame h dev
  | top =>
    rw [linkerPart]
    split
    · exact h
    · have hselected : (dgramLink.select l.io).2.dev.sock.connected = true := hkeeps.select _ h
      dsimp only
      split
      · exact hselected
      · exact hselected
      · exact hkeeps.toSpares.keepAlive (S := S) hselected

end Vtun
