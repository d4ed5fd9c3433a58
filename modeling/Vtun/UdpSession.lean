/-
The set-up of a UDP session (`netlib.c`, `lib.c`).

The two ends open UDP sockets and tell each other their ports over the TCP connection.
`port` holds our own port first, and the peer's is read over it; only a negative value
of `readn_t` counts as a failure, but `read_n` returns 0 at the end of the stream and
what it has so far when a signal comes.

* `readLoop_ends` — what a read leaves behind that ends early, and one that does not;
* `udp_session_iff` — the session has the peer's port exactly if the read does not end
  early;
* `udp_session_closed` — a peer that closes the connection.
-/
import Vtun.Host
import Vtun.TcpProto

namespace Vtun

/-! ### udp_session -/

/-- The two bytes of a port, in the order of the network. -/
structure Port where
  hi : Byte
  lo : Byte
  deriving DecidableEq, Repr

namespace Port

/-- The bytes of `port`. -/
def bytes (p : Port) : List Byte := [p.hi, p.lo]

/-- `htons` of `port`, as an `int`. -/
def number (p : Port) : ℕ := p.hi.toNat * 256 + p.lo.toNat

/-- `port` after bytes are stored over it. -/
def overlay (p : Port) : List Byte → Port
  | [] => p
  | [hi] => ⟨hi, p.lo⟩
  | hi :: lo :: _ => ⟨hi, lo⟩

end Port

/-- `struct sockaddr_in`. -/
structure SockAddr where
  addr : BitVec 32
  port : Port
  deriving DecidableEq, Repr

/-- The fields of `vtun_host` that `udp_session` uses. -/
structure UdpHost where
  flags : BitVec 32
  timeout : Int32
  rmtFd : ℤ
  /-- `sopt.lport` -/
  lport : ℕ
  /-- `sopt.rport` -/
  rport : ℕ
  deriving DecidableEq, Repr

/-- What the system calls answer.  Nothing and `false` are failures. -/
structure UdpCalls where
  socket : Option ℕ
  /-- at the address that `local_addr` leaves in `saddr` -/
  bind : Bool
  /-- the port of the new socket -/
  getsockname : Option Port
  /-- on the TCP connection, with the timeout -/
  select : Int32 → ℤ
  /-- the address of the other end of the TCP connection -/
  getpeername : Option SockAddr
  connect : Bool

/-- The session, the two ends of its TCP connection and the UDP socket. -/
structure UdpSetup where
  host : UdpHost
  net : Input
  out : Output
  /-- `__io_canceled` -/
  canceled : Bool
  /-- what the UDP socket is connected to -/
  peer : Option SockAddr
  /-- `is_rmt_fd_connected` -/
  connected : Bool
  deriving DecidableEq, Repr

/-- `VTUN_USE_NAT_HACK`. -/
def UdpHost.natHack (h : UdpHost) : Bool := hasFlag h.flags Flag.natHackMask

/-- `readn_t`; `select` is the answer of `select`. -/
def readnT (select : ℤ) (fd : Input) (len : ℕ) : Got × Input :=
  if select ≤ 0 then (⟨-1, []⟩, fd) else readN fd len

/-- `write_n` of our own port. -/
def UdpSetup.sendPort (w : UdpSetup) (own : Port) : ℤ × Output :=
  writeN { w.out with canceled := w.canceled } own.bytes

/-- The TCP connection, as `readn_t` finds it. -/
def UdpSetup.input (w : UdpSetup) (own : Port) : Input :=
  { w.net with canceled := (w.sendPort own).2.canceled }

/-- The exchange of the ports: `port` behind it, or nothing where it fails. -/
def exchangePorts (c : UdpCalls) (own : Port) (w : UdpSetup) : Option Port × UdpSetup :=
  let sent := w.sendPort own
  let w := { w with out := sent.2, canceled := sent.2.canceled }
  if sent.1 < 0 then (none, w)
  else
    let w := { w with host := { w.host with lport := own.number } }
    let got := readnT (c.select w.host.timeout) { w.net with canceled := sent.2.canceled } 2
    let w := { w with net := got.2, canceled := got.2.canceled }
    if got.1.ret < 0 then (none, w)
    -- the same variable: bytes that were not read are those of our own port
    else (some (own.overlay got.1.bytes), w)

/-- The end of `udp_session`: the UDP socket replaces the TCP connection. -/
def replaceFd (s : ℕ) (port : Port) (w : UdpSetup) : ℤ × UdpSetup :=
  (s, { w with host := { w.host with rport := port.number, rmtFd := s } })

/-- `udp_session`. -/
def udpSession (c : UdpCalls) (w : UdpSetup) : ℤ × UdpSetup :=
  match c.socket, c.bind, c.getsockname with
  | some s, true, some own =>
    let r := exchangePorts c own w
    match r.1, c.getpeername with
    | some port, some saddr =>
      let saddr := { saddr with port := port }
      if r.2.host.natHack then replaceFd s port { r.2 with connected := false }
      else if c.connect then
        replaceFd s port { r.2 with connected := true, peer := some saddr }
      else (-1, r.2)
    | _, _ => (-1, r.2)
  | _, _, _ => (-1, w)

/-! ### Reads that end early -/

/-- The stream ends, or a signal comes, before `len` bytes are read; `avail` bytes are
there. -/
def endsEarly : List IoEvent → ℕ → ℕ → Bool
  | _, _, 0 => false
  | [], avail, len + 1 => avail < len + 1
  | .chunk n :: sched, avail, len + 1 =>
    let w := min (n + 1) (min (len + 1) avail)
    if w = 0 then true else endsEarly sched (avail - w) (len + 1 - w)
  | .again :: sched, avail, len + 1 => endsEarly sched avail (len + 1)
  | .error :: _, _, _ + 1 => false
  | .zero :: _, _, _ + 1 => true
  | .cancel :: _, _, _ + 1 => true

/-- A read of `len` bytes ends early. -/
def Input.EndsEarly (fd : Input) (len : ℕ) : Prop :=
  fd.canceled = true ∨ endsEarly fd.sched fd.data.length len = true

instance (fd : Input) (len : ℕ) : Decidable (fd.EndsEarly len) :=
  inferInstanceAs (Decidable (_ ∨ _))

/-- A read that ends early takes too few bytes, and does not say so. -/
theorem readLoop_ends {sched : List IoEvent} {data : List Byte} {len : ℕ}
    (h : endsEarly sched data.length len = true) (acc : List Byte) :
    0 ≤ (readLoop sched data len acc).1.ret ∧
      data.length < (readLoop sched data len acc).2.data.length + len := by
  induction sched generalizing data len acc with
  | nil =>
    cases len with
    | zero => simp [endsEarly] at h
    | succ len =>
      have hlen : data.length < len + 1 := by simpa [endsEarly] using h
      rw [readLoop, if_neg (by omega)]
      exact ⟨le_rfl, by simpa using hlen⟩
  | cons e sched ih =>
    cases len with
    | zero => cases e <;> simp [endsEarly] at h
    | succ len =>
      cases e with
      | chunk n =>
        rw [endsEarly] at h
        rw [readLoop]
        set w := min (n + 1) (min (len + 1) data.length) with hw
        by_cases hw0 : w = 0
        · rw [if_pos hw0]
          exact ⟨le_rfl, by dsimp only; omega⟩
        · rw [if_neg hw0] at h ⊢
          have hdrop : (data.drop w).length = data.length - w := List.length_drop
          obtain ⟨hret, hdata⟩ := ih (by rw [hdrop]; exact h) (acc ++ data.take w)
          exact ⟨hret, by omega⟩
      | again => exact ih h acc
      | error => simp [endsEarly] at h
      | zero => exact ⟨le_rfl, by simp [readLoop]⟩
      | cancel => exact ⟨Int.natCast_nonneg _, by simp [readLoop]⟩

/-- Any other read fails, or has all the bytes. -/
theorem readLoop_whole {sched : List IoEvent} {data : List Byte} {len : ℕ}
    (h : endsEarly sched data.length len = false) {acc : List Byte}
    (hret : 0 ≤ (readLoop sched data len acc).1.ret) :
    len ≤ data.length ∧ (readLoop sched data len acc).1.bytes = acc ++ data.take len ∧
      (readLoop sched data len acc).2.data = data.drop len := by
  induction sched generalizing data len acc with
  | nil =>
    cases len with
    | zero => simp [readLoop]
    | succ len =>
      have hlen : len + 1 ≤ data.length := by simpa [endsEarly] using h
      simp [readLoop, hlen]
  | cons e sched ih =>
    cases len with
    | zero => simp [readLoop]
    | succ len =>
      cases e with
      | chunk n =>
        rw [endsEarly] at h
        rw [readLoop] at hret ⊢
        set w := min (n + 1) (min (len + 1) data.length) with hw
        have hwlen : w ≤ len + 1 := by omega
        by_cases hw0 : w = 0
        · rw [if_pos hw0] at h
          cases h
        · rw [if_neg hw0] at h hret ⊢
          have hdrop : (data.drop w).length = data.length - w := List.length_drop
          obtain ⟨hlen, hbytes, hdata⟩ := ih (by rw [hdrop]; exact h) hret
          refine ⟨by omega, ?_, ?_⟩
          · rw [hbytes, List.append_assoc, ← List.take_add, Nat.add_sub_cancel' hwlen]
          · rw [hdata, List.drop_drop, Nat.add_sub_cancel' hwlen]
      | again => exact ih h hret
      | error => simp [readLoop] at hret
      | zero => simp [endsEarly] at h
      | cancel => simp [endsEarly] at h

theorem readN_ends {fd : Input} {len : ℕ} (hlen : 0 < len) (h : fd.EndsEarly len) :
    0 ≤ (readN fd len).1.ret ∧ fd.data.length < (readN fd len).2.data.length + len := by
  rw [readN]
  split
  · exact ⟨le_rfl, by dsimp only; omega⟩
  · rename_i hopen
    exact readLoop_ends (h.resolve_left hopen) []

theorem readN_whole {fd : Input} {len : ℕ} (h : ¬ fd.EndsEarly len)
    (hret : 0 ≤ (readN fd len).1.ret) :
    len ≤ fd.data.length ∧ (readN fd len).1.bytes = fd.data.take len ∧
      (readN fd len).2.data = fd.data.drop len := by
  obtain ⟨hopen, hends⟩ := not_or.mp h
  rw [readN, if_neg hopen] at hret ⊢
  exact readLoop_whole (Bool.eq_false_iff.mpr hends) hret

/-! ### What a session is set up with -/

/-- The peer's port has been received, and the session uses it. -/
structure HasPort (c : UdpCalls) (w w' : UdpSetup) (s : ℤ) (port : Port) : Prop where
  received : w.net.data = port.bytes ++ w'.net.data
  rmtFd : w'.host.rmtFd = s
  rport : w'.host.rport = port.number
  connected : if w.host.natHack then w'.connected = false else
    w'.connected = true ∧ ∃ saddr, c.getpeername = some saddr ∧
      w'.peer = some { saddr with port := port }

/-- A socket is returned with the peer's port only, and a failure leaves the TCP
connection. -/
def PortOrFailure (c : UdpCalls) (w : UdpSetup) : Prop :=
  ((udpSession c w).1 ≠ -1 →
    ∃ port, HasPort c w (udpSession c w).2 (udpSession c w).1 port) ∧
  ((udpSession c w).1 = -1 → (udpSession c w).2.host.rmtFd = w.host.rmtFd)

/-- All calls but those that read the port succeed. -/
structure Succeeds (c : UdpCalls) (w : UdpSetup) (s : ℕ) (own : Port) (saddr : SockAddr) :
    Prop where
  socket : c.socket = some s
  bind : c.bind = true
  getsockname : c.getsockname = some own
  write : 0 ≤ (w.sendPort own).1
  getpeername : c.getpeername = some saddr
  connect : w.host.natHack = true ∨ c.connect = true

/-- The connection ends, or a signal comes, before both bytes of the port are read, and
nothing else fails. -/
def PortLost (c : UdpCalls) (w : UdpSetup) : Prop :=
  ∃ s own saddr, Succeeds c w s own saddr ∧ 0 < c.select w.host.timeout ∧
    (w.input own).EndsEarly 2

/-- The state in which `udp_session` returns the socket `s`. -/
def UdpSetup.done (w : UdpSetup) (s : ℕ) (own : Port) (saddr : SockAddr) : UdpSetup :=
  let got := readN (w.input own) 2
  let port := own.overlay got.1.bytes
  { host := { w.host with lport := own.number, rport := port.number, rmtFd := s }
    net := got.2
    out := (w.sendPort own).2
    canceled := got.2.canceled
    peer := if w.host.natHack then w.peer else some { saddr with port := port }
    connected := !w.host.natHack }

section Setup

variable {c : UdpCalls} {w : UdpSetup} {own : Port}

theorem exchangePorts_host (c : UdpCalls) (own : Port) (w : UdpSetup) :
    (exchangePorts c own w).2.host.rmtFd = w.host.rmtFd ∧
      (exchangePorts c own w).2.host.natHack = w.host.natHack := by
  rw [exchangePorts]
  dsimp only
  split
  · exact ⟨rfl, rfl⟩
  · split
    · exact ⟨rfl, rfl⟩
    · exact ⟨rfl, rfl⟩

/-- The exchange fails with a write, with `select`, or with a negative value of `read_n`. -/
theorem exchangePorts_isSome : (exchangePorts c own w).1.isSome ↔
    0 ≤ (w.sendPort own).1 ∧ 0 < c.select w.host.timeout ∧
      0 ≤ (readN (w.input own) 2).1.ret := by
  rw [exchangePorts]
  dsimp only
  by_cases hwrite : (w.sendPort own).1 < 0
  · rw [if_pos hwrite]
    simp [hwrite]
  · rw [if_neg hwrite, readnT]
    by_cases hselect : c.select w.host.timeout ≤ 0
    · simp [hselect]
    · rw [if_neg hselect]
      have hinput : ({ w.net with canceled := (w.sendPort own).2.canceled } : Input) =
          w.input own := rfl
      rw [hinput]
      by_cases hread : (readN (w.input own) 2).1.ret < 0
      · simp [hread]
      · rw [if_neg hread]
        simp only [Option.isSome_some, true_iff]
        omega

theorem exchangePorts_eq (hwrite : 0 ≤ (w.sendPort own).1)
    (hselect : 0 < c.select w.host.timeout) (hread : 0 ≤ (readN (w.input own) 2).1.ret) :
    exchangePorts c own w = (some (own.overlay (readN (w.input own) 2).1.bytes),
      { w with
        host := { w.host with lport := own.number }
        net := (readN (w.input own) 2).2
        out := (w.sendPort own).2
        canceled := (readN (w.input own) 2).2.canceled }) := by
  have hinput : ({ w.net with canceled := (w.sendPort own).2.canceled } : Input) =
      w.input own := rfl
  rw [exchangePorts]
  dsimp only
  rw [if_neg (not_lt.mpr hwrite), readnT, if_neg (not_le.mpr hselect), hinput,
    if_neg (not_lt.mpr hread)]

/-- Where every call succeeds, the socket is returned. -/
theorem udpSession_done {s : ℕ} {saddr : SockAddr} (h : Succeeds c w s own saddr)
    (hselect : 0 < c.select w.host.timeout) (hread : 0 ≤ (readN (w.input own) 2).1.ret) :
    udpSession c w = ((s : ℤ), w.done s own saddr) := by
  have hnat : ({ w.host with lport := own.number } : UdpHost).natHack = w.host.natHack := rfl
  simp only [udpSession, h.socket, h.bind, h.getsockname, h.getpeername,
    exchangePorts_eq h.write hselect hread, hnat, replaceFd, UdpSetup.done]
  cases hhack : w.host.natHack with
  | true => simp
  | false =>
    have hconnect : c.connect = true := h.connect.resolve_left (by rw [hhack]; simp)
    simp [hconnect]

/-- Where one fails, -1 is returned, and the TCP connection stays. -/
theorem udpSession_fails
    (h : ¬ ∃ s own saddr, Succeeds c w s own saddr ∧ 0 < c.select w.host.timeout ∧
      0 ≤ (readN (w.input own) 2).1.ret) :
    (udpSession c w).1 = -1 ∧ (udpSession c w).2.host.rmtFd = w.host.rmtFd := by
  rw [udpSession]
  split
  · rename_i s own hsocket hbind hown
    obtain ⟨hrmt, hnat⟩ := exchangePorts_host c own w
    dsimp only
    split
    · rename_i port saddr hport hpeer
      have hsome : (exchangePorts c own w).1.isSome := by rw [hport]; rfl
      obtain ⟨hwrite, hselect, hread⟩ := exchangePorts_isSome.mp hsome
      have hconnect : ¬ (w.host.natHack = true ∨ c.connect = true) := fun hc =>
        h ⟨s, own, saddr, ⟨hsocket, hbind, hown, hwrite, hpeer, hc⟩, hselect, hread⟩
      obtain ⟨hhack, hconn⟩ := not_or.mp hconnect
      rw [hnat, if_neg hhack, if_neg hconn]
      exact ⟨rfl, hrmt⟩
    · exact ⟨rfl, hrmt⟩
  · exact ⟨rfl, rfl⟩

/-- With both bytes of the port read, the session has it. -/
theorem hasPort_done {s : ℕ} {saddr : SockAddr} (h : Succeeds c w s own saddr)
    (hends : ¬ (w.input own).EndsEarly 2) (hread : 0 ≤ (readN (w.input own) 2).1.ret) :
    ∃ port, HasPort c w (w.done s own saddr) s port := by
  obtain ⟨hlen, hbytes, hrest⟩ := readN_whole hends hread
  have hdata : (w.input own).data = w.net.data := rfl
  rw [hdata] at hlen hbytes hrest
  match hnet : w.net.data, hlen with
  | hi :: lo :: rest, _ =>
    rw [hnet] at hbytes hrest
    have hport : own.overlay (readN (w.input own) 2).1.bytes = ⟨hi, lo⟩ := by rw [hbytes]; rfl
    refine ⟨⟨hi, lo⟩, ⟨?_, rfl, ?_, ?_⟩⟩
    · show w.net.data = [hi, lo] ++ (readN (w.input own) 2).2.data
      rw [hnet, hrest]
      rfl
    · show (own.overlay (readN (w.input own) 2).1.bytes).number = _
      rw [hport]
    · cases hhack : w.host.natHack with
      | true => simp [UdpSetup.done, hhack]
      | false => simp [UdpSetup.done, hhack, hport, h.getpeername]

end Setup

/-- **When a UDP session has the port of the other end.**  It does unless the TCP
connection ends, or a signal comes, after `select` has found it readable and before both
bytes of the port are read, and nothing else fails: then a socket is returned all the
same, connected to a port that is our own in the bytes that did not come. -/
theorem udp_session_iff (c : UdpCalls) (w : UdpSetup) :
    PortOrFailure c w ↔ ¬ PortLost c w := by
  constructor
  · rintro ⟨hport, -⟩ ⟨s, own, saddr, h, hselect, hends⟩
    obtain ⟨hread, hshort⟩ := readN_ends (by norm_num) hends
    rw [udpSession_done h hselect hread] at hport
    obtain ⟨port, hhas⟩ := hport (by simp only [ne_eq]; omega)
    -- fewer than two bytes have been taken off the connection
    have hreceived : w.net.data.length = 2 + (readN (w.input own) 2).2.data.length := by
      rw [hhas.received, List.length_append]
      rfl
    have hdata : (w.input own).data = w.net.data := rfl
    rw [hdata] at hshort
    omega
  · intro hlost
    by_cases hall : ∃ s own saddr, Succeeds c w s own saddr ∧ 0 < c.select w.host.timeout ∧
        0 ≤ (readN (w.input own) 2).1.ret
    · obtain ⟨s, own, saddr, h, hselect, hread⟩ := hall
      have hends : ¬ (w.input own).EndsEarly 2 := fun hends =>
        hlost ⟨s, own, saddr, h, hselect, hends⟩
      rw [PortOrFailure, udpSession_done h hselect hread]
      refine ⟨fun _ => hasPort_done h hends hread, fun hneg => ?_⟩
      have hs : (s : ℤ) = -1 := hneg
      omega
    · obtain ⟨hret, hrmt⟩ := udpSession_fails hall
      exact ⟨fun hne => absurd hret hne, fun _ => hrmt⟩

/-- Our own UDP socket is bound to port 40000. -/
def closedCalls : UdpCalls :=
  ⟨some 5, true, some ⟨0x9c, 0x40⟩, fun _ => 1, some ⟨0x0a000001, ⟨0x13, 0x88⟩⟩, true⟩

/-- A session whose peer closes the connection before it sends its port. -/
def closedSetup : UdpSetup :=
  ⟨⟨Flag.udp, 60, 4, 0, 0⟩, ⟨[], [], false⟩, ⟨[], [], false⟩, false, none, true⟩

/-- **A peer that closes the connection** before it sends its port: the socket is
returned, connected to our own port at the peer's address. -/
theorem udp_session_closed :
    (udpSession closedCalls closedSetup).2.peer = some ⟨0x0a000001, ⟨0x9c, 0x40⟩⟩ ∧
      ¬ PortOrFailure closedCalls closedSetup := by
  have hrun : (udpSession closedCalls closedSetup).1 = 5 ∧
      (udpSession closedCalls closedSetup).2.net.data = [] := by decide
  refine ⟨by decide, fun hok => ?_⟩
  obtain ⟨port, hport⟩ := hok.1 (by rw [hrun.1]; decide)
  have hreceived := hport.received
  rw [hrun.2] at hreceived
  cases hreceived

end Vtun
