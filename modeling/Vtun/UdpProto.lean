/-
Frames over UDP (`generic/udp_proto.c`).

A datagram is a header and a body.  Where the NAT hack is in use, the first read connects the
socket to whoever has sent the datagram that is there.  `udpRead` is the reading driver;
`udpWrite` is in `Signals.lean`.

* `udpRead_wire` — what `udp_read` makes of a frame that was sent whole;
* `udpWrite_sent` — what `udp_write` sends.
-/
import Vtun.Signals

namespace Vtun

/-- What one `recvfrom` or `readv` meets. -/
inductive RecvEvent
  | ready
  /-- `EAGAIN` or `EINTR` -/
  | again
  /-- another error -/
  | error
  deriving DecidableEq, Repr

/-- The datagrams that have arrived and what the coming calls meet; when the schedule is used
up, they meet no failure. -/
structure UdpInput where
  queue : List (List Byte)
  sched : List RecvEvent
  /-- whether `connect` succeeds -/
  connect : Bool
  /-- `is_rmt_fd_connected` -/
  connected : Bool
  deriving DecidableEq, Repr

/-- The loop around `recvfrom` and the one around `readv`: whether the call succeeds in the
end. -/
def recvLoop : List RecvEvent → Bool × List RecvEvent
  | [] => (true, [])
  | .ready :: sched => (true, sched)
  | .again :: sched => recvLoop sched
  | .error :: sched => (false, sched)

/-- The late connect of `udp_read`: whether it goes on; `none` while nothing arrives. -/
def lateConnect (fd : UdpInput) (buf : List Byte) : Option (Bool × List Byte × UdpInput) :=
  if fd.connected then some (true, buf, fd)
  else
    match recvLoop fd.sched, fd.queue with
    | (false, sched), _ => some (false, buf, { fd with sched := sched })
    | (true, _), [] => none
    | (true, sched), dgram :: _ =>
      -- a look at the first two bytes
      let buf := store buf (dgram.take 2)
      if fd.connect then some (true, buf, { fd with sched := sched, connected := true })
      else some (false, buf, { fd with sched := sched })

/-- The end of `udp_read`: the datagram, taken off the queue. -/
def readDatagram (fd : UdpInput) (buf : List Byte) : Option (ℤ × List Byte × UdpInput) :=
  match recvLoop fd.sched, fd.queue with
  | (false, sched), _ => some (-1, buf, { fd with sched := sched })
  | (true, _), [] => none
  | (true, sched), dgram :: queue =>
    let fd := { fd with sched := sched, queue := queue }
    let rlen := min dgram.length (2 + (frameSize + frameOverhead))
    let buf := store buf ((dgram.drop 2).take (frameSize + frameOverhead))
    let hdr := ntohs dgram
    if rlen < 2 ∨ rlen - 2 ≠ frameLen hdr then some (badFrame, buf, fd) else some (hdr, buf, fd)

/-- `udp_read`: the value, the buffer and the socket, or `none` while nothing arrives. -/
def udpRead (fd : UdpInput) (buf : List Byte) : Option (ℤ × List Byte × UdpInput) :=
  (lateConnect fd buf).bind fun r =>
    if r.1 then readDatagram r.2.2 r.2.1 else some (-1, r.2.1, r.2.2)

/-! ### One frame -/

/-- The late connect leaves the queue alone. -/
theorem lateConnect_queue {fd : UdpInput} {buf : List Byte} {r : Bool × List Byte × UdpInput}
    (h : lateConnect fd buf = some r) : r.2.2.queue = fd.queue := by
  rw [lateConnect] at h
  split at h
  · obtain rfl := Option.some.inj h
    rfl
  · split at h
    · obtain rfl := Option.some.inj h
      rfl
    · cases h
    · dsimp only at h
      split at h
      · obtain rfl := Option.some.inj h
        rfl
      · obtain rfl := Option.some.inj h
        rfl

/-- **A frame that was sent whole** is returned as it is, unless a call fails. -/
theorem udpRead_wire {fd : UdpInput} {len : ℕ} (hlen : len ≤ frameSize + frameOverhead)
    {body : List Byte} (hbody : body.length = len) {queue : List (List Byte)}
    (hqueue : fd.queue = (htons len ++ body) :: queue) {buf : List Byte}
    {r : ℤ × List Byte × UdpInput} (h : udpRead fd buf = some r) :
    r.1 = -1 ∨ r.1 = len ∧ r.2.1.take len = body ∧ r.2.2.queue = queue := by
  have hsmall : len < 4096 := by simp only [frameSize, frameOverhead] at hlen; omega
  obtain ⟨t, ht, hr⟩ := Option.bind_eq_some_iff.mp h
  have htqueue := (lateConnect_queue ht).trans hqueue
  split at hr
  · rw [readDatagram, htqueue] at hr
    rcases hrecv : recvLoop t.2.2.sched with ⟨ok, sched⟩
    rw [hrecv] at hr
    cases ok with
    | false =>
      obtain rfl := Option.some.inj hr
      exact Or.inl rfl
    | true =>
      dsimp only at hr
      have hrlen : min (htons len ++ body).length (2 + (frameSize + frameOverhead)) = 2 + len := by
        rw [List.length_append, hbody, show (htons len).length = 2 from rfl]
        omega
      have hflen : frameLen len = len := by rw [frameLen_eq, Nat.mod_eq_of_lt hsmall]
      rw [hrlen, ntohs_htons (by omega), hflen, if_neg (by omega)] at hr
      obtain rfl := Option.some.inj hr
      refine Or.inr ⟨rfl, ?_, rfl⟩
      have hdrop : (htons len ++ body).drop 2 = body := rfl
      have hall : body.take (frameSize + frameOverhead) = body :=
        List.take_of_length_le (by omega)
      dsimp only
      rw [hdrop, hall, ← hbody, take_store]
  · obtain rfl := Option.some.inj hr
    exact Or.inl rfl

/-! ### What is sent -/

/-- **One datagram or nothing** is sent. -/
theorem udpWrite_sent (connected : Bool) (fd : UdpOutput) (buf : List Byte) (len : ℕ) :
    (udpWrite connected fd buf len).2.sent = fd.sent ∨
      (udpWrite connected fd buf len).2.sent =
        fd.sent ++ [htons len ++ buf.take (frameLen len)] := by
  obtain ⟨sent, sched⟩ := fd
  cases connected with
  | false => exact Or.inl rfl
  | true =>
    rw [udpWrite, if_pos rfl]
    -- failures that are tried again send nothing
    induction sched with
    | nil => exact Or.inr rfl
    | cons e sched ih =>
      cases e with
      | done => exact Or.inr rfl
      | again => exact ih
      | noBufs => exact Or.inl rfl
      | error => exact Or.inl rfl

end Vtun
