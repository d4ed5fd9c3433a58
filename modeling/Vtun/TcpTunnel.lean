/-
A tunnel over TCP (`tunnel.c`, `linkfd.c`, `generic/tcp_proto.c`).

Two linkers with their modules and the two byte streams between them.  The turns of the
loops interleave part by part, writes and reads are cut as the system likes, and signals
come between the parts and in any call but a read.

* `OnStream` — the packets on their way and the bytes that carry them, up to the byte at
  which a signal has struck;
* `Joined` — what holds between one end and the other, which every part keeps;
* `tcp_tunnel_in_order` — what an end hands to its device is the start of what the other
  end has read from its own, and all of it once the stream is empty.
-/
import Vtun.CutFrame
import Vtun.Relay
import Vtun.Tunnel

namespace Vtun

variable {ε σ : Type}

/-! ### One end -/

/-- What one part of a turn gets from the system. -/
structure StreamIn (ε : Type) where
  /-- what the modules have left in the buffer of the linker -/
  buf : List Byte
  select : Select
  alarm : Bool
  dev : DevRead
  devOut : DevWrite
  /-- what the modules read from the system in each call -/
  env : ℕ → ε
  /-- the signal that comes in each call, if one does -/
  sig : ℕ → Option Sig
  /-- what lies behind a header that is cut short -/
  stale : Byte
  /-- the signal that comes inside a write -/
  which : Sig
  reads : List IoEvent
  writes : List IoEvent

/-- What a part gets, how many calls it has made, and the frames `dev_read` has returned. -/
structure StreamDev (ε : Type) where
  inp : StreamIn ε
  calls : ℕ
  read : List (List Byte)

/-- One more call. -/
def StreamDev.next (d : StreamDev ε) : StreamDev ε := { d with calls := d.calls + 1 }

@[simp] theorem StreamDev.next_read (d : StreamDev ε) : d.next.read = d.read := rfl

/-- The calls that are not on the network descriptor. -/
def streamPorts : Ports ε (StreamDev ε) where
  select d := (d.inp.select, d.next)
  -- `tcpLink` reads and writes the streams itself
  protoRead d buf := (0, buf, d)
  protoWrite d _ _ := (0, d)
  devRead d :=
    match d.inp.dev with
    | .failed again => (.failed again, d.next)
    | .data [] => (.data [], d.next)
    | .data bytes => (.data bytes, { d.next with read := d.read ++ [bytes.take frameSize] })
  devWrite d _ := (d.inp.devOut, d.next)
  modEnv d := (d.inp.env d.calls, d.next)
  alarm d := (d.inp.alarm, d.next)
  term d := d.inp.sig d.calls

/-- The calls of one end. -/
def streamLink : Ports ε (TcpWorld (StreamDev ε)) :=
  tcpLink (fun d => d.inp.stale) (fun d => d.inp.which) streamPorts

/-- A linker on two byte streams. -/
abbrev StreamLinker (ε σ : Type) : Type := Linker σ (TcpWorld (StreamDev ε))

/-- One end: its linker, where its loop goes on, and whether it has closed the connection. -/
structure StreamEnd (ε σ : Type) where
  link : StreamLinker ε σ
  pc : LinkPc
  closed : Bool

/-! ### Both ends -/

/-- Both ends, and for each of them the bytes it has written that are not yet read. -/
structure TcpTunnel (ε σ : Type) where
  ends : Side → StreamEnd ε σ
  flight : Side → List Byte

/-- What can happen next. -/
inductive StreamEv (ε : Type)
  /-- the next part of one end's turn -/
  | part (a : Side) (inp : StreamIn ε)
  /-- a signal between two parts -/
  | signal (a : Side) (x : Sig)
  /-- behind its loop, one end tells the other that it closes the connection -/
  | close (a : Side) (inp : StreamIn ε)

namespace TcpTunnel

/-- The frames `dev_read` has returned at one end. -/
def read (t : TcpTunnel ε σ) (a : Side) : List (List Byte) := (t.ends a).link.io.dev.read

/-- The frames handed to `dev_write` at one end. -/
def written (t : TcpTunnel ε σ) (a : Side) : List (List Byte) := devs (t.ends a).link.trace

/-- The linker of one end before its next part. -/
def ready (t : TcpTunnel ε σ) (a : Side) (inp : StreamIn ε) : StreamLinker ε σ :=
  let l := (t.ends a).link
  { l with
    buf := inp.buf
    io := { l.io with
      net := ⟨t.flight a.other, inp.reads, false⟩
      out := ⟨t.flight a, inp.writes, false⟩
      dev := ⟨inp, 0, l.io.dev.read⟩ } }

/-- A signal has come to one end. -/
def signaled (t : TcpTunnel ε σ) (a : Side) (x : Sig) : TcpTunnel ε σ :=
  let e := t.ends a
  let link := { e.link with io := e.link.io.handle x }
  { t with ends := Function.update t.ends a { e with link := link } }

/-- One end goes on as `e`. -/
def advance (t : TcpTunnel ε σ) (a : Side) (e : StreamEnd ε σ) : TcpTunnel ε σ where
  ends := Function.update t.ends a e
  flight b := if b = a then e.link.io.out.sent else e.link.io.net.data

end TcpTunnel

/-- One step of the two ends. -/
def tcpTunnelStep (S : Side → Session ε σ) (t : TcpTunnel ε σ) :
    StreamEv ε → Option (TcpTunnel ε σ)
  | .part a inp =>
    let r := linkerPart (S a) streamLink (t.ends a).pc (t.ready a inp)
    some (t.advance a { t.ends a with link := r.1, pc := r.2 })
  | .signal a x => some (t.signaled a x)
  | .close a inp =>
    if (t.ends a).pc = .left ∧ (t.ends a).closed = false then
      let l := t.ready a inp
      let link := (putProto streamLink l l.buf connClose).2
      some (t.advance a { t.ends a with link := link, closed := true })
    else none

/-- Both ends when they enter the loop of `lfd_linker`: without the hack for broken routers,
each has sent an echo request.  What `inp` holds is not used. -/
def tcpTunnelStart (mods : Side → σ) (natHack : Side → Bool) (inp : StreamIn ε) :
    TcpTunnel ε σ where
  ends a :=
    { link :=
        { buf := []
          idle := 0
          kaNeedVerify := false
          mods := mods a
          io := ⟨⟨[], [], false⟩, ⟨[], [], false⟩, false, none, ⟨inp, 0, []⟩⟩
          trace := [] }
      pc := .top
      closed := false }
  flight a := if natHack a then [] else htons echoReq

/-- A part in which no signal comes inside a read, and no write fails or returns 0. -/
def StreamIn.Steady (inp : StreamIn ε) : Prop := .cancel ∉ inp.reads ∧ NoFail inp.writes

/-- A part in which the device has no frame of more than `mtu` bytes for the linker. -/
def StreamIn.Within (mtu : ℕ) (inp : StreamIn ε) : Prop :=
  ∀ bytes, inp.dev = .data bytes → (bytes.take frameSize).length ≤ mtu

/-- A frame always fits the buffer of the linker. -/
theorem StreamIn.within_frameSize (inp : StreamIn ε) : inp.Within frameSize :=
  fun _ _ => List.length_take_le _ _

/-- The condition on the steps of a run. -/
def StreamEv.Steady : StreamEv ε → Prop
  | .part _ inp => inp.Steady
  | .signal _ _ => True
  | .close _ inp => inp.Steady

/-- The condition on the frames of a run. -/
def StreamEv.Within (mtu : ℕ) : StreamEv ε → Prop
  | .part _ inp => inp.Within mtu
  | _ => True

theorem StreamEv.within_frameSize (e : StreamEv ε) : e.Within frameSize := by
  cases e with
  | part a inp => exact inp.within_frameSize
  | signal a x => trivial
  | close a inp => trivial

/-! ### Bytes on a stream -/

/-- The data frames of a sequence of sends. -/
def datas (sends : List Send) : List (List Byte) :=
  sends.filterMap fun
    | .data frame => some frame
    | .ctl _ _ => none

/-- The bytes of a sequence of sends. -/
def sendBytes (sends : List Send) : List Byte := (sends.map Send.wire).flatten

theorem sendBytes_snoc (sends : List Send) (s : Send) :
    sendBytes (sends ++ [s]) = sendBytes sends ++ s.wire := by
  rw [sendBytes, List.map_append, List.flatten_append]
  simp [sendBytes]

theorem datas_append (sends sends' : List Send) :
    datas (sends ++ sends') = datas sends ++ datas sends' := List.filterMap_append

/-- The start of a send that a signal has struck, or nothing. -/
def Torn (tail : List Byte) : Prop :=
  tail = [] ∨ ∃ s : Send, s.Valid ∧ tail <+: s.wire ∧ tail.length < s.wire.length

/-- The bytes on a stream carry the packets `flight`; `cut` is whether the end that writes
has been told to stop, behind which nothing more is written. -/
def OnStream (cut : Bool) (bytes : List Byte) (flight : List (List Byte)) : Prop :=
  ∃ sends lost tail, bytes = sendBytes sends ++ tail ∧ (∀ s ∈ sends, s.Valid) ∧
    flight = datas sends ++ lost ∧ Torn tail ∧ (cut = false → lost = [] ∧ tail = [])

theorem OnStream.cut {bytes : List Byte} {flight : List (List Byte)} {c c' : Bool}
    (h : OnStream c bytes flight) (hc : c = true → c' = true) : OnStream c' bytes flight := by
  obtain ⟨sends, lost, tail, hbytes, hvalid, hflight, htorn, hcut⟩ := h
  refine ⟨sends, lost, tail, hbytes, hvalid, hflight, htorn, fun h0 => hcut ?_⟩
  cases c with
  | false => rfl
  | true => exact absurd (hc rfl) (by rw [h0]; decide)

/-- A write puts all its bytes on the stream, or a signal strikes before the last of them. -/
theorem writeLoop_cases {sched : List IoEvent} (hs : NoFail sched) (sent buf : List Byte) (t : ℕ) :
    0 ≤ (writeLoop sched sent buf t).1 ∧ ∃ sched', sched' <:+ sched ∧
      ((writeLoop sched sent buf t).2 = ⟨sent ++ buf, sched', false⟩ ∨
        ∃ front, front <+: buf ∧ front.length < buf.length ∧
          (writeLoop sched sent buf t).2 = ⟨sent ++ front, sched', true⟩) := by
  induction sched generalizing sent buf t with
  | nil =>
    cases buf with
    | nil => exact ⟨Int.natCast_nonneg t, [], List.suffix_rfl, .inl (by simp [writeLoop])⟩
    | cons b buf =>
      refine ⟨?_, [], List.suffix_rfl, .inl rfl⟩
      change (0 : ℤ) ≤ t + ((b :: buf).length : ℤ)
      exact Int.add_nonneg (Int.natCast_nonneg t) (Int.natCast_nonneg _)
  | cons e sched ih =>
    have hsuffix : sched <:+ e :: sched := List.suffix_cons e sched
    rcases buf with _ | ⟨b, buf⟩
    · have hdone : writeLoop (e :: sched) sent [] t =
          ((t : ℤ), (⟨sent, e :: sched, false⟩ : Output)) := by
        cases e <;> rfl
      rw [hdone, List.append_nil]
      exact ⟨Int.natCast_nonneg t, e :: sched, List.suffix_rfl, .inl rfl⟩
    cases e with
    | chunk n =>
      rw [writeLoop]
      set w := min (n + 1) (b :: buf).length with hw
      obtain ⟨hret, sched', hsub, hcases⟩ :=
        ih hs.tail (sent ++ (b :: buf).take w) ((b :: buf).drop w) (t + w)
      refine ⟨hret, sched', hsub.trans hsuffix, ?_⟩
      rcases hcases with heq | ⟨front, hfront, hlen, heq⟩
      · rw [heq, List.append_assoc, List.take_append_drop]
        exact .inl rfl
      · right
        refine ⟨(b :: buf).take w ++ front, ?_, ?_, by rw [heq, List.append_assoc]⟩
        · have hboth := (List.prefix_append_right_inj ((b :: buf).take w)).mpr hfront
          rwa [List.take_append_drop] at hboth
        · rw [List.length_append, List.length_take]
          rw [List.length_drop] at hlen
          omega
    | again =>
      obtain ⟨hret, sched', hsub, hcases⟩ := ih hs.tail sent (b :: buf) t
      exact ⟨hret, sched', hsub.trans hsuffix, hcases⟩
    | error => exact absurd rfl hs.head.1
    | zero => exact absurd rfl hs.head.2
    | cancel =>
      refine ⟨Int.natCast_nonneg t, sched, hsuffix, .inr ⟨[], List.nil_prefix, ?_, ?_⟩⟩
      · exact Nat.succ_pos _
      · rw [writeLoop, List.append_nil]

/-- The call of `tcp_write` for a send puts its wire on the stream. -/
theorem Send.write_wire (fd : Output) {s : Send} (hs : s.Valid) :
    s.write fd = writeN fd s.wire := by
  cases s with
  | data frame =>
    have hflen : frameLen frame.length = frame.length := by
      have hlen := hs.2
      simp only [frameSize, frameOverhead] at hlen
      rw [frameLen_eq, Nat.mod_eq_of_lt (by omega)]
    rw [Send.write, tcpWrite, hflen, List.take_length, Send.wire]
  | ctl c buf =>
    rw [Send.write, tcpWrite, c.frameLen_flag, List.take_zero, List.append_nil, Send.wire]

/-- A write that does not fail. -/
theorem writeN_steady {fd : Output} (hfail : NoFail fd.sched) (buf : List Byte) :
    0 ≤ (writeN fd buf).1 ∧ NoFail (writeN fd buf).2.sched ∧
      (fd.canceled = true → (writeN fd buf).2.canceled = true) := by
  rw [writeN]
  split
  · rename_i hc
    exact ⟨le_rfl, hfail, fun _ => hc⟩
  · rename_i hc
    obtain ⟨hret, sched', hsub, hcases⟩ := writeLoop_cases hfail fd.sent buf 0
    have hfail' : NoFail sched' := fun e he => hfail e (hsub.subset he)
    refine ⟨hret, ?_, fun h0 => absurd h0 hc⟩
    rcases hcases with heq | ⟨front, -, -, heq⟩
    · rwa [heq]
    · rwa [heq]

/-- **A write keeps the stream and the packets together**, whether or not a signal strikes. -/
theorem OnStream.write {fd : Output} {flight : List (List Byte)}
    (h : OnStream fd.canceled fd.sent flight) (hfail : NoFail fd.sched) {s : Send} (hs : s.Valid) :
    OnStream (s.write fd).2.canceled (s.write fd).2.sent (flight ++ datas [s]) := by
  obtain ⟨sends, lost, tail, hbytes, hvalid, rfl, htorn, hcut⟩ := h
  rw [Send.write_wire fd hs, writeN]
  by_cases hc : fd.canceled = true
  · -- nothing is written any more
    rw [if_pos hc]
    refine ⟨sends, lost ++ datas [s], tail, hbytes, hvalid, ?_, htorn, ?_⟩
    · rw [List.append_assoc]
    · exact fun h0 => absurd hc (by rw [h0]; decide)
  rw [if_neg hc]
  obtain ⟨rfl, rfl⟩ := hcut (by simpa using hc)
  rw [List.append_nil] at hbytes
  obtain ⟨-, sched', -, hcases⟩ := writeLoop_cases hfail fd.sent s.wire 0
  rcases hcases with heq | ⟨front, hfront, hlen, heq⟩
  · rw [heq]
    refine ⟨sends ++ [s], [], [], ?_, ?_, ?_, .inl rfl, fun _ => ⟨rfl, rfl⟩⟩
    · rw [sendBytes_snoc, List.append_nil, hbytes]
    · intro s' hs'
      rcases List.mem_append.mp hs' with hs' | hs'
      · exact hvalid s' hs'
      · rwa [List.mem_singleton.mp hs']
    · rw [datas_append, List.append_nil, List.append_nil]
  · rw [heq]
    refine ⟨sends, datas [s], front, ?_, hvalid, ?_, .inr ⟨s, hs, hfront, hlen⟩, ?_⟩
    · rw [hbytes]
    · rw [List.append_nil]
    · exact fun h0 => absurd h0 (by simp)

/-! ### Reading a send -/

/-- A descriptor on which no signal has come and none strikes a read. -/
def Input.Calm (fd : Input) : Prop := fd.canceled = false ∧ .cancel ∉ fd.sched

/-- A read that no signal strikes keeps the schedule free of signals, and a positive value
is the number of bytes. -/
theorem readLoop_uncanceled {sched : List IoEvent} (hc : .cancel ∉ sched) (data : List Byte)
    (len : ℕ) (acc : List Byte) :
    (readLoop sched data len acc).2.Calm ∧
      (0 < (readLoop sched data len acc).1.ret →
        (readLoop sched data len acc).1.ret = (readLoop sched data len acc).1.bytes.length) := by
  have htail : ∀ {e : IoEvent} {sched}, IoEvent.cancel ∉ e :: sched → IoEvent.cancel ∉ sched :=
    fun h h' => h (List.mem_cons_of_mem _ h')
  induction sched, data, len, acc using readLoop.induct with
  | case1 sched data acc =>
    rw [readLoop]
    exact ⟨⟨rfl, hc⟩, fun _ => rfl⟩
  | case2 data len acc hlen =>
    rw [readLoop, if_pos hlen]
    refine ⟨⟨rfl, hc⟩, fun _ => ?_⟩
    dsimp only
    rw [List.length_append, List.length_take_of_le hlen]
    exact (Nat.cast_add _ _).symm
  | case3 data len acc hlen =>
    rw [readLoop, if_neg hlen]
    exact ⟨⟨rfl, hc⟩, fun h => absurd h (lt_irrefl 0)⟩
  | case4 n sched data len acc w hw =>
    rw [readLoop, if_pos hw]
    exact ⟨⟨rfl, htail hc⟩, fun h => absurd h (lt_irrefl 0)⟩
  | case5 n sched data len acc w hw ih =>
    rw [readLoop, if_neg hw]
    exact ih (htail hc)
  | case6 sched data len acc ih =>
    rw [readLoop]
    exact ih (htail hc)
  | case7 sched data len acc =>
    rw [readLoop]
    exact ⟨⟨rfl, htail hc⟩, fun h => absurd h (by simp)⟩
  | case8 sched data len acc =>
    rw [readLoop]
    exact ⟨⟨rfl, htail hc⟩, fun h => absurd h (lt_irrefl 0)⟩
  | case9 sched data len acc => exact absurd List.mem_cons_self hc

/-- A read of all its bytes, or one that returns nothing positive. -/
theorem readN_calm {fd : Input} (h : fd.Calm) (len : ℕ) :
    (readN fd len).2.Calm ∧ ((readN fd len).1.ret ≤ 0 ∨
      len ≤ fd.data.length ∧ (readN fd len).1.ret = len ∧
        (readN fd len).1.bytes = fd.data.take len ∧ (readN fd len).2.data = fd.data.drop len) := by
  rw [readN_open h.1]
  obtain ⟨hcalm, hlength⟩ := readLoop_uncanceled h.2 fd.data len []
  refine ⟨hcalm, ?_⟩
  by_cases hret : (readLoop fd.sched fd.data len []).1.ret ≤ 0
  · exact .inl hret
  · right
    obtain ⟨hlen, hbytes, hdata⟩ := readLoop_pos h.2 (not_le.mp hret)
    rw [List.nil_append] at hbytes
    refine ⟨hlen, ?_, hbytes, hdata⟩
    rw [hlength (not_le.mp hret), hbytes, List.length_take_of_le hlen]

/-- What `tcp_read` makes of a stream on which no signal strikes: nothing positive, or the
frame of a header that is there with its body. -/
theorem tcpRead_calm {fd : Input} (h : fd.Calm) {len : ℕ} (hlen : len < 65536)
    (hsize : frameLen len ≤ frameSize + frameOverhead) {data : List Byte}
    (hd : fd.data <+: htons len ++ data) (stale : Byte) (buf : List Byte) :
    let r := tcpRead stale fd buf
    r.2.2.Calm ∧ (0 < r.1 →
      (frameFlags len ≠ 0 ∧ 2 ≤ fd.data.length ∧ r = ((len : ℤ), buf, r.2.2) ∧
          r.2.2.data = fd.data.drop 2) ∨
        frameFlags len = 0 ∧ 2 + frameLen len ≤ fd.data.length ∧ r.1 = frameLen len ∧
          r.2.1.take (frameLen len) = (fd.data.drop 2).take (frameLen len) ∧
          r.2.2.data = fd.data.drop (2 + frameLen len)) := by
  dsimp only
  obtain ⟨hcalm, hret | ⟨htwo, hret, hbytes, hdata⟩⟩ := readN_calm h 2
  · rw [tcpRead, if_pos hret]
    exact ⟨hcalm, fun hpos => absurd hpos (not_lt.mpr hret)⟩
  have hheader : fd.data.take 2 = htons len := by
    obtain ⟨rest, hrest⟩ := hd
    have htake : (fd.data ++ rest).take 2 = fd.data.take 2 := List.take_append_of_le_length htwo
    rw [← htake, hrest]
    rfl
  rcases hread : readN fd 2 with ⟨⟨ret, bytes⟩, fd₁⟩
  rw [hread] at hcalm hret hbytes hdata
  dsimp only at hcalm hret hbytes hdata
  have hntohs : ntohs (bytes ++ [stale]) = len := by rw [hbytes, hheader, ntohs_htons hlen]
  rw [tcpRead_header hread (by omega) hntohs buf, if_neg (not_lt.mpr hsize)]
  by_cases hflags : frameFlags len ≠ 0
  · rw [if_pos hflags]
    exact ⟨hcalm, fun _ => .inl ⟨hflags, htwo, rfl, hdata⟩⟩
  · rw [if_neg hflags]
    dsimp only
    obtain ⟨hcalm', hret' | ⟨hbody, hret', hbytes', hdata'⟩⟩ := readN_calm hcalm (frameLen len)
    · exact ⟨hcalm', fun hpos => absurd hpos (not_lt.mpr hret')⟩
    refine ⟨hcalm', fun _ => .inr ⟨not_not.mp hflags, ?_, hret', ?_, ?_⟩⟩
    · rw [hdata, List.length_drop] at hbody
      omega
    · have hsome : (readN fd₁ (frameLen len)).1.bytes.length = frameLen len := by
        rw [hbytes', List.length_take_of_le hbody]
      have htake := take_store buf (readN fd₁ (frameLen len)).1.bytes
      rw [hsome] at htake
      rw [htake, hbytes', hdata]
    · rw [hdata', hdata, List.drop_drop]

/-- **Reading a send**: nothing positive is returned, or the send is taken off the stream. -/
theorem tcpRead_send {fd : Input} (h : fd.Calm) {s : Send} (hs : s.Valid) {rest : List Byte}
    (hd : fd.data = s.wire ++ rest) (stale : Byte) (buf : List Byte) :
    let r := tcpRead stale fd buf
    r.2.2.Calm ∧ (0 < r.1 → s.ReceivedAs (r.1, r.2.1) ∧ r.2.2.data = rest) := by
  cases s with
  | data frame =>
    have hlen := hs.2
    have hmax : frameSize + frameOverhead = 2148 := rfl
    have hflen : frameLen frame.length = frame.length := by
      rw [frameLen_eq, Nat.mod_eq_of_lt (by omega)]
    have hflags : frameFlags frame.length = 0 := by
      rw [frameFlags_eq (by omega), Nat.div_eq_of_lt (by omega), Nat.zero_mul]
    have hwire : fd.data = htons frame.length ++ (frame ++ rest) := by
      rw [hd, Send.wire, List.append_assoc]
    have hfront : fd.data <+: htons frame.length ++ (frame ++ rest) := by
      rw [hwire]
    obtain ⟨hcalm, hread⟩ := tcpRead_calm h (by omega) (by rw [hflen]; exact hlen) hfront stale buf
    refine ⟨hcalm, fun hpos => ?_⟩
    rcases hread hpos with ⟨hne, -⟩ | ⟨-, -, hret, htake, hdata⟩
    · exact absurd hflags hne
    · have hbehind : fd.data.drop 2 = frame ++ rest := by rw [hwire]; rfl
      rw [hflen] at hret htake hdata
      refine ⟨⟨hret, ?_⟩, ?_⟩
      · rw [htake, hbehind, List.take_left]
      · rw [hdata, ← List.drop_drop, hbehind, List.drop_left]
  | ctl c b =>
    have hwire : fd.data = htons c.flag ++ rest := by rw [hd, Send.wire]
    have hfront : fd.data <+: htons c.flag ++ rest := by
      rw [hwire]
    obtain ⟨hcalm, hread⟩ := tcpRead_calm h c.flag_lt
      (by rw [c.frameLen_flag]; exact Nat.zero_le _) hfront stale buf
    refine ⟨hcalm, fun hpos => ?_⟩
    rcases hread hpos with ⟨-, -, heq, hdata⟩ | ⟨hflags, -⟩
    · refine ⟨congrArg Prod.fst heq, ?_⟩
      rw [hdata, hwire]
      rfl
    · exact absurd hflags c.frameFlags_flag

/-- The start of a send alone is not taken for a frame. -/
theorem tcpRead_torn {fd : Input} (h : fd.Calm) (htorn : Torn fd.data) (stale : Byte)
    (buf : List Byte) :
    (tcpRead stale fd buf).2.2.Calm ∧ (tcpRead stale fd buf).1 ≤ 0 := by
  rcases htorn with hnil | ⟨s, hs, hfront, hshort⟩
  · -- the end of the stream
    have hfront : fd.data <+: htons 0 ++ [] := by
      rw [hnil]
      exact List.nil_prefix
    obtain ⟨hcalm, hread⟩ := tcpRead_calm h (by decide) (Nat.zero_le _) hfront stale buf
    refine ⟨hcalm, not_lt.mp fun hpos => ?_⟩
    rcases hread hpos with ⟨hne, -⟩ | ⟨-, hall, -⟩
    · exact hne rfl
    · rw [hnil] at hall
      exact absurd hall (by simp)
  cases s with
  | data frame =>
    have hlen := hs.2
    have hmax : frameSize + frameOverhead = 2148 := rfl
    have hflen : frameLen frame.length = frame.length := by
      rw [frameLen_eq, Nat.mod_eq_of_lt (by omega)]
    have hflags : frameFlags frame.length = 0 := by
      rw [frameFlags_eq (by omega), Nat.div_eq_of_lt (by omega), Nat.zero_mul]
    obtain ⟨hcalm, hread⟩ :=
      tcpRead_calm h (by omega) (by rw [hflen]; exact hlen) hfront stale buf
    refine ⟨hcalm, not_lt.mp fun hpos => ?_⟩
    rcases hread hpos with ⟨hne, -⟩ | ⟨-, hall, -⟩
    · exact absurd hflags hne
    · simp only [Send.wire, htons, List.length_append, List.length_cons, List.length_nil] at hshort
      omega
  | ctl c b =>
    have hfront' : fd.data <+: htons c.flag ++ [] := by rwa [List.append_nil]
    obtain ⟨hcalm, hread⟩ := tcpRead_calm h c.flag_lt
      (by rw [c.frameLen_flag]; exact Nat.zero_le _) hfront' stale buf
    refine ⟨hcalm, not_lt.mp fun hpos => ?_⟩
    rcases hread hpos with ⟨-, htwo, -⟩ | ⟨hflags, -⟩
    · simp only [Send.wire, htons, List.length_cons, List.length_nil] at hshort
      omega
    · exact absurd hflags c.frameFlags_flag

/-- **A read takes the oldest send off the stream**, or returns nothing positive. -/
theorem OnStream.read {c : Bool} {fd : Input} {flight : List (List Byte)}
    (h : OnStream c fd.data flight) (hcalm : fd.Calm) (stale : Byte) (buf : List Byte) :
    let r := tcpRead stale fd buf
    r.2.2.Calm ∧ (0 < r.1 → ∃ (s : Send) (rest : List (List Byte)), s.Valid ∧
      s.ReceivedAs (r.1, r.2.1) ∧ flight = datas [s] ++ rest ∧ OnStream c r.2.2.data rest) := by
  obtain ⟨sends, lost, tail, hbytes, hvalid, hflight, htorn, hcut⟩ := h
  cases sends with
  | nil =>
    have hdata : fd.data = tail := by rw [hbytes]; rfl
    obtain ⟨hcalm', hret⟩ := tcpRead_torn hcalm (hdata ▸ htorn) stale buf
    exact ⟨hcalm', fun hpos => absurd hpos (not_lt.mpr hret)⟩
  | cons s sends =>
    obtain ⟨hs, hrest⟩ := List.forall_mem_cons.mp hvalid
    have hdata : fd.data = s.wire ++ (sendBytes sends ++ tail) := by
      rw [hbytes, sendBytes, List.map_cons, List.flatten_cons, List.append_assoc, sendBytes]
    obtain ⟨hcalm', hread⟩ := tcpRead_send hcalm hs hdata stale buf
    refine ⟨hcalm', fun hpos => ?_⟩
    obtain ⟨hgot, hleft⟩ := hread hpos
    refine ⟨s, datas sends ++ lost, hs, hgot, ?_, sends, lost, tail, hleft, hrest, rfl, htorn, hcut⟩
    rw [hflight, ← List.append_assoc, ← datas_append, List.singleton_append]

/-! ### The calls of a part -/

namespace TcpWorld

variable {δ : Type} {P : Ports ε δ} {w : TcpWorld δ} {d : δ}

@[simp] theorem after_net : (w.after P d).net = w.net := by
  rw [after]; split <;> rfl

@[simp] theorem after_out : (w.after P d).out = w.out := by
  rw [after]; split <;> rfl

@[simp] theorem after_dev : (w.after P d).dev = d := by
  rw [after]; split <;> rfl

theorem after_canceled (h : w.canceled = true) : (w.after P d).canceled = true := by
  rw [after]
  split
  · exact h
  · rfl

/-- What a read or a write of the streams leaves. -/
theorem afterIo_eq (which : δ → Sig) (w : TcpWorld δ) (c : Bool) :
    (w.afterIo which c).net = w.net ∧ (w.afterIo which c).out = w.out ∧
      (w.afterIo which c).dev = w.dev ∧ (w.afterIo which c).canceled = (w.canceled || c) := by
  rw [afterIo]
  cases hc : c <;> cases hw : w.canceled <;> simp [handle, hw]

end TcpWorld

/-! ### One end and the other -/

/-- What one end is to the other: its modules, the frames it has read from its device and
those it has written to it, whether it has been told to stop, and whether it still listens. -/
structure FarEnd (σ : Type) where
  mods : σ
  read : List (List Byte)
  written : List (List Byte)
  canceled : Bool
  listens : Prop

/-- One direction: the frames that are read and not yet written are those whose packets are
on their way, and as long as the other end listens, the stream carries them. -/
def Flows (D : OnTheWay σ) (s r : σ) (cut : Bool) (listens : Prop) (bytes : List Byte)
    (read written : List (List Byte)) : Prop :=
  ∃ flight ms, D s r flight ms ∧ read = written ++ ms ∧ (listens → OnStream cut bytes flight)

/-- What holds between one end and the other, in both directions. -/
structure Joined (D : OnTheWay σ) (far : FarEnd σ) (listens : Prop) (l : StreamLinker ε σ) :
    Prop where
  out : Flows D l.mods far.mods l.io.canceled far.listens l.io.out.sent l.io.dev.read far.written
  inc : Flows D far.mods l.mods far.canceled listens l.io.net.data far.read (devs l.trace)
  reads : .cancel ∉ l.io.net.sched
  writes : NoFail l.io.out.sched

theorem Flows.mono {D : OnTheWay σ} {s r : σ} {cut cut' : Bool} {listens listens' : Prop}
    {bytes : List Byte} {read written : List (List Byte)}
    (h : Flows D s r cut listens bytes read written) (hcut : cut = true → cut' = true)
    (hlistens : listens' → listens) : Flows D s r cut' listens' bytes read written := by
  obtain ⟨flight, ms, hD, hread, hstream⟩ := h
  exact ⟨flight, ms, hD, hread, fun hl => (hstream (hlistens hl)).cut hcut⟩

section Part

variable {S : Session ε σ} {D : OnTheWay σ} {mtu : ℕ} {far : FarEnd σ} {l l' : StreamLinker ε σ}
  {listens : Prop}

/-- What a part that neither reads nor writes frames may change. -/
theorem Joined.congr (h : Joined D far listens l) (hmods : D.Keeps l.mods l'.mods)
    (hnet : l'.io.net = l.io.net) (hout : l'.io.out = l.io.out)
    (hcanceled : l.io.canceled = true → l'.io.canceled = true)
    (hread : l'.io.dev.read = l.io.dev.read) (hdevs : devs l'.trace = devs l.trace) :
    Joined D far listens l' := by
  obtain ⟨hfl, hin, hreads, hwrites⟩ := h
  obtain ⟨flight, ms, hD, heq, hstream⟩ := hfl
  obtain ⟨back, ns, hD', heq', hstream'⟩ := hin
  refine ⟨⟨flight, ms, (hmods _ _ _).1 hD, ?_, fun hl => ?_⟩,
    ⟨back, ns, (hmods _ _ _).2 hD', ?_, ?_⟩, ?_, ?_⟩
  · rw [hread, heq]
  · rw [hout]
    exact (hstream hl).cut hcanceled
  · rw [hdevs, heq']
  · rw [hnet]
    exact hstream'
  · rwa [hnet]
  · rwa [hout]

theorem OnTheWay.Keeps.refl {κ : Type} (D : OnTheWay κ) (s : κ) : D.Keeps s s :=
  fun _ _ _ => ⟨id, id⟩

/-- How a part ends: where the loop is left, this end no longer listens. -/
def Part (D : OnTheWay σ) (far : FarEnd σ) (r : StreamLinker ε σ × Flow) : Prop :=
  Joined D far (r.2 ≠ .stop) r.1

theorem Joined.weaken (h : Joined D far True l) (listens : Prop) : Joined D far listens l :=
  ⟨h.out, h.inc.mono id fun _ => trivial, h.reads, h.writes⟩

theorem Joined.part (h : Joined D far True l) (flow : Flow) : Part D far (l, flow) := h.weaken _

/-- What holds while a packet is to be written: it is one of those on their way already, but
not yet on the stream. -/
structure Putting (D : OnTheWay σ) (far : FarEnd σ) (listens : Prop) (new : List (List Byte))
    (l : StreamLinker ε σ) : Prop where
  out : ∃ flight ms, D l.mods far.mods (flight ++ new) ms ∧ l.io.dev.read = far.written ++ ms ∧
    (far.listens → OnStream l.io.canceled l.io.out.sent flight)
  inc : Flows D far.mods l.mods far.canceled listens l.io.net.data far.read (devs l.trace)
  reads : .cancel ∉ l.io.net.sched
  writes : NoFail l.io.out.sched

theorem Joined.putting (h : Joined D far listens l) : Putting D far listens [] l := by
  obtain ⟨⟨flight, ms, hD, hrest⟩, hin, hreads, hwrites⟩ := h
  exact ⟨⟨flight, ms, by rwa [List.append_nil], hrest⟩, hin, hreads, hwrites⟩

/-- **Writing a send.** -/
theorem Putting.put {s : Send} (h : Putting D far listens (datas [s]) l) (hs : s.Valid)
    {buf : List Byte} {len : ℕ} (hcall : ∀ fd, tcpWrite fd buf len = s.write fd) :
    0 ≤ (putProto streamLink l buf len).1 ∧
      Joined D far listens (putProto streamLink l buf len).2 := by
  obtain ⟨⟨flight, ms, hD, heq, hstream⟩, hin, hreads, hwrites⟩ := h
  have hret := @writeN_steady { l.io.out with canceled := l.io.canceled } hwrites s.wire
  rw [← Send.write_wire _ hs, ← hcall] at hret
  set r := tcpWrite { l.io.out with canceled := l.io.canceled } buf len with hr
  obtain ⟨hpos, hfail, -⟩ := hret
  obtain ⟨hnet, hout, hdev, hcanceled⟩ := TcpWorld.afterIo_eq (fun d : StreamDev ε => d.inp.which)
    { l.io with out := r.2 } r.2.canceled
  refine ⟨hpos, ⟨flight ++ datas [s], ms, hD, ?_, fun hl => ?_⟩, ?_, ?_, ?_⟩
  · exact (congrArg StreamDev.read hdev).trans heq
  · have hput := @OnStream.write { l.io.out with canceled := l.io.canceled } flight (hstream hl)
      hwrites s hs
    rw [← hcall, ← hr] at hput
    have hsent : (putProto streamLink l buf len).2.io.out = r.2 := hout
    have hstop : (putProto streamLink l buf len).2.io.canceled = (l.io.canceled || r.2.canceled) :=
      hcanceled
    rw [hsent, hstop]
    exact hput.cut fun h0 => by rw [h0, Bool.or_true]
  · have hdata : (putProto streamLink l buf len).2.io.net = l.io.net := hnet
    have hdevs : devs (putProto streamLink l buf len).2.trace = devs l.trace := by
      simp [putProto, devs]
    rw [hdata, hdevs]
    exact hin
  · have hdata : (putProto streamLink l buf len).2.io.net = l.io.net := hnet
    rwa [hdata]
  · have hsent : (putProto streamLink l buf len).2.io.out = r.2 := hout
    rwa [hsent]

/-- A flag of the linker's own. -/
theorem Joined.putCtl (h : Joined D far listens l) (buf : List Byte) (c : Ctl) :
    0 ≤ (putProto streamLink l buf c.flag).1 ∧
      Joined D far listens (putProto streamLink l buf c.flag).2 :=
  Putting.put (s := .ctl c buf) h.putting trivial fun _ => rfl

/-- After a call on anything else than the network. -/
theorem Joined.after (h : Joined D far listens l) {d : StreamDev ε}
    (hio : l'.io = l.io.after streamPorts d) (hread : d.read = l.io.dev.read)
    (hmods : l'.mods = l.mods) (hdevs : devs l'.trace = devs l.trace) :
    Joined D far listens l' := by
  refine h.congr (hmods ▸ OnTheWay.Keeps.refl D l.mods) ?_ ?_ ?_ ?_ hdevs
  · rw [hio, TcpWorld.after_net]
  · rw [hio, TcpWorld.after_out]
  · rw [hio]
    exact TcpWorld.after_canceled
  · rw [hio, TcpWorld.after_dev, hread]

/-- What the relation reads of a linker. -/
theorem Joined.same (h : Joined D far listens l) (hmods : l'.mods = l.mods)
    (hio : l'.io = l.io) (htrace : l'.trace = l.trace) : Joined D far listens l' := by
  obtain ⟨hfl, hin, hreads, hwrites⟩ := h
  constructor
  · rwa [hmods, hio]
  · rwa [hmods, hio, htrace]
  · rwa [hio]
  · rwa [hio]

theorem part_keepAlive (h : Joined D far True l) : Part D far (keepAlive S streamLink l) := by
  have hcalled : Joined D far True
      { l with io := (streamLink.alarm l.io).2
               kaNeedVerify := l.kaNeedVerify || (streamLink.alarm l.io).1 } :=
    h.after rfl rfl rfl rfl
  rw [keepAlive]
  dsimp only
  split
  · split
    · exact hcalled.part _
    · split
      · have hidle : Joined D far True { l with
            io := (streamLink.alarm l.io).2
            kaNeedVerify := l.kaNeedVerify || (streamLink.alarm l.io).1
            idle := l.idle + 1 } := hcalled.same rfl rfl rfl
        obtain ⟨hret, hput⟩ := hidle.putCtl l.buf .echoReq
        change 0 ≤ (putProto streamLink _ l.buf echoReq).1 at hret
        rw [if_neg (not_lt.mpr hret)]
        refine Joined.part ?_ .fall
        exact hput.same rfl rfl rfl
      · refine Joined.part ?_ .fall
        exact hcalled.same rfl rfl rfl
  · exact hcalled.part _

theorem part_sendPacket (hS : S.Relays D mtu) (h : Joined D far True l) :
    Part D far (sendPacket S streamLink l) := by
  obtain ⟨flight, ms, hD, -⟩ := h.out
  rw [sendPacket, hS.silent hD]
  exact h.part _

/-- **A frame through the modules and out to the stream.** -/
theorem part_sendDown (hS : S.Relays D mtu) {f : Span} {x : List Byte} (hf : f.Holds x)
    (hx : x ≠ []) (hlen : x.length ≤ mtu)
    (hout : ∃ flight ms, D l.mods far.mods flight ms ∧ l.io.dev.read = far.written ++ ms ++ [x] ∧
      (far.listens → OnStream l.io.canceled l.io.out.sent flight))
    (hin : Flows D far.mods l.mods far.canceled True l.io.net.data far.read (devs l.trace))
    (hreads : .cancel ∉ l.io.net.sched) (hwrites : NoFail l.io.out.sched) :
    Part D far (sendDown S streamLink l f) := by
  obtain ⟨flight, ms, hD, hread, hstream⟩ := hout
  obtain ⟨back, ns, hD', hread', hstream'⟩ := hin
  set e := streamLink.modEnv l.io with he
  obtain ⟨hsound, hroom, hout', hin'⟩ := hS.down e.1 hD hD' hf hx hlen
  set r := lfdRunDown e.1 S.mods l.mods f with hr
  set l₁ : StreamLinker ε σ :=
    { l with io := e.2, mods := r.1, trace := l.trace ++ [.down f.frame] } with hl₁
  have hdevs : devs l₁.trace = devs l.trace := by simp [hl₁, devs]
  have hputting : Putting D far True (datas [.data r.2.frame]) l₁ := by
    refine ⟨⟨flight, ms ++ [x], hout', ?_, fun hl => ?_⟩, ⟨back, ns, hin', ?_, ?_⟩, ?_, ?_⟩
    · change (l.io.after streamPorts _).dev.read = _
      rw [TcpWorld.after_dev, ← List.append_assoc]
      exact hread
    · change OnStream (l.io.after streamPorts _).canceled (l.io.after streamPorts _).out.sent flight
      rw [TcpWorld.after_out]
      exact (hstream hl).cut TcpWorld.after_canceled
    · rw [hdevs]
      exact hread'
    · change True → OnStream _ (l.io.after streamPorts _).net.data back
      rw [TcpWorld.after_net]
      exact hstream'
    · change .cancel ∉ (l.io.after streamPorts _).net.sched
      rwa [TcpWorld.after_net]
    · change NoFail (l.io.after streamPorts _).out.sched
      rwa [TcpWorld.after_out]
  -- the packet is neither an error nor nothing at all
  have hpos : 0 < r.2.len := hsound.1.pos hsound.2
  have hsize : r.2.len.toNat = r.2.frame.length := by rw [hsound.1.1, Int.toNat_natCast]
  have hvalid : (Send.data r.2.frame).Valid :=
    ⟨List.length_pos_iff.mpr hsound.2, hroom⟩
  have hcall : ∀ fd, tcpWrite fd r.2.mem r.2.len.toNat = (Send.data r.2.frame).write fd := by
    intro fd
    have hfits : frameLen r.2.len.toNat ≤ r.2.len.toNat := by
      rw [frameLen_eq]
      exact Nat.mod_le _ _
    have htake : r.2.frame.take (frameLen r.2.len.toNat) =
        r.2.mem.take (frameLen r.2.len.toNat) := by
      rw [Span.frame, List.take_take, min_eq_left hfits]
    rw [Send.write, tcpWrite, tcpWrite, ← hsize, htake]
  obtain ⟨hret, hput⟩ := hputting.put hvalid hcall
  rw [sendDown]
  dsimp only
  rw [← he, ← hr, if_neg (by omega), if_neg (by omega), if_neg (not_lt.mpr hret)]
  exact hput.part _

/-- A device frame. -/
theorem part_devFrame (hS : S.Relays D mtu) (ready : Bool) (hmtu : l.io.dev.inp.Within mtu)
    (h : Joined D far True l) :
    Part D far (devFrame S streamLink ready l) := by
  rw [devFrame]
  split
  swap
  · exact h.part _
  set e := streamLink.modEnv l.io with he
  dsimp only
  -- asking the modules whether they take a frame
  have hasked : Joined D far True
      { l with io := e.2, mods := (lfdCheckDown e.1 S.mods l.mods 1).1 } := by
    have hcalled : Joined D far True { l with io := e.2 } := h.after rfl rfl rfl rfl
    exact hcalled.congr (hS.checkDown e.1 l.mods) rfl rfl id rfl rfl
  split
  · exact hasked.part _
  set l₁ : StreamLinker ε σ :=
    { l with io := e.2, mods := (lfdCheckDown e.1 S.mods l.mods 1).1 } with hl₁
  -- nothing is read, or a frame that is then sent
  have hnone : ∀ d : StreamDev ε, d.read = l₁.io.dev.read → ∀ flow,
      Part D far ({ l₁ with io := l₁.io.after streamPorts d }, flow) := by
    intro d hd flow
    refine Joined.part ?_ flow
    exact hasked.after rfl hd rfl rfl
  have hread : streamLink.devRead l₁.io = ((streamPorts.devRead l₁.io.dev).1,
      l₁.io.after streamPorts (streamPorts.devRead l₁.io.dev).2) := rfl
  rw [hread]
  rcases hdev : l₁.io.dev.inp.dev with again | bytes
  · have hfailed : streamPorts.devRead l₁.io.dev = (.failed again, l₁.io.dev.next) := by
      simp only [streamPorts, hdev]
    rw [hfailed]
    cases again with
    | true => exact hnone l₁.io.dev.next rfl .next
    | false => exact hnone l₁.io.dev.next rfl .stop
  cases bytes with
  | nil =>
    have hover : streamPorts.devRead l₁.io.dev = (.data [], l₁.io.dev.next) := by
      simp only [streamPorts, hdev]
    rw [hover]
    exact hnone l₁.io.dev.next rfl .stop
  | cons b bytes =>
    set x := (b :: bytes).take frameSize with hx
    have hgot : streamPorts.devRead l₁.io.dev =
        (.data (b :: bytes), { l₁.io.dev.next with read := l₁.io.dev.read ++ [x] }) := by
      simp only [streamPorts, hdev, hx]
    rw [hgot]
    have hne : x ≠ [] := by
      rw [hx]
      simp [frameSize]
    have hframe : (⟨x.length, store l₁.buf x⟩ : Span).Holds x := ⟨rfl, by
      rw [Span.frame, Int.toNat_natCast, take_store]⟩
    obtain ⟨⟨flight, ms, hD, hread, hstream⟩, hin, hreads, hwrites⟩ := hasked
    have hinp : l₁.io.dev.inp = l.io.dev.inp := by
      change (l.io.after streamPorts l.io.dev.next).dev.inp = l.io.dev.inp
      rw [TcpWorld.after_dev]
      rfl
    refine part_sendDown hS hframe hne (hmtu _ (hinp ▸ hdev)) ⟨flight, ms, hD, ?_, fun hl => ?_⟩
      ?_ ?_ ?_
    · rw [TcpWorld.after_dev]
      exact congrArg (· ++ [x]) hread
    · rw [TcpWorld.after_out]
      exact (hstream hl).cut TcpWorld.after_canceled
    · rw [TcpWorld.after_net]
      exact hin
    · rwa [TcpWorld.after_net]
    · rwa [TcpWorld.after_out]

/-- What holds while a packet is off the stream and not yet through the modules. -/
structure Taking (D : OnTheWay σ) (far : FarEnd σ) (new : List (List Byte))
    (l : StreamLinker ε σ) : Prop where
  out : Flows D l.mods far.mods l.io.canceled far.listens l.io.out.sent l.io.dev.read far.written
  inc : ∃ flight ms, D far.mods l.mods (new ++ flight) ms ∧ far.read = devs l.trace ++ ms ∧
    OnStream far.canceled l.io.net.data flight
  reads : .cancel ∉ l.io.net.sched
  writes : NoFail l.io.out.sched

theorem Taking.joined (h : Taking D far [] l) : Joined D far True l := by
  obtain ⟨flight, ms, hD, hread, hstream⟩ := h.inc
  exact ⟨h.out, ⟨flight, ms, hD, hread, fun _ => hstream⟩, h.reads, h.writes⟩

/-- **A packet for the device.** -/
theorem part_deliverUp (hS : S.Relays D mtu) {y : List Byte} (h : Taking D far [y] l)
    (hy : l.buf.take y.length = y) : Part D far (deliverUp S streamLink l y.length) := by
  obtain ⟨⟨back, ns, hD', hread', hstream'⟩, ⟨flight, ms, hD, hread, hstream⟩, hreads, hwrites⟩ := h
  set e := streamLink.modEnv l.io with he
  have hg : (⟨y.length, l.buf⟩ : Span).Holds y := ⟨rfl, by rw [Span.frame, Int.toNat_natCast, hy]⟩
  obtain ⟨x, ms', rfl, hx, hback, hout, hin⟩ := hS.up e.1 hD hD' hg
  set r := lfdRunUp e.1 S.mods.reverse l.mods ⟨y.length, l.buf⟩ with hr
  have hpos : 0 < r.2.len := hback.pos hx
  -- the frame is written to the device
  set w := streamLink.devWrite e.2 r.2 with hw
  set l₁ : StreamLinker ε σ := { l with
    io := w.2
    mods := r.1
    trace := l.trace ++ [.net (some (l.buf.take y.length))] ++ [.dev r.2] } with hl₁
  have hnet : w.2.net = l.io.net := by
    change ((l.io.after streamPorts _).after streamPorts _).net = _
    rw [TcpWorld.after_net, TcpWorld.after_net]
  have houtput : w.2.out = l.io.out := by
    change ((l.io.after streamPorts _).after streamPorts _).out = _
    rw [TcpWorld.after_out, TcpWorld.after_out]
  have hdevs : devs l₁.trace = devs l.trace ++ [x] := by
    simp [hl₁, devs, hback.2]
  have hjoined : Joined D far True l₁ := by
    refine ⟨⟨back, ns, hin, ?_, fun hl => ?_⟩, ⟨flight, ms', hout, ?_, fun _ => ?_⟩, ?_, ?_⟩
    · change ((l.io.after streamPorts _).after streamPorts _).dev.read = _
      rw [TcpWorld.after_dev]
      change (l.io.after streamPorts _).dev.read = _
      rw [TcpWorld.after_dev]
      exact hread'
    · change OnStream ((l.io.after streamPorts _).after streamPorts _).canceled w.2.out.sent back
      rw [houtput]
      exact (hstream' hl).cut fun h0 => TcpWorld.after_canceled (TcpWorld.after_canceled h0)
    · rw [hdevs, hread, List.append_assoc]
      rfl
    · change OnStream far.canceled w.2.net.data flight
      rw [hnet]
      exact hstream
    · change .cancel ∉ w.2.net.sched
      rwa [hnet]
    · change NoFail w.2.out.sched
      rwa [houtput]
  rw [deliverUp]
  dsimp only
  rw [← he, ← hr, if_neg (by omega), if_neg (by omega)]
  rcases hwrote : w.1 with again | _
  · cases again with
    | true => exact hjoined.part .next
    | false => exact hjoined.part .stop
  · exact hjoined.part .fall

/-- **A send that was read**: a frame goes up, and a flag is at most answered. -/
theorem part_handleFlags (hS : S.Relays D mtu) {s : Send} (hs : s.Valid)
    (h : Taking D far (datas [s]) l) {ret : ℤ} (hgot : s.ReceivedAs (ret, l.buf)) :
    Part D far (handleFlags S streamLink l ret.toNat) := by
  cases s with
  | data y =>
    have hlen := hs.2
    have hmax : frameSize + frameOverhead = 2148 := rfl
    have hret : ret.toNat = y.length := by
      rw [show ret = y.length from hgot.1, Int.toNat_natCast]
    have hflen : frameLen y.length = y.length := by
      rw [frameLen_eq, Nat.mod_eq_of_lt (by omega)]
    have hflags : frameFlags y.length = 0 := by
      rw [frameFlags_eq (by omega), Nat.div_eq_of_lt (by omega), Nat.zero_mul]
    rw [handleFlags, hret]
    dsimp only
    rw [hflags, if_neg (by decide), if_neg (by decide), if_neg (by decide), if_neg (by decide),
      hflen]
    exact part_deliverUp hS h hgot.2
  | ctl c b =>
    have hret : ret.toNat = c.flag := by
      rw [show ret = c.flag from hgot, Int.toNat_natCast]
    have hskip : Joined D far True { l with trace := l.trace ++ [.net none] } := by
      refine h.joined.congr (OnTheWay.Keeps.refl D _) rfl rfl id rfl ?_
      simp [devs]
    rw [handleFlags, hret]
    dsimp only
    cases c with
    | echoReq =>
      obtain ⟨hpos, hput⟩ := hskip.putCtl l.buf .echoRep
      change 0 ≤ (putProto streamLink _ l.buf echoRep).1 at hpos
      rw [if_neg (by decide), if_pos (by decide), if_neg (not_lt.mpr hpos)]
      exact hput.part .next
    | echoRep =>
      rw [if_neg (by decide), if_neg (by decide), if_pos (by decide)]
      exact hskip.part .next
    | connClose =>
      rw [if_neg (by decide), if_neg (by decide), if_neg (by decide), if_pos (by decide)]
      exact hskip.part .stop

/-- **A frame from the network.** -/
theorem part_netFrame (hS : S.Relays D mtu) (ready : Bool) (h : Joined D far True l) :
    Part D far (netFrame S streamLink ready l) := by
  rw [netFrame]
  split
  swap
  · exact h.part _
  set e := streamLink.modEnv l.io with he
  dsimp only
  have hasked : Joined D far True
      { l with io := e.2, mods := (lfdCheckUp e.1 S.mods.reverse l.mods 1).1 } := by
    have hcalled : Joined D far True { l with io := e.2 } := h.after rfl rfl rfl rfl
    exact hcalled.congr (hS.checkUp e.1 l.mods) rfl rfl id rfl rfl
  split
  · exact hasked.part _
  set mods := (lfdCheckUp e.1 S.mods.reverse l.mods 1).1 with hmods
  set w := e.2 with hw
  obtain ⟨hfl, ⟨flight, ms, hD, hread, hstream⟩, hreads, hwrites⟩ := hasked
  -- what `proto_read` leaves of the world
  set r := tcpRead w.dev.inp.stale w.input l.buf with hr
  have hcall : streamLink.protoRead w l.buf = (r.1, r.2.1,
      { w with net := r.2.2 }.afterIo (fun d => d.inp.which) r.2.2.canceled) := rfl
  obtain ⟨hnet, hout, hdev, hcanceled⟩ := TcpWorld.afterIo_eq (fun d : StreamDev ε => d.inp.which)
    { w with net := r.2.2 } r.2.2.canceled
  rw [hcall]
  set w' := { w with net := r.2.2 }.afterIo (fun d : StreamDev ε => d.inp.which) r.2.2.canceled
    with hw'
  have hsent : Flows D mods far.mods w'.canceled far.listens w'.out.sent w'.dev.read
      far.written := by
    rw [hout, hdev, hcanceled]
    exact hfl.mono (fun h0 => by simpa using Or.inl h0) id
  have hread' : .cancel ∉ w'.net.sched ∧ (0 < r.1 → ∃ (s : Send) (rest : List (List Byte)),
      s.Valid ∧ s.ReceivedAs (r.1, r.2.1) ∧ flight = datas [s] ++ rest ∧
        OnStream far.canceled w'.net.data rest) := by
    rw [hnet]
    by_cases hc : w.canceled = true
    · -- behind a signal nothing is read
      have hzero : r = (0, l.buf, w.input) := tcpRead_canceled hc _ _
      rw [hzero]
      exact ⟨hreads, fun hpos => absurd hpos (lt_irrefl 0)⟩
    · have hcalm : w.input.Calm := ⟨Bool.eq_false_iff.mpr hc, hreads⟩
      obtain ⟨hcalm', hgot⟩ := @OnStream.read _ w.input _ (hstream trivial) hcalm
        w.dev.inp.stale l.buf
      exact ⟨hcalm'.2, hgot⟩
  obtain ⟨hreads', hgot⟩ := hread'
  split
  · refine ⟨hsent, ⟨flight, ms, hD, ?_, fun hne => absurd rfl hne⟩, hreads', ?_⟩
    · simpa [devs] using hread
    · change NoFail w'.out.sched
      rwa [hout]
  · rename_i hpos
    obtain ⟨s, rest, hs, hrecv, rfl, hstream'⟩ := hgot (not_le.mp hpos)
    have hwrites' : NoFail w'.out.sched := by rwa [hout]
    have htaking : Taking D far (datas [s]) { l with
        buf := r.2.1, idle := 0, kaNeedVerify := false, mods := mods, io := w' } :=
      ⟨hsent, ⟨rest, ms, hD, hread, hstream'⟩, hreads', hwrites'⟩
    exact part_handleFlags hS hs htaking hrecv

/-- **Every part of a turn keeps the two ends joined.** -/
theorem joined_linkerPart (hS : S.Relays D mtu) {pc : LinkPc} (hmtu : l.io.dev.inp.Within mtu)
    (h : Joined D far (pc ≠ .left) l) :
    Joined D far ((linkerPart S streamLink pc l).2 ≠ .left) (linkerPart S streamLink pc l).1 := by
  -- an end that has left its loop stays as it is, and any other still listens
  have hafter : ∀ {r : StreamLinker ε σ × Flow} {pc : LinkPc}, Part D far r →
      Joined D far (pc.after r.2 ≠ .left) r.1 := by
    intro r pc hr
    refine ⟨hr.out, hr.inc.mono id fun hne hstop => hne ?_, hr.reads, hr.writes⟩
    rw [hstop, LinkPc.after]
  have hlistens : pc ≠ .left → Joined D far True l := fun hne =>
    ⟨h.out, h.inc.mono id fun _ => hne, h.reads, h.writes⟩
  cases pc with
  | left => exact h
  | packet net dev => exact hafter (part_sendPacket hS (hlistens (by simp)))
  | net net dev => exact hafter (part_netFrame hS net (hlistens (by simp)))
  | dev dev => exact hafter (part_devFrame hS dev hmtu (hlistens (by simp)))
  | top =>
    have hl := hlistens (by simp)
    rw [linkerPart]
    split
    · exact hl.weaken _
    · have hselected : Joined D far True { l with io := (streamLink.select l.io).2 } :=
        hl.after rfl rfl rfl rfl
      dsimp only
      split
      · exact hselected.weaken _
      · exact hselected.weaken _
      · exact hafter (part_keepAlive hselected)

end Part

/-! ### Runs -/

section Runs

variable {S : Side → Session ε σ} {D : OnTheWay σ} {mtu : ℕ} {t : TcpTunnel ε σ}

namespace TcpTunnel

/-- What one end is to the other. -/
def far (t : TcpTunnel ε σ) (a : Side) : FarEnd σ where
  mods := (t.ends a.other).link.mods
  read := t.read a.other
  written := t.written a.other
  canceled := (t.ends a.other).link.io.canceled
  listens := (t.ends a.other).pc ≠ .left

/-- The invariant of a tunnel: both directions flow. -/
def Flowing (D : OnTheWay σ) (t : TcpTunnel ε σ) : Prop :=
  ∀ a, Flows D (t.ends a).link.mods (t.ends a.other).link.mods (t.ends a).link.io.canceled
    ((t.ends a.other).pc ≠ .left) (t.flight a) (t.read a) (t.written a.other)

/-- An end before its next part. -/
theorem Flowing.joined (h : t.Flowing D) (a : Side) {inp : StreamIn ε} (hinp : inp.Steady) :
    Joined D (t.far a) ((t.ends a).pc ≠ .left) (t.ready a inp) := by
  have hback := h a.other
  rw [Side.other_other] at hback
  exact ⟨h a, hback, hinp.1, hinp.2⟩

/-- An end that has gone on. -/
theorem flowing_advance {a : Side} {e : StreamEnd ε σ}
    (h : Joined D (t.far a) (e.pc ≠ .left) e.link) : (t.advance a e).Flowing D := by
  have hself : (t.advance a e).ends a = e := by
    rw [advance]
    exact Function.update_self ..
  have hother : (t.advance a e).ends a.other = t.ends a.other := by
    rw [advance]
    exact Function.update_of_ne (Side.other_ne a) ..
  have hsent : (t.advance a e).flight a = e.link.io.out.sent := if_pos rfl
  have hleft : (t.advance a e).flight a.other = e.link.io.net.data := if_neg (Side.other_ne a)
  intro b
  rcases Side.eq_or_eq_other a b with hb | hb
  · subst hb
    rw [read, written, hself, hother, hsent]
    exact h.out
  · subst hb
    rw [read, written, Side.other_other, hself, hother, hleft]
    exact h.inc

theorem flowing_signal (h : t.Flowing D) (a : Side) (x : Sig) : (t.signaled a x).Flowing D := by
  have hother : (t.signaled a x).ends a.other = t.ends a.other :=
    Function.update_of_ne (Side.other_ne a) _ t.ends
  have hself : (t.signaled a x).ends a = { t.ends a with
      link := { (t.ends a).link with io := (t.ends a).link.io.handle x } } :=
    Function.update_self a _ t.ends
  intro b
  rcases Side.eq_or_eq_other a b with hb | hb
  · subst hb
    have hsent : Flows D _ _ true _ _ _ _ := (h b).mono (fun _ => rfl) id
    rw [read, written, hself, hother]
    exact hsent
  · subst hb
    have hback := h a.other
    rw [Side.other_other] at hback
    rw [read, written, Side.other_other, hself, hother]
    exact hback

end TcpTunnel

/-- **Every step keeps both directions flowing.** -/
theorem flowing_step (hS : ∀ a, (S a).Relays D mtu) {e : StreamEv ε} {t' : TcpTunnel ε σ}
    (h : t.Flowing D) (he : e.Steady) (hmtu : e.Within mtu)
    (hstep : tcpTunnelStep S t e = some t') : t'.Flowing D := by
  cases e with
  | part a inp =>
    obtain rfl := Option.some.inj hstep
    exact TcpTunnel.flowing_advance (joined_linkerPart (hS a) hmtu (h.joined a he))
  | signal a x =>
    obtain rfl := Option.some.inj hstep
    exact TcpTunnel.flowing_signal h a x
  | close a inp =>
    rw [tcpTunnelStep, Option.ite_none_right_eq_some] at hstep
    obtain ⟨⟨hleft, -⟩, hstep⟩ := hstep
    obtain rfl := Option.some.inj hstep
    exact TcpTunnel.flowing_advance ((h.joined a he).putCtl inp.buf .connClose).2

theorem flowing_start {mods : Side → σ} (hmods : ∀ a, D (mods a) (mods a.other) [] [])
    (natHack : Side → Bool) (inp : StreamIn ε) :
    (tcpTunnelStart mods natHack inp).Flowing D := by
  intro a
  refine ⟨[], [], hmods a, rfl, fun _ => ?_⟩
  rw [tcpTunnelStart]
  dsimp only
  by_cases hnat : natHack a = true
  · rw [if_pos hnat]
    exact ⟨[], [], [], rfl, List.forall_mem_nil _, rfl, .inl rfl, fun _ => ⟨rfl, rfl⟩⟩
  · rw [if_neg hnat]
    refine ⟨[.ctl .echoReq []], [], [], ?_, ?_, rfl, .inl rfl, fun _ => ⟨rfl, rfl⟩⟩
    · rw [sendBytes, List.append_nil]
      rfl
    · exact List.forall_mem_singleton.mpr trivial

/-- **A run of two ends whose modules keep a relation.** -/
theorem flowing_exec (hS : ∀ a, (S a).Relays D mtu) {es : List (StreamEv ε)}
    (hsteady : ∀ e ∈ es, e.Steady) (hmtu : ∀ e ∈ es, e.Within mtu) (h : t.Flowing D)
    {t' : TcpTunnel ε σ} (hrun : Run.exec (tcpTunnelStep S) t es = some t') : t'.Flowing D := by
  have hmeets : Run.Meets (tcpTunnelStep S) (fun _ e => e.Steady ∧ e.Within mtu) t es :=
    Run.meets_of_mem fun e he _ => ⟨hsteady e he, hmtu e he⟩
  exact Run.exec_invariant (fun _ _ _ hI he hstep => flowing_step hS hI he.1 he.2 hstep) h hmeets
    hrun

/-- What the invariant says of the frames. -/
theorem TcpTunnel.Flowing.frames (hS : ∀ a, (S a).Relays D mtu) (h : t.Flowing D) (a : Side) :
    t.written a.other <+: t.read a ∧
      ((t.ends a).link.io.canceled = false → (t.ends a.other).pc ≠ .left →
        ∃ sends : List Send, t.flight a = sendBytes sends ∧ (∀ s ∈ sends, s.Valid) ∧
          (t.read a).length = (t.written a.other).length + (datas sends).length) := by
  obtain ⟨flight, ms, hD, hread, hstream⟩ := h a
  refine ⟨⟨ms, hread.symm⟩, fun hcut hlistens => ?_⟩
  obtain ⟨sends, lost, tail, hbytes, hvalid, rfl, -, hnone⟩ := hstream hlistens
  obtain ⟨rfl, rfl⟩ := hnone hcut
  refine ⟨sends, by rw [hbytes, List.append_nil], hvalid, ?_⟩
  have hlen := (hS a).length hD
  rw [hread, List.length_append, ← hlen, List.append_nil]

end Runs

/-! ### The daemon -/

section Daemon

variable {X : OpenSsl} {pf : Platform} {now : Side → EncEnv → TimeVal} {kaMaxfail : Side → ℤ}
  {host : Side → VtunHost}

/-- Both directions flow in every run of two ends of the daemon. -/
theorem daemon_flowing (hworks : CipherWorks X (host .server))
    (hshares : ∀ a, Shares (host .server) (host a)) (seq : Side → UInt32)
    (buf : Side → List Byte) (last : Side → Shaper) (natHack : Side → Bool)
    (inp : StreamIn EncEnv) {es : List (StreamEv EncEnv)} (hsteady : ∀ e ∈ es, e.Steady)
    {t : TcpTunnel EncEnv (∀ mod, ModuleState X mod)}
    (hrun : Run.exec
      (tcpTunnelStep fun a => daemonSession pf X (now a) (kaMaxfail a) (host a))
      (tcpTunnelStart (fun a => daemonStart pf X (host a) (seq a) (buf a) false (last a)) natHack
        inp) es = some t) (a : Side) :
    t.written a.other <+: t.read a ∧
      ((t.ends a).link.io.canceled = false → (t.ends a.other).pc ≠ .left →
        ∃ sends : List Send, t.flight a = sendBytes sends ∧ (∀ s ∈ sends, s.Valid) ∧
          (t.read a).length = (t.written a.other).length + (datas sends).length) := by
  have hS : ∀ a, (daemonSession pf X (now a) (kaMaxfail a) (host a)).Relays
      (DaemonOnTheWay X (host .server)) frameSize :=
    fun a => daemon_relays hworks (hshares a).codecs
  have hstart : ∀ a, DaemonOnTheWay X (host .server)
      (daemonStart pf X (host a) (seq a) (buf a) false (last a))
      (daemonStart pf X (host a.other) (seq a.other) (buf a.other) false (last a.other)) [] [] :=
    fun a => daemon_start hworks (hshares a) (hshares a.other) _ _ _ _ _ _
  exact (flowing_exec hS hsteady (fun e _ => e.within_frameSize) (flowing_start hstart natHack inp)
    hrun).frames hS a

end Daemon

/-- A part in which the network or the device is ready. -/
def readyIn (net : Bool) (frame : List Byte) : StreamIn EncEnv :=
  ⟨[0], .ready net (!net), false, .data frame, .done, fun _ => calmEnv, fun _ => none, 0, .term,
    [.chunk 0, .again], [.chunk 2]⟩

/-- A frame of the client is delivered by the server, which has first to answer the echo
request and is then told to stop. -/
def deliveredRun : List (StreamEv EncEnv) :=
  List.replicate 4 (.part .client (readyIn false [5, 6])) ++
    List.replicate 6 (.part .server (readyIn true [])) ++ [.signal .server .term]

theorem steady_readyIn (net : Bool) (frame : List Byte) : (readyIn net frame).Steady := by
  refine ⟨?_, fun e he => ?_⟩
  · change IoEvent.cancel ∉ [.chunk 0, .again]
    decide
  · obtain rfl := List.mem_singleton.mp he
    exact ⟨by decide, by decide⟩

theorem steady_deliveredRun : ∀ e ∈ deliveredRun, e.Steady := by
  intro e he
  rcases List.mem_append.mp he with he | he
  · rcases List.mem_append.mp he with he | he
    · obtain rfl := List.eq_of_mem_replicate he
      exact steady_readyIn false [5, 6]
    · obtain rfl := List.eq_of_mem_replicate he
      exact steady_readyIn true []
  · obtain rfl := List.mem_singleton.mp he
    trivial

end Vtun
