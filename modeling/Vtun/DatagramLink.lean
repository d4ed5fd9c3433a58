/-
One end of a tunnel over UDP (`linkfd.c` over `generic/udp_proto.c`).

The linker reads from a socket on which datagrams have arrived, and writes datagrams that the
network may do anything with.  `Posting` says what each of them carries.

* `udpRead_posted` — what `udp_read` makes of such a datagram;
* `posting_linkerPart` — every part of a turn keeps `Posting`, whatever its calls meet.
-/
import Vtun.Carry
import Vtun.Tunnel
import Vtun.UdpProto
import Vtun.Lib.Lossy

namespace Vtun

variable {ε σ : Type}

/-! ### The calls of a part -/

/-- What one part of a turn gets from the system. -/
structure DgramIn (ε : Type) where
  /-- what the modules have left in the buffer of the linker -/
  buf : List Byte
  select : Select
  alarm : Bool
  dev : DevRead
  devOut : DevWrite
  /-- what the modules read from the system in each call -/
  env : ℕ → ε
  /-- the signal that comes in each call, if one does -/
  sig : ℕ → Option Sig
  reads : List RecvEvent
  writes : List UdpEvent
  /-- whether a late `connect` succeeds -/
  connect : Bool

/-- What a part gets, how many calls it has made, the frames `dev_read` has returned, the socket
with what has arrived on it, and whether a call waits there for a datagram. -/
structure DgramDev (ε : Type) where
  inp : DgramIn ε
  calls : ℕ
  read : List (List Byte)
  sock : UdpInput
  waits : Bool

/-- One more call. -/
def DgramDev.next (d : DgramDev ε) : DgramDev ε := { d with calls := d.calls + 1 }

/-- The calls that are not writes to the socket. -/
def dgramPorts : Ports ε (DgramDev ε) where
  select d := (d.inp.select, d.next)
  protoRead d buf :=
    match udpRead d.sock buf with
    | none => (0, buf, { d.next with waits := true })
    | some r => (r.1, r.2.1, { d.next with sock := r.2.2 })
  -- `udpLink` writes to the socket itself
  protoWrite d _ _ := (0, d)
  devRead d :=
    match d.inp.dev with
    | .failed again => (.failed again, d.next)
    | .data [] => (.data [], d.next)
    | .data bytes => (.data bytes, { d.next with read := d.read ++ [bytes.take frameSize] })
  devWrite d _ := (d.inp.devOut, d.next)
  modEnv d := (d.inp.env d.calls, d.next)
  alarm d := (d.inp.alarm, d.next)
  term d := d.inp.sig d.calls

/-- The calls of one end. -/
def dgramLink : Ports ε (UdpWorld (DgramDev ε)) := udpLink (fun d => d.sock.connected) dgramPorts

/-- A linker on a UDP socket. -/
abbrev DgramLinker (ε σ : Type) : Type := Linker σ (UdpWorld (DgramDev ε))

/-! ### Datagrams -/

/-- A datagram carries a frame, or it is an echo request, a reply, or the notice that the other
end closes the connection. -/
inductive Posted (G : List Byte → List Byte → Prop) : List Byte → Option (List Byte) → Prop
  | frame {y x : List Byte} (hy : (Send.data y).Valid) (hG : G y x) :
      Posted G (Send.data y).wire (some x)
  | ctl (c : Ctl) (buf : List Byte) : Posted G (Send.ctl c buf).wire none

/-- A call of `udp_read` takes the oldest datagram, or nothing. -/
theorem udpRead_queue {fd : UdpInput} {buf : List Byte} {r : ℤ × List Byte × UdpInput}
    (h : udpRead fd buf = some r) :
    r.1 = -1 ∧ r.2.2.queue = fd.queue ∨ ∃ d, fd.queue = d :: r.2.2.queue := by
  obtain ⟨t, ht, hr⟩ := Option.bind_eq_some_iff.mp h
  have htqueue := lateConnect_queue ht
  split at hr
  · rw [readDatagram] at hr
    split at hr
    · obtain rfl := Option.some.inj hr
      exact .inl ⟨rfl, htqueue⟩
    · cases hr
    · rename_i sched d queue hrecv hqueue
      refine .inr ⟨d, ?_⟩
      have hrest : r.2.2.queue = queue := by
        dsimp only at hr
        split at hr
        · obtain rfl := Option.some.inj hr
          rfl
        · obtain rfl := Option.some.inj hr
          rfl
      rw [hrest, ← htqueue, hqueue]
  · obtain rfl := Option.some.inj hr
    exact .inl ⟨rfl, htqueue⟩

/-- A datagram that is only a header is returned as it is. -/
theorem udpRead_ctl {fd : UdpInput} (c : Ctl) {queue : List (List Byte)}
    (hqueue : fd.queue = htons c.flag :: queue) {buf : List Byte}
    {r : ℤ × List Byte × UdpInput} (h : udpRead fd buf = some r) : r.1 = -1 ∨ r.1 = c.flag := by
  obtain ⟨t, ht, hr⟩ := Option.bind_eq_some_iff.mp h
  have htqueue := (lateConnect_queue ht).trans hqueue
  split at hr
  · rw [readDatagram, htqueue] at hr
    split at hr
    · obtain rfl := Option.some.inj hr
      exact .inl rfl
    · cases hr
    · rename_i sched d rest hrecv hsplit
      obtain ⟨rfl, rfl⟩ := List.cons.inj hsplit
      have hntohs : ntohs (htons c.flag) = c.flag := by cases c <;> decide
      have hrlen : min (htons c.flag).length (2 + (frameSize + frameOverhead)) = 2 := rfl
      dsimp only at hr
      rw [hrlen, hntohs, c.frameLen_flag, if_neg (by omega)] at hr
      obtain rfl := Option.some.inj hr
      exact .inr rfl
  · obtain rfl := Option.some.inj hr
    exact .inl rfl

/-- **A datagram that carries a frame or a flag** is returned as what it was sent for. -/
theorem udpRead_posted {G : List Byte → List Byte → Prop} {fd : UdpInput} {d : List Byte}
    {o : Option (List Byte)} (hd : Posted G d o) {queue : List (List Byte)}
    (hqueue : fd.queue = d :: queue) {buf : List Byte} {r : ℤ × List Byte × UdpInput}
    (h : udpRead fd buf = some r) :
    r.1 = -1 ∨ (∃ y x, o = some x ∧ G y x ∧ (Send.data y).Valid ∧
      (Send.data y).ReceivedAs (r.1, r.2.1)) ∨ ∃ c : Ctl, o = none ∧ r.1 = c.flag := by
  cases hd with
  | frame hy hG =>
    rename_i y x
    have hlen : y.length ≤ frameSize + frameOverhead := hy.2
    rcases udpRead_wire hlen (rfl : y.length = y.length) hqueue h with hfail | ⟨hret, hbody, -⟩
    · exact .inl hfail
    · exact .inr (.inl ⟨y, x, rfl, hG, hy, hret, hbody⟩)
  | ctl c b => exact (udpRead_ctl c hqueue h).imp_right fun hret => .inr ⟨c, rfl, hret⟩

/-! ### One end -/

/-- What holds of one end: the datagrams it has sent, of which the first are numbered as in
`items`, carry frames that it has read, in this order; and what it has written is the frames of
datagrams that have arrived. -/
structure Posting (I : σ → Prop) (G : List Byte → List Byte → Prop)
    (items : List (Option (List Byte))) (arrived : List (List Byte)) (l : DgramLinker ε σ) :
    Prop where
  mods : I l.mods
  out : ∃ more, List.Forall₂ (Posted G) l.io.out.sent (items ++ more) ∧
    (items ++ more).reduceOption.Sublist l.io.dev.read
  inc : Lossy.Tracks (Posted G) arrived (devs l.trace) l.io.dev.sock.queue

section Part

variable {S : Session ε σ} {I : σ → Prop} {G : List Byte → List Byte → Prop}
  {items : List (Option (List Byte))} {arrived : List (List Byte)} {l l' : DgramLinker ε σ}

/-- What a part that does not use the socket and reads nothing may change. -/
theorem Posting.congr (h : Posting I G items arrived l) (hmods : I l'.mods)
    (hout : l'.io.out.sent = l.io.out.sent) (hread : l'.io.dev.read = l.io.dev.read)
    (hqueue : l'.io.dev.sock.queue = l.io.dev.sock.queue) (hdevs : devs l'.trace = devs l.trace) :
    Posting I G items arrived l' := by
  refine ⟨hmods, ?_, ?_⟩
  · rw [hout, hread]
    exact h.out
  · rw [hqueue, hdevs]
    exact h.inc

/-- **A datagram is sent**, or the write fails or does nothing. -/
theorem Posting.put (h : Posting I G items arrived l) {d : List Byte} (hd : Posted G d none)
    {buf : List Byte} {len : ℕ} (hbytes : htons len ++ buf.take (frameLen len) = d) :
    Posting I G items arrived (putProto dgramLink l buf len).2 := by
  have hdevs : devs (putProto dgramLink l buf len).2.trace = devs l.trace := by
    simp [putProto, devs]
  have hsent := udpWrite_sent l.io.dev.sock.connected l.io.out buf len
  obtain ⟨more, hposted, hsub⟩ := h.out
  refine ⟨h.mods, ?_, ?_⟩
  · rcases hsent with hsent | hsent
    · refine ⟨more, ?_, hsub⟩
      change List.Forall₂ _ (udpWrite _ _ _ _).2.sent _
      rwa [hsent]
    · refine ⟨more ++ [none], ?_, ?_⟩
      · change List.Forall₂ _ (udpWrite _ _ _ _).2.sent _
        rw [hsent, hbytes, ← List.append_assoc]
        exact List.rel_append hposted (.cons hd .nil)
      · rw [← List.append_assoc, List.reduceOption_append]
        exact (List.append_nil (items ++ more).reduceOption).symm ▸ hsub
  · rw [hdevs]
    exact h.inc

theorem Posting.putCtl (h : Posting I G items arrived l) (buf : List Byte) (c : Ctl) :
    Posting I G items arrived (putProto dgramLink l buf c.flag).2 := by
  refine h.put (.ctl c buf) ?_
  rw [c.frameLen_flag, List.take_zero, List.append_nil]
  rfl

theorem posting_keepAlive (h : Posting I G items arrived l) :
    Posting I G items arrived (keepAlive S dgramLink l).1 := by
  have hcalled : ∀ idle verify, Posting I G items arrived
      { l with io := (dgramLink.alarm l.io).2, idle := idle, kaNeedVerify := verify } :=
    fun _ _ => h.congr h.mods rfl rfl rfl rfl
  rw [keepAlive]
  dsimp only
  split
  · split
    · exact hcalled _ _
    · split
      · have hput := (hcalled (l.idle + 1) (l.kaNeedVerify || (dgramLink.alarm l.io).1)).putCtl
          l.buf .echoReq
        split
        · exact hput
        · exact hput.congr hput.mods rfl rfl rfl rfl
      · exact hcalled _ _
  · exact hcalled _ _

theorem posting_sendPacket (hS : S.Carries I G) (h : Posting I G items arrived l) :
    Posting I G items arrived (sendPacket S dgramLink l).1 := by
  rw [sendPacket, hS.silent l.mods h.mods]
  exact h

/-- **A frame through the modules and out to the network.**  The frame has been read last. -/
theorem posting_sendDown (hS : S.Carries I G) {f : Span} {x : List Byte} (hf : f.Holds x)
    (hx : x ≠ []) (hlen : x.length ≤ frameSize) (hmods : I l.mods) {read : List (List Byte)}
    (hread : l.io.dev.read = read ++ [x])
    (hout : ∃ more, List.Forall₂ (Posted G) l.io.out.sent (items ++ more) ∧
      (items ++ more).reduceOption.Sublist read)
    (hin : Lossy.Tracks (Posted G) arrived (devs l.trace) l.io.dev.sock.queue) :
    Posting I G items arrived (sendDown S dgramLink l f).1 := by
  set e := dgramLink.modEnv l.io with he
  obtain ⟨hsound, hroom, hmade, hstate⟩ := hS.down e.1 hmods hf hx hlen
  set r := lfdRunDown e.1 S.mods l.mods f with hr
  set l₁ : DgramLinker ε σ :=
    { l with io := e.2, mods := r.1, trace := l.trace ++ [.down f.frame] } with hl₁
  -- the packet is neither an error nor nothing at all
  have hpos : 0 < r.2.len := hsound.1.pos hsound.2
  have hsize : r.2.len.toNat = r.2.frame.length := by rw [hsound.1.1, Int.toNat_natCast]
  have hvalid : (Send.data r.2.frame).Valid := ⟨List.length_pos_iff.mpr hsound.2, hroom⟩
  have hbytes : htons r.2.len.toNat ++ r.2.mem.take (frameLen r.2.len.toNat) =
      (Send.data r.2.frame).wire := by
    have hmax : frameSize + frameOverhead = 2148 := rfl
    have hflen : frameLen r.2.len.toNat = r.2.len.toNat := by
      rw [frameLen_eq, Nat.mod_eq_of_lt (by omega)]
    rw [hflen, Send.wire, hsize, ← hsize]
    rfl
  obtain ⟨more, hposted, hsub⟩ := hout
  have hdevs : devs (putProto dgramLink l₁ r.2.mem r.2.len.toNat).2.trace = devs l.trace := by
    simp [hl₁, putProto, devs]
  have hput : Posting I G items arrived (putProto dgramLink l₁ r.2.mem r.2.len.toNat).2 := by
    refine ⟨hstate, ?_, ?_⟩
    · change ∃ more, List.Forall₂ _ (udpWrite l.io.dev.sock.connected l.io.out r.2.mem
        r.2.len.toNat).2.sent (items ++ more) ∧ (items ++ more).reduceOption.Sublist l.io.dev.read
      rw [hread]
      rcases udpWrite_sent l.io.dev.sock.connected l.io.out r.2.mem r.2.len.toNat with hsent | hsent
      · rw [hsent]
        exact ⟨more, hposted, hsub.trans (List.sublist_append_left _ _)⟩
      · rw [hsent, hbytes]
        refine ⟨more ++ [some x], ?_, ?_⟩
        · rw [← List.append_assoc]
          exact List.rel_append hposted (.cons (.frame hvalid hmade) .nil)
        · rw [← List.append_assoc, List.reduceOption_append]
          exact hsub.append (List.Sublist.refl _)
    · rw [hdevs]
      exact hin
  rw [sendDown]
  dsimp only
  rw [← he, ← hr, if_neg (by omega), if_neg (by omega)]
  split
  · exact hput
  · exact hput

/-- A device frame. -/
theorem posting_devFrame (hS : S.Carries I G) (ready : Bool) (h : Posting I G items arrived l) :
    Posting I G items arrived (devFrame S dgramLink ready l).1 := by
  rw [devFrame]
  split
  swap
  · exact h
  set e := dgramLink.modEnv l.io with he
  dsimp only
  -- asking the modules whether they take a frame
  set l₁ : DgramLinker ε σ :=
    { l with io := e.2, mods := (lfdCheckDown e.1 S.mods l.mods 1).1 } with hl₁
  have hasked : Posting I G items arrived l₁ :=
    h.congr (hS.checkDown e.1 l.mods h.mods) rfl rfl rfl rfl
  split
  · exact hasked
  have hread : dgramLink.devRead l₁.io = ((dgramPorts.devRead l₁.io.dev).1,
      l₁.io.after dgramPorts (dgramPorts.devRead l₁.io.dev).2) := rfl
  rw [hread]
  rcases hdev : l₁.io.dev.inp.dev with again | bytes
  · have hfailed : dgramPorts.devRead l₁.io.dev = (.failed again, l₁.io.dev.next) := by
      simp only [dgramPorts, hdev]
    rw [hfailed]
    have hsame : Posting I G items arrived
        { l₁ with io := l₁.io.after dgramPorts l₁.io.dev.next } :=
      hasked.congr hasked.mods rfl rfl rfl rfl
    cases again with
    | true => exact hsame
    | false => exact hsame
  cases bytes with
  | nil =>
    have hover : dgramPorts.devRead l₁.io.dev = (.data [], l₁.io.dev.next) := by
      simp only [dgramPorts, hdev]
    rw [hover]
    exact hasked.congr hasked.mods rfl rfl rfl rfl
  | cons b bytes =>
    set x := (b :: bytes).take frameSize with hx
    have hgot : dgramPorts.devRead l₁.io.dev =
        (.data (b :: bytes), { l₁.io.dev.next with read := l₁.io.dev.read ++ [x] }) := by
      simp only [dgramPorts, hdev, hx]
    rw [hgot]
    have hne : x ≠ [] := by
      rw [hx]
      simp [frameSize]
    have hframe : (⟨x.length, store l₁.buf x⟩ : Span).Holds x := ⟨rfl, by
      rw [Span.frame, Int.toNat_natCast, take_store]⟩
    exact posting_sendDown hS hframe hne (List.length_take_le _ _) hasked.mods rfl hasked.out
      hasked.inc

/-- **A packet for the device.**  Its frame may come out. -/
theorem posting_deliverUp (hS : S.Carries I G) {y x : List Byte} (h : Posting I G items arrived l)
    (hG : G y x) (hy : l.buf.take y.length = y)
    (hnext : Lossy.Tracks (Posted G) arrived (devs l.trace ++ [x]) l.io.dev.sock.queue) :
    Posting I G items arrived (deliverUp S dgramLink l y.length).1 := by
  set e := dgramLink.modEnv l.io with he
  have hg : (⟨y.length, l.buf⟩ : Span).Holds y := ⟨rfl, by rw [Span.frame, Int.toNat_natCast, hy]⟩
  obtain ⟨hx, hback, hstate⟩ := hS.up e.1 h.mods hG hg
  set r := lfdRunUp e.1 S.mods.reverse l.mods ⟨y.length, l.buf⟩ with hr
  have hpos : 0 < r.2.len := hback.pos hx
  set l₁ : DgramLinker ε σ := { l with
    io := (dgramLink.devWrite e.2 r.2).2
    mods := r.1
    trace := l.trace ++ [.net (some (l.buf.take y.length))] ++ [.dev r.2] } with hl₁
  have hdevs : devs l₁.trace = devs l.trace ++ [x] := by
    simp [hl₁, devs, hback.2]
  have hposting : Posting I G items arrived l₁ := by
    refine ⟨hstate, h.out, ?_⟩
    rw [hdevs]
    exact hnext
  rw [deliverUp]
  dsimp only
  rw [← he, ← hr, if_neg (by omega), if_neg (by omega)]
  split
  · exact hposting
  · exact hposting
  · exact hposting

/-- **What was read**: a frame goes up, and a flag is at most answered. -/
theorem posting_handleFlags (hS : S.Carries I G) (h : Posting I G items arrived l)
    {o : Option (List Byte)} {ret : ℤ}
    (hgot : (∃ y x, o = some x ∧ G y x ∧ (Send.data y).Valid ∧
      (Send.data y).ReceivedAs (ret, l.buf)) ∨ ∃ c : Ctl, o = none ∧ ret = c.flag)
    (hnext : ∀ x, o = some x →
      Lossy.Tracks (Posted G) arrived (devs l.trace ++ [x]) l.io.dev.sock.queue) :
    Posting I G items arrived (handleFlags S dgramLink l ret.toNat).1 := by
  rcases hgot with ⟨y, x, rfl, hG, hvalid, hrecv⟩ | ⟨c, rfl, rfl⟩
  · have hlen := hvalid.2
    have hmax : frameSize + frameOverhead = 2148 := rfl
    have hret : ret.toNat = y.length := by
      rw [show ret = y.length from hrecv.1, Int.toNat_natCast]
    have hflen : frameLen y.length = y.length := by
      rw [frameLen_eq, Nat.mod_eq_of_lt (by omega)]
    have hflags : frameFlags y.length = 0 := by
      rw [frameFlags_eq (by omega), Nat.div_eq_of_lt (by omega), Nat.zero_mul]
    rw [handleFlags, hret]
    dsimp only
    rw [hflags, if_neg (by decide), if_neg (by decide), if_neg (by decide), if_neg (by decide),
      hflen]
    exact posting_deliverUp hS h hG hrecv.2 (hnext x rfl)
  · have hskip : Posting I G items arrived { l with trace := l.trace ++ [.net none] } := by
      refine h.congr h.mods rfl rfl rfl ?_
      simp [devs]
    rw [handleFlags, Int.toNat_natCast]
    dsimp only
    cases c with
    | echoReq =>
      have hput := hskip.putCtl l.buf .echoRep
      rw [if_neg (by decide), if_pos (by decide)]
      split
      · exact hput
      · exact hput
    | echoRep =>
      rw [if_neg (by decide), if_neg (by decide), if_pos (by decide)]
      exact hskip
    | connClose =>
      rw [if_neg (by decide), if_neg (by decide), if_neg (by decide), if_pos (by decide)]
      exact hskip

/-- **A datagram from the network.** -/
theorem posting_netFrame (hS : S.Carries I G) (ready : Bool) (h : Posting I G items arrived l) :
    Posting I G items arrived (netFrame S dgramLink ready l).1 := by
  rw [netFrame]
  split
  swap
  · exact h
  set e := dgramLink.modEnv l.io with he
  dsimp only
  have hasked : Posting I G items arrived
      { l with io := e.2, mods := (lfdCheckUp e.1 S.mods.reverse l.mods 1).1 } :=
    h.congr (hS.checkUp e.1 l.mods h.mods) rfl rfl rfl rfl
  split
  · exact hasked
  set mods := (lfdCheckUp e.1 S.mods.reverse l.mods 1).1 with hmods
  set w := e.2 with hw
  have hcall : dgramLink.protoRead w l.buf = ((dgramPorts.protoRead w.dev l.buf).1,
      (dgramPorts.protoRead w.dev l.buf).2.1,
      w.after dgramPorts (dgramPorts.protoRead w.dev l.buf).2.2) := rfl
  rw [hcall]
  rcases hread : udpRead w.dev.sock l.buf with _ | r
  · -- the call waits
    have hwaits : dgramPorts.protoRead w.dev l.buf =
        (0, l.buf, { w.dev.next with waits := true }) := by
      simp only [dgramPorts, hread]
    rw [hwaits, if_pos le_rfl]
    refine hasked.congr hasked.mods rfl rfl rfl ?_
    simp [devs]
  have hgot : dgramPorts.protoRead w.dev l.buf =
      (r.1, r.2.1, { w.dev.next with sock := r.2.2 }) := by
    simp only [dgramPorts, hread]
  rw [hgot]
  have htrace : devs (l.trace ++ [.net none]) = devs l.trace := by simp [devs]
  rcases udpRead_queue hread with ⟨hfail, hqueue⟩ | ⟨d, hqueue⟩
  · rw [if_pos (by dsimp only; omega)]
    exact hasked.congr hasked.mods rfl rfl hqueue htrace
  -- a datagram is taken
  have hinc := hasked.inc
  change Lossy.Tracks _ _ (devs l.trace) w.dev.sock.queue at hinc
  rw [hqueue] at hinc
  obtain ⟨o, hposted, hlose, hnext⟩ := hinc.deliver
  have htaken : Posting I G items arrived { l with
      buf := r.2.1, idle := 0, kaNeedVerify := false, mods := mods
      io := w.after dgramPorts { w.dev.next with sock := r.2.2 } } :=
    ⟨hasked.mods, hasked.out, hlose⟩
  split
  · exact htaken.congr htaken.mods rfl rfl rfl htrace
  · rename_i hpos
    refine posting_handleFlags hS htaken ?_ hnext
    rcases udpRead_posted hposted hqueue hread with hfail | hgot
    · exact absurd hfail (by dsimp only at hpos; omega)
    · exact hgot

/-- **Every part of a turn keeps it**, whatever its calls meet. -/
theorem posting_linkerPart (hS : S.Carries I G) (pc : LinkPc) (h : Posting I G items arrived l) :
    Posting I G items arrived (linkerPart S dgramLink pc l).1 := by
  cases pc with
  | left => exact h
  | packet net dev => exact posting_sendPacket hS h
  | net net dev => exact posting_netFrame hS net h
  | dev dev => exact posting_devFrame hS dev h
  | top =>
    rw [linkerPart]
    split
    · exact h
    · have hselected : Posting I G items arrived { l with io := (dgramLink.select l.io).2 } :=
        h.congr h.mods rfl rfl rfl rfl
      dsimp only
      split
      · exact hselected
      · exact hselected
      · exact posting_keepAlive hselected

end Part

end Vtun
