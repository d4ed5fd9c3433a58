/-
Two linkers with an encryptor, and the channels between them (`linkfd.c` over
`lfd_encrypt.c`).

The turns of the two loops interleave part by part: `linkerPart` runs the next
part of one turn, up to the next point where the other end may come in.  The
channels keep the order of the packets and may lose any of them.

* `linkerPass_parts` — the parts of a turn make up the turn;
* `tunnelStep` — the next part of one end, or the loss of a packet;
* `linkerPart_cases` — what one part does to the encryptor and what it calls.
-/
import Vtun.LinkerStream
import Vtun.EncryptSession

namespace Vtun

/-! ### The parts of a turn -/

/-- Where the loop of `lfd_linker` goes on; the flags tell which descriptors
`select` has found ready. -/
inductive LinkPc
  | top
  | packet (net dev : Bool)
  | net (net dev : Bool)
  | dev (dev : Bool)
  | left
  deriving DecidableEq, Repr

/-- Where the loop goes on when a part before `pc` has ended. -/
def LinkPc.after (pc : LinkPc) : Flow → LinkPc
  | .fall => pc
  | .next => .top
  | .stop => .left

section Parts

variable {ε σ ν : Type} (S : Session ε σ) (P : Ports ε ν)

/-- The next part of a turn: the top of the loop with the keep-alive check, the
packet a module asked for, the frame from the network, or the one from the
device. -/
def linkerPart : LinkPc → Linker σ ν → Linker σ ν × LinkPc
  | .top, s =>
    if (P.term s.io).isSome then (s, .left)
    else
      let r := P.select s.io
      let s := { s with io := r.2 }
      match r.1 with
      | .failed true => (s, .top)
      | .failed false => (s, .left)
      | .ready net dev =>
        let k := keepAlive S P s
        (k.1, LinkPc.after (.packet net dev) k.2)
  | .packet net dev, s =>
    let r := sendPacket S P s
    (r.1, LinkPc.after (.net net dev) r.2)
  | .net net dev, s =>
    let r := netFrame S P net s
    (r.1, LinkPc.after (.dev dev) r.2)
  | .dev dev, s =>
    let r := devFrame S P dev s
    (r.1, LinkPc.after .top r.2)
  | .left, s => (s, .left)

/-- `n` parts, one after the other. -/
def linkerParts : ℕ → Linker σ ν × LinkPc → Linker σ ν × LinkPc
  | 0, x => x
  | n + 1, x => linkerParts n (linkerPart S P x.2 x.1)

/-- **The parts of a turn make up the turn.** -/
theorem linkerPass_parts {s : Linker σ ν} (hterm : P.term s.io = none) :
    ∃ n, 0 < n ∧ n ≤ 4 ∧
      linkerParts S P n (s, .top) =
        ((linkerPass S P s).1, LinkPc.after .top (linkerPass S P s).2) := by
  have htop : (P.term s.io).isSome = false := by rw [hterm]; rfl
  rcases hsel : P.select s.io with ⟨sel, io⟩
  cases sel with
  | failed again =>
    refine ⟨1, by omega, by omega, ?_⟩
    cases again <;> simp [linkerParts, linkerPart, linkerPass, htop, hsel, LinkPc.after]
  | ready net dev =>
    -- the turn ends with the first part that does not fall through
    rcases hk : keepAlive S P { s with io := io } with ⟨s₁, fl₁⟩
    by_cases hf₁ : fl₁ = .fall
    · rcases hp : sendPacket S P s₁ with ⟨s₂, fl₂⟩
      by_cases hf₂ : fl₂ = .fall
      · rcases hn : netFrame S P net s₂ with ⟨s₃, fl₃⟩
        by_cases hf₃ : fl₃ = .fall
        · refine ⟨4, by omega, by omega, ?_⟩
          subst hf₁ hf₂ hf₃
          simp [linkerParts, linkerPart, linkerPass, htop, hsel, hk, hp, hn, LinkPc.after]
        · refine ⟨3, by omega, by omega, ?_⟩
          subst hf₁ hf₂
          cases fl₃ <;>
            simp_all [linkerParts, linkerPart, linkerPass, LinkPc.after]
      · refine ⟨2, by omega, by omega, ?_⟩
        subst hf₁
        cases fl₂ <;>
          simp_all [linkerParts, linkerPart, linkerPass, LinkPc.after]
    · refine ⟨1, by omega, by omega, ?_⟩
      cases fl₁ <;>
        simp_all [linkerParts, linkerPart, linkerPass, LinkPc.after]

end Parts

/-! ### The calls of a part -/

/-- The frames handed to `lfd_run_down`. -/
def downs (tr : List LinkEv) : List (List Byte) :=
  tr.filterMap fun
    | .down frame => some frame
    | _ => none

/-- The calls of `proto_write`. -/
def protos (tr : List LinkEv) : List (List Byte × ℕ) :=
  tr.filterMap fun
    | .proto buf len => some (buf, len)
    | _ => none

/-- The frames handed to `dev_write`. -/
def devs (tr : List LinkEv) : List (List Byte) :=
  tr.filterMap fun
    | .dev out => some out.frame
    | _ => none

/-! ### The tunnel -/

variable {X : OpenSsl}

/-- How the bytes of a packet came about. -/
inductive Made (X : OpenSsl)
  /-- no frame at all, but an echo request or reply -/
  | control
  /-- with a new vector in front -/
  | fresh
  /-- with the context the encoder had -/
  | carried (e : X.Enc)
  /-- with no context -/
  | dead

/-- How the encoder makes its next packet. -/
def Encryptor.makes (s : Encryptor X) : Made X :=
  match s.encState, s.ctxEnc with
  | .init, _ => .fresh
  | _, some (.chained e) => .carried e
  | _, _ => .dead

/-- A packet on its way: its length with the frame flags, and its bytes.  How it
was made is not sent along. -/
structure Packet (X : OpenSsl) where
  len : ℕ
  bytes : List Byte
  made : Made X

/-- What one part of a turn gets from the system. -/
structure PartIn where
  /-- what the modules have left in the buffer of the linker -/
  buf : List Byte
  buf_ne : buf ≠ []
  term : Option Sig
  select : Select
  alarm : Bool
  /-- the value of `proto_write` -/
  wrote : ℤ
  dev : DevRead
  devOut : DevWrite
  env : EncEnv

/-- The world of one part: what it gets, the packet at the end of the channel,
and the frames `dev_read` has returned. -/
structure PartWorld (X : OpenSsl) where
  inp : PartIn
  packet : Option (Packet X)
  read : List (List Byte)

/-- The calls of one part. -/
def partPorts : Ports EncEnv (PartWorld X) where
  select w := (w.inp.select, w)
  protoRead w buf :=
    match w.packet with
    -- nothing has come: the channel is taken to have failed
    | none => (-1, buf, w)
    | some p => (p.len, store buf p.bytes, w)
  protoWrite w _ _ := (w.inp.wrote, w)
  devRead w :=
    match w.inp.dev with
    | .failed again => (.failed again, w)
    | .data [] => (.data [], w)
    | .data bytes => (.data bytes, { w with read := w.read ++ [bytes.take frameSize] })
  devWrite w _ := (w.inp.devOut, w)
  modEnv w := (w.inp.env, w)
  alarm w := (w.inp.alarm, w)
  term w := w.inp.term

/-- A session whose only module is the encryptor. -/
def cryptLink (pf : Platform) (X : OpenSsl) (kaMaxfail : ℤ) : Session EncEnv (Encryptor X) where
  mods := [lfdEncrypt pf X]
  kaMaxfail := kaMaxfail
  sendAPacket s := s.sendAPacket
  packetSent s := { s with sendAPacket := false }

/-- One end: its linker, and where its loop goes on. -/
structure Peer (X : OpenSsl) where
  link : Linker (Encryptor X) (PartWorld X)
  pc : LinkPc

/-- Where a frame handed to `lfd_run_down` came from. -/
inductive Origin
  | device
  /-- the packet sent because a module has set `send_a_packet` -/
  | filler
  deriving DecidableEq, Repr

/-- The part at `pc` that hands a frame down. -/
def LinkPc.origin : LinkPc → Origin
  | .packet _ _ => .filler
  | _ => .device

/-- Both ends, and for each of them: its packets in flight, the frames it has
handed to `lfd_run_down`, those `dev_read` has returned and those it has handed
to `dev_write`. -/
structure Tunnel (X : OpenSsl) where
  peer : Side → Peer X
  flight : Side → List (Packet X)
  down : Side → List (Origin × List Byte)
  read : Side → List (List Byte)
  written : Side → List (List Byte)

/-- What can happen next. -/
inductive TunnelEv
  /-- the next part of one end's turn -/
  | part (a : Side) (inp : PartIn)
  /-- the oldest packet of one end gets lost -/
  | lose (a : Side)

/-- The linker of one end before its next part. -/
def Tunnel.ready (t : Tunnel X) (a : Side) (inp : PartIn) : Linker (Encryptor X) (PartWorld X) :=
  { (t.peer a).link with
    buf := inp.buf
    io := ⟨inp, (t.flight a.other).head?, []⟩
    trace := [] }

/-- The packet of a call of `proto_write`. -/
def packetOf (made : Made X) (call : List Byte × ℕ) : Packet X where
  len := call.2
  bytes := call.1.take (frameLen call.2)
  made := if frameFlags call.2 = 0 then made else .control

/-- The encryptor after a part, the number of packets taken from the channel,
the calls of `proto_write`, the frames handed to `lfd_run_down`, and those for
and from the device. -/
structure PartOut (X : OpenSsl) where
  mods : Encryptor X
  taken : ℕ
  sent : List (List Byte × ℕ)
  handed : List (List Byte)
  wrote : List (List Byte)
  read : List (List Byte)

/-- What a part has done. -/
def partOut (l : Linker (Encryptor X) (PartWorld X)) : PartOut X :=
  ⟨l.mods, (nets l.trace).length, protos l.trace, downs l.trace, devs l.trace, l.io.read⟩

/-- One end has run a part. -/
def Tunnel.advance (t : Tunnel X) (a : Side) (peer : Peer X) (out : PartOut X) : Tunnel X where
  peer := Function.update t.peer a peer
  flight b :=
    if b = a then t.flight a ++ out.sent.map (packetOf (t.peer a).link.mods.makes)
    else (t.flight b).drop out.taken
  down := Function.update t.down a
    (t.down a ++ out.handed.map fun m => ((t.peer a).pc.origin, m))
  read := Function.update t.read a (t.read a ++ out.read)
  written := Function.update t.written a (t.written a ++ out.wrote)

/-- The next part of one end, or the loss of a packet. -/
def tunnelStep (pf : Platform) (kaMaxfail : Side → ℤ) (t : Tunnel X) :
    TunnelEv → Option (Tunnel X)
  | .part a inp =>
    let r := linkerPart (cryptLink pf X (kaMaxfail a)) partPorts (t.peer a).pc (t.ready a inp)
    some (t.advance a ⟨r.1, r.2⟩ (partOut r.1))
  | .lose a =>
    match t.flight a with
    | [] => none
    | _ :: rest => some { t with flight := Function.update t.flight a rest }

/-- Both ends when they enter `lfd_linker`: without the hack for broken routers,
each has sent an echo request. -/
def tunnelStart (X : OpenSsl) (host : Side → VtunHost) (natHack : Side → Bool)
    (seq : Side → UInt32) (buf : Side → List Byte) (packet : Side → Bool) : Tunnel X where
  peer a :=
    { link :=
        { buf := []
          idle := 0
          kaNeedVerify := false
          mods := allocEncrypt X (host a) (seq a) (buf a) (packet a)
          io := ⟨⟨[0], by simp, none, .failed true, false, 0, .failed true, .done, calmEnv⟩,
            none, []⟩
          trace := [] }
      pc := .top }
  flight a := if natHack a then [] else [⟨echoReq, [], .control⟩]
  down _ := []
  read _ := []
  written _ := []

/-! ### What one part does -/

/-- What comes out of a module, unless it is nothing or an error. -/
def given {α : Type} (out : Span) (a : α) : List α :=
  if out.len = -1 ∨ out.len = 0 then [] else [a]

/-- What a part at `pc` can do to the encryptor `s`. -/
inductive PartCase (pf : Platform) (pc : LinkPc) (s : Encryptor X) (packet : Option (Packet X))
    (inp : PartIn) : PartOut X → Prop
  | quiet : PartCase pf pc s packet inp ⟨s, 0, [], [], [], []⟩
  | echo (buf : List Byte) : PartCase pf pc s packet inp ⟨s, 0, [(buf, echoReq)], [], [], []⟩
  /-- a packet is taken, and at most answered -/
  | taken (sent : List (List Byte × ℕ)) (h : sent = [] ∨ ∃ buf, sent = [(buf, echoRep)]) :
      PartCase pf pc s packet inp ⟨s, 1, sent, [], [], []⟩
  /-- a packet is taken and decrypted -/
  | up (p : Packet X) (hp : packet = some p) (hpc : ∃ dev, pc = .net true dev)
      (hflags : frameFlags p.len ≠ echoReq ∧ frameFlags p.len ≠ echoRep) (r : Encryptor X × Span)
      (hr : r = decryptBuf inp.env s ⟨frameLen p.len, store inp.buf p.bytes⟩) :
      PartCase pf pc s packet inp ⟨r.1, 1, [], [], given r.2 r.2.frame, []⟩
  /-- a frame is encrypted -/
  | down (s' : Encryptor X) (f : Span) (hs : s' = s ∨ s' = { s with sendAPacket := false })
      (hne : f.frame ≠ []) (hlen : f.frame.length ≤ frameSize)
      (hfiller : pc.origin = .filler → f.frame.length = 1) (r : Encryptor X × Span)
      (hr : r = encryptBuf pf inp.env s' f) :
      PartCase pf pc s packet inp
        ⟨r.1, 0, given r.2 (r.2.mem, r.2.len.toNat), [f.frame], [],
          if pc.origin = .device then [f.frame] else []⟩

section Cases

variable {pf : Platform} {k : ℤ} {packet : Option (Packet X)} {inp : PartIn} {s : Encryptor X}

theorem lfdRunDown_encrypt (env : EncEnv) (s : Encryptor X) {f : Span} (hlen : 0 < f.len) :
    lfdRunDown env [lfdEncrypt pf X] s f = encryptBuf pf env s f := by
  rw [lfdRunDown, if_neg (not_le.mpr hlen)]
  rfl

theorem lfdRunUp_encrypt (env : EncEnv) (s : Encryptor X) {f : Span} (hlen : 0 < f.len) :
    lfdRunUp env [lfdEncrypt pf X].reverse s f = decryptBuf env s f := by
  rw [List.reverse_singleton, lfdRunUp, if_neg (not_le.mpr hlen)]
  rfl

/-- A linker before a part. -/
def Ready (l : Linker (Encryptor X) (PartWorld X)) (s : Encryptor X) (packet : Option (Packet X))
    (inp : PartIn) : Prop :=
  l.mods = s ∧ l.io = ⟨inp, packet, []⟩ ∧ l.trace = [] ∧ l.buf = inp.buf

theorem partCase_quiet {pc : LinkPc} {l : Linker (Encryptor X) (PartWorld X)}
    (l' : Linker (Encryptor X) (PartWorld X)) (hmods : l'.mods = l.mods) (htr : l'.trace = [])
    (hread : l'.io.read = []) :
    PartCase pf pc l.mods packet inp (partOut l') := by
  rw [partOut, hmods, htr, hread]
  exact .quiet

theorem partCase_keepAlive {l : Linker (Encryptor X) (PartWorld X)} (h : Ready l s packet inp)
    (pc : LinkPc) :
    PartCase pf pc s packet inp (partOut (keepAlive (cryptLink pf X k) partPorts l).1) := by
  obtain ⟨rfl, hio, htr, hbuf⟩ := h
  have hecho : ∀ l' : Linker (Encryptor X) (PartWorld X), l'.mods = l.mods →
      l'.trace = [.proto l.buf echoReq] → l'.io.read = [] →
      PartCase pf pc l.mods packet inp (partOut l') := by
    intro l' hmods htrace hread
    rw [partOut, hmods, htrace, hread]
    exact .echo l.buf
  simp only [keepAlive, putProto, partPorts, hio, htr]
  split
  · split
    · exact partCase_quiet _ rfl rfl rfl
    · split
      · split
        · exact hecho _ rfl rfl rfl
        · exact hecho _ rfl rfl rfl
      · exact partCase_quiet _ rfl rfl rfl
  · exact partCase_quiet _ rfl rfl rfl

/-- What is done by a part that hands a frame down. -/
theorem partOut_sendDown (pf : Platform) (k : ℤ) (l : Linker (Encryptor X) (PartWorld X))
    {read : List (List Byte)}
    (hio : l.io = ⟨inp, packet, read⟩) (htr : l.trace = []) {f : Span} (hf : 0 < f.len) :
    let r := encryptBuf pf inp.env l.mods f
    partOut (sendDown (cryptLink pf X k) partPorts l f).1 =
      ⟨r.1, 0, given r.2 (r.2.mem, r.2.len.toNat), [f.frame], [], read⟩ := by
  have hrun : lfdRunDown inp.env (cryptLink pf X k).mods l.mods f =
      encryptBuf pf inp.env l.mods f := lfdRunDown_encrypt inp.env l.mods hf
  simp only [sendDown, putProto, partPorts, hio, htr, hrun, given]
  split
  · rename_i hlen
    simp [partOut, hlen, downs, protos, devs]
  · split
    · rename_i hlen
      simp [partOut, hlen, downs, protos, devs]
    · rename_i hne hlen
      split <;> simp [partOut, hne, hlen, downs, protos, devs]

theorem partCase_sendPacket {l : Linker (Encryptor X) (PartWorld X)} (h : Ready l s packet inp)
    (net dev : Bool) :
    PartCase pf (.packet net dev) s packet inp
      (partOut (sendPacket (cryptLink pf X k) partPorts l).1) := by
  obtain ⟨rfl, hio, htr, hbuf⟩ := h
  rw [sendPacket]
  split
  · have hone : (⟨1, l.buf⟩ : Span).frame.length = 1 := by
      have hpos := List.length_pos_iff.mpr inp.buf_ne
      rw [Span.frame, List.length_take, hbuf]
      simp only [Int.toNat_one]
      omega
    have hne : (⟨1, l.buf⟩ : Span).frame ≠ [] := by
      intro h0
      rw [h0] at hone
      exact absurd hone (by decide)
    have hdown := partOut_sendDown pf k { l with mods := (cryptLink pf X k).packetSent l.mods }
      hio htr (f := ⟨1, l.buf⟩) Int.one_pos
    rw [hdown]
    exact .down _ _ (Or.inr rfl) hne (by rw [hone]; decide) (fun _ => hone) _ rfl
  · rw [partOut, htr, hio]
    exact .quiet

theorem partCase_devFrame {l : Linker (Encryptor X) (PartWorld X)} (h : Ready l s packet inp)
    (ready : Bool) :
    PartCase pf (.dev ready) s packet inp
      (partOut (devFrame (cryptLink pf X k) partPorts ready l).1) := by
  obtain ⟨rfl, hio, htr, hbuf⟩ := h
  rw [devFrame]
  split
  · have hcheck : lfdCheckDown (partPorts.modEnv l.io).1 (cryptLink pf X k).mods l.mods 1 =
        (l.mods, 1) := rfl
    dsimp only
    rw [hcheck, if_neg (by simp)]
    cases hdev : inp.dev with
    | failed again =>
      have hread : partPorts.devRead (partPorts.modEnv l.io).2 = (.failed again, l.io) := by
        simp only [partPorts, hio, hdev]
      simp only [hread]
      cases again
      · exact partCase_quiet _ rfl htr (by rw [hio])
      · exact partCase_quiet _ rfl htr (by rw [hio])
    | data bytes =>
      cases bytes with
      | nil =>
        have hread : partPorts.devRead (partPorts.modEnv l.io).2 = (.data [], l.io) := by
          simp only [partPorts, hio, hdev]
        simp only [hread]
        exact partCase_quiet _ rfl htr (by rw [hio])
      | cons b bytes =>
        set frame := (b :: bytes).take frameSize with hframe
        have hread : partPorts.devRead (partPorts.modEnv l.io).2 =
            (.data (b :: bytes), ⟨inp, packet, [frame]⟩) := by
          simp only [partPorts, hio, hdev, List.nil_append, hframe]
        simp only [hread, ← hframe]
        have hstored : (⟨frame.length, store l.buf frame⟩ : Span).frame = frame := by
          rw [Span.frame, Int.toNat_natCast]
          exact take_store _ _
        have hne : frame ≠ [] := by simp [hframe, frameSize]
        have hlen : frame.length ≤ frameSize := by
          rw [hframe]
          exact List.length_take_le _ _
        have hpos : 0 < (frame.length : ℤ) := by
          exact_mod_cast List.length_pos_iff.mpr hne
        have hdown := partOut_sendDown pf k
          { l with buf := store l.buf frame, io := ⟨inp, packet, [frame]⟩ } rfl htr
          (f := ⟨frame.length, store l.buf frame⟩) hpos
        rw [hdown, hstored]
        have hcase : PartCase pf (.dev ready) l.mods packet inp _ :=
          .down l.mods ⟨frame.length, store l.buf frame⟩ (Or.inl rfl) (by rwa [hstored])
            (by rwa [hstored]) (by simp [LinkPc.origin]) _ rfl
        rw [hstored] at hcase
        exact hcase
  · exact partCase_quiet _ rfl htr (by rw [hio])

theorem partCase_deliverUp {l : Linker (Encryptor X) (PartWorld X)} {p : Packet X}
    (hio : l.io = ⟨inp, some p, []⟩) (htr : l.trace = []) (hbuf : l.buf = store inp.buf p.bytes)
    (hflags : frameFlags p.len ≠ echoReq ∧ frameFlags p.len ≠ echoRep) {pc : LinkPc}
    (hpc : ∃ dev, pc = .net true dev) :
    PartCase pf pc l.mods (some p) inp
      (partOut (deliverUp (cryptLink pf X k) partPorts l (frameLen p.len)).1) := by
  by_cases hlen : frameLen p.len = 0
  -- `lfd_run_up` calls no module for an empty frame.
  · have hrun : lfdRunUp inp.env (cryptLink pf X k).mods.reverse l.mods
        ⟨(frameLen p.len : ℕ), l.buf⟩ = (l.mods, ⟨0, l.buf⟩) := by
      rw [hlen]
      rfl
    simp only [deliverUp, partPorts, hio, htr, hrun]
    exact .taken [] (Or.inl rfl)
  · have hpos : 0 < ((frameLen p.len : ℕ) : ℤ) := by omega
    have hrun : lfdRunUp inp.env (cryptLink pf X k).mods.reverse l.mods
        ⟨(frameLen p.len : ℕ), l.buf⟩ = decryptBuf inp.env l.mods ⟨frameLen p.len, l.buf⟩ :=
      lfdRunUp_encrypt inp.env l.mods hpos
    set r := decryptBuf inp.env l.mods ⟨frameLen p.len, l.buf⟩ with hr
    have hcase : PartCase pf pc l.mods (some p) inp
        ⟨r.1, 1, [], [], given r.2 r.2.frame, []⟩ := .up p rfl hpc hflags r (by rw [hr, hbuf])
    convert hcase using 1
    simp only [deliverUp, partPorts, hio, htr, hrun, given]
    split
    · rename_i hneg
      simp [partOut, hneg, nets, downs, protos, devs]
    · split
      · rename_i hzero
        simp [partOut, hzero, nets, downs, protos, devs]
      · rename_i hneg hzero
        split <;> simp [partOut, hneg, hzero, nets, downs, protos, devs]

theorem partCase_handleFlags {l : Linker (Encryptor X) (PartWorld X)} {p : Packet X}
    (hio : l.io = ⟨inp, some p, []⟩) (htr : l.trace = []) (hbuf : l.buf = store inp.buf p.bytes)
    {pc : LinkPc} (hpc : ∃ dev, pc = .net true dev) :
    PartCase pf pc l.mods (some p) inp
      (partOut (handleFlags (cryptLink pf X k) partPorts l p.len).1) := by
  have hskip : ∀ l' : Linker (Encryptor X) (PartWorld X), l'.mods = l.mods →
      l'.trace = [.net none] → l'.io.read = [] →
      PartCase pf pc l.mods (some p) inp (partOut l') := by
    intro l' hmods htrace hread
    rw [partOut, hmods, htrace, hread]
    exact .taken [] (Or.inl rfl)
  have hanswer : ∀ l' : Linker (Encryptor X) (PartWorld X), l'.mods = l.mods →
      l'.trace = [.net none, .proto l.buf echoRep] → l'.io.read = [] →
      PartCase pf pc l.mods (some p) inp (partOut l') := by
    intro l' hmods htrace hread
    rw [partOut, hmods, htrace, hread]
    exact .taken _ (Or.inr ⟨l.buf, rfl⟩)
  simp only [handleFlags]
  split
  · exact hskip _ rfl (by simp [htr]) (by simp [hio])
  · split
    · simp only [putProto, partPorts, hio]
      split
      · exact hanswer _ rfl (by simp [htr]) rfl
      · exact hanswer _ rfl (by simp [htr]) rfl
    · rename_i hreq
      split
      · exact hskip _ rfl (by simp [htr]) (by simp [hio])
      · rename_i hrep
        split
        · exact hskip _ rfl (by simp [htr]) (by simp [hio])
        · exact partCase_deliverUp hio htr hbuf ⟨hreq, hrep⟩ hpc

theorem partCase_netFrame {l : Linker (Encryptor X) (PartWorld X)} (h : Ready l s packet inp)
    (ready dev : Bool) :
    PartCase pf (.net ready dev) s packet inp
      (partOut (netFrame (cryptLink pf X k) partPorts ready l).1) := by
  obtain ⟨rfl, hio, htr, hbuf⟩ := h
  rw [netFrame]
  split
  · rename_i hready
    have hcheck : lfdCheckUp (partPorts.modEnv l.io).1 (cryptLink pf X k).mods.reverse l.mods 1 =
        (l.mods, 1) := rfl
    have henv : (partPorts.modEnv l.io).2 = l.io := rfl
    dsimp only
    rw [hcheck, henv, if_neg (by simp)]
    cases packet with
    | none =>
      have hread : partPorts.protoRead l.io l.buf = (-1, l.buf, l.io) := by
        simp only [partPorts, hio]
      simp only [hread]
      rw [if_pos (by decide), partOut]
      simp only [htr, hio]
      exact .taken [] (Or.inl rfl)
    | some p =>
      have hread : partPorts.protoRead l.io l.buf = ((p.len : ℤ), store l.buf p.bytes, l.io) := by
        simp only [partPorts, hio]
      simp only [hread]
      split
      · rw [partOut]
        simp only [htr, hio]
        exact .taken [] (Or.inl rfl)
      · rw [Int.toNat_natCast]
        exact partCase_handleFlags
          (l := { l with idle := 0, kaNeedVerify := false, buf := store l.buf p.bytes })
          hio htr (by rw [hbuf]) ⟨dev, by rw [hready]⟩
  · rw [partOut, htr, hio]
    exact .quiet

/-- **What one part does**: at most one packet is taken or made, and the
encryptor is called at most once. -/
theorem linkerPart_cases {l : Linker (Encryptor X) (PartWorld X)} (h : Ready l s packet inp)
    (pc : LinkPc) :
    PartCase pf pc s packet inp
      (partOut (linkerPart (cryptLink pf X k) partPorts pc l).1) := by
  cases pc with
  | top =>
    have hquiet : PartCase pf .top s packet inp (partOut l) := by
      obtain ⟨rfl, hio, htr, -⟩ := h
      rw [partOut, htr, hio]
      exact .quiet
    rw [linkerPart]
    split
    · exact hquiet
    · have hsel : partPorts.select l.io = (l.io.inp.select, l.io) := rfl
      rw [hsel]
      dsimp only
      split
      · exact hquiet
      · exact hquiet
      · exact partCase_keepAlive h .top
  | packet net dev => exact partCase_sendPacket h net dev
  | net net dev => exact partCase_netFrame h net dev
  | dev dev => exact partCase_devFrame h dev
  | left =>
    obtain ⟨rfl, hio, htr, -⟩ := h
    rw [linkerPart, partOut, htr, hio]
    exact .quiet

end Cases

end Vtun
