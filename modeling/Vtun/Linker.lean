/-
The linker loop (`linkfd.c`).

One pass of the loop of `lfd_linker` is cut along the source into the
keep-alive check, the packet an encryptor asked for, the frame from the network
and the frame from the device.  The descriptors, the clock and the signal
handlers are behind `Ports`; the modules are functions over a state `σ` with an
environment `ε` that carries what a call reads from the system.  They work in
place in the C code; what they leave in the buffer of the loop is not followed.

* `lfdRunDown`, `lfdRunUp` — a frame through the stack, in either direction;
* `linkerPass` — one turn of the loop;
* `linkerRun` — the passes of one session, until the loop is left;
* `Ports.Keeps.linkerRun` — what every call keeps, every run keeps.
-/
import Vtun.TcpProto
import Vtun.Host

namespace Vtun

/-! ### Modules -/

/-- `len` and the bytes at the pointer that go from module to module. -/
structure Span where
  len : ℤ
  mem : List Byte
  deriving DecidableEq, Repr

/-- The bytes of a span that belong to the frame. -/
def Span.frame (s : Span) : List Byte := s.mem.take s.len.toNat

theorem Span.frame_append (bytes tail : List Byte) :
    (⟨bytes.length, bytes ++ tail⟩ : Span).frame = bytes := by
  rw [Span.frame, Int.toNat_natCast, List.take_left]

theorem Span.frame_all (bytes : List Byte) : (⟨bytes.length, bytes⟩ : Span).frame = bytes := by
  rw [Span.frame, Int.toNat_natCast, List.take_length]

/-- The callbacks of a `struct lfd_mod` that the linker calls. -/
structure Mod (ε σ : Type) where
  encode : Option (ε → σ → Span → σ × Span)
  availEncode : Option (ε → σ → σ × ℤ)
  decode : Option (ε → σ → Span → σ × Span)
  availDecode : Option (ε → σ → σ × ℤ)

section Stack

variable {ε σ : Type}

/-- `lfd_run_down`, over the modules from head to tail. -/
def lfdRunDown (e : ε) : List (Mod ε σ) → σ → Span → σ × Span
  | [], s, f => (s, f)
  | mod :: mods, s, f =>
    if f.len ≤ 0 then (s, f)
    else
      match mod.encode with
      | none => lfdRunDown e mods s f
      | some encode =>
        let r := encode e s f
        lfdRunDown e mods r.1 r.2

/-- `lfd_run_up`, over the modules from tail to head. -/
def lfdRunUp (e : ε) : List (Mod ε σ) → σ → Span → σ × Span
  | [], s, f => (s, f)
  | mod :: mods, s, f =>
    if f.len ≤ 0 then (s, f)
    else
      match mod.decode with
      | none => lfdRunUp e mods s f
      | some decode =>
        let r := decode e s f
        lfdRunUp e mods r.1 r.2

/-- `lfd_check_down`, with the value `err` reached so far. -/
def lfdCheckDown (e : ε) : List (Mod ε σ) → σ → ℤ → σ × ℤ
  | [], s, err => (s, err)
  | mod :: mods, s, err =>
    if err ≤ 0 then (s, err)
    else
      match mod.availEncode with
      | none => lfdCheckDown e mods s err
      | some avail =>
        let r := avail e s
        lfdCheckDown e mods r.1 r.2

/-- `lfd_check_up`, with the value `err` reached so far. -/
def lfdCheckUp (e : ε) : List (Mod ε σ) → σ → ℤ → σ × ℤ
  | [], s, err => (s, err)
  | mod :: mods, s, err =>
    if err ≤ 0 then (s, err)
    else
      match mod.availDecode with
      | none => lfdCheckUp e mods s err
      | some avail =>
        let r := avail e s
        lfdCheckUp e mods r.1 r.2

end Stack

/-! ### The world of the linker -/

/-- What `select` returns. -/
inductive Select
  /-- an error, with whether it is `EINTR` or `EAGAIN` -/
  | failed (again : Bool)
  /-- the descriptors that can be read: the network and the device -/
  | ready (net dev : Bool)
  deriving DecidableEq, Repr

/-- What `dev_read` returns; no bytes at the end of file. -/
inductive DevRead
  | failed (again : Bool)
  | data (bytes : List Byte)
  deriving DecidableEq, Repr

/-- What `dev_write` returns. -/
inductive DevWrite
  | failed (again : Bool)
  | done
  deriving DecidableEq, Repr

/-- `VTUN_SIG_TERM` and `VTUN_SIG_HUP`, the values of `linker_term`. -/
inductive Sig
  | term
  | hup
  deriving DecidableEq, Repr

/-- The calls of the linker that leave the process, on a world `ν`. -/
structure Ports (ε ν : Type) where
  select : ν → Select × ν
  /-- the value of `proto_read`, the buffer and the world afterwards -/
  protoRead : ν → List Byte → ℤ × List Byte × ν
  /-- `proto_write` of `len`, flags included, from the buffer -/
  protoWrite : ν → List Byte → ℕ → ℤ × ν
  devRead : ν → DevRead × ν
  devWrite : ν → Span → DevWrite × ν
  /-- what the modules read from the system in their next call -/
  modEnv : ν → ε × ν
  /-- whether `sig_alarm` has set `ka_need_verify` since this was last asked -/
  alarm : ν → Bool × ν
  /-- `linker_term` -/
  term : ν → Option Sig

/-- The fixed part of a session: the modules from head to tail and the fields
of `lfd_host` the loop reads. -/
structure Session (ε σ : Type) where
  mods : List (Mod ε σ)
  kaMaxfail : ℤ
  /-- reads the flag `send_a_packet` -/
  sendAPacket : σ → Bool
  /-- clears the flag `send_a_packet` -/
  packetSent : σ → σ

/-- A call that matters to the other end or to the device. -/
inductive LinkEv
  /-- a frame from the network, with the frame handed to `lfd_run_up`, if any -/
  | net (up : Option (List Byte))
  /-- a frame handed to `lfd_run_down` -/
  | down (frame : List Byte)
  /-- `proto_write` -/
  | proto (buf : List Byte) (len : ℕ)
  /-- `dev_write` -/
  | dev (out : Span)
  deriving DecidableEq, Repr

/-- The state of `lfd_linker`: its buffer and counters, the modules, the world
and the calls made so far. -/
structure Linker (σ ν : Type) where
  buf : List Byte
  idle : ℤ
  kaNeedVerify : Bool
  mods : σ
  io : ν
  trace : List LinkEv

/-- How a part of the loop body ends: it falls through to the next one, or by
`continue`, or by `break`. -/
inductive Flow
  | fall
  | next
  | stop
  deriving DecidableEq, Repr

section Pass

variable {ε σ ν : Type}

/-- The following part of the loop body, unless the loop goes elsewhere. -/
def seqFlow (r : Linker σ ν × Flow) (f : Linker σ ν → Linker σ ν × Flow) :
    Linker σ ν × Flow :=
  match r.2 with
  | .fall => f r.1
  | _ => r

@[simp] theorem seqFlow_fall (s : Linker σ ν) (f : Linker σ ν → Linker σ ν × Flow) :
    seqFlow (s, .fall) f = f s := rfl

@[simp] theorem seqFlow_next (s : Linker σ ν) (f : Linker σ ν → Linker σ ν × Flow) :
    seqFlow (s, .next) f = (s, .next) := rfl

@[simp] theorem seqFlow_stop (s : Linker σ ν) (f : Linker σ ν → Linker σ ν × Flow) :
    seqFlow (s, .stop) f = (s, .stop) := rfl

variable (S : Session ε σ) (P : Ports ε ν)

/-- `proto_write`, recorded. -/
def putProto (s : Linker σ ν) (buf : List Byte) (len : ℕ) : ℤ × Linker σ ν :=
  let r := P.protoWrite s.io buf len
  (r.1, { s with io := r.2, trace := s.trace ++ [.proto buf len] })

/-- The keep-alive check. -/
def keepAlive (s : Linker σ ν) : Linker σ ν × Flow :=
  let a := P.alarm s.io
  let s := { s with io := a.2, kaNeedVerify := s.kaNeedVerify || a.1 }
  if s.kaNeedVerify then
    if s.idle > S.kaMaxfail then (s, .stop)
    else
      -- `idle++ > 0`: the first time the alarm comes nothing is sent yet
      let idle := s.idle
      let s := { s with idle := s.idle + 1 }
      if idle > 0 then
        let w := putProto P s s.buf echoReq
        if w.1 < 0 then (w.2, .stop) else ({ w.2 with kaNeedVerify := false }, .fall)
      else ({ s with kaNeedVerify := false }, .fall)
  else (s, .fall)

/-- A frame through the modules and out to the network. -/
def sendDown (s : Linker σ ν) (frame : Span) : Linker σ ν × Flow :=
  let e := P.modEnv s.io
  let r := lfdRunDown e.1 S.mods s.mods frame
  let s := { s with io := e.2, mods := r.1, trace := s.trace ++ [.down frame.frame] }
  if r.2.len = -1 then (s, .stop)
  -- a module has kept the frame: the loop body goes on
  else if r.2.len = 0 then (s, .fall)
  else
    let w := putProto P s r.2.mem r.2.len.toNat
    if w.1 < 0 then (w.2, .stop) else (w.2, .fall)

/-- The one-byte packet sent when a module has set `send_a_packet`. -/
def sendPacket (s : Linker σ ν) : Linker σ ν × Flow :=
  if S.sendAPacket s.mods then
    sendDown S P { s with mods := S.packetSent s.mods } ⟨1, s.buf⟩
  else (s, .fall)

/-- A frame for the device, after the flags of its header are dealt with. -/
def deliverUp (s : Linker σ ν) (len : ℕ) : Linker σ ν × Flow :=
  let e := P.modEnv s.io
  let r := lfdRunUp e.1 S.mods.reverse s.mods ⟨len, s.buf⟩
  let s := { s with io := e.2, mods := r.1, trace := s.trace ++ [.net (some (s.buf.take len))] }
  if r.2.len = -1 then (s, .stop)
  else if r.2.len = 0 then (s, .fall)
  else
    let w := P.devWrite s.io r.2
    let s := { s with io := w.2, trace := s.trace ++ [.dev r.2] }
    match w.1 with
    | .done => (s, .fall)
    -- `continue`: the device is not read in this turn
    | .failed true => (s, .next)
    | .failed false => (s, .stop)

/-- The frame flags: each is compared for equality with the whole flag field. -/
def handleFlags (s : Linker σ ν) (len : ℕ) : Linker σ ν × Flow :=
  let fl := frameFlags len
  let skip := { s with trace := s.trace ++ [.net none] }
  if fl = badFrame then (skip, .next)
  else if fl = echoReq then
    let w := putProto P skip s.buf echoRep
    if w.1 < 0 then (w.2, .stop) else (w.2, .next)
  else if fl = echoRep then (skip, .next)
  else if fl = connClose then (skip, .stop)
  -- no flags, or several at once
  else deliverUp S P s (frameLen len)

/-- The frame from the network, where the network is ready and the modules
accept data. -/
def netFrame (ready : Bool) (s : Linker σ ν) : Linker σ ν × Flow :=
  if ready then
    let e := P.modEnv s.io
    let c := lfdCheckUp e.1 S.mods.reverse s.mods 1
    let s := { s with io := e.2, mods := c.1 }
    if c.2 = 0 then (s, .fall)
    else
      let r := P.protoRead s.io s.buf
      let s := { s with idle := 0, kaNeedVerify := false, buf := r.2.1, io := r.2.2 }
      if r.1 ≤ 0 then ({ s with trace := s.trace ++ [.net none] }, .stop)
      else handleFlags S P s r.1.toNat
  else (s, .fall)

/-- The frame from the device, where the device is ready and the modules accept
data. -/
def devFrame (ready : Bool) (s : Linker σ ν) : Linker σ ν × Flow :=
  if ready then
    let e := P.modEnv s.io
    let c := lfdCheckDown e.1 S.mods s.mods 1
    let s := { s with io := e.2, mods := c.1 }
    if c.2 = 0 then (s, .fall)
    else
      let r := P.devRead s.io
      let s := { s with io := r.2 }
      match r.1 with
      | .failed true => (s, .next)
      | .failed false => (s, .stop)
      | .data [] => (s, .stop)
      -- `dev_read` returns at most `VTUN_FRAME_SIZE` bytes
      | .data bytes =>
        let s := { s with buf := store s.buf (bytes.take frameSize) }
        sendDown S P s ⟨(bytes.take frameSize).length, s.buf⟩
  else (s, .fall)

/-- One turn of the loop. -/
def linkerPass (s : Linker σ ν) : Linker σ ν × Flow :=
  let r := P.select s.io
  let s := { s with io := r.2 }
  match r.1 with
  | .failed true => (s, .next)
  | .failed false => (s, .stop)
  | .ready net dev =>
    seqFlow (seqFlow (seqFlow (keepAlive S P s) (sendPacket S P)) (netFrame S P net))
      (devFrame S P dev)

/-- At most `n` turns of the loop; `true` while it has not been left. -/
def linkerRun : ℕ → Linker σ ν → Linker σ ν × Bool
  | 0, s => (s, (P.term s.io).isNone)
  | n + 1, s =>
    if (P.term s.io).isSome then (s, false)
    else
      let r := linkerPass S P s
      if r.2 = .stop then (r.1, false) else linkerRun n r.1

end Pass

/-! ### What the parts record -/

/-- A call of the sending half of the loop. -/
def LinkEv.sent : LinkEv → Bool
  | .down _ | .proto _ _ => true
  | .net _ | .dev _ => false

/-- A part of the loop body that records nothing but what it sends. -/
def OnlySends {σ ν : Type} (f : Linker σ ν → Linker σ ν × Flow) : Prop :=
  ∀ s, ∃ out, (f s).1.trace = s.trace ++ out ∧ ∀ e ∈ out, e.sent = true

section Sends

variable {ε σ ν : Type} (S : Session ε σ) (P : Ports ε ν)

theorem keepAlive_sends : OnlySends (keepAlive S P) := by
  intro s
  have hnone : ∃ out, s.trace = s.trace ++ out ∧ ∀ e ∈ out, e.sent = true :=
    ⟨[], (List.append_nil _).symm, List.forall_mem_nil _⟩
  have hecho : ∃ out, s.trace ++ [.proto s.buf echoReq] = s.trace ++ out ∧
      ∀ e ∈ out, e.sent = true := ⟨_, rfl, List.forall_mem_singleton.mpr rfl⟩
  unfold keepAlive putProto
  dsimp only
  repeat' split
  all_goals first | exact hnone | exact hecho

theorem sendDown_sends (frame : Linker σ ν → Span) :
    OnlySends fun s => sendDown S P s (frame s) := by
  intro s
  unfold sendDown putProto
  dsimp only
  repeat' split
  all_goals
    try rw [List.append_assoc]
    refine ⟨_, rfl, fun e he => ?_⟩
    simp only [List.mem_append, List.mem_singleton] at he
  · exact he ▸ rfl
  · exact he ▸ rfl
  · exact he.elim (fun h => h ▸ rfl) fun h => h ▸ rfl
  · exact he.elim (fun h => h ▸ rfl) fun h => h ▸ rfl

theorem sendPacket_sends : OnlySends (sendPacket S P) := by
  intro s
  rw [sendPacket]
  split
  · exact sendDown_sends S P (fun s => ⟨1, s.buf⟩) { s with mods := S.packetSent s.mods }
  · exact ⟨[], (List.append_nil _).symm, List.forall_mem_nil _⟩

theorem devFrame_sends (ready : Bool) : OnlySends (devFrame S P ready) := by
  intro s
  have hnone : ∃ out, s.trace = s.trace ++ out ∧ ∀ e ∈ out, e.sent = true :=
    ⟨[], (List.append_nil _).symm, List.forall_mem_nil _⟩
  rw [devFrame]
  split
  · dsimp only
    split
    · exact hnone
    · split
      · exact hnone
      · exact hnone
      · exact hnone
      · rename_i bytes _ _
        exact sendDown_sends S P (fun s => ⟨(bytes.take frameSize).length, s.buf⟩) _
  · exact hnone

end Sends

/-! ### What the calls keep -/

/-- Every call of the linker but `proto_read` keeps `Q`. -/
structure Ports.Spares {ε ν : Type} (P : Ports ε ν) (Q : ν → Prop) : Prop where
  select : ∀ w, Q w → Q (P.select w).2
  protoWrite : ∀ w buf len, Q w → Q (P.protoWrite w buf len).2
  devRead : ∀ w, Q w → Q (P.devRead w).2
  devWrite : ∀ w out, Q w → Q (P.devWrite w out).2
  modEnv : ∀ w, Q w → Q (P.modEnv w).2
  alarm : ∀ w, Q w → Q (P.alarm w).2

/-- Every call of the linker keeps `Q`. -/
structure Ports.Keeps {ε ν : Type} (P : Ports ε ν) (Q : ν → Prop) : Prop
    extends P.Spares Q where
  protoRead : ∀ w buf, Q w → Q (P.protoRead w buf).2.2

namespace Ports.Spares

variable {ε σ ν : Type} {S : Session ε σ} {P : Ports ε ν} {Q : ν → Prop}

theorem keepAlive (h : P.Spares Q) {s : Linker σ ν} (hs : Q s.io) :
    Q (keepAlive S P s).1.io := by
  have hs := h.alarm _ hs
  unfold Vtun.keepAlive putProto
  dsimp only
  repeat' split
  all_goals first | exact hs | exact h.protoWrite _ _ _ hs

theorem sendDown (h : P.Spares Q) {s : Linker σ ν} (hs : Q s.io) (frame : Span) :
    Q (sendDown S P s frame).1.io := by
  have hs := h.modEnv _ hs
  unfold Vtun.sendDown putProto
  dsimp only
  repeat' split
  all_goals first | exact hs | exact h.protoWrite _ _ _ hs

theorem sendPacket (h : P.Spares Q) {s : Linker σ ν} (hs : Q s.io) :
    Q (sendPacket S P s).1.io := by
  rw [Vtun.sendPacket]
  split
  · have hs' : Q ({ s with mods := S.packetSent s.mods } : Linker σ ν).io := hs
    exact h.sendDown hs' _
  · exact hs

theorem deliverUp (h : P.Spares Q) {s : Linker σ ν} (hs : Q s.io) (len : ℕ) :
    Q (deliverUp S P s len).1.io := by
  have hs := h.modEnv _ hs
  unfold Vtun.deliverUp
  dsimp only
  repeat' split
  all_goals first | exact hs | exact h.devWrite _ _ hs

theorem handleFlags (h : P.Spares Q) {s : Linker σ ν} (hs : Q s.io) (len : ℕ) :
    Q (handleFlags S P s len).1.io := by
  unfold Vtun.handleFlags putProto
  dsimp only
  repeat' split
  all_goals first | exact hs | exact h.protoWrite _ _ _ hs | exact h.deliverUp hs _

theorem devFrame (h : P.Spares Q) {s : Linker σ ν} (hs : Q s.io) (ready : Bool) :
    Q (devFrame S P ready s).1.io := by
  have hs' := h.modEnv _ hs
  unfold Vtun.devFrame
  dsimp only
  repeat' split
  all_goals
    first
    | exact hs
    | exact hs'
    | exact h.devRead _ hs'
    | exact h.sendDown (h.devRead _ hs') _

theorem seqFlow {r : Linker σ ν × Flow} {f : Linker σ ν → Linker σ ν × Flow} (hr : Q r.1.io)
    (hf : ∀ s : Linker σ ν, Q s.io → Q (f s).1.io) : Q (seqFlow r f).1.io := by
  obtain ⟨s, flow⟩ := r
  cases flow with
  | fall => exact hf s hr
  | next => exact hr
  | stop => exact hr

end Ports.Spares

namespace Ports.Keeps

variable {ε σ ν : Type} {S : Session ε σ} {P : Ports ε ν} {Q : ν → Prop}

theorem netFrame (h : P.Keeps Q) {s : Linker σ ν} (hs : Q s.io) (ready : Bool) :
    Q (netFrame S P ready s).1.io := by
  have hs' := h.modEnv _ hs
  unfold Vtun.netFrame
  dsimp only
  repeat' split
  all_goals
    first
    | exact hs
    | exact hs'
    | exact h.protoRead _ _ hs'
    | exact h.toSpares.handleFlags (h.protoRead _ _ hs') _

theorem linkerPass (h : P.Keeps Q) {s : Linker σ ν} (hs : Q s.io) :
    Q (linkerPass S P s).1.io := by
  have hs := h.select _ hs
  unfold Vtun.linkerPass
  dsimp only
  split
  · exact hs
  · exact hs
  · exact Spares.seqFlow (Spares.seqFlow
      (Spares.seqFlow (h.toSpares.keepAlive hs) fun _ hs => h.toSpares.sendPacket hs)
      fun _ hs => h.netFrame hs _) fun _ hs => h.toSpares.devFrame hs _

/-- What every call keeps, every run keeps. -/
theorem linkerRun (h : P.Keeps Q) {s : Linker σ ν} (hs : Q s.io) (n : ℕ) :
    Q (linkerRun S P n s).1.io := by
  induction n generalizing s with
  | zero => exact hs
  | succ n ih =>
    rw [Vtun.linkerRun]
    split
    · exact hs
    · dsimp only
      split
      · exact h.linkerPass hs
      · exact ih (h.linkerPass hs)

end Ports.Keeps

end Vtun
