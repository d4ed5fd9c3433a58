/-
The linker among signals (`linkfd.c`, `lib.h`, `generic/udp_proto.c`).

`sig_term` and `sig_hup` set `__io_canceled`, at which `read_n` and `write_n`
stop, and `linker_term`, at which the loop of `lfd_linker` stops.  A handler may
run in any call of the linker: inside `read_n` and `write_n` the schedule of the
descriptor says when, and after the other calls `Ports.term` says whether.

* `tcpLink`, `udpLink` — the world of the linker over either driver;
* `lfdLinker` — `lfd_linker` with its first and its last write;
* `readLoop_cases` — how a read ends, and at which byte a signal strikes it.
-/
import Vtun.LinkerStream

namespace Vtun

/-! ### TCP -/

/-- The network descriptor with its two ends, the flags of the signal handlers, and
the rest of the world. -/
structure TcpWorld (δ : Type) where
  net : Input
  out : Output
  /-- `__io_canceled` -/
  canceled : Bool
  /-- `linker_term` -/
  term : Option Sig
  dev : δ

namespace TcpWorld

variable {ε δ : Type}

/-- The reading end, as `read_n` finds it. -/
def input (w : TcpWorld δ) : Input := { w.net with canceled := w.canceled }

/-- `sig_term` or `sig_hup` runs. -/
def handle (w : TcpWorld δ) (x : Sig) : TcpWorld δ :=
  { w with canceled := true, term := some x }

/-- The world after another call, and after the signal that came in it, if one did. -/
def after (P : Ports ε δ) (w : TcpWorld δ) (d : δ) : TcpWorld δ :=
  match P.term d with
  | none => { w with dev := d }
  | some x => { w with dev := d }.handle x

/-- The world after `read_n` or `write_n` has left `__io_canceled` at `c`. -/
def afterIo (which : δ → Sig) (w : TcpWorld δ) (c : Bool) : TcpWorld δ :=
  if c && !w.canceled then w.handle (which w.dev) else w

end TcpWorld

section Links

variable {ε δ : Type}

/-- The linker over TCP.  `stale` is the byte that the local `len` of `tcp_read`
holds behind a header cut short, `which` the signal that comes inside a read or
a write. -/
def tcpLink (stale : δ → Byte) (which : δ → Sig) (P : Ports ε δ) : Ports ε (TcpWorld δ) where
  select w := let r := P.select w.dev; (r.1, w.after P r.2)
  protoRead w buf :=
    let r := tcpRead (stale w.dev) w.input buf
    (r.1, r.2.1, { w with net := r.2.2 }.afterIo which r.2.2.canceled)
  protoWrite w buf len :=
    let r := tcpWrite { w.out with canceled := w.canceled } buf len
    (r.1, { w with out := r.2 }.afterIo which r.2.canceled)
  devRead w := let r := P.devRead w.dev; (r.1, w.after P r.2)
  devWrite w out := let r := P.devWrite w.dev out; (r.1, w.after P r.2)
  modEnv w := let r := P.modEnv w.dev; (r.1, w.after P r.2)
  alarm w := let r := P.alarm w.dev; (r.1, w.after P r.2)
  term w := w.term

/-! ### UDP -/

/-- What one `write` of `udp_write` meets. -/
inductive UdpEvent
  | done
  /-- `EAGAIN` or `EINTR` -/
  | again
  /-- `ENOBUFS` -/
  | noBufs
  /-- another error -/
  | error
  deriving DecidableEq, Repr

/-- The datagrams sent so far, and what the coming writes meet; when the schedule is
used up, they are done. -/
structure UdpOutput where
  sent : List (List Byte)
  sched : List UdpEvent

/-- The loop of `udp_write`. -/
def udpWriteLoop (sent : List (List Byte)) (dgram : List Byte) : List UdpEvent → ℤ × UdpOutput
  | [] => (dgram.length, ⟨sent ++ [dgram], []⟩)
  | .done :: sched => (dgram.length, ⟨sent ++ [dgram], sched⟩)
  | .again :: sched => udpWriteLoop sent dgram sched
  | .noBufs :: sched => (0, ⟨sent, sched⟩)
  | .error :: sched => (-1, ⟨sent, sched⟩)

/-- `udp_write`; `connected` is `is_rmt_fd_connected`. -/
def udpWrite (connected : Bool) (fd : UdpOutput) (buf : List Byte) (len : ℕ) : ℤ × UdpOutput :=
  if connected then udpWriteLoop fd.sent (htons len ++ buf.take (frameLen len)) fd.sched
  else (0, fd)

/-- The socket, the flags of the signal handlers, and the rest of the world, with
what `udp_read` takes. -/
structure UdpWorld (δ : Type) where
  out : UdpOutput
  term : Option Sig
  dev : δ

/-- The world after another call, and after the signal that came in it, if one did. -/
def UdpWorld.after (P : Ports ε δ) (w : UdpWorld δ) (d : δ) : UdpWorld δ :=
  { w with dev := d, term := (P.term d).or w.term }

/-- The linker over UDP, whose driver does not look at `__io_canceled`.  `connected`
is `is_rmt_fd_connected`, which `udp_read` sets. -/
def udpLink (connected : δ → Bool) (P : Ports ε δ) : Ports ε (UdpWorld δ) where
  select w := let r := P.select w.dev; (r.1, w.after P r.2)
  protoRead w buf := let r := P.protoRead w.dev buf; (r.1, r.2.1, w.after P r.2.2)
  protoWrite w buf len :=
    let r := udpWrite (connected w.dev) w.out buf len
    (r.1, { w with out := r.2 })
  devRead w := let r := P.devRead w.dev; (r.1, w.after P r.2)
  devWrite w out := let r := P.devWrite w.dev out; (r.1, w.after P r.2)
  modEnv w := let r := P.modEnv w.dev; (r.1, w.after P r.2)
  alarm w := let r := P.alarm w.dev; (r.1, w.after P r.2)
  term w := w.term

end Links

/-! ### lfd_linker -/

section Whole

variable {ε σ ν : Type} (S : Session ε σ) (P : Ports ε ν)

/-- `lfd_linker` up to the end of its loop: the echo request, unless the NAT hack
waits for the other end, `linker_term = 0`, and at most `n` turns; `none` when
the loop goes on. -/
def linkerLoop (natHack : Bool) (termZero : ν → ν) (n : ℕ) (s : Linker σ ν) :
    Option (Linker σ ν) :=
  let s := if natHack then s else (putProto P s s.buf echoReq).2
  let r := linkerRun S P n { s with io := termZero s.io }
  if r.2 then none else some r.1

/-- `lfd_linker`: behind the loop, the other end is notified. -/
def lfdLinker (natHack : Bool) (termZero : ν → ν) (n : ℕ) (s : Linker σ ν) :
    Option (Linker σ ν) :=
  (linkerLoop S P natHack termZero n s).map fun s => (putProto P s s.buf connClose).2

end Whole

namespace Ports.Keeps

variable {ε σ ν : Type} {S : Session ε σ} {P : Ports ε ν} {Q : ν → Prop}

/-- What every call keeps holds at the end of the loop when `linker_term = 0` brings
it about. -/
theorem linkerLoop (h : P.Keeps Q) {natHack : Bool} {termZero : ν → ν}
    (hzero : ∀ w, Q (termZero w)) {n : ℕ} {s s' : Linker σ ν}
    (hloop : linkerLoop S P natHack termZero n s = some s') : Q s'.io := by
  rw [Vtun.linkerLoop] at hloop
  generalize (if natHack then s else (putProto P s s.buf echoReq).2) = s₀ at hloop
  split at hloop
  · exact absurd hloop (by simp)
  · obtain rfl := Option.some.inj hloop
    have hstart : Q ({ s₀ with io := termZero s₀.io } : Linker σ ν).io := hzero _
    exact h.linkerRun hstart n

end Ports.Keeps

/-- `linker_term = 0`. -/
def TcpWorld.termZero {δ : Type} (w : TcpWorld δ) : TcpWorld δ := { w with term := none }

/-- `linker_term = 0`. -/
def UdpWorld.termZero {δ : Type} (w : UdpWorld δ) : UdpWorld δ := { w with term := none }

/-! ### When a signal strikes -/

/-- How many bytes `read_n` or `write_n` has moved when a signal ends it, of the
`len` it was asked for and the `avail` that are there; `none` when it ends in
another way. -/
def struck : List IoEvent → ℕ → ℕ → Option ℕ
  | _, _, 0 => none
  | [], _, _ + 1 => none
  | .chunk n :: sched, avail, len + 1 =>
    let w := min (n + 1) (min (len + 1) avail)
    if w = 0 then none else (struck sched (avail - w) (len + 1 - w)).map (w + ·)
  | .again :: sched, avail, len + 1 => struck sched avail (len + 1)
  | .error :: _, _, _ + 1 => none
  | .zero :: _, _, _ + 1 => none
  | .cancel :: _, _, _ + 1 => some 0

/-- No call fails or returns 0 before the end: a connection that breaks is a stream
that ends. -/
def NoFail (sched : List IoEvent) : Prop := ∀ e ∈ sched, e ≠ .error ∧ e ≠ .zero

theorem NoFail.tail {e : IoEvent} {sched : List IoEvent} (h : NoFail (e :: sched)) :
    NoFail sched := fun e' he' => h e' (List.mem_cons_of_mem e he')

theorem NoFail.head {e : IoEvent} {sched : List IoEvent} (h : NoFail (e :: sched)) :
    e ≠ .error ∧ e ≠ .zero := h e List.mem_cons_self

/-- A signal ends it, or it has all the bytes, or it returns nothing positive: without a
failure, because the stream is over. -/
theorem readLoop_cases (sched : List IoEvent) (data : List Byte) (len : ℕ) (acc : List Byte) :
    (∃ p sched', struck sched data.length len = some p ∧ p < len ∧ p ≤ data.length ∧
      readLoop sched data len acc =
        (⟨(acc.length + p : ℕ), acc ++ data.take p⟩, ⟨data.drop p, sched', true⟩)) ∨
    struck sched data.length len = none ∧
      ((∃ sched', sched' <:+ sched ∧ len ≤ data.length ∧ readLoop sched data len acc =
        (⟨(acc.length + len : ℕ), acc ++ data.take len⟩, ⟨data.drop len, sched', false⟩)) ∨
      (readLoop sched data len acc).1.ret ≤ 0 ∧ (NoFail sched → data.length < len ∧
        ∃ sched' bytes, sched' <:+ sched ∧
          readLoop sched data len acc = (⟨0, bytes⟩, ⟨[], sched', false⟩))) := by
  -- On the schedule, one event a turn; a turn that moves bytes leaves the rest to the next.
  induction sched generalizing data len acc with
  | nil =>
    right
    rcases len with _ | len
    · exact ⟨rfl, Or.inl ⟨[], List.suffix_rfl, Nat.zero_le _, by simp [readLoop]⟩⟩
    by_cases hlen : len + 1 ≤ data.length
    · exact ⟨rfl, Or.inl ⟨[], List.suffix_rfl, hlen, by simp [readLoop, hlen]⟩⟩
    · have hread : readLoop [] data (len + 1) acc = (⟨0, acc ++ data⟩, ⟨[], [], false⟩) := by
        rw [readLoop, if_neg hlen]
      refine ⟨rfl, Or.inr ⟨by rw [hread], fun _ => ⟨by omega, [], _, List.suffix_rfl, hread⟩⟩⟩
  | cons e sched ih =>
    have hsuffix : sched <:+ e :: sched := List.suffix_cons e sched
    rcases len with _ | len
    · exact Or.inr ⟨by cases e <;> rfl, Or.inl ⟨e :: sched, List.suffix_rfl, Nat.zero_le _,
        by simp [readLoop]⟩⟩
    cases e with
    | chunk n =>
      set w := min (n + 1) (min (len + 1) data.length) with hw
      have hwlen : w ≤ len + 1 := by omega
      have hwdata : w ≤ data.length := by omega
      by_cases hw0 : w = 0
      · -- the end of the stream
        have hnil : data = [] := List.length_eq_zero_iff.mp (by omega)
        have hread : readLoop (.chunk n :: sched) data (len + 1) acc =
            (⟨0, acc⟩, ⟨data, sched, false⟩) := by rw [readLoop, if_pos hw0]
        refine Or.inr ⟨by rw [struck, if_pos hw0], Or.inr ⟨by rw [hread], fun _ => ?_⟩⟩
        subst hnil
        exact ⟨Nat.succ_pos len, sched, acc, hsuffix, hread⟩
      have hrest : (data.drop w).length = data.length - w := List.length_drop
      have htake : (acc ++ data.take w).length = acc.length + w := by
        rw [List.length_append, List.length_take]
        omega
      have hread : readLoop (.chunk n :: sched) data (len + 1) acc =
          readLoop sched (data.drop w) (len + 1 - w) (acc ++ data.take w) := by
        rw [readLoop, if_neg hw0]
      rw [hread, struck, if_neg hw0, ← hrest]
      rcases ih (data.drop w) (len + 1 - w) (acc ++ data.take w) with
        ⟨p, sched', hp, hlt, hle, heq⟩ | ⟨hp, ⟨sched', hsub, hle, heq⟩ | ⟨hret, hover⟩⟩
      · refine Or.inl ⟨w + p, sched', by rw [hp]; rfl, by omega, by omega, ?_⟩
        rw [heq, htake, List.append_assoc, ← List.take_add, List.drop_drop, Nat.add_assoc]
      · refine Or.inr ⟨by rw [hp]; rfl, Or.inl ⟨sched', hsub.trans hsuffix, by omega, ?_⟩⟩
        rw [heq, htake, List.append_assoc, ← List.take_add, List.drop_drop, Nat.add_assoc,
          Nat.add_sub_cancel' hwlen]
      · refine Or.inr ⟨by rw [hp]; rfl, Or.inr ⟨hret, fun hfail => ?_⟩⟩
        obtain ⟨hlt, sched', bytes, hsub, heq⟩ := hover hfail.tail
        exact ⟨by omega, sched', bytes, hsub.trans hsuffix, heq⟩
    | again =>
      rcases ih data (len + 1) acc with h | ⟨hp, ⟨sched', hsub, hfull⟩ | ⟨hret, hover⟩⟩
      · exact Or.inl h
      · exact Or.inr ⟨hp, Or.inl ⟨sched', hsub.trans hsuffix, hfull⟩⟩
      · refine Or.inr ⟨hp, Or.inr ⟨hret, fun hfail => ?_⟩⟩
        obtain ⟨hlt, sched', bytes, hsub, heq⟩ := hover hfail.tail
        exact ⟨hlt, sched', bytes, hsub.trans hsuffix, heq⟩
    | error =>
      exact Or.inr ⟨rfl, Or.inr ⟨by simp [readLoop], fun hfail => absurd rfl hfail.head.1⟩⟩
    | zero => exact Or.inr ⟨rfl, Or.inr ⟨le_rfl, fun hfail => absurd rfl hfail.head.2⟩⟩
    | cancel =>
      refine Or.inl ⟨0, sched, rfl, Nat.succ_pos len, Nat.zero_le _, ?_⟩
      rw [readLoop, List.take_zero, List.append_nil, List.drop_zero, Nat.add_zero]

/-- How a read ends: by a signal, with all the bytes, or with the stream. -/
inductive ReadEnd (sched : List IoEvent) (data : List Byte) (len : ℕ) (acc : List Byte) : Prop
  | struck (p : ℕ) (sched' : List IoEvent) (hs : struck sched data.length len = some p)
      (hp : p < len) (hdata : p ≤ data.length)
      (heq : readLoop sched data len acc =
        (⟨(acc.length + p : ℕ), acc ++ data.take p⟩, ⟨data.drop p, sched', true⟩))
  | full (sched' : List IoEvent) (hs : struck sched data.length len = none)
      (hlen : len ≤ data.length) (hfail : NoFail sched')
      (heq : readLoop sched data len acc =
        (⟨(acc.length + len : ℕ), acc ++ data.take len⟩, ⟨data.drop len, sched', false⟩))
  | over (sched' : List IoEvent) (bytes : List Byte) (hs : struck sched data.length len = none)
      (hlen : data.length < len) (hfail : NoFail sched')
      (heq : readLoop sched data len acc = (⟨0, bytes⟩, ⟨[], sched', false⟩))

theorem readLoop_end {sched : List IoEvent} (hs : NoFail sched) (data : List Byte) (len : ℕ)
    (acc : List Byte) : ReadEnd sched data len acc := by
  have hrest : ∀ sched', sched' <:+ sched → NoFail sched' := fun _ hsub e he =>
    hs e (hsub.subset he)
  rcases readLoop_cases sched data len acc with
    ⟨p, sched', hp, hlt, hle, heq⟩ | ⟨hp, ⟨sched', hsub, hle, heq⟩ | ⟨-, hover⟩⟩
  · exact .struck p sched' hp hlt hle heq
  · exact .full sched' hp hle (hrest sched' hsub) heq
  · obtain ⟨hlt, sched', bytes, hsub, heq⟩ := hover hs
    exact .over sched' bytes hp hlt (hrest sched' hsub) heq

section Struck

variable {sched : List IoEvent} {data : List Byte} {len p : ℕ}

theorem struck_le (h : struck sched data.length len = some p) : p < len ∧ p ≤ data.length := by
  rcases readLoop_cases sched data len [] with ⟨p', _, h', hp, hle, _⟩ | ⟨h', _⟩
  · obtain rfl := Option.some.inj (h.symm.trans h')
    exact ⟨hp, hle⟩
  · exact absurd (h.symm.trans h') (by simp)

/-- The bytes before the signal are returned. -/
theorem readLoop_struck (h : struck sched data.length len = some p) (acc : List Byte) :
    ∃ sched', readLoop sched data len acc =
      (⟨(acc.length + p : ℕ), acc ++ data.take p⟩, ⟨data.drop p, sched', true⟩) := by
  rcases readLoop_cases sched data len acc with ⟨p', sched', h', _, _, heq⟩ | ⟨h', _⟩
  · obtain rfl := Option.some.inj (h.symm.trans h')
    exact ⟨sched', heq⟩
  · exact absurd (h.symm.trans h') (by simp)

end Struck

/-- A write puts all its bytes on the stream if and only if no signal strikes. -/
theorem writeLoop_end {sched : List IoEvent} (hs : NoFail sched) (sent buf : List Byte) (t : ℕ) :
    (writeLoop sched sent buf t).2.sent = sent ++ buf ↔
      struck sched buf.length buf.length = none := by
  induction sched generalizing sent buf t with
  | nil =>
    cases buf with
    | nil => simp [writeLoop, struck]
    | cons b buf => simp [writeLoop, struck]
  | cons e sched ih =>
    rcases buf with _ | ⟨b, buf⟩
    · have hnone : struck (e :: sched) 0 0 = none := by cases e <;> rfl
      simp [writeLoop, hnone]
    cases e with
    | chunk n =>
      set w := min (n + 1) (b :: buf).length with hw
      have hcap : min (n + 1) (min (buf.length + 1) (buf.length + 1)) = w := by
        rw [hw, List.length_cons, min_self]
      have hstruck : struck (.chunk n :: sched) (b :: buf).length (b :: buf).length =
          (struck sched ((b :: buf).drop w).length ((b :: buf).drop w).length).map (w + ·) := by
        rw [List.length_drop, List.length_cons, struck, hcap, if_neg (by omega)]
      have hsplit : sent ++ b :: buf = sent ++ (b :: buf).take w ++ (b :: buf).drop w := by
        rw [List.append_assoc, List.take_append_drop]
      rw [writeLoop, hstruck, Option.map_eq_none_iff, ← ih hs.tail _ _ (t + w), hsplit]
    | again => exact ih hs.tail sent (b :: buf) t
    | error => exact absurd rfl hs.head.1
    | zero => exact absurd rfl hs.head.2
    | cancel => simp [writeLoop, struck]

end Vtun
