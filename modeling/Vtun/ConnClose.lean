/-
The notice that a session is closed (`linkfd.c`).

Behind its loop `lfd_linker` writes `VTUN_CONN_CLOSE`.  Over TCP the write goes
through `write_n`, which writes nothing once a signal handler has run; over UDP
it does not look.

* `tcp_close_iff` — when the notice is written to a TCP stream;
* `udp_close` — a connected UDP socket always gets it;
* `conn_close_told` — the two for `lfd_linker`, over all its runs.
-/
import Vtun.Signals

namespace Vtun

section Tcp

variable {ε σ δ : Type} {stale : δ → Byte} {which : δ → Sig} {P : Ports ε δ}

@[simp] theorem TcpWorld.afterIo_out (w : TcpWorld δ) (c : Bool) :
    (w.afterIo which c).out = w.out := by
  rw [TcpWorld.afterIo]
  split
  · rfl
  · rfl

/-- A control value is written as its header. -/
theorem wire_ctl (c : Ctl) (buf : List Byte) :
    htons c.flag ++ buf.take (frameLen c.flag) = htons c.flag := by
  rw [c.frameLen_flag, List.take_zero, List.append_nil]

/-- **The notice goes to a TCP stream** if and only if no handler has run and none
runs before its two bytes are written. -/
theorem tcp_close_iff (stale : δ → Byte) (which : δ → Sig) (P : Ports ε δ) (w : TcpWorld δ)
    (buf : List Byte) (hfail : NoFail w.out.sched) :
    ((tcpLink stale which P).protoWrite w buf connClose).2.out.sent =
        w.out.sent ++ htons connClose ↔
      w.canceled = false ∧ struck w.out.sched 2 2 = none := by
  have hwire := wire_ctl .connClose buf
  show (TcpWorld.afterIo which _ _).out.sent = _ ↔ _
  rw [TcpWorld.afterIo_out]
  show (writeN { w.out with canceled := w.canceled }
    (htons Ctl.connClose.flag ++ buf.take (frameLen Ctl.connClose.flag))).2.sent = _ ↔ _
  rw [hwire, writeN]
  by_cases hc : w.canceled = true
  · -- `write_n` returns at once
    rw [if_pos hc, hc]
    simp [htons]
  · have hc : w.canceled = false := by simpa using hc
    rw [hc, if_neg (by simp)]
    have hend := writeLoop_end hfail w.out.sent (htons Ctl.connClose.flag) 0
    rw [show (htons Ctl.connClose.flag).length = 2 from rfl] at hend
    exact hend.trans (by simp)

/-- `linker_term` is set by the handlers only, and they set `__io_canceled` too. -/
theorem tcpLink_term : (tcpLink stale which P).Keeps fun w =>
    w.term.isSome = true → w.canceled = true := by
  have hafter : ∀ (w : TcpWorld δ) (d : δ), (w.term.isSome = true → w.canceled = true) →
      ((w.after P d).term.isSome = true → (w.after P d).canceled = true) := by
    intro w d hw
    rw [TcpWorld.after]
    split
    · exact hw
    · exact fun _ => rfl
  have hio : ∀ (w : TcpWorld δ) (c : Bool), (w.term.isSome = true → w.canceled = true) →
      ((w.afterIo which c).term.isSome = true → (w.afterIo which c).canceled = true) := by
    intro w c hw
    rw [TcpWorld.afterIo]
    split
    · exact fun _ => rfl
    · exact hw
  exact
    { select := fun w hw => hafter w _ hw
      protoRead := fun w buf hw => hio _ _ hw
      protoWrite := fun w buf len hw => hio _ _ hw
      devRead := fun w hw => hafter w _ hw
      devWrite := fun w out hw => hafter w _ hw
      modEnv := fun w hw => hafter w _ hw
      alarm := fun w hw => hafter w _ hw }

end Tcp

section Udp

variable {ε δ : Type} {connected : δ → Bool} {P : Ports ε δ}

/-- The socket takes every write, at last. -/
def UdpOutput.Accepts (fd : UdpOutput) : Prop := ∀ e ∈ fd.sched, e ≠ .noBufs ∧ e ≠ .error

theorem udpWriteLoop_sent (sent : List (List Byte)) (dgram : List Byte) {sched : List UdpEvent}
    (h : ∀ e ∈ sched, e ≠ .noBufs ∧ e ≠ .error) :
    (udpWriteLoop sent dgram sched).2.sent = sent ++ [dgram] := by
  induction sched with
  | nil => rfl
  | cons e sched ih =>
    have hsched : ∀ e ∈ sched, e ≠ .noBufs ∧ e ≠ .error := fun e he =>
      h e (List.mem_cons_of_mem _ he)
    cases e with
    | done => rfl
    | again => exact ih hsched
    | noBufs => exact absurd rfl (h _ List.mem_cons_self).1
    | error => exact absurd rfl (h _ List.mem_cons_self).2

/-- A connected socket gets the notice, whatever signals have come. -/
theorem udp_close (connected : δ → Bool) (P : Ports ε δ) (w : UdpWorld δ) (buf : List Byte)
    (hconn : connected w.dev = true) (hacc : w.out.Accepts) :
    ((udpLink connected P).protoWrite w buf connClose).2.out.sent =
      w.out.sent ++ [htons connClose] := by
  show (udpWrite (connected w.dev) w.out buf connClose).2.sent = _
  rw [udpWrite, if_pos hconn, udpWriteLoop_sent _ _ hacc]
  exact congrArg (fun dgram => w.out.sent ++ [dgram]) (wire_ctl .connClose buf)

end Udp

/-! ### lfd_linker -/

/-- **The other end is told about the close**, over TCP if and only if no handler of
SIGTERM, SIGINT or SIGHUP has run by then; so it is never told when one of these
signals has ended the loop.  Over UDP it is always told. -/
theorem conn_close_told {ε σ δ : Type} (S : Session ε σ) (P : Ports ε δ) (natHack : Bool)
    (n : ℕ) :
    (∀ (stale : δ → Byte) (which : δ → Sig) (s s' : Linker σ (TcpWorld δ)),
      linkerLoop S (tcpLink stale which P) natHack TcpWorld.termZero n s = some s' →
      NoFail s'.io.out.sched →
      ∃ e, lfdLinker S (tcpLink stale which P) natHack TcpWorld.termZero n s = some e ∧
        (e.io.out.sent = s'.io.out.sent ++ htons connClose ↔
          s'.io.canceled = false ∧ struck s'.io.out.sched 2 2 = none) ∧
        (s'.io.term.isSome = true → e.io.out.sent ≠ s'.io.out.sent ++ htons connClose)) ∧
    ∀ (connected : δ → Bool) (s s' : Linker σ (UdpWorld δ)),
      linkerLoop S (udpLink connected P) natHack UdpWorld.termZero n s = some s' →
      connected s'.io.dev = true → s'.io.out.Accepts →
      ∃ e, lfdLinker S (udpLink connected P) natHack UdpWorld.termZero n s = some e ∧
        e.io.out.sent = s'.io.out.sent ++ [htons connClose] := by
  refine ⟨?_, ?_⟩
  · intro stale which s s' hloop hfail
    have hiff := tcp_close_iff stale which P s'.io s'.buf hfail
    refine ⟨_, by rw [lfdLinker, hloop, Option.map_some], hiff, fun hterm htold => ?_⟩
    have hcancel := tcpLink_term.linkerLoop (fun w h => absurd h (by simp [TcpWorld.termZero]))
      hloop hterm
    rw [(hiff.mp htold).1] at hcancel
    exact absurd hcancel (by simp)
  · intro connected s s' hloop hconn hacc
    exact ⟨_, by rw [lfdLinker, hloop, Option.map_some],
      udp_close connected P s'.io s'.buf hconn hacc⟩

/-- A device that is at its end when it is read, in a world with or without a SIGTERM
that comes in `select`. -/
def closingPorts (sigterm : Bool) : Ports Unit Bool where
  select _ := (if sigterm then .failed true else .ready false true, sigterm)
  protoRead d buf := (0, buf, d)
  protoWrite d _ _ := (0, d)
  devRead d := (.data [], d)
  devWrite d _ := (.done, d)
  modEnv d := ((), d)
  alarm d := (false, d)
  term d := if d then some .term else none

/-- A session without modules on a TCP connection. -/
def tcpStart : Linker Unit (TcpWorld Bool) :=
  ⟨[], 0, false, (), ⟨⟨[], [], false⟩, ⟨[], [], false⟩, false, none, false⟩, []⟩

/-- The linker over TCP in such a world. -/
def closingTcp (sigterm : Bool) : Ports Unit (TcpWorld Bool) :=
  tcpLink (fun _ => 0) (fun _ => .term) (closingPorts sigterm)

/-- The end of the device is told to the other side. -/
theorem conn_close_told_eof :
    (lfdLinker bareSession (closingTcp false) false TcpWorld.termZero 2 tcpStart).map
      (·.io.out.sent) = some (htons echoReq ++ htons connClose) := by
  have hloop : linkerLoop bareSession (closingTcp false) false TcpWorld.termZero 2 tcpStart =
      some ⟨[], 0, false, (), ⟨⟨[], [], false⟩, ⟨htons echoReq, [], false⟩, false, none, false⟩,
        [.proto [] echoReq]⟩ := rfl
  obtain ⟨e, he, hiff, -⟩ := (conn_close_told bareSession (closingPorts false) false 2).1
    (fun _ => 0) (fun _ => .term) tcpStart _ hloop (by simp [NoFail])
  have hsent := hiff.mpr ⟨rfl, rfl⟩
  rw [closingTcp, he]
  exact congrArg some hsent

/-- A SIGTERM is not. -/
theorem conn_close_lost :
    (lfdLinker bareSession (closingTcp true) false TcpWorld.termZero 2 tcpStart).map
      (·.io.out.sent) = some (htons echoReq) := by
  decide

end Vtun
