/-
Exact reads and writes on a descriptor (`lib.h`).

`readN` and `writeN` are the loops `read_n` and `write_n`: they repeat a short
`read` or `write` until `len` bytes are through.  What the kernel and the
signals do is a schedule of `IoEvent`s consumed one per turn of the loop; when
the schedule is used up every further call transfers all it is asked for, so a
finite schedule describes every call that returns.

* `readN_eq` — on a quiet schedule `readN` takes exactly the next `len` bytes
  of the stream, however it is cut into chunks;
* `readN_short` — on a quiet schedule that ends too early it returns `0`;
* `writeN_eq` — on a quiet schedule `writeN` puts exactly its bytes on the
  stream.
-/
import Mathlib.Data.Int.Notation
import Mathlib.Data.List.Basic
import Mathlib.Tactic.Common

namespace Vtun

/-- A `char` of a buffer. -/
abbrev Byte := UInt8

/-- What one turn of `read_n` or `write_n` meets. -/
inductive IoEvent
  /-- at most `n + 1` bytes are transferred -/
  | chunk (n : ℕ)
  /-- the call fails with `EINTR` or `EAGAIN` -/
  | again
  /-- the call fails with another error -/
  | error
  /-- the call returns `0` -/
  | zero
  /-- a signal handler runs `io_cancel` before the loop's test -/
  | cancel
  deriving DecidableEq, Repr

/-- The events after which the loops go on. -/
def IoEvent.quiet : IoEvent → Bool
  | .chunk _ => true
  | .again => true
  | _ => false

/-- A schedule without errors, closings and cancellations. -/
def Quiet (sched : List IoEvent) : Prop := ∀ e ∈ sched, e.quiet = true

instance (sched : List IoEvent) : Decidable (Quiet sched) :=
  inferInstanceAs (Decidable (∀ e ∈ sched, e.quiet = true))

@[simp] theorem quiet_nil : Quiet [] := by simp [Quiet]

@[simp] theorem quiet_cons {e : IoEvent} {sched : List IoEvent} :
    Quiet (e :: sched) ↔ e.quiet = true ∧ Quiet sched := by
  simp [Quiet]

/-- The reading end of a stream: the bytes that arrive before its end, the
schedule of the coming calls and the flag `__io_canceled`. -/
structure Input where
  data : List Byte
  sched : List IoEvent
  canceled : Bool
  deriving DecidableEq, Repr

/-- The writing end of a stream, with the bytes written so far. -/
structure Output where
  sent : List Byte
  sched : List IoEvent
  canceled : Bool
  deriving DecidableEq, Repr

/-- The value of `read_n` and the bytes it stored at `buf`. -/
structure Got where
  ret : ℤ
  bytes : List Byte
  deriving DecidableEq, Repr

/-- The loop of `read_n`; `acc` holds the bytes stored so far. -/
def readLoop : List IoEvent → List Byte → ℕ → List Byte → Got × Input
  | sched, data, 0, acc => (⟨acc.length, acc⟩, ⟨data, sched, false⟩)
  | [], data, len + 1, acc =>
    if len + 1 ≤ data.length then
      (⟨acc.length + (len + 1 : ℕ), acc ++ data.take (len + 1)⟩,
        ⟨data.drop (len + 1), [], false⟩)
    else (⟨0, acc ++ data⟩, ⟨[], [], false⟩)
  | .chunk n :: sched, data, len + 1, acc =>
    -- `w` is what `read` returns: `0` only at the end of the stream
    let w := min (n + 1) (min (len + 1) data.length)
    if w = 0 then (⟨0, acc⟩, ⟨data, sched, false⟩)
    else readLoop sched (data.drop w) (len + 1 - w) (acc ++ data.take w)
  | .again :: sched, data, len + 1, acc => readLoop sched data (len + 1) acc
  | .error :: sched, data, _ + 1, acc => (⟨-1, acc⟩, ⟨data, sched, false⟩)
  | .zero :: sched, data, _ + 1, acc => (⟨0, acc⟩, ⟨data, sched, false⟩)
  -- the test `!__io_canceled` fails, and what is there so far is returned
  | .cancel :: sched, data, _ + 1, acc => (⟨acc.length, acc⟩, ⟨data, sched, true⟩)

/-- `read_n`. -/
def readN (fd : Input) (len : ℕ) : Got × Input :=
  if fd.canceled then (⟨0, []⟩, fd) else readLoop fd.sched fd.data len []

/-- The loop of `write_n`; `t` counts the bytes written so far. -/
def writeLoop : List IoEvent → List Byte → List Byte → ℕ → ℤ × Output
  | sched, sent, [], t => (t, ⟨sent, sched, false⟩)
  | [], sent, buf, t => (t + buf.length, ⟨sent ++ buf, [], false⟩)
  | .chunk n :: sched, sent, b :: buf, t =>
    let w := min (n + 1) (b :: buf).length
    writeLoop sched (sent ++ (b :: buf).take w) ((b :: buf).drop w) (t + w)
  | .again :: sched, sent, b :: buf, t => writeLoop sched sent (b :: buf) t
  | .error :: sched, sent, _ :: _, _ => (-1, ⟨sent, sched, false⟩)
  | .zero :: sched, sent, _ :: _, _ => (0, ⟨sent, sched, false⟩)
  | .cancel :: sched, sent, _ :: _, t => (t, ⟨sent, sched, true⟩)

/-- `write_n`. -/
def writeN (fd : Output) (buf : List Byte) : ℤ × Output :=
  if fd.canceled then (0, fd) else writeLoop fd.sched fd.sent buf 0

/-! ### What the loops do on any schedule -/

/-- `write_n` puts the start of its bytes on the stream. -/
theorem writeLoop_front (sched : List IoEvent) (sent buf : List Byte) (t : ℕ) :
    ∃ front, front <+: buf ∧ (writeLoop sched sent buf t).2.sent = sent ++ front := by
  induction sched generalizing sent buf t with
  | nil =>
    refine ⟨buf, List.prefix_rfl, ?_⟩
    cases buf <;> simp [writeLoop]
  | cons e sched ih =>
    rcases buf with _ | ⟨b, buf⟩
    · exact ⟨[], List.nil_prefix, by cases e <;> simp [writeLoop]⟩
    cases e with
    | chunk n =>
      set w := min (n + 1) (b :: buf).length with hw
      obtain ⟨front, hfront, heq⟩ := ih (sent ++ (b :: buf).take w) ((b :: buf).drop w) (t + w)
      refine ⟨(b :: buf).take w ++ front, ?_, ?_⟩
      · have hboth := (List.prefix_append_right_inj ((b :: buf).take w)).mpr hfront
        rwa [List.take_append_drop] at hboth
      · rw [writeLoop, heq, List.append_assoc]
    | again => exact ih sent (b :: buf) t
    | error => exact ⟨[], List.nil_prefix, by simp [writeLoop]⟩
    | zero => exact ⟨[], List.nil_prefix, by simp [writeLoop]⟩
    | cancel => exact ⟨[], List.nil_prefix, by simp [writeLoop]⟩

/-! ### What the loops do on a quiet schedule -/

/-- **`read_n` takes the next `len` bytes of the stream**, for every way the
stream is cut into `read` calls. -/
theorem readLoop_eq {sched : List IoEvent} (hq : Quiet sched) {data : List Byte} {len : ℕ}
    (hlen : len ≤ data.length) (acc : List Byte) :
    ∃ sched', Quiet sched' ∧ readLoop sched data len acc =
      (⟨(acc.length + len : ℕ), acc ++ data.take len⟩, ⟨data.drop len, sched', false⟩) := by
  -- On the schedule, one event a turn; `len` and `acc` change from turn to turn.
  induction sched generalizing data len acc with
  | nil =>
    cases len with
    | zero => exact ⟨[], hq, by simp [readLoop]⟩
    | succ len => exact ⟨[], hq, by simp [readLoop, hlen]⟩
  | cons e sched ih =>
    obtain ⟨he, hs⟩ := quiet_cons.mp hq
    cases len with
    | zero => exact ⟨e :: sched, hq, by simp [readLoop]⟩
    | succ len =>
      cases e with
      | chunk n =>
        set w := min (n + 1) (min (len + 1) data.length) with hw
        -- The stream is long enough, so `read` does not return `0` here.
        have hw0 : w ≠ 0 := by omega
        have hwlen : w ≤ len + 1 := by omega
        have hrest : len + 1 - w ≤ (data.drop w).length := by rw [List.length_drop]; omega
        obtain ⟨sched', hs', heq⟩ := ih hs hrest (acc ++ data.take w)
        refine ⟨sched', hs', ?_⟩
        rw [readLoop, if_neg hw0, heq, List.drop_drop, List.append_assoc,
          ← List.take_add, List.length_append, List.length_take]
        have hsum : w + (len + 1 - w) = len + 1 := by omega
        have hmin : min w data.length = w := by omega
        rw [hsum, hmin, Nat.add_assoc, hsum]
      | again =>
        obtain ⟨sched', hs', heq⟩ := ih hs hlen acc
        exact ⟨sched', hs', by rw [readLoop, heq]⟩
      | error => simp [IoEvent.quiet] at he
      | zero => simp [IoEvent.quiet] at he
      | cancel => simp [IoEvent.quiet] at he

/-- A stream that ends before `len` bytes makes `read_n` return `0`. -/
theorem readLoop_short {sched : List IoEvent} (hq : Quiet sched) {data : List Byte} {len : ℕ}
    (hlen : data.length < len) (acc : List Byte) :
    (readLoop sched data len acc).1.ret = 0 := by
  induction sched generalizing data len acc with
  | nil =>
    obtain ⟨len, rfl⟩ : ∃ k, len = k + 1 := ⟨len - 1, by omega⟩
    simp [readLoop, show ¬ len + 1 ≤ data.length by omega]
  | cons e sched ih =>
    obtain ⟨he, hs⟩ := quiet_cons.mp hq
    obtain ⟨len, rfl⟩ : ∃ k, len = k + 1 := ⟨len - 1, by omega⟩
    cases e with
    | chunk n =>
      rw [readLoop]
      split
      · rfl
      · exact ih hs (by rw [List.length_drop]; omega) _
    | again => exact ih hs hlen acc
    | error => simp [IoEvent.quiet] at he
    | zero => simp [IoEvent.quiet] at he
    | cancel => simp [IoEvent.quiet] at he

/-- Whatever goes wrong, unless it is cancelled `read_n` returns a positive
number only when it has read all it was asked for. -/
theorem readLoop_pos {sched : List IoEvent} (hc : .cancel ∉ sched) {data : List Byte} {len : ℕ}
    {acc : List Byte} (hpos : 0 < (readLoop sched data len acc).1.ret) :
    len ≤ data.length ∧ (readLoop sched data len acc).1.bytes = acc ++ data.take len ∧
      (readLoop sched data len acc).2.data = data.drop len := by
  induction sched generalizing data len acc with
  | nil =>
    cases len with
    | zero => simp [readLoop]
    | succ len =>
      by_cases hlen : len + 1 ≤ data.length
      · simp [readLoop, hlen]
      · simp [readLoop, hlen] at hpos
  | cons e sched ih =>
    have hs : .cancel ∉ sched := fun h => hc (List.mem_cons_of_mem e h)
    cases len with
    | zero => simp [readLoop]
    | succ len =>
      cases e with
      | chunk n =>
        rw [readLoop] at hpos ⊢
        set w := min (n + 1) (min (len + 1) data.length) with hw
        have hwlen : w ≤ len + 1 := by omega
        have hwdata : w ≤ data.length := by omega
        by_cases hw0 : w = 0
        -- The end of the stream: the loop returns `0`.
        · simp [hw0] at hpos
        · rw [if_neg hw0] at hpos ⊢
          obtain ⟨hlen, hbytes, hdata⟩ := ih hs hpos
          rw [List.length_drop] at hlen
          refine ⟨by omega, ?_, ?_⟩
          · rw [hbytes, List.append_assoc, ← List.take_add, Nat.add_sub_cancel' hwlen]
          · rw [hdata, List.drop_drop, Nat.add_sub_cancel' hwlen]
      | again =>
        rw [readLoop] at hpos ⊢
        exact ih hs hpos
      | error => simp [readLoop] at hpos
      | zero => simp [readLoop] at hpos
      | cancel => simp at hc

/-- **`write_n` puts all its bytes on the stream**, for every sequence of
short writes. -/
theorem writeLoop_eq {sched : List IoEvent} (hq : Quiet sched) (sent buf : List Byte) (t : ℕ) :
    ∃ sched', Quiet sched' ∧
      writeLoop sched sent buf t =
        (((t + buf.length : ℕ) : ℤ), ⟨sent ++ buf, sched', false⟩) := by
  induction sched generalizing sent buf t with
  | nil =>
    cases buf with
    | nil => exact ⟨[], hq, by simp [writeLoop]⟩
    | cons b buf => exact ⟨[], hq, by simp [writeLoop]⟩
  | cons e sched ih =>
    obtain ⟨he, hs⟩ := quiet_cons.mp hq
    cases buf with
    | nil => exact ⟨e :: sched, hq, by simp [writeLoop]⟩
    | cons b buf =>
      cases e with
      | chunk n =>
        set w := min (n + 1) (b :: buf).length with hw
        obtain ⟨sched', hs', heq⟩ :=
          ih hs (sent ++ (b :: buf).take w) ((b :: buf).drop w) (t + w)
        refine ⟨sched', hs', ?_⟩
        rw [writeLoop, heq, List.append_assoc, List.take_append_drop, List.length_drop]
        have hsum : t + w + ((b :: buf).length - w) = t + (b :: buf).length := by omega
        rw [hsum]
      | again =>
        obtain ⟨sched', hs', heq⟩ := ih hs sent (b :: buf) t
        exact ⟨sched', hs', by rw [writeLoop, heq]⟩
      | error => simp [IoEvent.quiet] at he
      | zero => simp [IoEvent.quiet] at he
      | cancel => simp [IoEvent.quiet] at he

/-- The state of a descriptor whose calls meet no failure. -/
def Input.Quiet (fd : Input) : Prop := fd.canceled = false ∧ Vtun.Quiet fd.sched

/-- The state of a descriptor whose calls meet no failure. -/
def Output.Quiet (fd : Output) : Prop := fd.canceled = false ∧ Vtun.Quiet fd.sched

theorem readN_eq {fd : Input} (hq : fd.Quiet) (len : ℕ) (hlen : len ≤ fd.data.length) :
    ∃ fd' : Input, fd'.Quiet ∧ fd'.data = fd.data.drop len ∧
      readN fd len = (⟨len, fd.data.take len⟩, fd') := by
  obtain ⟨sched', hs', heq⟩ := readLoop_eq hq.2 hlen []
  refine ⟨⟨fd.data.drop len, sched', false⟩, ⟨rfl, hs'⟩, rfl, ?_⟩
  rw [readN, hq.1, heq]
  simp

theorem readN_short {fd : Input} (hq : fd.Quiet) {len : ℕ} (hlen : fd.data.length < len) :
    (readN fd len).1.ret = 0 := by
  rw [readN, hq.1]
  exact readLoop_short hq.2 hlen []

theorem writeN_eq {fd : Output} (hq : fd.Quiet) (buf : List Byte) :
    ∃ fd' : Output, fd'.Quiet ∧ fd'.sent = fd.sent ++ buf ∧
      writeN fd buf = ((buf.length : ℤ), fd') := by
  obtain ⟨sched', hs', heq⟩ := writeLoop_eq hq.2 fd.sent buf 0
  refine ⟨⟨fd.sent ++ buf, sched', false⟩, ⟨rfl, hs'⟩, rfl, ?_⟩
  rw [writeN, hq.1]
  simpa using heq

end Vtun
