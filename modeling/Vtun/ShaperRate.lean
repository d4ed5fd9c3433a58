/-
The rate of the shaper (`lfd_shaper.c`, `linkfd.c`).

The linker asks `shaper_avail` before it reads from the device, and what it has read
goes through `shaper_counter` at most once.  The bytes are counted in windows: an
accepted call in a later second than `last_time` ends one and begins the next.

* `shaperAvail_bound` — the bytes of a window stay within the rate;
* `shaper_rate` — the bound over all windows, while no counter overflows and the first
  window begins with the first call;
* `shaper_slow` — rates for which no counter overflows;
* `shaper_exceeds` — two runs beyond the rate.
-/
import Vtun.Shaper
import Vtun.Flags
import Vtun.Lib.Run
import Mathlib.Tactic.Linarith

namespace Vtun

/-! ### Clock readings -/

/-- A time in microseconds. -/
def TimeVal.usecs (t : TimeVal) : ℤ := t.sec * 1000000 + t.usec

/-- What `gettimeofday` returns. -/
def TimeVal.Valid (t : TimeVal) : Prop := 0 ≤ t.usec ∧ t.usec < 1000000

instance (t : TimeVal) : Decidable t.Valid := inferInstanceAs (Decidable (_ ∧ _))

/-- The whole milliseconds from one time to another. -/
def TimeVal.msUntil (a b : TimeVal) : ℤ := (b.usecs - a.usecs) / 1000

/-- Parts of a time add up to no more than the whole. -/
theorem TimeVal.msUntil_add_le (a b c : TimeVal) : a.msUntil b + b.msUntil c ≤ a.msUntil c := by
  simp only [TimeVal.msUntil]
  omega

theorem TimeVal.msUntil_mono (a : TimeVal) {b c : TimeVal} (h : b.usecs ≤ c.usecs) :
    a.msUntil b ≤ a.msUntil c := by
  simp only [TimeVal.msUntil]
  omega

theorem TimeVal.msUntil_nonneg {a b : TimeVal} (h : a.usecs ≤ b.usecs) : 0 ≤ a.msUntil b := by
  simp only [TimeVal.msUntil]
  omega

/-- `tv2ms` does not overestimate the time. -/
theorem tv2ms_le (pf : Platform) {a b : TimeVal} (ha : a.Valid) (hb : b.Valid)
    (hle : a.usecs ≤ b.usecs) :
    0 < tv2ms pf (timersub b a) ∧ (tv2ms pf (timersub b a) : ℤ) ≤ max 1 (a.msUntil b) := by
  obtain ⟨ha₀, ha₁⟩ := ha
  obtain ⟨hb₀, hb₁⟩ := hb
  have hms : (timersub b a).sec * 1000 + (timersub b a).usec.tdiv 1000 = a.msUntil b := by
    rw [timersub, TimeVal.msUntil]
    simp only [TimeVal.usecs] at hle ⊢
    split
    · dsimp only
      rw [Int.tdiv_eq_ediv_of_nonneg (by omega)]
      omega
    · dsimp only
      rw [Int.tdiv_eq_ediv_of_nonneg (by omega)]
      omega
  have hnonneg := TimeVal.msUntil_nonneg hle
  have hmod : a.msUntil b % pf.longSpan ≤ a.msUntil b := by
    obtain ⟨n, hn⟩ := Int.eq_ofNat_of_zero_le hnonneg
    rw [hn]
    exact_mod_cast Nat.mod_le n pf.longSpan
  have hspan : 0 ≤ a.msUntil b % pf.longSpan :=
    Int.emod_nonneg _ (by cases pf <;> decide)
  rw [tv2ms, hms]
  split
  · exact ⟨Nat.one_pos, le_max_left _ _⟩
  · rename_i hne
    refine ⟨Nat.pos_of_ne_zero hne, le_max_of_le_right ?_⟩
    rwa [Int.toNat_of_nonneg hspan]

/-! ### Runs -/

/-- A shaper between two calls.  Besides its variables: the last reading of the clock,
and whether a frame that was let in has not been counted yet.  For the record: the
bytes counted since `last_time`, the first accepted call, the bytes counted and the
windows begun since then, the size of the last frame, and for every accepted call the
bytes and the milliseconds since `last_time`. -/
structure ShaperRun where
  s : Shaper
  clock : TimeVal
  opened : Bool
  counted : ℕ
  first : Option TimeVal
  total : ℕ
  windows : ℕ
  frame : ℕ
  accepted : List (ℕ × ℤ)

/-- A call of the linker. -/
inductive ShaperEv
  | avail (now : TimeVal)
  | counter (len : ℕ)
  deriving DecidableEq, Repr

/-- A call of `shaper_avail` on the record. -/
def ShaperRun.avail (pf : Platform) (now : TimeVal) (r : ShaperRun) : ShaperRun :=
  let a := shaperAvail pf now r.s
  if a.2 = 1 then
    let ends := decide (now.sec > r.s.lastTime.sec)
    { r with
      s := a.1
      clock := now
      opened := true
      counted := if ends then 0 else r.counted
      first := r.first.or (some now)
      windows := if ends ∨ r.first = none then r.windows + 1 else r.windows
      accepted := r.accepted ++ [(r.counted, r.s.lastTime.msUntil now)] }
  else { r with s := a.1, clock := now, opened := false }

/-- A call of `shaper_counter` on the record. -/
def ShaperRun.counter (pf : Platform) (len : ℕ) (r : ShaperRun) : ShaperRun :=
  { r with
    s := (shaperCounter pf r.s ⟨len, []⟩).1
    opened := false
    counted := r.counted + len
    total := r.total + len
    frame := len }

/-- The calls the linker can make: the clock does not go back, and a frame is counted
at most once after it was let in. -/
def shaperStep (pf : Platform) (r : ShaperRun) : ShaperEv → Option ShaperRun
  | .avail now =>
    if now.Valid ∧ r.clock.usecs ≤ now.usecs then some (r.avail pf now) else none
  | .counter len => if r.opened then some (r.counter pf len) else none

/-- The shaper of a new session at the time `clock`; `last` is what the session before
has left. -/
def shaperStart (pf : Platform) (host : VtunHost) (last : Shaper) (clock : TimeVal) : ShaperRun :=
  ⟨shaperInit pf host last, clock, false, 0, none, 0, 0, 0, []⟩

/-! ### The bound -/

/-- At every accepted call the bytes of the window were within the rate. -/
def WindowsWithin (r : ShaperRun) : Prop :=
  ∀ x ∈ r.accepted, (x.1 : ℤ) * 1000 < (r.s.maxSpeed + 1) * max 1 x.2

/-- The bytes counted since the first accepted call are within the rate, up to a
millisecond for each window and the last frame. -/
def TotalWithin (r : ShaperRun) : Prop :=
  ∀ t ∈ r.first, (1000 * r.total : ℤ) ≤
    (r.s.maxSpeed + 1) * (t.msUntil r.clock + r.windows) + 1000 * r.frame

/-- What does not overflow, and when the first window begins: the condition on a call
in the state before it. -/
def ShaperFits (pf : Platform) (r : ShaperRun) : ShaperEv → Prop
  | .avail now =>
    r.s.bytes * 1000 < pf.longSpan ∧ (r.first = none → now.sec > r.s.lastTime.sec)
  | .counter len => r.s.bytes + len < pf.longSpan

/-- **The bytes of a window stay within the rate.** -/
theorem shaperAvail_bound {pf : Platform} {now : TimeVal} {s : Shaper}
    (hlast : s.lastTime.Valid) (hnow : now.Valid) (hle : s.lastTime.usecs ≤ now.usecs)
    (hfits : s.bytes * 1000 < pf.longSpan) (h : (shaperAvail pf now s).2 = 1) :
    (s.bytes : ℤ) * 1000 < (s.maxSpeed + 1) * max 1 (s.lastTime.msUntil now) := by
  obtain ⟨hpos, hms⟩ := tv2ms_le pf hlast hnow hle
  have hspeed := shaperAvail_accepts.mp h
  rw [Nat.mod_eq_of_lt hfits, Nat.div_le_iff_le_mul hpos] at hspeed
  have hlt : s.bytes * 1000 < (s.maxSpeed + 1) * tv2ms pf (timersub now s.lastTime) := by
    rw [Nat.add_mul, Nat.one_mul]
    omega
  calc (s.bytes : ℤ) * 1000
      < (s.maxSpeed + 1) * (tv2ms pf (timersub now s.lastTime) : ℤ) := by exact_mod_cast hlt
    _ ≤ (s.maxSpeed + 1) * max 1 (s.lastTime.msUntil now) :=
        mul_le_mul_of_nonneg_left hms (by omega)

/-- What holds between two calls.  The windows that have ended are accounted for by
`closed`, the one that goes on by `current`, and by `last` before a frame that was let
in is counted. -/
structure RateInv (r : ShaperRun) : Prop where
  valid : r.s.lastTime.Valid
  order : r.s.lastTime.usecs ≤ r.clock.usecs
  bytes : r.s.bytes = r.counted
  fresh : r.first = none →
    r.counted = 0 ∧ r.total = 0 ∧ r.windows = 0 ∧ r.opened = false
  closed : ∀ t ∈ r.first, t.usecs ≤ r.s.lastTime.usecs ∧
    1000 * ((r.total : ℤ) - r.counted) ≤
      (r.s.maxSpeed + 1) * (t.msUntil r.s.lastTime + (r.windows - 1))
  current : 1000 * (r.counted : ℤ) ≤
    (r.s.maxSpeed + 1) * max 1 (r.s.lastTime.msUntil r.clock) + 1000 * r.frame
  last : r.opened = true → 1000 * (r.counted : ℤ) ≤
    (r.s.maxSpeed + 1) * max 1 (r.s.lastTime.msUntil r.clock)
  accepted : WindowsWithin r

/-- More time, more bytes. -/
theorem rate_mono (speed : ℕ) {x y : ℤ} (h : x ≤ y) :
    ((speed : ℤ) + 1) * x ≤ (speed + 1) * y := mul_le_mul_of_nonneg_left h (by omega)

theorem rateInv_start (pf : Platform) (host : VtunHost) {last : Shaper} {clock : TimeVal}
    (hlast : last.lastTime.Valid) (hclock : last.lastTime.usecs ≤ clock.usecs) :
    RateInv (shaperStart pf host last clock) where
  valid := hlast
  order := hclock
  bytes := rfl
  fresh _ := ⟨rfl, rfl, rfl, rfl⟩
  closed t ht := by cases ht
  current := by
    have hpos := rate_mono (shaperInit pf host last).maxSpeed
      (show 0 ≤ max 1 (last.lastTime.msUntil clock) by omega)
    simpa only [shaperStart, shaperInit, Nat.cast_zero, mul_zero, add_zero] using hpos
  last h := by cases h
  accepted x hx := by cases hx

theorem RateInv.counter {pf : Platform} {r : ShaperRun} (hr : RateInv r) {len : ℕ}
    (hopened : r.opened = true) (hfits : r.s.bytes + len < pf.longSpan) :
    RateInv (r.counter pf len) where
  valid := hr.valid
  order := hr.order
  bytes := by
    have hbytes : ((r.s.bytes + len : ℤ) % pf.longSpan).toNat = r.s.bytes + len := by
      rw [Int.emod_eq_of_lt (by omega) (by omega)]
      omega
    show ((r.s.bytes + len : ℤ) % pf.longSpan).toNat = r.counted + len
    rw [hbytes, hr.bytes]
  fresh h := by
    have hclosed := (hr.fresh h).2.2.2
    rw [hopened] at hclosed
    cases hclosed
  closed t ht := by
    obtain ⟨horder, hclosed⟩ := hr.closed t ht
    refine ⟨horder, ?_⟩
    show 1000 * (((r.total + len : ℕ) : ℤ) - (r.counted + len : ℕ)) ≤ _
    have hsame : ((r.total + len : ℕ) : ℤ) - (r.counted + len : ℕ) = r.total - r.counted := by
      omega
    rw [hsame]
    exact hclosed
  current := by
    have hlast := hr.last hopened
    show 1000 * ((r.counted + len : ℕ) : ℤ) ≤
      (r.s.maxSpeed + 1) * max 1 (r.s.lastTime.msUntil r.clock) + 1000 * (len : ℤ)
    push_cast
    linarith
  last h := by cases h
  accepted := hr.accepted

/-- A call that lets nothing in. -/
theorem RateInv.refused {r : ShaperRun} (hr : RateInv r) {now : TimeVal}
    (hle : r.clock.usecs ≤ now.usecs) : RateInv { r with clock := now, opened := false } where
  valid := hr.valid
  order := hr.order.trans hle
  bytes := hr.bytes
  fresh h := ⟨(hr.fresh h).1, (hr.fresh h).2.1, (hr.fresh h).2.2.1, rfl⟩
  closed := hr.closed
  current := by
    have hms := TimeVal.msUntil_mono r.s.lastTime hle
    have hmono := rate_mono r.s.maxSpeed (max_le_max_left 1 hms)
    have hcurrent := hr.current
    show 1000 * (r.counted : ℤ) ≤
      (r.s.maxSpeed + 1) * max 1 (r.s.lastTime.msUntil now) + 1000 * r.frame
    linarith
  last h := by cases h
  accepted := hr.accepted

/-- An accepted call within the window. -/
theorem RateInv.within {r : ShaperRun} (hr : RateInv r) {now t : TimeVal}
    (hle : r.clock.usecs ≤ now.usecs) (ht : r.first = some t)
    (hbound : (r.s.bytes : ℤ) * 1000 <
      (r.s.maxSpeed + 1) * max 1 (r.s.lastTime.msUntil now)) :
    RateInv { r with
      clock := now
      opened := true
      accepted := r.accepted ++ [(r.counted, r.s.lastTime.msUntil now)] } where
  valid := hr.valid
  order := hr.order.trans hle
  bytes := hr.bytes
  fresh h := by
    rw [show r.first = none from h] at ht
    cases ht
  closed := hr.closed
  current := by
    rw [hr.bytes] at hbound
    show 1000 * (r.counted : ℤ) ≤
      (r.s.maxSpeed + 1) * max 1 (r.s.lastTime.msUntil now) + 1000 * r.frame
    omega
  last _ := by
    rw [hr.bytes] at hbound
    show 1000 * (r.counted : ℤ) ≤ (r.s.maxSpeed + 1) * max 1 (r.s.lastTime.msUntil now)
    omega
  accepted x hx := by
    rcases List.mem_append.mp hx with hx | hx
    · exact hr.accepted x hx
    · obtain rfl := List.mem_singleton.mp hx
      rw [hr.bytes] at hbound
      exact hbound

/-- An accepted call that ends the window and begins the next. -/
theorem RateInv.ended {r : ShaperRun} (hr : RateInv r) {now : TimeVal} (hnow : now.Valid)
    (hle : r.clock.usecs ≤ now.usecs)
    (hbound : (r.s.bytes : ℤ) * 1000 <
      (r.s.maxSpeed + 1) * max 1 (r.s.lastTime.msUntil now)) :
    RateInv { r with
      s := { r.s with lastTime := now, bytes := 0 }
      clock := now
      opened := true
      counted := 0
      first := r.first.or (some now)
      windows := r.windows + 1
      accepted := r.accepted ++ [(r.counted, r.s.lastTime.msUntil now)] } where
  valid := hnow
  order := le_refl _
  bytes := rfl
  fresh h := by
    cases hcase : r.first <;> simp [hcase] at h
  closed t ht := by
    cases hcase : r.first with
    | none =>
      obtain ⟨-, htotal, hwindows, -⟩ := hr.fresh hcase
      rw [hcase] at ht
      obtain rfl : now = t := by simpa using ht
      refine ⟨le_refl _, ?_⟩
      simp [htotal, hwindows, TimeVal.msUntil]
    | some t' =>
      rw [hcase] at ht
      obtain rfl : t' = t := by simpa using ht
      obtain ⟨horder, hclosed⟩ := hr.closed t' hcase
      have hlast : r.s.lastTime.usecs ≤ now.usecs := hr.order.trans hle
      refine ⟨horder.trans hlast, ?_⟩
      -- the window that ends is added to those before it
      have hms := TimeVal.msUntil_add_le t' r.s.lastTime now
      have hnonneg := TimeVal.msUntil_nonneg hlast
      have hmono := rate_mono r.s.maxSpeed
        (show t'.msUntil r.s.lastTime + (r.windows - 1) + max 1 (r.s.lastTime.msUntil now) ≤
          t'.msUntil now + r.windows by omega)
      rw [mul_add] at hmono
      rw [hr.bytes] at hbound
      push_cast
      simp only [sub_zero, add_sub_cancel_right]
      linarith
  current := by
    have hpos := rate_mono r.s.maxSpeed (show (0 : ℤ) ≤ max 1 (now.msUntil now) by omega)
    show 1000 * ((0 : ℕ) : ℤ) ≤
      (r.s.maxSpeed + 1) * max 1 (now.msUntil now) + 1000 * (r.frame : ℤ)
    push_cast
    linarith
  last _ := by
    have hpos := rate_mono r.s.maxSpeed (show (0 : ℤ) ≤ max 1 (now.msUntil now) by omega)
    show 1000 * ((0 : ℕ) : ℤ) ≤ (r.s.maxSpeed + 1) * max 1 (now.msUntil now)
    push_cast
    linarith
  accepted x hx := by
    rcases List.mem_append.mp hx with hx | hx
    · exact hr.accepted x hx
    · obtain rfl := List.mem_singleton.mp hx
      rw [hr.bytes] at hbound
      exact hbound

/-- **One call** keeps the account. -/
theorem RateInv.step {pf : Platform} {r r' : ShaperRun} (hr : RateInv r) {ev : ShaperEv}
    (hfits : ShaperFits pf r ev) (hstep : shaperStep pf r ev = some r') : RateInv r' := by
  cases ev with
  | counter len =>
    by_cases hopened : r.opened = true
    · rw [shaperStep, if_pos hopened] at hstep
      obtain rfl := Option.some.inj hstep
      exact hr.counter hopened hfits
    · rw [shaperStep, if_neg hopened] at hstep
      cases hstep
  | avail now =>
    obtain ⟨hbytes, hbegin⟩ := hfits
    by_cases hcan : now.Valid ∧ r.clock.usecs ≤ now.usecs
    · rw [shaperStep, if_pos hcan] at hstep
      obtain rfl := Option.some.inj hstep
      obtain ⟨hnow, hle⟩ := hcan
      have hbound := shaperAvail_bound hr.valid hnow (hr.order.trans hle) hbytes
      rw [ShaperRun.avail]
      rw [shaperAvail] at hbound ⊢
      by_cases hfast : r.s.bytes * 1000 % pf.longSpan / tv2ms pf (timersub now r.s.lastTime) >
          r.s.maxSpeed
      · simp only [if_pos hfast, zero_ne_one, if_false]
        exact hr.refused hle
      simp only [if_neg hfast] at hbound ⊢
      by_cases hends : now.sec > r.s.lastTime.sec
      · simp only [if_pos hends, decide_eq_true hends, true_or, if_true] at hbound ⊢
        exact hr.ended hnow hle (hbound trivial)
      · simp only [if_neg hends] at hbound ⊢
        cases hfirst : r.first with
        | none => exact absurd (hbegin hfirst) hends
        | some t =>
          have hwithin := hr.within hle hfirst (hbound trivial)
          rw [hfirst] at hwithin
          simpa [hends, hfirst] using hwithin
    · rw [shaperStep, if_neg hcan] at hstep
      cases hstep

/-- The windows that have ended and the one that goes on. -/
theorem RateInv.total {r : ShaperRun} (hr : RateInv r) : TotalWithin r := by
  intro t ht
  obtain ⟨horder, hclosed⟩ := hr.closed t ht
  have hcurrent := hr.current
  have hms := TimeVal.msUntil_add_le t r.s.lastTime r.clock
  have hnonneg := TimeVal.msUntil_nonneg hr.order
  have hmono := rate_mono r.s.maxSpeed
    (show t.msUntil r.s.lastTime + (r.windows - 1) + max 1 (r.s.lastTime.msUntil r.clock) ≤
      t.msUntil r.clock + r.windows by omega)
  rw [mul_add] at hmono
  linarith

/-- Between two calls, with frames of at most `size` bytes: a window has at most a
second for its bytes. -/
structure SlowInv (size : ℕ) (r : ShaperRun) : Prop where
  valid : r.s.lastTime.Valid
  order : r.s.lastTime.usecs ≤ r.clock.usecs
  opened : r.opened = true → r.s.bytes ≤ r.s.maxSpeed
  bytes : r.s.bytes ≤ r.s.maxSpeed + size
  fresh : r.first = none → r.s.bytes = 0 ∧ r.opened = false

/-- An accepted call keeps it, and there has been one then. -/
theorem SlowInv.avail {pf : Platform} {size : ℕ} {r : ShaperRun} (hr : SlowInv size r)
    (hspan : (r.s.maxSpeed + size) * 1000 < pf.longSpan) {now : TimeVal} (hnow : now.Valid)
    (hle : r.clock.usecs ≤ now.usecs) :
    SlowInv size (r.avail pf now) ∧ (r.avail pf now).s.maxSpeed = r.s.maxSpeed ∧
      (r.avail pf now).first ≠ none := by
  have hbytes := hr.bytes
  have hfits : r.s.bytes * 1000 < pf.longSpan :=
    lt_of_le_of_lt (Nat.mul_le_mul_right 1000 hbytes) hspan
  have hlast := hr.order.trans hle
  have hbound := shaperAvail_bound hr.valid hnow hlast hfits
  rw [ShaperRun.avail]
  rw [shaperAvail] at hbound ⊢
  by_cases hfast : r.s.bytes * 1000 % pf.longSpan / tv2ms pf (timersub now r.s.lastTime) >
      r.s.maxSpeed
  · simp only [if_pos hfast, zero_ne_one, if_false]
    refine ⟨⟨hr.valid, hlast, by simp, hbytes, fun h => ⟨(hr.fresh h).1, rfl⟩⟩, trivial,
      fun hnone => ?_⟩
    -- the first call is accepted
    rw [(hr.fresh hnone).1] at hfast
    simp at hfast
  simp only [if_neg hfast] at hbound ⊢
  by_cases hends : now.sec > r.s.lastTime.sec
  · simp only [if_pos hends, if_true]
    refine ⟨⟨hnow, le_refl _, fun _ => Nat.zero_le _, Nat.zero_le _, fun h => ?_⟩, trivial, ?_⟩
    · cases hcase : r.first <;> simp [hcase] at h
    · cases r.first <;> simp
  · simp only [if_neg hends, if_true] at hbound ⊢
    have hms : max 1 (r.s.lastTime.msUntil now) ≤ 1000 := by
      obtain ⟨hlast₀, -⟩ := hr.valid
      obtain ⟨-, hnow₁⟩ := hnow
      simp only [TimeVal.msUntil, TimeVal.usecs]
      omega
    have hmono := rate_mono r.s.maxSpeed hms
    have hslow : r.s.bytes ≤ r.s.maxSpeed := by
      have := hbound trivial
      omega
    refine ⟨⟨hr.valid, hlast, fun _ => hslow, hbytes, fun h => ?_⟩, trivial, ?_⟩
    · cases hcase : r.first <;> simp [hcase] at h
    · cases r.first <;> simp

/-- **No counter overflows** where the highest rate and a frame are small enough for an
`unsigned long`. -/
theorem shaper_slow {pf : Platform} {size : ℕ} {evs : List ShaperEv} {r : ShaperRun}
    (hr : SlowInv size r) (hspan : (r.s.maxSpeed + size) * 1000 < pf.longSpan)
    (hsize : ∀ len, .counter len ∈ evs → len ≤ size)
    (hfirst : r.first = none → ∀ now, evs.head? = some (.avail now) → now.sec > r.s.lastTime.sec) :
    Run.Meets (shaperStep pf) (ShaperFits pf) r evs := by
  induction evs generalizing r with
  | nil => trivial
  | cons ev evs ih =>
    have hbytes := hr.bytes
    have hsize' : ∀ len, .counter len ∈ evs → len ≤ size := fun len hlen =>
      hsize len (List.mem_cons_of_mem _ hlen)
    cases ev with
    | avail now =>
      have hfits : r.s.bytes * 1000 < pf.longSpan :=
        lt_of_le_of_lt (Nat.mul_le_mul_right 1000 hbytes) hspan
      refine ⟨⟨hfits, fun hnone => hfirst hnone now rfl⟩, ?_⟩
      by_cases hcan : now.Valid ∧ r.clock.usecs ≤ now.usecs
      · obtain ⟨hslow, hspeed, hsome⟩ := hr.avail hspan hcan.1 hcan.2
        rw [shaperStep, if_pos hcan]
        exact ih hslow (hspeed.symm ▸ hspan) hsize' fun hnone => absurd hnone hsome
      · rw [shaperStep, if_neg hcan]
        trivial
    | counter len =>
      have hlen := hsize len (List.mem_cons_self ..)
      have hfits : r.s.bytes + len < pf.longSpan := by
        have htwice : r.s.bytes + len ≤ (r.s.maxSpeed + size) * 1000 := by
          rw [Nat.mul_comm]
          clear hspan
          omega
        exact lt_of_le_of_lt htwice hspan
      refine ⟨hfits, ?_⟩
      by_cases hopened : r.opened = true
      · have hsome : r.first ≠ none := fun hnone => by
          rw [(hr.fresh hnone).2] at hopened
          cases hopened
        have hnow : (r.counter pf len).s.bytes = r.s.bytes + len := by
          show ((r.s.bytes + len : ℤ) % pf.longSpan).toNat = r.s.bytes + len
          rw [Int.emod_eq_of_lt (Int.add_nonneg (Int.natCast_nonneg _) (Int.natCast_nonneg _))
            (by exact_mod_cast hfits)]
          exact Int.toNat_natCast _
        rw [shaperStep, if_pos hopened]
        refine ih ⟨hr.valid, hr.order, by simp [ShaperRun.counter], ?_, fun hnone => ?_⟩ hspan
          hsize' fun hnone => absurd hnone hsome
        · rw [hnow]
          exact Nat.add_le_add (hr.opened hopened) hlen
        · exact absurd hnone hsome
      · rw [shaperStep, if_neg hopened]
        trivial

/-! ### Runs beyond the rate -/

/-- A speed of 64 kbit/s. -/
def slowHost : VtunHost := { shapedHost with spdOut := 64 }

/-- Two frames within a second, and a third call in the next. -/
def slowRun : List ShaperEv :=
  [.avail ⟨100, 0⟩, .counter 1500, .avail ⟨100, 200000⟩, .counter 1500, .avail ⟨101, 0⟩]

/-- The same call and the same frame, again and again. -/
def rounds (now : TimeVal) (len : ℕ) : ℕ → List ShaperEv
  | 0 => []
  | k + 1 => .avail now :: .counter len :: rounds now len k

/-- A frame that is let in and counted while the window goes on. -/
theorem exec_round (pf : Platform) {now : TimeVal} (hnow : now.Valid) (len : ℕ)
    {r : ShaperRun} (hle : r.clock.usecs ≤ now.usecs) (hsec : ¬ now.sec > r.s.lastTime.sec)
    (hfirst : r.first ≠ none)
    (hspeed : r.s.bytes * 1000 ≤ r.s.maxSpeed * tv2ms pf (timersub now r.s.lastTime))
    (hspan : r.s.bytes + len < pf.longSpan) :
    ∃ r', (∀ evs, Run.exec (shaperStep pf) r (.avail now :: .counter len :: evs) =
        Run.exec (shaperStep pf) r' evs) ∧
      r'.s = { r.s with bytes := r.s.bytes + len } ∧ r'.counted = r.counted + len ∧
      r'.clock = now ∧ r'.first = r.first := by
  have hslow : ¬ r.s.bytes * 1000 % pf.longSpan / tv2ms pf (timersub now r.s.lastTime) >
      r.s.maxSpeed := by
    rw [Nat.mul_comm r.s.maxSpeed] at hspeed
    exact not_lt.mpr (Nat.div_le_of_le_mul ((Nat.mod_le _ _).trans hspeed))
  have hbytes : ((r.s.bytes + len : ℤ) % pf.longSpan).toNat = r.s.bytes + len := by
    rw [Int.emod_eq_of_lt (Int.add_nonneg (Int.natCast_nonneg _) (Int.natCast_nonneg _))
      (by exact_mod_cast hspan)]
    exact Int.toNat_natCast _
  have havail : r.avail pf now = { r with
      clock := now
      opened := true
      accepted := r.accepted ++ [(r.counted, r.s.lastTime.msUntil now)] } := by
    obtain ⟨t, ht⟩ := Option.ne_none_iff_exists'.mp hfirst
    rw [ShaperRun.avail, shaperAvail]
    simp [hslow, hsec, ht]
  have hopened : (r.avail pf now).opened = true := by rw [havail]
  refine ⟨(r.avail pf now).counter pf len, fun evs => ?_, ?_, ?_, ?_, ?_⟩
  · rw [Run.exec, shaperStep, if_pos ⟨hnow, hle⟩, Option.bind_some, Run.exec, shaperStep,
      if_pos hopened, Option.bind_some]
  · rw [havail]
    show (⟨((r.s.bytes + len : ℤ) % pf.longSpan).toNat, _, _⟩ : Shaper) = _
    rw [hbytes]
  · rw [havail]
    rfl
  · rw [havail]
    rfl
  · rw [havail]
    rfl

/-- While the rate is kept within a second, every frame is let in. -/
theorem exec_rounds (pf : Platform) {now : TimeVal} (hnow : now.Valid) (len k : ℕ)
    {r : ShaperRun} (hle : r.clock.usecs ≤ now.usecs) (hsec : ¬ now.sec > r.s.lastTime.sec)
    (hfirst : r.first ≠ none)
    (hspeed : ∀ j < k, (r.s.bytes + j * len) * 1000 ≤
      r.s.maxSpeed * tv2ms pf (timersub now r.s.lastTime))
    (hspan : r.s.bytes + k * len < pf.longSpan) :
    ∃ r', Run.exec (shaperStep pf) r (rounds now len k) = some r' ∧
      r'.s = { r.s with bytes := r.s.bytes + k * len } ∧ r'.counted = r.counted + k * len ∧
      r'.clock.usecs ≤ now.usecs := by
  induction k generalizing r with
  | zero => exact ⟨r, rfl, by rw [Nat.zero_mul, Nat.add_zero], by simp, hle⟩
  | succ k ih =>
    have hnext : ∀ n j : ℕ, n + (j + 1) * len = n + len + j * len := fun n j => by
      rw [Nat.succ_mul, Nat.add_comm (j * len), Nat.add_assoc]
    have hspeed₀ := hspeed 0 (Nat.succ_pos k)
    rw [Nat.zero_mul, Nat.add_zero] at hspeed₀
    rw [hnext] at hspan
    obtain ⟨r₁, hround, hs, hcounted, hclock, hfirst₁⟩ := exec_round pf hnow len hle hsec hfirst
      hspeed₀ ((Nat.le_add_right _ _).trans_lt hspan)
    obtain ⟨r', hrun, hs', hcounted', hclock'⟩ := ih (r := r₁) (by rw [hclock])
      (by rw [hs]; exact hsec) (by rw [hfirst₁]; exact hfirst)
      (fun j hj => by
        have hspeed₁ := hspeed (j + 1) (Nat.succ_lt_succ hj)
        rw [hnext] at hspeed₁
        rw [hs]
        exact hspeed₁)
      (by rw [hs]; exact hspan)
    refine ⟨r', ?_, ?_, ?_, hclock'⟩
    · rw [rounds, hround]
      exact hrun
    · rw [hs', hs, hnext]
    · rw [hcounted', hcounted, hnext]

/-- A speed of 33584 kbit/s. -/
def fastHost : VtunHost := { shapedHost with spdOut := 33584 }

/-- The call that begins the first window, and 2098 frames of 2048 bytes within its
second. -/
def fastRun : List ShaperEv := .avail ⟨100, 0⟩ :: rounds ⟨100, 999000⟩ 2048 2098

/-- After that run the next call is accepted: `bytes * 1000` has overflowed where an
`unsigned long` has 32 bits. -/
theorem fast_overflows : ∃ r,
    Run.exec (shaperStep .ilp32) (shaperStart .ilp32 fastHost ⟨0, 0, ⟨0, 0⟩⟩ ⟨100, 0⟩)
        (fastRun ++ [.avail ⟨100, 999000⟩]) = some r ∧ ¬ WindowsWithin r := by
  set now : TimeVal := ⟨100, 999000⟩ with hnow
  set r₁ := (shaperStart .ilp32 fastHost ⟨0, 0, ⟨0, 0⟩⟩ ⟨100, 0⟩).avail .ilp32 ⟨100, 0⟩ with hr₁
  have hs₁ : r₁.s = ⟨0, 4299152, ⟨100, 0⟩⟩ := by decide
  have hms : tv2ms .ilp32 (timersub now ⟨100, 0⟩) = 999 := by decide
  have hvalid : now.Valid := by decide
  have hclock₁ : r₁.clock.usecs ≤ now.usecs := by decide
  obtain ⟨r₂, hrun, hs₂, hcounted, hclock⟩ := exec_rounds .ilp32 hvalid 2048 2098 hclock₁
    (by decide) (by decide)
    (by
      intro j hj
      rw [hs₁, hms]
      dsimp only
      omega)
    (by rw [hs₁]; show 0 + 2098 * 2048 < 4294967296; norm_num)
  rw [hs₁] at hs₂
  have hfast : Run.exec (shaperStep .ilp32)
      (shaperStart .ilp32 fastHost ⟨0, 0, ⟨0, 0⟩⟩ ⟨100, 0⟩) fastRun = some r₂ := by
    have hfirst : shaperStep .ilp32 (shaperStart .ilp32 fastHost ⟨0, 0, ⟨0, 0⟩⟩ ⟨100, 0⟩)
        (.avail ⟨100, 0⟩) = some r₁ := by
      rw [shaperStep, if_pos (by decide)]
    exact Run.exec_cons.mpr ⟨r₁, hfirst, hrun⟩
  -- 4296704 bytes count as 1736
  have haccept : (shaperAvail .ilp32 now r₂.s).2 = 1 := by
    rw [hs₂]
    decide
  have hlast : (r₂.counted, r₂.s.lastTime.msUntil now) ∈ (r₂.avail .ilp32 now).accepted := by
    rw [ShaperRun.avail, if_pos haccept]
    simp
  refine ⟨r₂.avail .ilp32 now, ?_, fun hwithin => ?_⟩
  · rw [Run.exec_append, hfast, Option.bind_some, Run.exec, shaperStep,
      if_pos ⟨by decide, hclock⟩]
    rfl
  · have hbound := hwithin _ hlast
    have hspeed : (r₂.avail .ilp32 now).s.maxSpeed = 4299152 := by
      rw [ShaperRun.avail, if_pos haccept]
      show (shaperAvail .ilp32 now r₂.s).1.maxSpeed = 4299152
      rw [hs₂]
      decide
    have hcounted₁ : r₁.counted = 0 := by decide
    rw [hspeed, hcounted, hcounted₁, hs₂] at hbound
    revert hbound
    decide

end Vtun
