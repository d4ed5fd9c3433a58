/-
The traffic shaper (`lfd_shaper.c`).

The shaper has no decoder, and its encoder only counts the bytes of the frames;
what it shapes with is the question whether it takes another frame from the
device.  Its counters are `unsigned long`s.

* `shaperAvail_accepts` — a frame is taken when the bytes counted since the last
  second that was begun are within the rate.
-/
import Vtun.CString
import Vtun.Linker

namespace Vtun

/-- The number of values of an `unsigned long`. -/
def Platform.longSpan (pf : Platform) : ℕ := 2 * (pf.longMax.toNat + 1)

/-- `struct timeval`. -/
structure TimeVal where
  sec : ℤ
  usec : ℤ
  deriving DecidableEq, Repr

/-- `timersub`. -/
def timersub (a b : TimeVal) : TimeVal :=
  let sec := a.sec - b.sec
  let usec := a.usec - b.usec
  if usec < 0 then ⟨sec - 1, usec + 1000000⟩ else ⟨sec, usec⟩

/-- `tv2ms`, which never returns zero. -/
def tv2ms (pf : Platform) (tv : TimeVal) : ℕ :=
  let ms := ((tv.sec * 1000 + tv.usec.tdiv 1000) % pf.longSpan).toNat
  if ms = 0 then 1 else ms

/-- The static variables `bytes`, `max_speed` and `last_time`. -/
structure Shaper where
  bytes : ℕ
  maxSpeed : ℕ
  lastTime : TimeVal
  deriving DecidableEq, Repr

/-- `shaper_init`, which leaves `last_time` as it is. -/
def shaperInit (pf : Platform) (host : VtunHost) (s : Shaper) : Shaper :=
  { s with
    maxSpeed := ((host.spdOut.toInt.tdiv 8 * 1024 + 400) % pf.longSpan).toNat
    bytes := 0 }

/-- `shaper_counter`. -/
def shaperCounter (pf : Platform) (s : Shaper) (f : Span) : Shaper × Span :=
  ({ s with bytes := ((s.bytes + f.len) % pf.longSpan).toNat }, f)

/-- `shaper_avail`, at the time `now`. -/
def shaperAvail (pf : Platform) (now : TimeVal) (s : Shaper) : Shaper × ℤ :=
  let speed := s.bytes * 1000 % pf.longSpan / tv2ms pf (timersub now s.lastTime)
  if speed > s.maxSpeed then (s, 0)
  else if now.sec > s.lastTime.sec then ({ s with lastTime := now, bytes := 0 }, 1)
  else (s, 1)

/-- The module structure `lfd_shaper`; `now` is the clock. -/
def lfdShaper {ε : Type} (pf : Platform) (now : ε → TimeVal) : Mod ε Shaper where
  encode := some fun _ s f => shaperCounter pf s f
  availEncode := some fun e s => shaperAvail pf (now e) s
  decode := none
  availDecode := none

theorem shaperAvail_accepts {pf : Platform} {now : TimeVal} {s : Shaper} :
    (shaperAvail pf now s).2 = 1 ↔
      s.bytes * 1000 % pf.longSpan / tv2ms pf (timersub now s.lastTime) ≤ s.maxSpeed := by
  rw [shaperAvail]
  split
  · rename_i hfast
    exact ⟨fun h => absurd h (by simp), fun h => absurd h (by omega)⟩
  · rename_i hslow
    refine ⟨fun _ => by omega, fun _ => ?_⟩
    split <;> rfl

end Vtun
