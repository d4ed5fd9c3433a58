/-
The timers of a session (`linkfd.c`).

`sig_alarm` counts two timers down by the differences of `time()` and arms the alarm
for the one that is next.  The timers are static variables, which outlive a session;
`time_t` is a `long`.

* `countDown_le_iff` — one timer is within its period exactly if the clock has not been
  set back beyond the start of the period;
* `alarmArg_bounds` — what the alarm is armed with;
* `alarms_on_time_iff` — the same over all the sessions of a process;
* `alarm_set_back` — a clock that is set back.
-/
import Vtun.Shaper
import Vtun.Lib.Run

namespace Vtun

/-! ### sig_alarm -/

/-- `VTUN_STAT_IVAL`. -/
def statIval : ℤ := 5 * 60

/-- The value of a `long`, or of a `time_t`. -/
def Platform.long (pf : Platform) (v : ℤ) : ℤ := v.bmod pf.longSpan

/-- The static variables of `linkfd.c`, with what `sig_alarm` has done. -/
structure AlarmState where
  /-- `lfd_host->flags`, while `linkfd` runs -/
  session : Option (BitVec 32)
  tm : ℤ
  kaTimer : ℤ
  statTimer : ℤ
  kaNeedVerify : Bool
  /-- the times at which the counters have been written -/
  dumps : List ℤ
  /-- the argument of the last `alarm` -/
  armed : ℕ
  deriving DecidableEq, Repr

/-- A timer that counts down, and whether its period is over; `on` is the flag of the
session. -/
def countDown (pf : Platform) (on : Bool) (period elapsed timer : ℤ) : ℤ × Bool :=
  if on then
    let left := pf.long (timer - elapsed)
    if left ≤ 0 then (period, true) else (left, false)
  else (timer, false)

/-- The argument of `alarm`, an `unsigned int`. -/
def alarmArg (pf : Platform) (ka stat : ℤ) : ℕ :=
  let v :=
    if pf.long (ka * stat) ≠ 0 then if ka < stat then ka else stat
    else if ka ≠ 0 then ka
    else stat
  (v % 2 ^ 32).toNat

/-- `sig_alarm`, at the time `now`; `kaInterval` is `lfd_host->ka_interval`. -/
def sigAlarm (pf : Platform) (kaInterval : Int32) (flags : BitVec 32) (now : ℤ)
    (s : AlarmState) : AlarmState :=
  let elapsed := pf.long (now - s.tm)
  let ka := countDown pf (hasFlag flags Flag.keepAlive) (kaInterval + 1).toInt elapsed s.kaTimer
  let stat := countDown pf (hasFlag flags Flag.stat) statIval elapsed s.statTimer
  { s with
    tm := now
    kaTimer := ka.1
    kaNeedVerify := s.kaNeedVerify || ka.2
    statTimer := stat.1
    dumps := if stat.2 then s.dumps ++ [now] else s.dumps
    armed := alarmArg pf ka.1 stat.1 }

/-! ### The sessions of a process -/

/-- What happens to the timers. -/
inductive AlarmEv
  /-- `linkfd`, up to `lfd_linker`, with the flags of the session -/
  | linkfd (flags : BitVec 32)
  /-- the alarm goes off, at a time -/
  | alrm (now : ℤ)
  /-- `lfd_linker` has seen `ka_need_verify` -/
  | verified
  /-- `lfd_linker` has returned -/
  | done
  deriving DecidableEq, Repr

/-- `host->flags & (VTUN_STAT|VTUN_KEEP_ALIVE)`. -/
def usesAlarm (flags : BitVec 32) : Bool := hasFlag flags (Flag.stat ||| Flag.keepAlive)

/-- One step of a process, whose sessions have all the same `ka_interval`. -/
def alarmStep (pf : Platform) (kaInterval : Int32) (s : AlarmState) :
    AlarmEv → Option AlarmState
  | .linkfd flags =>
    if s.session.isSome then none
    else
      let first := if kaInterval.toInt < statIval then kaInterval.toInt else statIval
      some { s with
        session := some flags
        armed := if usesAlarm flags then (first % 2 ^ 32).toNat else s.armed }
  | .alrm now =>
    match s.session with
    | none => none
    | some flags => if usesAlarm flags then some (sigAlarm pf kaInterval flags now s) else none
  | .verified => some { s with kaNeedVerify := false }
  | .done =>
    match s.session with
    | none => none
    | some flags =>
      some { s with session := none, armed := if usesAlarm flags then 0 else s.armed }

/-- The variables at the start of the process. -/
def AlarmState.init : AlarmState := ⟨none, 0, 0, 0, false, [], 0⟩

/-- The alarm of a session is armed within the periods. -/
def AlarmBounds (kaInterval : Int32) (s : AlarmState) : Prop :=
  ∀ flags ∈ s.session, usesAlarm flags = true →
    1 ≤ (s.armed : ℤ) ∧ (s.armed : ℤ) ≤ max (kaInterval.toInt + 1) statIval ∧
      (hasFlag flags Flag.keepAlive = true → (s.armed : ℤ) ≤ kaInterval.toInt + 1)

/-- The alarm is armed within the periods, and neither timer has more than its period
to go. -/
structure OnTime (kaInterval : Int32) (s : AlarmState) : Prop where
  armed : AlarmBounds kaInterval s
  keepAlive : s.kaTimer ≤ kaInterval.toInt + 1
  stat : s.statTimer ≤ statIval

/-- The clock has not been set back, since it was read last, by more than what had passed
of a period, of which `timer` seconds were left. -/
def WithinPeriod (pf : Platform) (period timer tm now : ℤ) : Prop :=
  pf.long (timer - pf.long (now - tm)) ≤ period

/-- When the alarm goes off, the clock reads no earlier than when the periods of the timers
in use began. -/
def ClockGoesOn (pf : Platform) (kaInterval : Int32) (s : AlarmState) : AlarmEv → Prop
  | .alrm now => ∀ flags ∈ s.session,
      (hasFlag flags Flag.keepAlive = true →
        WithinPeriod pf (kaInterval.toInt + 1) s.kaTimer s.tm now) ∧
      (hasFlag flags Flag.stat = true → WithinPeriod pf statIval s.statTimer s.tm now)
  | _ => True

instance (pf : Platform) (period timer tm now : ℤ) :
    Decidable (WithinPeriod pf period timer tm now) := inferInstanceAs (Decidable (_ ≤ _))

instance (pf : Platform) (kaInterval : Int32) (s : AlarmState) :
    ∀ e, Decidable (ClockGoesOn pf kaInterval s e)
  | .linkfd _ => .isTrue trivial
  | .alrm now =>
    match hs : s.session with
    | none => .isTrue (fun flags hflags => by rw [hs] at hflags; cases hflags)
    | some flags => decidable_of_iff
        ((hasFlag flags Flag.keepAlive = true →
            WithinPeriod pf (kaInterval.toInt + 1) s.kaTimer s.tm now) ∧
          (hasFlag flags Flag.stat = true → WithinPeriod pf statIval s.statTimer s.tm now))
        (by simp only [ClockGoesOn, hs, Option.mem_some_iff, forall_eq'])
  | .verified => .isTrue trivial
  | .done => .isTrue trivial

/-! ### One timer -/

theorem Platform.long_eq {pf : Platform} {v : ℤ} (hlo : -pf.longMax - 1 ≤ v)
    (hhi : v ≤ pf.longMax) : pf.long v = v := by
  have hspan : (pf.longSpan : ℤ) = 2 * (pf.longMax + 1) := by cases pf <;> rfl
  exact Int.bmod_eq_of_le (by omega) (by omega)

/-- In terms of the clock: it reads no earlier than when the period began. -/
theorem withinPeriod_iff {pf : Platform} {period timer tm now : ℤ}
    (hlo : -pf.longMax - 1 ≤ now - tm) (hhi : now - tm ≤ pf.longMax)
    (hlo' : -pf.longMax - 1 ≤ timer - (now - tm)) (hhi' : timer - (now - tm) ≤ pf.longMax) :
    WithinPeriod pf period timer tm now ↔ tm - (period - timer) ≤ now := by
  rw [WithinPeriod, Platform.long_eq hlo hhi, Platform.long_eq hlo' hhi']
  omega

/-- A timer in use is within a bound on its period exactly if what is left of it was. -/
theorem countDown_le_iff {pf : Platform} {period bound : ℤ} (hbound : 0 ≤ bound)
    (hperiod : period ≤ bound) (elapsed timer : ℤ) :
    (countDown pf true period elapsed timer).1 ≤ bound ↔
      pf.long (timer - elapsed) ≤ bound := by
  rw [countDown, if_pos rfl]
  dsimp only
  split
  · exact iff_of_true hperiod (by omega)
  · exact Iff.rfl

/-- A timer in use has something to go, or has just been set. -/
theorem countDown_pos (pf : Platform) (period elapsed timer : ℤ) :
    0 < (countDown pf true period elapsed timer).1 ∨
      (countDown pf true period elapsed timer).1 = period := by
  rw [countDown, if_pos rfl]
  dsimp only
  split
  · exact .inr rfl
  · exact .inl (by omega)

theorem countDown_ne_zero {period : ℤ} (hperiod : period ≠ 0) (pf : Platform)
    (elapsed timer : ℤ) : (countDown pf true period elapsed timer).1 ≠ 0 := by
  rcases countDown_pos pf period elapsed timer with hlt | heq
  · exact hlt.ne'
  · rw [heq]
    exact hperiod

/-- `ka_interval + 1`, which is an `int`. -/
theorem kaPeriod_cases {kaInterval : Int32} (hpos : 0 < kaInterval.toInt) :
    (kaInterval + 1).toInt = kaInterval.toInt + 1 ∨
      (kaInterval + 1).toInt = -2 ^ 31 ∧ kaInterval.toInt + 1 = 2 ^ 31 := by
  have hlt : kaInterval.toInt < 2 ^ 31 := kaInterval.toInt_lt
  have hone : (1 : Int32).toInt = 1 := rfl
  rw [Int32.toInt_add, hone, Int.bmod_eq_emod]
  split <;> omega

/-! ### The alarm -/

/-- A timer that is 0 or above, or one that was set to a period that did not fit. -/
def TimerFits (period timer : ℤ) : Prop :=
  0 ≤ timer ∨ timer = -2 ^ 31 ∧ period = 2 ^ 31

/-- The alarm is armed within the periods when the timers are within them. -/
theorem alarmArg_bounds (pf : Platform) {period ka stat : ℤ} (hperiod : period ≤ 2 ^ 31)
    (hka : TimerFits period ka) (hka' : ka ≤ period) (hstat : 0 ≤ stat)
    (hstat' : stat ≤ statIval) (hne : ka ≠ 0 ∨ stat ≠ 0) :
    1 ≤ (alarmArg pf ka stat : ℤ) ∧ (alarmArg pf ka stat : ℤ) ≤ max period statIval ∧
      (ka ≠ 0 → (alarmArg pf ka stat : ℤ) ≤ period) := by
  have hival : statIval = 300 := rfl
  rw [TimerFits] at hka
  rw [alarmArg, Int.toNat_of_nonneg (Int.emod_nonneg _ (by norm_num))]
  by_cases hprod : pf.long (ka * stat) ≠ 0
  · rw [if_pos hprod]
    -- neither factor is zero
    have hka0 : ka ≠ 0 := by
      rintro rfl
      exact hprod (by simp [Platform.long])
    have hstat0 : stat ≠ 0 := by
      rintro rfl
      exact hprod (by simp [Platform.long])
    split <;> omega
  · rw [if_neg hprod]
    split <;> omega

/-! ### Runs -/

/-- Neither timer goes below 0, unless it was set to a period that did not fit. -/
structure Timers (kaInterval : Int32) (s : AlarmState) : Prop where
  keepAlive : TimerFits (kaInterval.toInt + 1) s.kaTimer
  stat : 0 ≤ s.statTimer

theorem usesAlarm_eq (flags : BitVec 32) :
    usesAlarm flags = (hasFlag flags Flag.stat || hasFlag flags Flag.keepAlive) := by
  rw [usesAlarm, hasFlag, hasFlag, hasFlag, BitVec.and_or_distrib_left, Bool.eq_iff_iff]
  simp only [bne_iff_ne, ne_eq, BitVec.ofNat_eq_ofNat, BitVec.or_eq_zero_iff, Bool.or_eq_true,
    not_and_or]

section Step

variable {pf : Platform} {kaInterval : Int32} {s : AlarmState} {flags : BitVec 32}

theorem timerFits_countDown {elapsed timer : ℤ} (hpos : 0 < kaInterval.toInt) (on : Bool)
    (h : TimerFits (kaInterval.toInt + 1) timer) :
    TimerFits (kaInterval.toInt + 1)
      (countDown pf on (kaInterval + 1).toInt elapsed timer).1 := by
  cases on with
  | false => exact h
  | true =>
    rcases countDown_pos pf (kaInterval + 1).toInt elapsed timer with hlt | heq
    · exact .inl hlt.le
    · rw [heq]
      rcases kaPeriod_cases hpos with hfits | hover
      · exact .inl (by omega)
      · exact .inr hover

theorem Timers.sigAlarm (hpos : 0 < kaInterval.toInt) (h : Timers kaInterval s) (now : ℤ) :
    Timers kaInterval (sigAlarm pf kaInterval flags now s) := by
  refine ⟨timerFits_countDown hpos _ h.keepAlive, ?_⟩
  show 0 ≤ (countDown pf (hasFlag flags Flag.stat) statIval _ s.statTimer).1
  cases hasFlag flags Flag.stat with
  | false => exact h.stat
  | true =>
    rcases countDown_pos pf statIval (pf.long (now - s.tm)) s.statTimer with hlt | heq
    · exact hlt.le
    · rw [heq]
      norm_num [statIval]

/-- One alarm: it leaves the timers within their periods exactly if the clock goes on. -/
theorem sigAlarm_timers_iff (hpos : 0 < kaInterval.toInt) (hka : s.kaTimer ≤ kaInterval.toInt + 1)
    (hstat : s.statTimer ≤ statIval) (hs : s.session = some flags) (now : ℤ) :
    ((sigAlarm pf kaInterval flags now s).kaTimer ≤ kaInterval.toInt + 1 ∧
      (sigAlarm pf kaInterval flags now s).statTimer ≤ statIval) ↔
      ClockGoesOn pf kaInterval s (.alrm now) := by
  have hperiod : (kaInterval + 1).toInt ≤ kaInterval.toInt + 1 := by
    rcases kaPeriod_cases hpos with hfits | hover
    · exact hfits.le
    · omega
  simp only [ClockGoesOn, hs, Option.mem_some_iff, forall_eq']
  refine and_congr ?_ ?_
  · show (countDown pf (hasFlag flags Flag.keepAlive) _ _ s.kaTimer).1 ≤ _ ↔ _
    cases hasFlag flags Flag.keepAlive with
    | false => exact iff_of_true hka (by simp)
    | true =>
      rw [countDown_le_iff (by omega) hperiod]
      simp [WithinPeriod]
  · show (countDown pf (hasFlag flags Flag.stat) _ _ s.statTimer).1 ≤ _ ↔ _
    cases hasFlag flags Flag.stat with
    | false => exact iff_of_true hstat (by simp)
    | true =>
      rw [countDown_le_iff (by norm_num [statIval]) le_rfl]
      simp [WithinPeriod]

/-- With the timers within their periods, so is the alarm. -/
theorem sigAlarm_bounds (hpos : 0 < kaInterval.toInt) (h : Timers kaInterval s) {now : ℤ}
    (hs : s.session = some flags) (huses : usesAlarm flags = true)
    (hka : (sigAlarm pf kaInterval flags now s).kaTimer ≤ kaInterval.toInt + 1)
    (hstat : (sigAlarm pf kaInterval flags now s).statTimer ≤ statIval) :
    AlarmBounds kaInterval (sigAlarm pf kaInterval flags now s) := by
  have htimers : Timers kaInterval (sigAlarm pf kaInterval flags now s) := h.sigAlarm hpos now
  have hkaOn : hasFlag flags Flag.keepAlive = true →
      (sigAlarm pf kaInterval flags now s).kaTimer ≠ 0 := by
    intro hon
    show (countDown pf (hasFlag flags Flag.keepAlive) _ _ s.kaTimer).1 ≠ 0
    rw [hon]
    refine countDown_ne_zero ?_ pf _ _
    rcases kaPeriod_cases hpos with hfits | hover
    · omega
    · omega
  have hstatOn : hasFlag flags Flag.stat = true →
      (sigAlarm pf kaInterval flags now s).statTimer ≠ 0 := by
    intro hon
    show (countDown pf (hasFlag flags Flag.stat) _ _ s.statTimer).1 ≠ 0
    rw [hon]
    exact countDown_ne_zero (by norm_num [statIval]) pf _ _
  have hne : (sigAlarm pf kaInterval flags now s).kaTimer ≠ 0 ∨
      (sigAlarm pf kaInterval flags now s).statTimer ≠ 0 := by
    rw [usesAlarm_eq, Bool.or_eq_true] at huses
    exact huses.symm.imp hkaOn hstatOn
  have hlt : kaInterval.toInt < 2 ^ 31 := kaInterval.toInt_lt
  obtain ⟨hone, hmax, hkeep⟩ := alarmArg_bounds pf (by omega) htimers.keepAlive hka
    htimers.stat hstat hne
  intro flags' hflags' _
  have hsession : (sigAlarm pf kaInterval flags now s).session = s.session := rfl
  rw [hsession, hs] at hflags'
  obtain rfl := Option.some.inj hflags'
  exact ⟨hone, hmax, fun hon => hkeep (hkaOn hon)⟩

/-- What one step preserves, and when it leaves everything on time. -/
theorem alarmStep_onTime_iff {s' : AlarmState} {e : AlarmEv} (hpos : 0 < kaInterval.toInt)
    (h : Timers kaInterval s) (htime : OnTime kaInterval s)
    (hstep : alarmStep pf kaInterval s e = some s') :
    (OnTime kaInterval s' ↔ ClockGoesOn pf kaInterval s e) ∧ Timers kaInterval s' := by
  have hlt : kaInterval.toInt < 2 ^ 31 := kaInterval.toInt_lt
  have hival : statIval = 300 := rfl
  cases e with
  | linkfd flags =>
    rw [alarmStep] at hstep
    split at hstep
    · cases hstep
    · obtain rfl := Option.some.inj hstep
      refine ⟨iff_of_true ⟨?_, htime.keepAlive, htime.stat⟩ trivial, h.keepAlive, h.stat⟩
      intro flags' hflags' huses
      obtain rfl := Option.some.inj hflags'
      dsimp only
      rw [if_pos huses, Int.toNat_of_nonneg (Int.emod_nonneg _ (by norm_num))]
      split <;> omega
  | alrm now =>
    rw [alarmStep] at hstep
    split at hstep
    · cases hstep
    · rename_i flags hs
      split at hstep
      · rename_i huses
        obtain rfl := Option.some.inj hstep
        refine ⟨?_, h.sigAlarm hpos now⟩
        rw [← sigAlarm_timers_iff hpos htime.keepAlive htime.stat hs now]
        constructor
        · intro h'
          exact ⟨h'.keepAlive, h'.stat⟩
        · rintro ⟨hka, hstat⟩
          exact ⟨sigAlarm_bounds hpos h hs huses hka hstat, hka, hstat⟩
      · cases hstep
  | verified =>
    obtain rfl := Option.some.inj hstep
    exact ⟨iff_of_true ⟨htime.armed, htime.keepAlive, htime.stat⟩ trivial, h.keepAlive, h.stat⟩
  | done =>
    rw [alarmStep] at hstep
    split at hstep
    · cases hstep
    · obtain rfl := Option.some.inj hstep
      refine ⟨iff_of_true ⟨?_, htime.keepAlive, htime.stat⟩ trivial, h.keepAlive, h.stat⟩
      intro flags' hflags'
      cases hflags'

end Step

/-- **When the timers keep running on time.**  Over all the sessions of a process, the alarm
is armed within the periods, and no timer has more than its period to go, exactly if the
clock never reads less than when the period of a timer in use began. -/
theorem alarms_on_time_iff (pf : Platform) (kaInterval : Int32) (hpos : 0 < kaInterval)
    (es : List AlarmEv) (s' : AlarmState)
    (hrun : Run.exec (alarmStep pf kaInterval) AlarmState.init es = some s') :
    (∀ t, Run.Along (alarmStep pf kaInterval) AlarmState.init es t → OnTime kaInterval t) ↔
      Run.Meets (alarmStep pf kaInterval) (ClockGoesOn pf kaInterval) AlarmState.init es := by
  have hpos' : 0 < kaInterval.toInt := Int32.lt_iff_toInt_lt.mp hpos
  have htimers : Timers kaInterval AlarmState.init := ⟨.inl le_rfl, le_rfl⟩
  have htime : OnTime kaInterval AlarmState.init := by
    refine ⟨?_, ?_, ?_⟩
    · intro flags hflags
      cases hflags
    · show (0 : ℤ) ≤ _
      omega
    · show (0 : ℤ) ≤ 300
      norm_num
  exact Run.states_iff_meets (I := Timers kaInterval)
    (fun s e s' h hΦ hstep => alarmStep_onTime_iff hpos' h hΦ hstep) htimers htime hrun

/-- A session whose clock is set back by 100 seconds when 200 of the period of the
statistics have passed. -/
def setBackRun : List AlarmEv :=
  [.linkfd Flag.stat, .alrm 1000000, .alrm 1000200, .alrm 1000100]

theorem alarms_on_time_stat :
    (Run.exec (alarmStep .lp64 30) AlarmState.init setBackRun).isSome ∧
      ∀ t, Run.Along (alarmStep .lp64 30) AlarmState.init setBackRun t → OnTime 30 t := by
  have hrun : (Run.exec (alarmStep .lp64 30) AlarmState.init setBackRun).isSome := by
    decide
  obtain ⟨s', hs'⟩ := Option.isSome_iff_exists.mp hrun
  have hmeets : Run.Meets (alarmStep .lp64 30) (ClockGoesOn .lp64 30) AlarmState.init
      setBackRun := by
    decide
  exact ⟨hrun, (alarms_on_time_iff .lp64 30 (by decide) setBackRun s' hs').mpr hmeets⟩

/-- **A clock that is set back.**  With `keepalive 30:4` the alarm goes off at 1000000, the
clock is set back by 1000 seconds, and the next alarm is armed for 1031 seconds. -/
theorem alarm_set_back :
    ¬ ∀ (pf : Platform) (kaInterval : Int32) (es : List AlarmEv) (s : AlarmState),
      0 < kaInterval → Run.exec (alarmStep pf kaInterval) AlarmState.init es = some s →
        AlarmBounds kaInterval s := by
  intro hall
  have hrun : (Run.exec (alarmStep .lp64 30) AlarmState.init
      [.linkfd Flag.keepAlive, .alrm 1000000, .alrm 999000]).any (fun s =>
        s.session = some Flag.keepAlive ∧ s.armed = 1031) = true := by
    decide
  obtain ⟨s, hs, hany⟩ := (Option.any_eq_true _ _).mp hrun
  obtain ⟨hsession, harmed⟩ := of_decide_eq_true hany
  obtain ⟨-, -, hkeep⟩ := hall .lp64 30 _ s (by decide) hs Flag.keepAlive hsession (by decide)
  have hle : (s.armed : ℤ) ≤ 31 := hkeep (by decide)
  omega

end Vtun
