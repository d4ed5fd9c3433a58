/-
The NAT hack (`main.c`, `cfg_file.y`).

A setting of `nat_hack` that is meant for the other end is to be ignored: `main` clears
its flag in all sessions once it has read the configuration.  A server reads it again
on `SIGHUP`, and then nothing clears the flag.

* `startUp_clear` — after the start no session has the flag of the other end;
* `nat_hack_iff` — a server has none in any later state exactly if no file it reads
  again leaves a session with it;
* `nat_hack_reread` — a file that does.
-/
import Vtun.CfgFlags

namespace Vtun

open LastWrite

namespace Flag

def natHackClient : BitVec 32 := 0x4000
def natHackServer : BitVec 32 := 0x8000

end Flag

/-! ### Start and rereading -/

/-- `clear_nat_hack_server`. -/
def clearNatHackServer (h : ConfHost) : ConfHost :=
  { h with flags := h.flags &&& ~~~Flag.natHackClient }

/-- `clear_nat_hack_client`. -/
def clearNatHackClient (h : ConfHost) : ConfHost :=
  { h with flags := h.flags &&& ~~~Flag.natHackServer }

/-- `clear_nat_hack_flags`.  The callbacks return 0, so `llist_trav` goes through the
whole list. -/
def clearNatHackFlags (svr : Bool) (s : Conf) : Conf :=
  { s with hosts := s.hosts.map (if svr then clearNatHackServer else clearNatHackClient) }

/-- `reread_config`: the process exits if the file has no session; it goes on if the
file cannot be opened. -/
def rereadConfig (pf : Platform) (s : Conf) (ev : Load) : Option Conf :=
  match readConfig pf s ev with
  | none => none
  | some s' => if ev.file.isSome ∧ s'.hosts = [] then none else some s'

/-- `main`, up to the server or the client. -/
def startUp (pf : Platform) (svr : Bool) (v : VtunOpts) (ev : Load) : Option Conf :=
  (rereadConfig pf (Conf.init v) ev).map (clearNatHackFlags svr)

/-- The flag that is not relevant on a side. -/
def otherSide (svr : Bool) : BitVec 32 := if svr then Flag.natHackClient else Flag.natHackServer

/-- No session has the flag of the other side. -/
def NatHackClear (svr : Bool) (s : Conf) : Prop :=
  ∀ h ∈ s.hosts, hasFlag h.flags (otherSide svr) = false

/-! ### After the start -/

theorem hasFlag_cleared (f bit : BitVec 32) : hasFlag (f &&& ~~~bit) bit = false := by
  have hzero : f &&& ~~~bit &&& bit = 0 := by
    ext i hi
    simp
  rw [hasFlag, hzero]
  rfl

theorem clearNatHackFlags_clear (svr : Bool) (s : Conf) :
    NatHackClear svr (clearNatHackFlags svr s) := by
  intro h hh
  obtain ⟨g, -, rfl⟩ := List.mem_map.mp hh
  cases svr with
  | true => exact hasFlag_cleared g.flags Flag.natHackClient
  | false => exact hasFlag_cleared g.flags Flag.natHackServer

/-- After the start no session has the flag of the other side. -/
theorem startUp_clear {pf : Platform} {svr : Bool} {v : VtunOpts} {ev : Load} {s : Conf}
    (h : startUp pf svr v ev = some s) : NatHackClear svr s := by
  obtain ⟨t, -, rfl⟩ := Option.map_eq_some_iff.mp h
  exact clearNatHackFlags_clear svr t

/-! ### Rereading -/

/-- The options of no session of a file leave the flag of clients: since the last
`nat_hack` no number with its bit has been written.  `inherited` are the default
options of the loads before. -/
def NatHackFree (pf : Platform) (s : Conf × List HostAct) (ev : Load) : Prop :=
  ∀ file ∈ ev.file, ∀ r ∈ yyparse pf (s.1.lexer file), ∀ acts ∈ listed s.2 r.done,
    ∀ x ∈ written Flag.natHackMask acts, hasFlag x Flag.natHackClient = false

/-- `reread_config`, with the default options of all loads so far. -/
def rereadStep (pf : Platform) (s : Conf × List HostAct) (ev : Load) :
    Option (Conf × List HostAct) :=
  (rereadConfig pf s.1 ev).map fun s' => (s', s.2 ++ loadDefaults pf s.1 ev)

/-- An option clears the field of the NAT hack, or leaves it alone. -/
theorem clears_natHack (a : HostAct) :
    a.clears = Flag.natHackMask ∨ a.clears &&& Flag.natHackMask = 0 := by
  cases a <;> simp only [HostAct.clears] <;> decide

theorem rereadConfig_eq_some {pf : Platform} {s s' : Conf} {ev : Load}
    (h : rereadConfig pf s ev = some s') : readConfig pf s ev = some s' := by
  rw [rereadConfig] at h
  cases hload : readConfig pf s ev with
  | none =>
    rw [hload] at h
    cases h
  | some t =>
    rw [hload] at h
    dsimp only at h
    split at h
    · cases h
    · exact h

/-- The flags of the sessions are those of their options. -/
theorem forall₂_natHack {hosts : List ConfHost} {acts : List (List HostAct)}
    (h : FlagsOf hosts acts) :
    (∀ h ∈ hosts, hasFlag h.flags Flag.natHackClient = false) ↔
      ∀ as ∈ acts, ∀ x ∈ written Flag.natHackMask as, hasFlag x Flag.natHackClient = false := by
  induction h with
  | nil => simp
  | cons hflags _ ih =>
    have hbit : Flag.natHackMask &&& Flag.natHackClient = Flag.natHackClient := by decide
    have hfield := hasFlag_field clears_natHack hbit
    rw [List.forall_mem_cons, List.forall_mem_cons]
    refine and_congr ?_ ih
    rw [hflags, ← Bool.not_eq_true, hfield]
    simp

/-- **One load**: the flag is clear exactly if no session of the file leaves it. -/
theorem reread_clear_iff {pf : Platform} {s s' : Conf} {inherited : List HostAct} {ev : Load}
    (h : rereadConfig pf s ev = some s')
    (hdefault : s.default.flags = flagsMade defaultHost.flags inherited) :
    (NatHackClear true s' ↔ NatHackFree pf (s, inherited) ev) ∧
      s'.default.flags = flagsMade defaultHost.flags (inherited ++ loadDefaults pf s ev) := by
  have hload := rereadConfig_eq_some h
  obtain ⟨file, kept, sawEnd⟩ := ev
  cases file with
  | none =>
    obtain rfl := Option.some.inj hload
    refine ⟨iff_of_true ?_ ?_, by simpa [loadDefaults] using hdefault⟩
    · intro h hh
      cases hh
    · intro file hfile
      cases hfile
  | some file =>
    obtain ⟨r, hparse⟩ := Option.isSome_iff_exists.mp (yyparse_isSome pf (s.lexer file))
    obtain ⟨hflags, hhosts⟩ := load_flags hparse hload hdefault
    refine ⟨?_, hflags⟩
    have hiff : NatHackClear true s' ↔ _ := forall₂_natHack hhosts
    rw [hiff]
    constructor
    · intro hall file' hfile' r' hr'
      obtain rfl := Option.some.inj hfile'
      obtain rfl : r = r' := Option.some.inj (hparse.symm.trans hr')
      exact hall
    · intro hfree
      exact hfree file rfl r hparse

/-- A state along the run of a server. -/
def ReachedBy (pf : Platform) (s : Conf) (loads : List Load) (s' : Conf) : Prop :=
  ∃ first, first <+: loads ∧ Run.exec (rereadConfig pf) s first = some s'

theorem rereadStep_eq_some {pf : Platform} {p p' : Conf × List HostAct} {ev : Load} :
    rereadStep pf p ev = some p' ↔
      rereadConfig pf p.1 ev = some p'.1 ∧ p'.2 = p.2 ++ loadDefaults pf p.1 ev := by
  rw [rereadStep, Option.map_eq_some_iff]
  constructor
  · rintro ⟨s', hs, rfl⟩
    exact ⟨hs, rfl⟩
  · rintro ⟨hs, hall⟩
    exact ⟨p'.1, hs, by rw [← hall]⟩

/-- A run can be followed by one that keeps the default options too, and back. -/
theorem rereadStep_run {pf : Platform} {s s' : Conf} (inherited : List HostAct)
    {loads : List Load} :
    Run.exec (rereadConfig pf) s loads = some s' ↔
      ∃ all, Run.exec (rereadStep pf) (s, inherited) loads = some (s', all) := by
  constructor
  · intro hrun
    have hfollow : ∀ (s : Conf) (p : Conf × List HostAct) ev s', p.1 = s →
        rereadConfig pf s ev = some s' → ∃ p', rereadStep pf p ev = some p' ∧ p'.1 = s' := by
      rintro s p ev s' rfl hs
      exact ⟨(s', p.2 ++ loadDefaults pf p.1 ev), rereadStep_eq_some.mpr ⟨hs, rfl⟩, rfl⟩
    obtain ⟨p', hp, rfl⟩ := Run.exec_simulates hfollow (t := (s, inherited)) rfl hrun
    exact ⟨p'.2, hp⟩
  · rintro ⟨all, hrun⟩
    have hback : ∀ (p : Conf × List HostAct) (s : Conf) ev p', p.1 = s →
        rereadStep pf p ev = some p' → ∃ s', rereadConfig pf s ev = some s' ∧ p'.1 = s' := by
      rintro p s ev p' rfl hp
      exact ⟨p'.1, (rereadStep_eq_some.mp hp).1, rfl⟩
    obtain ⟨t, ht, rfl⟩ := Run.exec_simulates hback (t := s) rfl hrun
    exact ht

theorem rereads_clear_iff {pf : Platform} {s s' : Conf} {inherited : List HostAct}
    {loads : List Load} (hdefault : s.default.flags = flagsMade defaultHost.flags inherited)
    (hclear : NatHackClear true s) (hrun : Run.exec (rereadConfig pf) s loads = some s') :
    (∀ t, ReachedBy pf s loads t → NatHackClear true t) ↔
      Run.Meets (rereadStep pf) (NatHackFree pf) (s, inherited) loads := by
  obtain ⟨all, hall⟩ := (rereadStep_run inherited).mp hrun
  have hstates : (∀ p, Run.Along (rereadStep pf) (s, inherited) loads p →
      NatHackClear true p.1) ↔ Run.Meets (rereadStep pf) (NatHackFree pf) (s, inherited) loads := by
    refine Run.states_iff_meets
      (I := fun p => p.1.default.flags = flagsMade defaultHost.flags p.2)
      (fun p ev p' hp _ hstep => ?_) hdefault hclear hall
    obtain ⟨hone, hinherited⟩ := rereadStep_eq_some.mp hstep
    rw [hinherited]
    exact reread_clear_iff hone hp
  rw [← hstates]
  constructor
  · rintro h p ⟨first, hfirst, hp⟩
    exact h p.1 ⟨first, hfirst, (rereadStep_run inherited).mpr ⟨p.2, hp⟩⟩
  · rintro h t ⟨first, hfirst, ht⟩
    obtain ⟨all', hp⟩ := (rereadStep_run inherited).mp ht
    exact h _ ⟨first, hfirst, hp⟩

/-- **When the flag of the other side stays clear.**  After the start it always is, on
both sides; a server keeps it so through a run exactly if no file it reads again
leaves a session with the flag of clients. -/
theorem nat_hack_iff (pf : Platform) (v : VtunOpts) :
    (∀ svr ev s, startUp pf svr v ev = some s → NatHackClear svr s) ∧
    ∀ ev s loads s', startUp pf true v ev = some s →
      Run.exec (rereadConfig pf) s loads = some s' →
      ((∀ t, ReachedBy pf s loads t → NatHackClear true t) ↔
        Run.Meets (rereadStep pf) (NatHackFree pf) (s, loadDefaults pf (Conf.init v) ev)
          loads) := by
  refine ⟨fun svr ev s h => startUp_clear h, fun ev s loads s' hstart hrun => ?_⟩
  have hclear := startUp_clear hstart
  obtain ⟨t, ht, rfl⟩ := Option.map_eq_some_iff.mp hstart
  have hdefault := (@reread_clear_iff pf _ _ [] ev ht rfl).2
  exact rereads_clear_iff hdefault hclear hrun

/-- A file with a session. -/
def quietFile : List Byte := lit "lion \x7b\n passwd x;\n\x7d\n"

/-- The same with a setting for clients. -/
def natHackFile : List Byte := lit "lion \x7b\n passwd x; nat_hack client;\n\x7d\n"

/-- **A file that is read again leaves the flag of clients on a server.** -/
theorem nat_hack_reread :
    ¬ ∀ (pf : Platform) (v : VtunOpts) (ev : Load) (s : Conf) (loads : List Load) (s' : Conf),
      startUp pf true v ev = some s → Run.exec (rereadConfig pf) s loads = some s' →
        NatHackClear true s' := by
  intro hall
  have hval : ((startUp .lp64 true (mainOpts (-1)) ⟨some quietFile, 0, false⟩).bind fun s =>
      Run.exec (rereadConfig .lp64) s [⟨some natHackFile, 0, false⟩]).any (fun s =>
        s.hosts.any fun h => hasFlag h.flags Flag.natHackClient) = true := by
    decide
  obtain ⟨s', hs', hany⟩ := (Option.any_eq_true _ _).mp hval
  obtain ⟨s, hstart, hrun⟩ := Option.bind_eq_some_iff.mp hs'
  obtain ⟨h, hmem, hflag⟩ := List.any_eq_true.mp hany
  have hclear := hall .lp64 (mainOpts (-1)) _ s _ s' hstart hrun h hmem
  rw [show otherSide true = Flag.natHackClient from rfl, hflag] at hclear
  cases hclear

end Vtun
