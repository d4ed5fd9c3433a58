/-
Inheritance from default sections (`cfg_file.y`).

A session starts as a copy of the default record.  The copy is not a deep one: the
device is shared, and a command that lacks its program or its arguments cannot be
copied at all.

* `inheritance_iff` — when the sessions of a file inherit as they should, and
  parsing one changes nothing that was there before;
* `inheritance_fails` — a default command without arguments.
-/
import Vtun.CfgRecord

namespace Vtun

open LastWrite (last)

/-! ### The property -/

/-- The default record and the sessions of a process are still what they were. -/
def Undisturbed (s s' : Conf) : Prop :=
  settings s'.cells s'.default = settings s.cells s.default ∧
    ∃ new, s'.hosts = s.hosts ++ new ∧ ∀ h ∈ s.hosts, settings s'.cells h = settings s.cells h

/-- Sessions inherit from the default sections: the file can be loaded, each session
carries what it should, and none changes the default record or a session before. -/
structure Inheritance (pf : Platform) (v : VtunOpts) (ev : Load) (secs : List Section) : Prop where
  sessions : ∃ s', readConfig pf (Conf.init v) ev = some s' ∧
    List.Forall₂ (fun h e => InheritsFrom e s'.cells h) s'.hosts
      ((entries v.tool [] secs).filter Entry.complete)
  undisturbed : ∀ pre name acts post s s', secs = pre ++ .host name acts :: post →
    runSections (Conf.init v) pre = some s → Section.run true s (.host name acts) = some s' →
    Undisturbed s s'

/-- When they do: at every session all default commands have a program and
arguments, no default section names a password, no session names a device if there
is a default one, and no default section names a device behind a complete session
that has the default one. -/
structure Inheritable (v : VtunOpts) (secs : List Section) : Prop where
  commands : ∀ e ∈ entries v.tool [] secs, ∀ d, ∀ cmd ∈ commands d e.inherited,
    cmd.prog.isSome = true ∧ cmd.args.isSome = true
  passwd : ∀ a ∈ inheritedAfter v.tool [] secs, Mention.passwd a = none
  own : ∀ e ∈ entries v.tool [] secs, devices e.inherited ≠ [] → devices e.own = []
  default : ∀ e ∈ entries v.tool [] secs, e.complete = true → devices e.inherited ≠ [] →
    devices (inheritedAfter v.tool [] secs) = devices e.inherited

/-! ### Options of a file -/

variable {secs : List Section} {tool : Tool → List Byte} {inherited : List HostAct}

theorem regular_adds {sec : Section} (hwhole : sec.Whole) (hwell : sec.WellFormed) :
    Regular (sec.adds tool) := by
  cases sec with
  | default acts => exact regular_resolve tool hwhole hwell
  | _ => exact regular_nil

/-- In a file of whole options with well-formed values all options stand as in a
plan. -/
theorem regular_file (hwhole : ∀ sec ∈ secs, sec.Whole) (hwell : ∀ sec ∈ secs, sec.WellFormed)
    (hinherited : Regular inherited) :
    (∀ e ∈ entries tool inherited secs, e.Regular) ∧
      Regular (inheritedAfter tool inherited secs) := by
  induction secs generalizing tool inherited with
  | nil => exact ⟨List.forall_mem_nil _, hinherited⟩
  | cons sec secs ih =>
    rw [List.forall_mem_cons] at hwhole hwell
    have hnext : Regular (inherited ++ sec.adds tool) :=
      hinherited.append (regular_adds hwhole.1 hwell.1)
    obtain ⟨hentries, hafter⟩ := ih hwhole.2 hwell.2 hnext
    refine ⟨List.forall_mem_append.mpr ⟨fun e he => ?_, hentries⟩, hafter⟩
    cases sec with
    | host name acts =>
      obtain rfl := List.mem_singleton.mp he
      exact ⟨hinherited, regular_resolve tool hwhole.1 hwell.1⟩
    | _ => cases he

/-- Sessions that name no device if there is a default one free none. -/
theorem freedLast_of_own (h : ∀ e ∈ entries tool inherited secs,
    devices e.inherited ≠ [] → devices e.own = []) :
    FreedLast tool inherited false secs ∧ deadAfter tool inherited false secs = false := by
  induction secs generalizing tool inherited with
  | nil => exact ⟨trivial, rfl⟩
  | cons sec secs ih =>
    rw [entries, List.forall_mem_append] at h
    have hkeeps : sec.frees inherited = false := by
      cases sec with
      | host name acts =>
        have hown := h.1 _ (List.mem_singleton.mpr rfl)
        dsimp only at hown
        rw [devices_resolve] at hown
        by_cases hnone : devices inherited = []
        · simp [Section.frees, hnone]
        · simp [Section.frees, hown hnone]
      | _ => rfl
    obtain ⟨hfreed, hdead⟩ := ih h.2
    rw [FreedLast, deadAfter, hkeeps]
    refine ⟨⟨fun hfalse => ?_, hfreed⟩, hdead⟩
    cases hfalse

/-! ### Sessions of a plan -/

theorem runSections_init (v : VtunOpts) (pre : List Section) :
    runSections (Conf.init v) pre =
      (pre.foldlM (Plan.step true) (Plan.start v)).map (Plan.conf [] (Conf.init v)) := by
  rw [runSections, ← foldlM_plan]
  rfl

/-- A session that frees nothing disturbs nothing. -/
theorem undisturbed_of_keeps {s : Conf} {p p' : Plan} {name : List Byte} {acts : List HostAct}
    (hstep : p.step true (.host name acts) = some p')
    (hkeeps : (Section.host name acts).frees p.inherited = false) :
    Undisturbed (p.conf [] s) (p'.conf [] s) := by
  obtain ⟨hinherited, hdead, hentries, -⟩ := Plan.step_eq_some hstep
  rw [hkeeps, Bool.or_false] at hdead
  simp only [Section.adds, List.append_nil] at hinherited
  have hcells : (p'.conf [] s).cells = (p.conf [] s).cells := by
    simp only [Plan.conf, hinherited, hdead]
  have hdefault : (p'.conf [] s).default = (p.conf [] s).default := by
    simp only [Plan.conf, hinherited]
  refine ⟨by rw [hcells, hdefault], ?_⟩
  refine ⟨((Section.entry p.vtun.tool p.inherited (.host name acts)).filter
    Entry.complete).map (Entry.host 0), ?_, fun h _ => by rw [hcells]⟩
  show p'.entries.map (Entry.host 0) = p.entries.map (Entry.host 0) ++ _
  rw [hentries, List.map_append, if_pos rfl]

/-- A session that frees the default device disturbs the default record. -/
theorem not_undisturbed_of_frees {s : Conf} {p p' : Plan} {name : List Byte}
    {acts : List HostAct} (hstep : p.step true (.host name acts) = some p')
    (hfrees : (Section.host name acts).frees p.inherited = true) :
    ¬ Undisturbed (p.conf [] s) (p'.conf [] s) := by
  rintro ⟨hdefault, -⟩
  obtain ⟨hinherited, hdead, -⟩ := Plan.step_eq_some hstep
  rw [hfrees, Bool.or_true] at hdead
  simp only [Section.adds, List.append_nil] at hinherited
  obtain ⟨hacts, hnames⟩ := Bool.and_eq_true_iff.mp hfrees
  have hne : devices p.inherited ≠ [] := by simpa using hnames
  have hlive : p.dead = false := by
    have hcond := (Plan.step_isSome.mp (hstep ▸ rfl :
      (p.step true (.host name acts)).isSome = true)).2
    by_contra hfreed
    have hnil : devices acts = [] := hcond (by simpa using hfreed)
    simp [hnil] at hacts
  have htext := congrArg Prod.snd hdefault
  simp only [settings, Plan.conf, defaultMade, hinherited, hdead, hlive] at htext
  have hbefore := devText_pointer [] (List.prefix_refl (devices p.inherited)) hne false
  have hafter := devText_pointer [] (List.prefix_refl (devices p.inherited)) hne true
  rw [if_pos ⟨rfl, rfl⟩] at hbefore
  rw [if_neg fun h => by cases h.2] at hafter
  rw [hbefore, hafter] at htext
  cases htext

/-- The plan before a section of a file that can be loaded, and with it. -/
theorem plan_split {v : VtunOpts} {secs pre post : List Section} {sec : Section} {p : Plan}
    (hplan : secs.foldlM (Plan.step true) (Plan.start v) = some p)
    (hsecs : secs = pre ++ sec :: post) :
    ∃ q q', pre.foldlM (Plan.step true) (Plan.start v) = some q ∧ q.step true sec = some q' := by
  rw [hsecs, List.foldlM_append] at hplan
  obtain ⟨q, hq, hrest⟩ := Option.bind_eq_some_iff.mp hplan
  rw [List.foldlM_cons] at hrest
  obtain ⟨q', hq', -⟩ := Option.bind_eq_some_iff.mp hrest
  exact ⟨q, q', hq, hq'⟩

/-- If no session disturbs anything, none names a device under a default one. -/
theorem own_of_undisturbed {v : VtunOpts} {p : Plan}
    (hplan : secs.foldlM (Plan.step true) (Plan.start v) = some p)
    (h : ∀ pre name acts post s s', secs = pre ++ .host name acts :: post →
      runSections (Conf.init v) pre = some s → Section.run true s (.host name acts) = some s' →
      Undisturbed s s') :
    ∀ e ∈ entries v.tool [] secs, devices e.inherited ≠ [] → devices e.own = [] := by
  intro e he hinherited
  obtain ⟨pre, name, acts, post, hsecs, rfl⟩ := mem_entries.mp he
  obtain ⟨q, q', hq, hq'⟩ := plan_split hplan hsecs
  have hq₀ : q.inherited = inheritedAfter v.tool [] pre := (foldlM_step_eq_some hq).1
  by_contra hown
  dsimp only at hinherited hown
  rw [devices_resolve] at hown
  have hfrees : (Section.host name acts).frees q.inherited = true := by
    rw [hq₀]
    simp [Section.frees, hown, hinherited]
  have hrun : runSections (Conf.init v) pre = some (q.conf [] (Conf.init v)) := by
    rw [runSections_init, hq]
    rfl
  have hstep : Section.run true (q.conf [] (Conf.init v)) (.host name acts) =
      some (q'.conf [] (Conf.init v)) := by
    rw [run_section, hq']
    rfl
  exact not_undisturbed_of_frees hq' hfrees (h pre name acts post _ _ hsecs hrun hstep)

/-- The passwords of the default sections. -/
theorem last_passwd_eq_none {acts : List HostAct} :
    last Mention.passwd acts = none ↔ ∀ a ∈ acts, Mention.passwd a = none :=
  LastWrite.last_eq_none

/-- The devices of the default sections before a session are those of the whole file,
or the first of them. -/
theorem entry_devices {e : Entry} (he : e ∈ entries tool inherited secs) :
    devices e.inherited <+: devices (inheritedAfter tool inherited secs) := by
  obtain ⟨rest, hrest⟩ := entry_inherited he
  rw [← hrest, devices_append]
  exact List.prefix_append _ _

/-- **The sessions of a file inherit from the default sections as they should exactly
if nothing is missing in the default commands, and nobody names a password or a
device where it goes wrong.** -/
theorem inheritance_iff (pf : Platform) (v : VtunOpts) (file : List Byte) (kept : ℕ)
    (sawEnd : Bool) (secs : List Section) (hparse : parsed pf file = some secs)
    (hwell : ∀ sec ∈ secs, sec.WellFormed) :
    Inheritance pf v ⟨some file, kept, sawEnd⟩ secs ↔ Inheritable v secs := by
  have hregular : ∀ e ∈ entries v.tool [] secs, e.Regular :=
    (regular_file (parsed_grouped hparse) hwell regular_nil).1
  have hdefined := readConfig_isSome hparse v kept sawEnd
  constructor
  · rintro ⟨⟨s', hload, hsessions⟩, hundisturbed⟩
    obtain ⟨⟨hcopies, hfreed⟩, hpasswd⟩ := hdefined.mp (hload ▸ rfl)
    obtain ⟨hhosts, hcells, -⟩ := readConfig_eq_some hparse hload
    obtain ⟨p, hplan⟩ := Option.isSome_iff_exists.mp
      (foldlM_step_isSome.mpr ⟨hcopies, hfreed⟩ :
        (secs.foldlM (Plan.step true) (Plan.start v)).isSome = true)
    refine ⟨fun e he => (Entry.copies_iff (hregular e he).inherited.resolved).mp (hcopies e he),
      last_passwd_eq_none.mp hpasswd, own_of_undisturbed hplan hundisturbed, ?_⟩
    intro e he hcomplete hdefault
    rw [hhosts, List.forall₂_map_left_iff, List.forall₂_same] at hsessions
    have hdevice := (hsessions e (List.mem_filter.mpr ⟨he, hcomplete⟩)).device
    rw [hcells] at hdevice
    rcases (e.devText_host [] (entry_devices he) _).mp hdevice with h | h | h
    · exact absurd (own_of_undisturbed hplan hundisturbed e he hdefault) h
    · exact absurd h hdefault
    · exact h.1
  · intro h
    obtain ⟨hfreed, hdead⟩ := freedLast_of_own h.own
    have hload := hdefined.mpr
      ⟨⟨fun e he =>
          (Entry.copies_iff (hregular e he).inherited.resolved).mpr (h.commands e he), hfreed⟩,
        last_passwd_eq_none.mpr h.passwd⟩
    obtain ⟨s', hload⟩ := Option.isSome_iff_exists.mp hload
    obtain ⟨hhosts, hcells, -⟩ := readConfig_eq_some hparse hload
    refine ⟨⟨s', hload, ?_⟩, ?_⟩
    · rw [hhosts, List.forall₂_map_left_iff, List.forall₂_same]
      intro e hmem
      obtain ⟨he, hcomplete⟩ := List.mem_filter.mp hmem
      rw [inheritsFrom_iff (hregular e he), hcells, hdead]
      refine (e.devText_host [] (entry_devices he) false).mpr ?_
      by_cases hdefault : devices e.inherited = []
      · exact .inr (.inl hdefault)
      · exact .inr (.inr ⟨h.default e he hcomplete hdefault, rfl⟩)
    · intro pre name acts post s t hsecs hs ht
      rw [runSections_init] at hs
      obtain ⟨p, hp, rfl⟩ := Option.map_eq_some_iff.mp hs
      rw [run_section] at ht
      obtain ⟨p', hp', rfl⟩ := Option.map_eq_some_iff.mp ht
      have hinherited : p.inherited = inheritedAfter v.tool [] pre := (foldlM_step_eq_some hp).1
      refine undisturbed_of_keeps hp' ?_
      have hown := h.own _ (mem_entries.mpr ⟨pre, name, acts, post, hsecs, rfl⟩)
      dsimp only at hown
      rw [devices_resolve, ← hinherited] at hown
      by_cases hnone : devices p.inherited = []
      · simp [Section.frees, hnone]
      · simp [Section.frees, hown hnone]

/-- A file with default commands and a session that has a device of its own. -/
def inheritFile : List Byte :=
  lit "default \x7b\n timeout 10; up \x7b\n ifconfig \"%% up\";\n \x7d;\n\x7d\n" ++
    lit "lion \x7b\n passwd x; device tun0; persist yes;\n\x7d\n"

/-- Its statements. -/
def inheritSections : List Section :=
  [.default [.timeout 10, .cmdsStart .up, .tool .up .ifcfg (lit "%% up")],
    .host (lit "lion") [.passwd (lit "x"), .device (lit "tun0"), .persist 1]]

/-- Its session inherits the time-out and the command. -/
theorem inheritance_lion :
    parsed .lp64 inheritFile = some inheritSections ∧
      Inheritance .lp64 (mainOpts (-1)) ⟨some inheritFile, 0, false⟩ inheritSections := by
  have hparse : parsed .lp64 inheritFile = some inheritSections := eq_of_beq (by decide)
  refine ⟨hparse, (inheritance_iff .lp64 (mainOpts (-1)) inheritFile 0 false inheritSections
    hparse ?_).mpr ?_⟩
  · intro sec hsec
    simp only [inheritSections, List.mem_cons, List.not_mem_nil, or_false] at hsec
    rcases hsec with rfl | rfl <;> intro a ha <;>
      simp only [List.mem_cons, List.not_mem_nil, or_false] at ha <;>
      rcases ha with rfl | rfl | rfl <;> trivial
  · have hentry : ∀ e ∈ entries (mainOpts (-1)).tool [] inheritSections, e =
        ⟨lit "lion", [.timeout 10, .cmdsStart .up,
            .prog .up ⟨some (lit "/sbin/ifconfig"), some (lit "%% up"), 1⟩],
          [.passwd (lit "x"), .device (lit "tun0"), .persist 1]⟩ := by
      intro e he
      exact List.mem_singleton.mp he
    refine ⟨fun e he d cmd hcmd => ?_, ?_, fun e he hd => ?_, fun e he _ hd => ?_⟩
    · rw [hentry e he] at hcmd
      cases d with
      | up =>
        obtain rfl := List.mem_singleton.mp hcmd
        exact ⟨rfl, rfl⟩
      | down => cases hcmd
    · decide
    · rw [hentry e he] at hd
      exact absurd rfl hd
    · rw [hentry e he] at hd
      exact absurd rfl hd

/-- A default command without arguments. -/
def pathFile : List Byte :=
  lit "default \x7b\n up \x7b\n program /bin/true;\n \x7d;\n\x7d\n" ++
    lit "lion \x7b\n passwd x;\n\x7d\n"

/-- Its statements. -/
def pathSections : List Section :=
  [.default [.cmdsStart .up, .prog .up ⟨some (lit "/bin/true"), none, 0⟩],
    .host (lit "lion") [.passwd (lit "x")]]

/-- **Without arguments a default command cannot be copied**: the file is accepted and
all its values are well formed, but the copy reads a string that is not there. -/
theorem inheritance_fails :
    parsed .lp64 pathFile = some pathSections ∧ (∀ sec ∈ pathSections, sec.WellFormed) ∧
      readConfig .lp64 (Conf.init (mainOpts (-1))) ⟨some pathFile, 0, false⟩ = none ∧
      ¬ Inheritance .lp64 (mainOpts (-1)) ⟨some pathFile, 0, false⟩ pathSections := by
  have hnone : (readConfig .lp64 (Conf.init (mainOpts (-1))) ⟨some pathFile, 0, false⟩).isNone =
      true := by decide
  have hload := Option.isNone_iff_eq_none.mp hnone
  refine ⟨eq_of_beq (by decide), ?_, hload, ?_⟩
  · intro sec hsec
    simp only [pathSections, List.mem_cons, List.not_mem_nil, or_false] at hsec
    rcases hsec with rfl | rfl <;> intro a ha <;>
      simp only [List.mem_cons, List.not_mem_nil, or_false] at ha
    · rcases ha with rfl | rfl <;> trivial
    · obtain rfl := ha
      trivial
  · rintro ⟨⟨s', hs', -⟩, -⟩
    rw [hload] at hs'
    cases hs'

end Vtun
