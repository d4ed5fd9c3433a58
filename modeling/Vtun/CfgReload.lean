/-
Rereading the configuration (`cfg_file.y`, `cfg_file.l`).

A process that reads its configuration again has what earlier loads left:
`default_host`, which default sections change in place, the paths of the tools, the
start condition and the stack of the scanner, and the text in its buffer.  The
strings of the default device are cells behind those of earlier loads.

* `Plan.conf_sessions` — the sessions of a plan do not depend on earlier loads;
* `reload_fresh` — behind harmless loads a file gives the sessions it gives a fresh
  process;
* `reload_fails` — behind a default section it does not.
-/
import Vtun.CfgPlan
import Vtun.Lib.Run

namespace Vtun

open LastWrite (last)

/-! ### The plan of a parse -/

/-- The statements of a parse, the one it stopped in included. -/
def Parsed.statements (r : Parsed) : List Section := r.done ++ r.current.toList

/-- Their plan. -/
def Parsed.plan (r : Parsed) (v : VtunOpts) : Option Plan :=
  (r.done.foldlM (Plan.step true) (Plan.start v)).bind fun p =>
    r.current.toList.foldlM (Plan.step false) p

theorem inheritedAfter_append (tool : Tool → List Byte) (inherited : List HostAct)
    (secs secs' : List Section) :
    inheritedAfter tool inherited (secs ++ secs') =
      inheritedAfter (secs.foldl Section.setTool tool) (inheritedAfter tool inherited secs)
        secs' := by
  induction secs generalizing tool inherited with
  | nil => rfl
  | cons sec secs ih => exact ih _ _

theorem tool_foldl_opts (v : VtunOpts) (secs : List Section) :
    (secs.foldl Section.opts v).tool = secs.foldl Section.setTool v.tool := by
  induction secs generalizing v with
  | nil => rfl
  | cons sec secs ih => rw [List.foldl_cons, List.foldl_cons, ih, Section.tool_opts]

theorem Parsed.plan_eq_some {r : Parsed} {v : VtunOpts} {p : Plan} (h : r.plan v = some p) :
    p.inherited = inheritedAfter v.tool [] r.statements ∧
      p.vtun.tool = r.statements.foldl Section.setTool v.tool := by
  obtain ⟨q, hq, hp⟩ := Option.bind_eq_some_iff.mp h
  obtain ⟨hinherited, -, -, hvtun⟩ := foldlM_step_eq_some hq
  obtain ⟨hinherited', -, -, hvtun'⟩ := foldlM_step_eq_some hp
  have htool : q.vtun.tool = r.done.foldl Section.setTool v.tool := by
    rw [hvtun]
    exact tool_foldl_opts v r.done
  constructor
  · rw [hinherited', htool, hinherited, Parsed.statements, inheritedAfter_append]
    rfl
  · rw [hvtun', tool_foldl_opts, htool, Parsed.statements, List.foldl_append]

/-! ### Settings that do not matter -/

/-- A plan with other settings in `vtun`. -/
def Plan.setVtun (v : VtunOpts) (p : Plan) : Plan := { p with vtun := v }

theorem Plan.step_setVtun {v : VtunOpts} {p : Plan} (h : v.tool = p.vtun.tool) (whole : Bool)
    (sec : Section) :
    (p.setVtun v).step whole sec = (p.step whole sec).map (Plan.setVtun (sec.opts v)) := by
  have htool : (p.setVtun v).vtun.tool = p.vtun.tool := h
  have hinherited : (p.setVtun v).inherited = p.inherited := rfl
  have hdead : (p.setVtun v).dead = p.dead := rfl
  simp only [Plan.step, htool, hinherited, hdead]
  by_cases hdefined : (sec.entry p.vtun.tool p.inherited).all Entry.copies = true ∧
      ¬ (p.dead = true ∧ sec.devices ≠ [])
  · rw [if_pos hdefined, if_pos hdefined]
    rfl
  · rw [if_neg hdefined, if_neg hdefined]
    rfl

/-- Of `vtun`, a plan depends on the tools alone. -/
theorem foldlM_step_setVtun {v : VtunOpts} {p : Plan} (h : v.tool = p.vtun.tool) (whole : Bool)
    (secs : List Section) :
    secs.foldlM (Plan.step whole) (p.setVtun v) =
      (secs.foldlM (Plan.step whole) p).map (Plan.setVtun (secs.foldl Section.opts v)) := by
  induction secs generalizing v p with
  | nil => rfl
  | cons sec secs ih =>
    rw [List.foldlM_cons, List.foldlM_cons, Plan.step_setVtun h]
    cases hstep : p.step whole sec with
    | none => rfl
    | some p' =>
      obtain ⟨-, -, -, hvtun⟩ := Plan.step_eq_some hstep
      have htool : (sec.opts v).tool = p'.vtun.tool := by
        rw [hvtun, Section.tool_opts, Section.tool_opts, h]
      exact ih htool

theorem Parsed.plan_setVtun (r : Parsed) {v v' : VtunOpts} (h : v'.tool = v.tool) :
    r.plan v' = (r.plan v).map (Plan.setVtun (r.statements.foldl Section.opts v')) := by
  have hstart : Plan.start v' = (Plan.start v).setVtun v' := rfl
  have htool : v'.tool = (Plan.start v).vtun.tool := h
  rw [Parsed.plan, Parsed.plan, hstart, foldlM_step_setVtun htool]
  cases hdone : r.done.foldlM (Plan.step true) (Plan.start v) with
  | none => rfl
  | some p =>
    obtain ⟨-, -, -, hvtun⟩ := foldlM_step_eq_some hdone
    have hbehind : (r.done.foldl Section.opts v').tool = p.vtun.tool := by
      rw [hvtun, tool_foldl_opts, tool_foldl_opts, h]
      rfl
    rw [Option.map_some, Option.bind_some, Option.bind_some, foldlM_step_setVtun hbehind,
      Parsed.statements, List.foldl_append]

/-! ### The sessions of a plan -/

/-- The settings of the sessions of a plan in a fresh process. -/
def Plan.sessions (p : Plan) : List (ConfHost × Option (Option (List Byte))) :=
  p.entries.map fun e => settings (strings (devices p.inherited) p.dead) (e.host 0)

/-- Where the strings of the default device stand does not matter. -/
theorem Entry.settings_host (old : List (Option (List Byte))) (e : Entry)
    {all : List (List Byte)} (hpre : devices e.inherited <+: all) (dead : Bool) :
    settings (old ++ strings all dead) (e.host old.length) =
      settings (strings all dead) (e.host 0) := by
  have htext : devText (old ++ strings all dead) (e.host old.length).dev =
      devText (strings all dead) (e.host 0).dev := by
    rw [Entry.host, Entry.host]
    cases last Mention.device e.own with
    | some s => rfl
    | none =>
      by_cases hempty : devices e.inherited = []
      · rw [hempty]
        rfl
      · show devText _ (pointer old.length (devices e.inherited)) =
          devText ([] ++ strings all dead)
            (pointer ([] : List (Option (List Byte))).length (devices e.inherited))
        rw [devText_pointer old hpre hempty, devText_pointer [] hpre hempty]
  rw [settings, settings, htext]
  rfl

theorem devices_initial {acts acts' : List HostAct} (h : acts <+: acts') :
    devices acts <+: devices acts' := by
  obtain ⟨rest, rfl⟩ := h
  rw [devices_append]
  exact List.prefix_append _ _

/-- **The sessions of a plan do not depend on earlier loads.** -/
theorem Plan.conf_sessions (old : List (Option (List Byte))) (s : Conf) (p : Plan) :
    (p.conf old s).sessions = p.sessions := by
  show (p.entries.map (Entry.host old.length)).map (settings _) = _
  rw [List.map_map]
  exact List.map_congr_left fun e he =>
    e.settings_host old (devices_initial (p.entries_inherited e he)) p.dead

/-- The sessions that a load leaves in a process with the default record of the program. -/
theorem readConfig_sessions {pf : Platform} {s : Conf} {file : List Byte} {kept : ℕ}
    {sawEnd : Bool} {r : Parsed} (hdefault : s.default = defaultHost)
    (hparse : yyparse pf (s.lexer file) = some r) :
    (readConfig pf s ⟨some file, kept, sawEnd⟩).map Conf.sessions =
      (r.plan s.vtun).bind fun p =>
        if (last Mention.passwd p.inherited).isSome = true then none else some p.sessions := by
  rw [readConfig_plan hdefault hparse]
  show ((((r.plan s.vtun).map (Plan.conf s.cells s)).bind freeDefault).map _).map _ = _
  cases r.plan s.vtun with
  | none => rfl
  | some p =>
    rw [Option.map_some, Option.bind_some, Option.bind_some, freeDefault_conf]
    split
    · rfl
    · exact congrArg some (Plan.conf_sessions s.cells s p)

/-! ### What a load leaves behind -/

/-- A process that is as a fresh one for the next load. -/
structure AsFresh (v : VtunOpts) (s : Conf) : Prop where
  default : s.default = defaultHost
  start : s.start = .initial
  stack : s.stack = []
  unread : s.unread = []
  ended : s.ended = false
  tool : s.vtun.tool = v.tool

theorem asFresh_init (v : VtunOpts) : AsFresh v (Conf.init v) := ⟨rfl, rfl, rfl, rfl, rfl, rfl⟩

theorem AsFresh.lexer {v : VtunOpts} {s : Conf} (h : AsFresh v s) (file : List Byte) :
    s.lexer file = ⟨.initial, [], file⟩ := by
  rw [Conf.lexer, h.start, h.stack, h.unread, h.ended]
  rfl

/-- A parse that leaves nothing behind: every brace and every option is closed; the
text was read to its end, or nothing of it is in the buffer; the options of default
sections are those of the program; and the tools are where they were. -/
structure Parsed.Harmless (v : VtunOpts) (kept : ℕ) (sawEnd : Bool) (r : Parsed) : Prop where
  closed : r.lexer.stack = []
  read : r.ended = true ∨ r.lexer.text.take kept = [] ∧ sawEnd = false
  device : devices (inheritedAfter v.tool [] r.statements) = []
  default : (made defaultHost (inheritedAfter v.tool [] r.statements)).freed = defaultHost
  tool : r.statements.foldl Section.setTool v.tool = v.tool

/-- A load that leaves nothing behind; one that cannot open its file does not. -/
def Harmless (pf : Platform) (v : VtunOpts) (ev : Load) : Prop :=
  ∀ file, ev.file = some file → ∀ r, yyparse pf ⟨.initial, [], file⟩ = some r →
    r.Harmless v ev.kept ev.sawEnd

theorem freed_defaultMade {base : ℕ} {acts : List HostAct} (hdevice : devices acts = [])
    (hdefault : (made defaultHost acts).freed = defaultHost) :
    (defaultMade base acts).freed = defaultHost := by
  have hdev : (made defaultHost acts).dev = .null := by
    rw [show (made defaultHost acts).dev = (made defaultHost acts).freed.dev from rfl, hdefault]
    rfl
  have hsame : defaultMade base acts = made defaultHost acts := by
    rw [defaultMade, hdevice]
    show { made defaultHost acts with dev := .null } = made defaultHost acts
    rw [← hdev]
  rw [hsame, hdefault]

/-- **A harmless load leaves a process as fresh as it was.** -/
theorem AsFresh.load {pf : Platform} {v : VtunOpts} {s s' : Conf} {ev : Load} (h : AsFresh v s)
    (hharmless : Harmless pf v ev) (hload : readConfig pf s ev = some s') : AsFresh v s' := by
  obtain ⟨file, kept, sawEnd⟩ := ev
  cases file with
  | none =>
    obtain rfl := Option.some.inj hload
    exact ⟨h.default, h.start, h.stack, h.unread, h.ended, h.tool⟩
  | some file =>
    obtain ⟨r, hparse⟩ := Option.isSome_iff_exists.mp (yyparse_isSome pf ⟨.initial, [], file⟩)
    have hr : r.Harmless v kept sawEnd := hharmless file rfl r hparse
    have hbottom : r.lexer.bottom = some .initial := yyparse_bottom hparse
    rw [← h.lexer file] at hparse
    rw [readConfig_plan h.default hparse] at hload
    obtain ⟨t, hsteps, rfl⟩ := Option.map_eq_some_iff.mp hload
    obtain ⟨u, hplan, hfree⟩ := Option.bind_eq_some_iff.mp hsteps
    obtain ⟨p, hp, rfl⟩ := Option.map_eq_some_iff.mp hplan
    obtain ⟨hinherited, htool⟩ := Parsed.plan_eq_some (r := r) hp
    rw [h.tool] at hinherited htool
    rw [freeDefault_conf] at hfree
    split at hfree
    · cases hfree
    · obtain rfl := Option.some.inj hfree
      refine ⟨?_, Lexer.start_eq hbottom hr.closed, hr.closed, ?_, ?_, htool.trans hr.tool⟩
      · show (defaultMade _ p.inherited).freed = defaultHost
        rw [hinherited]
        exact freed_defaultMade hr.device hr.default
      · show (if r.ended then [] else r.lexer.text.take kept) = []
        rcases hr.read with hended | ⟨htext, -⟩
        · rw [if_pos hended]
        · rw [htext, ite_self]
      · show (!r.ended && sawEnd) = false
        rcases hr.read with hended | ⟨-, hend⟩
        · rw [hended]
          rfl
        · rw [hend, Bool.and_false]

/-- **Behind harmless loads a file gives the sessions it gives a fresh process**: loads
that leave no brace and no option open, no text unread, and no default options and
tools but those of the program. -/
theorem reload_fresh (pf : Platform) (v : VtunOpts) (loads : List Load)
    (hloads : ∀ ev ∈ loads, Harmless pf v ev) {s : Conf}
    (hrun : Run.exec (readConfig pf) (Conf.init v) loads = some s) (file : List Byte)
    (kept kept' : ℕ) (sawEnd sawEnd' : Bool) :
    (readConfig pf s ⟨some file, kept, sawEnd⟩).map Conf.sessions =
      (readConfig pf (Conf.init v) ⟨some file, kept', sawEnd'⟩).map Conf.sessions := by
  have hfresh : AsFresh v s :=
    Run.exec_invariant (fun s ev s' hs hev hstep => hs.load hev hstep) (asFresh_init v)
      (Run.meets_of_mem fun ev hev _ => hloads ev hev) hrun
  obtain ⟨r, hparse⟩ := Option.isSome_iff_exists.mp (yyparse_isSome pf ⟨.initial, [], file⟩)
  have hparse₁ : yyparse pf (s.lexer file) = some r := by rw [hfresh.lexer, hparse]
  have hparse₂ : yyparse pf ((Conf.init v).lexer file) = some r := hparse
  rw [readConfig_sessions hfresh.default hparse₁, readConfig_sessions rfl hparse₂,
    r.plan_setVtun hfresh.tool]
  show _ = (r.plan v).bind _
  cases r.plan v <;> rfl

/-- A file with a time-out for all sessions. -/
def defaultTimeout : List Byte := lit "default \x7b\n timeout 5;\n\x7d\n"

/-- A file with a session. -/
def lionFile : List Byte := lit "lion \x7b\n passwd x;\n\x7d\n"

/-- Behind a file with a session, and one that is not there. -/
theorem reload_lion : ∃ s,
    Run.exec (readConfig .lp64) (Conf.init (mainOpts (-1)))
        [⟨some lionFile, 0, false⟩, ⟨none, 0, false⟩] = some s ∧
      (readConfig .lp64 s ⟨some lionFile, 0, false⟩).map Conf.sessions =
        (readConfig .lp64 (Conf.init (mainOpts (-1))) ⟨some lionFile, 0, false⟩).map
          Conf.sessions := by
  have hparse : yyparse .lp64 ⟨.initial, [], lionFile⟩ =
      some ⟨[.host (lit "lion") [.passwd (lit "x")]], none, true, true, ⟨.initial, [], []⟩⟩ :=
    eq_of_beq (by decide)
  have hrun : (Run.exec (readConfig .lp64) (Conf.init (mainOpts (-1)))
      [⟨some lionFile, 0, false⟩, ⟨none, 0, false⟩]).isSome = true := by decide
  obtain ⟨s, hs⟩ := Option.isSome_iff_exists.mp hrun
  refine ⟨s, hs, reload_fresh .lp64 (mainOpts (-1)) _ ?_ hs lionFile 0 0 false false⟩
  intro ev hev file hfile r hr
  rcases List.mem_cons.mp hev with rfl | hev
  · obtain rfl := Option.some.inj hfile
    rw [hparse] at hr
    obtain rfl := Option.some.inj hr
    exact ⟨rfl, .inl rfl, rfl, rfl, rfl⟩
  · obtain rfl := List.mem_singleton.mp hev
    cases hfile

/-- **Behind a default section a file does not give the sessions it gives a fresh
process.** -/
theorem reload_fails : ∃ s,
    Run.exec (readConfig .lp64) (Conf.init (mainOpts (-1))) [⟨some defaultTimeout, 0, false⟩] =
        some s ∧
      (readConfig .lp64 s ⟨some lionFile, 0, false⟩).map Conf.sessions ≠
        (readConfig .lp64 (Conf.init (mainOpts (-1))) ⟨some lionFile, 0, false⟩).map
          Conf.sessions := by
  have hafter : ((Run.exec (readConfig .lp64) (Conf.init (mainOpts (-1)))
      [⟨some defaultTimeout, 0, false⟩]).bind fun s =>
        readConfig .lp64 s ⟨some lionFile, 0, false⟩).map (fun s => s.hosts.map ConfHost.timeout) =
          some [5] := by decide
  have hfresh : (readConfig .lp64 (Conf.init (mainOpts (-1))) ⟨some lionFile, 0, false⟩).map
      (fun s => s.hosts.map ConfHost.timeout) = some [30] := by decide
  cases hrun : Run.exec (readConfig .lp64) (Conf.init (mainOpts (-1)))
      [⟨some defaultTimeout, 0, false⟩] with
  | none =>
    rw [hrun] at hafter
    cases hafter
  | some s =>
    refine ⟨s, rfl, fun hsame => ?_⟩
    rw [hrun, Option.bind_some] at hafter
    have htimeouts : ∀ o : Option Conf, o.map (fun s => s.hosts.map ConfHost.timeout) =
        (o.map Conf.sessions).map fun l => l.map fun x => x.1.timeout := by
      intro o
      rw [Option.map_map]
      congr 1
      funext s
      show s.hosts.map ConfHost.timeout = (s.hosts.map (settings s.cells)).map fun x => x.1.timeout
      rw [List.map_map]
      rfl
    rw [htimeouts, hsame, ← htimeouts, hfresh] at hafter
    exact absurd hafter (by decide)

end Vtun
