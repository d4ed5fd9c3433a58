/-
The plan of a configuration file (`cfg_file.y`).

A plan lists the sessions of a file, each with the options of the default sections
before it and its own.  The commands of configured tools stand resolved in it, so
nothing else has a say in a session.  Of the strings of `default_host.dev` only the
last can be in use: it is enough to know whether a session has freed it.

* `run_section`, `runSections_plan` — the statements do to the process what they do
  to the plan;
* `runSections_isSome` — when the statements of a file are defined.
-/
import Vtun.CfgHost
import Vtun.Lib.LastWrite
import Mathlib.Data.List.Basic

namespace Vtun

open LastWrite (last)

/-! ### Options without configured tools -/

/-- The path of a tool. -/
def OptAct.setTool (tool : Tool → List Byte) : OptAct → Tool → List Byte
  | .tool t path => Function.update tool t path
  | _ => tool

theorem OptAct.tool_run (v : VtunOpts) (a : OptAct) : (a.run v).tool = a.setTool v.tool := by
  cases a <;> simp only [OptAct.run, OptAct.setTool] <;> try split
  all_goals rfl

/-- An option with the command of a tool written out. -/
def HostAct.resolve (tool : Tool → List Byte) : HostAct → HostAct
  | .tool d t args => .prog d ⟨some (tool t), some args, t.flags⟩
  | a => a

/-- What an option without tools does to the fields of a record. -/
def HostAct.make (h : ConfHost) (a : HostAct) : ConfHost := a.fields (fun _ => []) h

/-- What a list of them does. -/
def made (h : ConfHost) (acts : List HostAct) : ConfHost := acts.foldl HostAct.make h

/-- The devices that options name. -/
def devices (acts : List HostAct) : List (List Byte) := acts.filterMap Mention.device

/-- What an option does to `vtun`. -/
def HostAct.opts (v : VtunOpts) : HostAct → VtunOpts
  | .persist n => if v.persist = -1 then { v with persist := n } else v
  | _ => v

theorem HostAct.fields_resolve (tool : Tool → List Byte) (a : HostAct) (h : ConfHost) :
    a.fields tool h = (a.resolve tool).make h := by
  cases a <;> rfl

theorem Mention.device_resolve (tool : Tool → List Byte) (a : HostAct) :
    Mention.device (a.resolve tool) = Mention.device a := by
  cases a <;> rfl

theorem HostAct.tool_opts (v : VtunOpts) (a : HostAct) : (a.opts v).tool = v.tool := by
  cases a <;> simp only [HostAct.opts]
  split <;> rfl

theorem foldl_opts_tool (v : VtunOpts) (acts : List HostAct) :
    (acts.foldl HostAct.opts v).tool = v.tool := by
  induction acts generalizing v with
  | nil => rfl
  | cons a acts ih => rw [List.foldl_cons, ih, HostAct.tool_opts]

theorem devices_append (acts acts' : List HostAct) :
    devices (acts ++ acts') = devices acts ++ devices acts' := List.filterMap_append

theorem devices_resolve (tool : Tool → List Byte) (acts : List HostAct) :
    devices (acts.map (HostAct.resolve tool)) = devices acts := by
  rw [devices, List.filterMap_map, devices]
  congr 1
  funext a
  exact Mention.device_resolve tool a

/-- The device of a record is no part of what options do to its fields. -/
theorem HostAct.make_dev (h : ConfHost) (d : Dev) (a : HostAct) :
    HostAct.make { h with dev := d } a = { HostAct.make h a with dev := d } := by
  cases a <;> simp only [HostAct.make, HostAct.fields, HostAct.flags, ConfHost.mapCmds] <;>
    try split
  all_goals rfl

theorem HostAct.dev_make (h : ConfHost) (a : HostAct) : (HostAct.make h a).dev = h.dev := by
  have heq : HostAct.make h a = { HostAct.make h a with dev := h.dev } :=
    HostAct.make_dev h h.dev a
  rw [heq]

theorem made_dev (h : ConfHost) (d : Dev) (acts : List HostAct) :
    made { h with dev := d } acts = { made h acts with dev := d } := by
  induction acts generalizing h with
  | nil => rfl
  | cons a acts ih =>
    rw [made, List.foldl_cons, HostAct.make_dev]
    exact ih _

theorem made_append (h : ConfHost) (acts acts' : List HostAct) :
    made h (acts ++ acts') = made (made h acts) acts' := List.foldl_append

/-- An option other than `device`. -/
theorem HostAct.run_of_device_none (main : Bool) (w : Work) {a : HostAct}
    (h : Mention.device a = none) :
    HostAct.run main w a =
      some { w with h := (a.resolve w.vtun.tool).make w.h, vtun := a.opts w.vtun } := by
  rw [← HostAct.fields_resolve]
  cases a with
  | device s => cases h
  | _ => rfl

/-! ### The strings of the default device -/

/-- `default_host.dev` behind default sections that name the devices `ds`; their
strings are the cells from `base` on. -/
def pointer (base : ℕ) (ds : List (List Byte)) : Dev :=
  if ds = [] then .null else .shared (base + (ds.length - 1))

/-- These strings: only the last can be in use, unless it was freed. -/
def strings (ds : List (List Byte)) (dead : Bool) : List (Option (List Byte)) :=
  match ds.getLast? with
  | none => []
  | some s => List.replicate (ds.length - 1) none ++ [if dead then none else some s]

theorem pointer_snoc (base : ℕ) (ds : List (List Byte)) (s : List Byte) :
    pointer base (ds ++ [s]) = .shared (base + ds.length) := by
  rw [pointer, if_neg (by simp), List.length_append, List.length_singleton, Nat.add_sub_cancel]

theorem strings_snoc (ds : List (List Byte)) (s : List Byte) (dead : Bool) :
    strings (ds ++ [s]) dead =
      List.replicate ds.length none ++ [if dead then none else some s] := by
  rw [strings, List.getLast?_concat, List.length_append, List.length_singleton,
    Nat.add_sub_cancel]

/-- Once freed they hold nothing. -/
theorem strings_dead (ds : List (List Byte)) : strings ds true = List.replicate ds.length none := by
  induction ds using List.reverseRecOn with
  | nil => rfl
  | append_singleton ds s =>
    rw [strings_snoc, List.length_append, List.length_singleton, List.replicate_succ']
    rfl

theorem strings_dead_snoc (ds : List (List Byte)) (s : List Byte) :
    strings ds true ++ [some s] = strings (ds ++ [s]) false := by
  rw [strings_dead, strings_snoc]
  rfl

theorem length_strings (ds : List (List Byte)) (dead : Bool) :
    (strings ds dead).length = ds.length := by
  induction ds using List.reverseRecOn with
  | nil => rfl
  | append_singleton ds s =>
    rw [strings_snoc]
    simp

/-- What `default_host.dev` points to. -/
theorem getElem?_strings (old : List (Option (List Byte))) (ds : List (List Byte)) (s : List Byte)
    (dead : Bool) : (old ++ strings (ds ++ [s]) dead)[old.length + ds.length]? =
      some (if dead then none else some s) := by
  rw [strings_snoc, List.getElem?_append_right (Nat.le_add_right _ _), Nat.add_sub_cancel_left,
    List.getElem?_append_right (by simp)]
  simp

/-- The text of a device of `default_host`: only the last is there. -/
theorem devText_pointer (old : List (Option (List Byte))) {ds all : List (List Byte)}
    (hpre : ds <+: all) (hne : ds ≠ []) (dead : Bool) :
    devText (old ++ strings all dead) (pointer old.length ds) =
      if all = ds ∧ dead = false then some ds.getLast? else none := by
  obtain ⟨ds', s, rfl⟩ : ∃ ds' s, ds = ds' ++ [s] := ⟨_, _, (List.dropLast_append_getLast hne).symm⟩
  obtain ⟨rest, rfl⟩ := hpre
  rw [pointer_snoc, devText, List.getD_eq_getElem?_getD]
  induction rest using List.reverseRecOn with
  | nil =>
    rw [List.append_nil, getElem?_strings, List.getLast?_concat]
    cases dead <;> simp
  | append_singleton rest t =>
    rw [if_neg fun h => by simpa using congrArg List.length h.1, ← List.append_assoc, strings_snoc,
      List.getElem?_append_right (Nat.le_add_right _ _), Nat.add_sub_cancel_left,
      List.getElem?_append_left (by simp), List.getElem?_replicate_of_lt (by simp)]
    rfl

/-- **`free` of the default device**: undefined where a session has done it. -/
theorem freeDev_pointer (old : List (Option (List Byte))) (ds : List (List Byte)) (dead : Bool) :
    freeDev (old ++ strings ds dead) (pointer old.length ds) =
      if dead = true ∧ ds ≠ [] then none else some (old ++ strings ds true) := by
  induction ds using List.reverseRecOn with
  | nil =>
    rw [if_neg (by simp)]
    rfl
  | append_singleton ds s =>
    rw [pointer_snoc, freeDev, getElem?_strings]
    cases dead with
    | true => simp
    | false =>
      rw [if_neg (by simp)]
      simp [strings_snoc]

/-! ### The options of a section -/

/-- `default_host` behind default options. -/
def defaultMade (base : ℕ) (acts : List HostAct) : ConfHost :=
  { made defaultHost acts with dev := pointer base (devices acts) }

/-- **The options of a default section.**  They can free no string that a session
has freed. -/
theorem foldlM_default (old : List (Option (List Byte))) (inherited : List HostAct) (dead : Bool)
    (v : VtunOpts) (acts : List HostAct) (hdead : dead = true → devices inherited ≠ []) :
    acts.foldlM (HostAct.run true)
        ⟨defaultMade old.length inherited, old ++ strings (devices inherited) dead, v⟩ =
      if dead = true ∧ devices acts ≠ [] then none
      else some ⟨defaultMade old.length (inherited ++ acts.map (HostAct.resolve v.tool)),
        old ++ strings (devices (inherited ++ acts.map (HostAct.resolve v.tool))) dead,
        acts.foldl HostAct.opts v⟩ := by
  induction acts generalizing inherited v dead with
  | nil =>
    rw [if_neg (by simp [devices])]
    simp
  | cons a acts ih =>
    rw [List.foldlM_cons]
    have hlist : inherited ++ (a :: acts).map (HostAct.resolve v.tool) =
        inherited ++ [a.resolve v.tool] ++ acts.map (HostAct.resolve v.tool) := by
      simp
    rw [hlist]
    cases hd : Mention.device a with
    | some s =>
      obtain ⟨t, rfl⟩ : ∃ t, a = .device t := by
        cases a <;> first | exact ⟨_, rfl⟩ | cases hd
      have hone : devices (inherited ++ [HostAct.device t]) = devices inherited ++ [t] := by
        rw [devices_append]
        rfl
      cases dead with
      | true =>
        rw [if_pos ⟨rfl, by simp [devices, Mention.device]⟩]
        rw [HostAct.run]
        simp [defaultMade, freeDev_pointer, hdead rfl]
      | false =>
        rw [if_neg (by simp)]
        have hrun : HostAct.run true
            ⟨defaultMade old.length inherited, old ++ strings (devices inherited) false, v⟩
            (.device t) = some ⟨defaultMade old.length (inherited ++ [.device t]),
              old ++ strings (devices (inherited ++ [.device t])) false, v⟩ := by
          simp only [HostAct.run, defaultMade, freeDev_pointer]
          rw [hone, pointer_snoc, made_append]
          simp [List.append_assoc, strings_dead_snoc, length_strings, made, HostAct.make,
            HostAct.fields, HostAct.flags]
        rw [hrun, Option.bind_eq_bind, Option.bind_some, ih _ _ _ (by simp)]
        simp [HostAct.resolve, HostAct.opts]
    | none =>
      have hone : devices (inherited ++ [a.resolve v.tool]) = devices inherited := by
        rw [devices_append]
        simp [devices, Mention.device_resolve, hd]
      have hrun : HostAct.run true
          ⟨defaultMade old.length inherited, old ++ strings (devices inherited) dead, v⟩ a =
            some ⟨defaultMade old.length (inherited ++ [a.resolve v.tool]),
              old ++ strings (devices (inherited ++ [a.resolve v.tool])) dead, a.opts v⟩ := by
        rw [HostAct.run_of_device_none _ _ hd, defaultMade, defaultMade, hone, made_append,
          HostAct.make_dev]
        rfl
      rw [hrun, Option.bind_eq_bind, Option.bind_some, ih _ _ _ (by rw [hone]; exact hdead),
        HostAct.tool_opts]
      simp [devices, hd]

/-- **The options of a session.**  The first `device` frees what the record has from
`default_host`, later ones its own. -/
theorem foldlM_host (h : ConfHost) (cells : List (Option (List Byte))) (v : VtunOpts)
    (acts : List HostAct) :
    acts.foldlM (HostAct.run false) ⟨h, cells, v⟩ =
      (if devices acts = [] then some cells else freeDev cells h.dev).map fun cells' =>
        ⟨{ made h (acts.map (HostAct.resolve v.tool)) with
          dev := ((last Mention.device acts).map Dev.own).getD h.dev }, cells',
          acts.foldl HostAct.opts v⟩ := by
  induction acts generalizing h cells v with
  | nil => rfl
  | cons a acts ih =>
    rw [List.foldlM_cons]
    cases hd : Mention.device a with
    | some s =>
      obtain rfl : a = .device s := by
        cases a <;> first | exact congrArg _ (Option.some.inj hd) | cases hd
      have hlast : last Mention.device (HostAct.device s :: acts) =
          some ((last Mention.device acts).getD s) := List.getLast?_cons
      rw [if_neg (by simp [devices, Mention.device]), hlast]
      cases hfree : freeDev cells h.dev with
      | none =>
        rw [HostAct.run, hfree]
        rfl
      | some cells' =>
        have hrun : HostAct.run false ⟨h, cells, v⟩ (.device s) =
            some ⟨{ h with dev := .own s }, cells', v⟩ := by
          simp [HostAct.run, hfree]
        rw [hrun, Option.bind_eq_bind, Option.bind_some, ih]
        -- a string of its own is freed without a trace
        have hown : (if devices acts = [] then some cells' else freeDev cells' (.own s)) =
            some cells' := by
          split <;> rfl
        rw [hown, made_dev]
        cases last Mention.device acts <;> rfl
    | none =>
      have hdevs : devices (a :: acts) = devices acts := List.filterMap_cons_none hd
      have hlast : last Mention.device (a :: acts) = last Mention.device acts :=
        congrArg List.getLast? hdevs
      have hdev : ((a.resolve v.tool).make h).dev = h.dev := HostAct.dev_make h _
      rw [HostAct.run_of_device_none _ _ hd, Option.bind_eq_bind, Option.bind_some, ih, hdevs,
        hlast, HostAct.tool_opts, hdev]
      rfl

/-! ### The plan of a file -/

/-- A session of a file: its name, the options of the default sections before it,
and its own. -/
structure Entry where
  name : List Byte
  inherited : List HostAct
  own : List HostAct
  deriving BEq, ReflBEq, LawfulBEq, Repr

/-- The record of a session; the strings of the default device are the cells from
`base` on. -/
def Entry.host (base : ℕ) (e : Entry) : ConfHost :=
  { made { made defaultHost e.inherited with host := e.name, passwd := none } e.own with
    dev := ((last Mention.device e.own).map Dev.own).getD (pointer base (devices e.inherited)) }

/-- A session is complete if it has a password. -/
def Entry.complete (e : Entry) : Bool := (last Mention.passwd e.own).isSome

/-- Both parts of a command are there. -/
def Cmd.whole (cmd : Cmd) : Bool := cmd.prog.isSome && cmd.args.isSome

/-- The default commands of a session can be copied. -/
def Entry.copies (e : Entry) : Bool :=
  (made defaultHost e.inherited).up.all Cmd.whole &&
    (made defaultHost e.inherited).down.all Cmd.whole

/-- The tools behind a statement. -/
def Section.setTool (tool : Tool → List Byte) : Section → Tool → List Byte
  | .options acts => acts.foldl OptAct.setTool tool
  | _ => tool

/-- What a statement does to `vtun`. -/
def Section.opts (v : VtunOpts) : Section → VtunOpts
  | .options acts => acts.foldl OptAct.run v
  | .default acts | .host _ acts => acts.foldl HostAct.opts v

/-- The default options of a statement. -/
def Section.adds (tool : Tool → List Byte) : Section → List HostAct
  | .default acts => acts.map (HostAct.resolve tool)
  | _ => []

/-- The session of a statement. -/
def Section.entry (tool : Tool → List Byte) (inherited : List HostAct) : Section → List Entry
  | .host name acts => [⟨name, inherited, acts.map (HostAct.resolve tool)⟩]
  | _ => []

/-- The devices that a statement names. -/
def Section.devices : Section → List (List Byte)
  | .options _ => []
  | .default acts | .host _ acts => Vtun.devices acts

/-- A session that names a device frees the default one. -/
def Section.frees (inherited : List HostAct) : Section → Bool
  | .host _ acts => !(Vtun.devices acts).isEmpty && !(Vtun.devices inherited).isEmpty
  | _ => false

/-- The plan of the statements so far: the default options, whether a session has
freed the default device, the complete sessions, and `vtun`. -/
structure Plan where
  inherited : List HostAct
  dead : Bool
  entries : List Entry
  vtun : VtunOpts
  dead_device : dead = true → devices inherited ≠ []
  entries_inherited : ∀ e ∈ entries, e.inherited <+: inherited

theorem frees_device {inherited : List HostAct} {sec : Section}
    (h : sec.frees inherited = true) : devices inherited ≠ [] := by
  cases sec with
  | host name acts => simpa using (Bool.and_eq_true_iff.mp h).2
  | _ => cases h

theorem entry_section {tool : Tool → List Byte} {inherited : List HostAct} {sec : Section}
    {e : Entry} (h : e ∈ sec.entry tool inherited) : e.inherited = inherited := by
  cases sec with
  | host name acts =>
    obtain rfl := List.mem_singleton.mp h
    rfl
  | _ => cases h

/-- The plan with a statement more, unless the statement is undefined: default
commands that cannot be copied, or a device freed twice. -/
def Plan.step (whole : Bool) (p : Plan) (sec : Section) : Option Plan :=
  if (sec.entry p.vtun.tool p.inherited).all Entry.copies = true ∧
      ¬ (p.dead = true ∧ sec.devices ≠ []) then
    some {
      inherited := p.inherited ++ sec.adds p.vtun.tool
      dead := p.dead || sec.frees p.inherited
      entries := p.entries ++
        if whole then (sec.entry p.vtun.tool p.inherited).filter Entry.complete else []
      vtun := sec.opts p.vtun
      dead_device := fun h => by
        rw [devices_append]
        rcases Bool.or_eq_true_iff.mp h with h | h
        · exact List.append_ne_nil_of_left_ne_nil (p.dead_device h) _
        · exact List.append_ne_nil_of_left_ne_nil (frees_device h) _
      entries_inherited := fun e he => by
        rcases List.mem_append.mp he with he | he
        · exact (p.entries_inherited e he).trans (List.prefix_append _ _)
        · cases whole with
          | false => cases he
          | true =>
            rw [entry_section (List.mem_filter.mp he).1]
            exact List.prefix_append _ _ }
  else none

/-- The process with a plan; its strings come behind those of earlier loads. -/
def Plan.conf (old : List (Option (List Byte))) (s : Conf) (p : Plan) : Conf :=
  { s with
    default := defaultMade old.length p.inherited
    cells := old ++ strings (devices p.inherited) p.dead
    hosts := p.entries.map (Entry.host old.length)
    vtun := p.vtun }

/-- **When a session has the device it should have**: it names one itself, or there is
no default one, or the last default one is its own and not freed. -/
theorem Entry.devText_host (old : List (Option (List Byte))) (e : Entry)
    {all : List (List Byte)} (hpre : devices e.inherited <+: all) (dead : Bool) :
    devText (old ++ strings all dead) (e.host old.length).dev =
        some ((last Mention.device e.own).or (last Mention.device e.inherited)) ↔
      devices e.own ≠ [] ∨ devices e.inherited = [] ∨
        all = devices e.inherited ∧ dead = false := by
  have hown : last Mention.device e.own = (devices e.own).getLast? := rfl
  have hinherited : last Mention.device e.inherited = (devices e.inherited).getLast? := rfl
  rw [Entry.host, hown, hinherited]
  cases hlast : (devices e.own).getLast? with
  | some s =>
    have hne : devices e.own ≠ [] := fun h => by simp [h] at hlast
    exact ⟨fun _ => .inl hne, fun _ => rfl⟩
  | none =>
    have hnil : devices e.own = [] := List.getLast?_eq_none_iff.mp hlast
    by_cases hempty : devices e.inherited = []
    · rw [hempty]
      exact ⟨fun _ => .inr (.inl rfl), fun _ => rfl⟩
    · show devText _ (pointer old.length (devices e.inherited)) = _ ↔ _
      rw [devText_pointer old hpre hempty dead, Option.none_or]
      constructor
      · intro h
        split at h
        · rename_i hlive
          exact .inr (.inr hlive)
        · cases h
      · rintro (h | h | h)
        · exact absurd hnil h
        · exact absurd h hempty
        · rw [if_pos h]

/-! ### The statements follow the plan -/

theorem mapM_cpCmd (cmds : List Cmd) :
    cmds.mapM cpCmd = if cmds.all Cmd.whole = true then some cmds else none := by
  induction cmds with
  | nil => rfl
  | cons cmd cmds ih =>
    rw [List.mapM_cons, cpCmd, ih, List.all_cons, Cmd.whole]
    cases cmd.prog <;> cases cmd.args <;> cases cmds.all Cmd.whole <;> rfl

theorem passwd_made (h : ConfHost) (acts : List HostAct) :
    (made h acts).passwd = (last Mention.passwd acts).or h.passwd := by
  refine LastWrite.foldl_last_or (fun h a => ?_) h acts
  cases a <;> simp only [HostAct.make, HostAct.fields, ConfHost.mapCmds] <;> try split
  all_goals rfl

theorem openHost_eq (d : ConfHost) (name : List Byte) :
    openHost d name =
      if (d.up.all Cmd.whole && d.down.all Cmd.whole) = true then
        some { d with host := name, passwd := none }
      else none := by
  rw [openHost, mapM_cpCmd, mapM_cpCmd]
  by_cases hup : d.up.all Cmd.whole = true
  · by_cases hdown : d.down.all Cmd.whole = true
    · rw [if_pos hup, if_pos hdown, if_pos (by rw [hup, hdown]; rfl)]
      rfl
    · rw [if_pos hup, if_neg hdown, if_neg fun h => hdown (Bool.and_eq_true_iff.mp h).2]
      rfl
  · rw [if_neg hup, if_neg fun h => hup (Bool.and_eq_true_iff.mp h).1]
    rfl

/-- Whether the default device is freed behind a session. -/
theorem strings_or (ds ds' : List (List Byte)) (dead : Bool) :
    strings ds (dead || !ds'.isEmpty && !ds.isEmpty) =
      if ds' = [] then strings ds dead else strings ds true := by
  cases ds' with
  | nil => simp
  | cons =>
    cases ds with
    | nil => rfl
    | cons => simp

/-- The record of a session and what becomes of the default device. -/
theorem run_entry (old : List (Option (List Byte))) (e : Entry) (dead : Bool) (v : VtunOpts)
    (acts : List HostAct) (hdead : dead = true → devices e.inherited ≠ [])
    (hown : e.own = acts.map (HostAct.resolve v.tool)) :
    (openHost (defaultMade old.length e.inherited) e.name).bind (fun h =>
        acts.foldlM (HostAct.run false) ⟨h, old ++ strings (devices e.inherited) dead, v⟩) =
      if e.copies = false ∨ dead = true ∧ devices acts ≠ [] then none
      else some ⟨e.host old.length,
        old ++ strings (devices e.inherited)
          (dead || !(devices acts).isEmpty && !(devices e.inherited).isEmpty),
        acts.foldl HostAct.opts v⟩ := by
  have hopen : openHost (defaultMade old.length e.inherited) e.name =
      if e.copies = true then
        some { { made defaultHost e.inherited with host := e.name, passwd := none } with
          dev := pointer old.length (devices e.inherited) }
      else none := openHost_eq _ _
  have hhost : { made { { made defaultHost e.inherited with host := e.name, passwd := none } with
      dev := pointer old.length (devices e.inherited) } (acts.map (HostAct.resolve v.tool)) with
      dev := ((last Mention.device acts).map Dev.own).getD
        (pointer old.length (devices e.inherited)) } = e.host old.length := by
    have hlast : last Mention.device acts = last Mention.device e.own := by
      rw [hown]
      exact congrArg List.getLast? (devices_resolve v.tool acts).symm
    rw [made_dev, hlast, ← hown, Entry.host]
  cases hcopies : e.copies with
  | false =>
    rw [hopen, if_neg (by simp [hcopies]), if_pos (.inl rfl)]
    rfl
  | true =>
    rw [hopen, if_pos hcopies, Option.bind_some, foldlM_host, freeDev_pointer, strings_or, hhost]
    by_cases hdev : devices acts = []
    · rw [if_pos hdev, if_neg (by simp [hdev]), if_pos hdev]
      rfl
    · rw [if_neg hdev, if_neg hdev]
      cases dead with
      | true =>
        rw [if_pos ⟨rfl, hdead rfl⟩, if_pos (.inr ⟨rfl, hdev⟩)]
        rfl
      | false =>
        rw [if_neg (by simp), if_neg (by simp)]
        rfl

theorem passwd_host (base : ℕ) (e : Entry) :
    (e.host base).passwd = last Mention.passwd e.own := by
  have h := passwd_made { made defaultHost e.inherited with host := e.name, passwd := none } e.own
  rw [Option.or_none] at h
  exact h

theorem isSome_passwd_host (base : ℕ) (e : Entry) :
    (e.host base).passwd.isSome = e.complete := by
  rw [passwd_host, Entry.complete]

/-- **A statement does to the process what it does to the plan.** -/
theorem run_section (old : List (Option (List Byte))) (s : Conf) (p : Plan) (whole : Bool)
    (sec : Section) :
    Section.run whole (p.conf old s) sec = (p.step whole sec).map (Plan.conf old s) := by
  cases sec with
  | options acts =>
    rw [Plan.step, if_pos (by simp [Section.entry, Section.devices])]
    cases whole <;> simp [Section.run, Plan.conf, Section.adds, Section.frees, Section.entry,
      Section.opts]
  | default acts =>
    rw [Section.run, Plan.step]
    simp only [Plan.conf]
    rw [foldlM_default _ _ _ _ _ p.dead_device]
    by_cases hdead : p.dead = true ∧ devices acts ≠ []
    · rw [if_pos hdead, if_neg fun h => h.2 hdead]
      rfl
    · rw [if_neg hdead, if_pos ⟨rfl, hdead⟩]
      cases whole <;> simp [Plan.conf, Section.adds, Section.frees, Section.entry, Section.opts]
  | host name acts =>
    have hentry := run_entry old ⟨name, p.inherited, acts.map (HostAct.resolve p.vtun.tool)⟩
      p.dead p.vtun acts p.dead_device rfl
    simp only [Section.run, Plan.conf, Option.bind_eq_bind] at hentry ⊢
    rw [← Option.bind_assoc, hentry, Plan.step]
    by_cases hcond : (Entry.mk name p.inherited
        (acts.map (HostAct.resolve p.vtun.tool))).copies = false ∨ p.dead = true ∧ devices acts ≠ []
    · rw [if_pos hcond, if_neg]
      · rfl
      · rintro ⟨hcopies, hdead⟩
        rcases hcond with h | h
        · simp [Section.entry, h] at hcopies
        · exact hdead h
    · rw [if_neg hcond, if_pos]
      · rw [Option.bind_some, isSome_passwd_host]
        simp only [Option.map_some, Plan.conf, Section.adds, Section.frees, Section.entry,
          Section.opts, List.append_nil]
        cases whole <;> cases hcomplete : (Entry.mk name p.inherited
          (acts.map (HostAct.resolve p.vtun.tool))).complete <;> simp [hcomplete]
      · simpa [Section.entry, Section.devices, not_or] using hcond

theorem foldlM_plan (old : List (Option (List Byte))) (s : Conf) (p : Plan) (whole : Bool)
    (secs : List Section) :
    secs.foldlM (Section.run whole) (p.conf old s) =
      (secs.foldlM (Plan.step whole) p).map (Plan.conf old s) := by
  induction secs generalizing p with
  | nil => rfl
  | cons sec secs ih =>
    rw [List.foldlM_cons, List.foldlM_cons, run_section]
    cases p.step whole sec with
    | none => rfl
    | some p' => exact ih p'

/-! ### The sessions of a file -/

/-- The sessions of a file, whether complete or not. -/
def entries (tool : Tool → List Byte) (inherited : List HostAct) : List Section → List Entry
  | [] => []
  | sec :: secs =>
    sec.entry tool inherited ++ entries (sec.setTool tool) (inherited ++ sec.adds tool) secs

/-- The default options of a file. -/
def inheritedAfter (tool : Tool → List Byte) (inherited : List HostAct) :
    List Section → List HostAct
  | [] => inherited
  | sec :: secs => inheritedAfter (sec.setTool tool) (inherited ++ sec.adds tool) secs

/-- Whether a session of a file frees the default device; `dead` tells whether one
did before. -/
def deadAfter (tool : Tool → List Byte) (inherited : List HostAct) (dead : Bool) :
    List Section → Bool
  | [] => dead
  | sec :: secs =>
    deadAfter (sec.setTool tool) (inherited ++ sec.adds tool) (dead || sec.frees inherited) secs

/-- Whether no device is named behind a session that frees the default one; `dead`
tells whether there is such a session already. -/
def FreedLast (tool : Tool → List Byte) (inherited : List HostAct) (dead : Bool) :
    List Section → Prop
  | [] => True
  | sec :: secs => (dead = true → sec.devices = []) ∧
    FreedLast (sec.setTool tool) (inherited ++ sec.adds tool) (dead || sec.frees inherited) secs

theorem Section.tool_opts (v : VtunOpts) (sec : Section) :
    (sec.opts v).tool = sec.setTool v.tool := by
  cases sec with
  | options acts =>
    simp only [Section.opts, Section.setTool]
    induction acts generalizing v with
    | nil => rfl
    | cons a acts ih => rw [List.foldl_cons, List.foldl_cons, ih, OptAct.tool_run]
  | default acts => exact foldl_opts_tool v acts
  | host name acts => exact foldl_opts_tool v acts

theorem Plan.step_eq_some {whole : Bool} {p p' : Plan} {sec : Section}
    (h : p.step whole sec = some p') :
    p'.inherited = p.inherited ++ sec.adds p.vtun.tool ∧
      p'.dead = (p.dead || sec.frees p.inherited) ∧
      p'.entries = p.entries ++
        (if whole then (sec.entry p.vtun.tool p.inherited).filter Entry.complete else []) ∧
      p'.vtun = sec.opts p.vtun := by
  rw [Plan.step] at h
  split at h
  · obtain rfl := Option.some.inj h
    exact ⟨rfl, rfl, rfl, rfl⟩
  · cases h

theorem Plan.step_isSome {whole : Bool} {p : Plan} {sec : Section} :
    (p.step whole sec).isSome = true ↔
      (∀ e ∈ sec.entry p.vtun.tool p.inherited, e.copies = true) ∧
        (p.dead = true → sec.devices = []) := by
  rw [Plan.step, ← List.all_eq_true]
  split
  · rename_i h
    simpa using h
  · rename_i h
    simpa using h

/-- **When the statements of a file are defined**: the default commands of every
session can be copied, and no device is named once a session has freed the
default one. -/
theorem foldlM_step_isSome {whole : Bool} {p : Plan} {secs : List Section} :
    (secs.foldlM (Plan.step whole) p).isSome = true ↔
      (∀ e ∈ entries p.vtun.tool p.inherited secs, e.copies = true) ∧
        FreedLast p.vtun.tool p.inherited p.dead secs := by
  induction secs generalizing p with
  | nil => simp [entries, FreedLast]
  | cons sec secs ih =>
    rw [List.foldlM_cons, entries, FreedLast, List.forall_mem_append]
    cases hstep : p.step whole sec with
    | none =>
      have hnone : ¬ (p.step whole sec).isSome = true ↔ _ := Plan.step_isSome.not
      rw [hstep] at hnone
      constructor
      · intro h
        cases h
      · rintro ⟨⟨hcopies, -⟩, hdead, -⟩
        exact absurd ⟨hcopies, hdead⟩ (hnone.mp (by simp))
    | some p' =>
      obtain ⟨hinherited, hdead, -, hvtun⟩ := Plan.step_eq_some hstep
      obtain ⟨hcopies, hdevices⟩ := Plan.step_isSome.mp (hstep ▸ rfl :
        (p.step whole sec).isSome = true)
      rw [Option.bind_eq_bind, Option.bind_some, ih, hinherited, hdead, hvtun, Section.tool_opts]
      exact ⟨fun h => ⟨⟨hcopies, h.1⟩, hdevices, h.2⟩, fun h => ⟨h.1.2, h.2.2⟩⟩

/-- What the plan of a file says. -/
theorem foldlM_step_eq_some {whole : Bool} {p p' : Plan} {secs : List Section}
    (h : secs.foldlM (Plan.step whole) p = some p') :
    p'.inherited = inheritedAfter p.vtun.tool p.inherited secs ∧
      p'.dead = deadAfter p.vtun.tool p.inherited p.dead secs ∧
      p'.entries = p.entries ++
        (if whole then (entries p.vtun.tool p.inherited secs).filter Entry.complete else []) ∧
      p'.vtun = secs.foldl Section.opts p.vtun := by
  induction secs generalizing p with
  | nil =>
    obtain rfl := Option.some.inj h
    cases whole <;> simp [inheritedAfter, deadAfter, entries]
  | cons sec secs ih =>
    rw [List.foldlM_cons] at h
    obtain ⟨t, hstep, hrest⟩ := Option.bind_eq_some_iff.mp h
    obtain ⟨hinherited, hdead, hentries, hvtun⟩ := Plan.step_eq_some hstep
    obtain ⟨hinherited', hdead', hentries', hvtun'⟩ := ih hrest
    rw [hinherited, hvtun, Section.tool_opts] at hinherited' hentries' hdead'
    rw [hinherited', hdead', hentries', hvtun', hdead, hentries, hvtun]
    refine ⟨rfl, rfl, ?_, rfl⟩
    cases whole with
    | false => simp
    | true => simp [entries]

theorem entries_append (tool : Tool → List Byte) (inherited : List HostAct)
    (secs secs' : List Section) :
    entries tool inherited (secs ++ secs') = entries tool inherited secs ++
      entries (secs.foldl Section.setTool tool) (inheritedAfter tool inherited secs) secs' := by
  induction secs generalizing tool inherited with
  | nil => rfl
  | cons sec secs ih =>
    rw [List.cons_append, entries, ih, entries, List.append_assoc]
    rfl

theorem entry_inherited {tool : Tool → List Byte} {inherited : List HostAct} {secs : List Section}
    {e : Entry} (he : e ∈ entries tool inherited secs) :
    e.inherited <+: inheritedAfter tool inherited secs := by
  induction secs generalizing tool inherited with
  | nil => cases he
  | cons sec secs ih =>
    rw [entries] at he
    rw [inheritedAfter]
    rcases List.mem_append.mp he with he | he
    · have hlater : ∀ (tool : Tool → List Byte) (inherited : List HostAct) (secs : List Section),
          inherited <+: inheritedAfter tool inherited secs := by
        intro tool inherited secs
        induction secs generalizing tool inherited with
        | nil => exact List.prefix_refl _
        | cons sec secs ih => exact (List.prefix_append _ _).trans (ih _ _)
      cases sec with
      | host name acts =>
        obtain rfl := List.mem_singleton.mp he
        exact (List.prefix_append _ _).trans (hlater _ _ _)
      | _ => cases he
    · exact ih he

/-- Where in a file a session stands. -/
theorem mem_entries {tool : Tool → List Byte} {inherited : List HostAct} {secs : List Section}
    {e : Entry} : e ∈ entries tool inherited secs ↔
      ∃ pre name acts post, secs = pre ++ .host name acts :: post ∧
        e = ⟨name, inheritedAfter tool inherited pre,
          acts.map (HostAct.resolve (pre.foldl Section.setTool tool))⟩ := by
  induction secs generalizing tool inherited with
  | nil =>
    constructor
    · intro h
      cases h
    · rintro ⟨pre, name, acts, post, h, -⟩
      exact absurd h (by simp)
  | cons sec secs ih =>
    rw [entries, List.mem_append, ih]
    constructor
    · rintro (he | ⟨pre, name, acts, post, rfl, rfl⟩)
      · cases sec with
        | host name acts => exact ⟨[], name, acts, secs, rfl, List.mem_singleton.mp he⟩
        | _ => cases he
      · exact ⟨sec :: pre, name, acts, post, rfl, rfl⟩
    · rintro ⟨pre, name, acts, post, hsecs, rfl⟩
      cases pre with
      | nil =>
        obtain ⟨rfl, rfl⟩ := List.cons.inj hsecs
        exact .inl (List.mem_singleton.mpr rfl)
      | cons sec' pre =>
        obtain ⟨rfl, rfl⟩ := List.cons.inj hsecs
        exact .inr ⟨pre, name, acts, post, rfl, rfl⟩

/-! ### A load -/

/-- The plan before a file. -/
def Plan.start (v : VtunOpts) : Plan where
  inherited := []
  dead := false
  entries := []
  vtun := v
  dead_device h := by cases h
  entries_inherited := List.forall_mem_nil _

theorem conf_start {s : Conf} (h : s.default = defaultHost) :
    (Plan.start s.vtun).conf s.cells s = { s with hosts := [] } := by
  simp [Plan.conf, Plan.start, devices, strings, defaultMade, pointer, made, h, defaultHost]

/-- **A load in a process with the default record of the program**: the plan of the
file, carried out. -/
theorem readConfig_plan {pf : Platform} {s : Conf} {file : List Byte} {kept : ℕ} {sawEnd : Bool}
    {r : Parsed} (hdefault : s.default = defaultHost)
    (hparse : yyparse pf (s.lexer file) = some r) :
    readConfig pf s ⟨some file, kept, sawEnd⟩ =
      ((((r.done.foldlM (Plan.step true) (Plan.start s.vtun)).bind fun p =>
        r.current.toList.foldlM (Plan.step false) p).map (Plan.conf s.cells s)).bind
          freeDefault).map (r.keep ⟨some file, kept, sawEnd⟩) := by
  rw [readConfig_parsed hparse, runSections, ← conf_start hdefault, foldlM_plan]
  cases r.done.foldlM (Plan.step true) (Plan.start s.vtun) with
  | none => rfl
  | some p =>
    rw [Option.map_some, Option.bind_some, Option.bind_some, foldlM_plan]

theorem passwd_defaultMade (base : ℕ) (acts : List HostAct) :
    (defaultMade base acts).passwd = last Mention.passwd acts := by
  have h := passwd_made defaultHost acts
  rwa [show defaultHost.passwd = none from rfl, Option.or_none] at h

/-- The default record behind a load: what a list or an address took is given back. -/
def ConfHost.freed (h : ConfHost) : ConfHost := { h with up := [], down := [], srcAddr := none }

theorem freeDefault_conf (old : List (Option (List Byte))) (s : Conf) (p : Plan) :
    freeDefault (p.conf old s) =
      if (last Mention.passwd p.inherited).isSome = true then none
      else some { p.conf old s with default := (defaultMade old.length p.inherited).freed } := by
  have hpasswd : (p.conf old s).default.passwd = last Mention.passwd p.inherited :=
    passwd_defaultMade old.length p.inherited
  rw [freeDefault, hpasswd]
  rfl

/-! ### A load in a fresh process -/

/-- The statements of a file, where it is accepted. -/
def parsed (pf : Platform) (file : List Byte) : Option (List Section) :=
  (yyparse pf ⟨.initial, [], file⟩).bind fun r => if r.ok then some r.done else none

variable {pf : Platform} {file : List Byte} {secs : List Section}

theorem parsed_eq_some (h : parsed pf file = some secs) :
    ∃ r, yyparse pf ⟨.initial, [], file⟩ = some r ∧ r.done = secs ∧ r.current = none := by
  obtain ⟨r, hr, hok⟩ := Option.bind_eq_some_iff.mp h
  split at hok
  · rename_i hrok
    exact ⟨r, hr, Option.some.inj hok, yyparse_ok hr hrok⟩
  · cases hok

theorem parsed_grouped (h : parsed pf file = some secs) :
    ∀ sec ∈ secs, sec.Whole := by
  obtain ⟨r, hr, rfl, -⟩ := parsed_eq_some h
  exact yyparse_grouped hr

theorem readConfig_fresh (h : parsed pf file = some secs) (v : VtunOpts) (kept : ℕ)
    (sawEnd : Bool) : ∃ r : Parsed,
      readConfig pf (Conf.init v) ⟨some file, kept, sawEnd⟩ =
        (((secs.foldlM (Plan.step true) (Plan.start v)).map (Plan.conf [] (Conf.init v))).bind
          freeDefault).map (r.keep ⟨some file, kept, sawEnd⟩) := by
  obtain ⟨r, hr, rfl, hcurrent⟩ := parsed_eq_some h
  refine ⟨r, ?_⟩
  have hparse : yyparse pf ((Conf.init v).lexer file) = some r := hr
  have hvtun : (Conf.init v).vtun = v := rfl
  have hcells : (Conf.init v).cells = [] := rfl
  rw [readConfig_plan rfl hparse, hcurrent, hvtun, hcells]
  cases r.done.foldlM (Plan.step true) (Plan.start v) <;> rfl

/-- **When a load of an accepted file is defined**: the default commands can be
copied, the default device is not named after it was freed, and the default
record has no password. -/
theorem readConfig_isSome (h : parsed pf file = some secs) (v : VtunOpts) (kept : ℕ)
    (sawEnd : Bool) :
    (readConfig pf (Conf.init v) ⟨some file, kept, sawEnd⟩).isSome = true ↔
      ((∀ e ∈ entries v.tool [] secs, e.copies = true) ∧ FreedLast v.tool [] false secs) ∧
        last Mention.passwd (inheritedAfter v.tool [] secs) = none := by
  obtain ⟨r, hread⟩ := readConfig_fresh h v kept sawEnd
  have hsome : ((secs.foldlM (Plan.step true) (Plan.start v)).isSome = true ↔
      (∀ e ∈ entries v.tool [] secs, e.copies = true) ∧ FreedLast v.tool [] false secs) :=
    foldlM_step_isSome
  rw [hread, ← hsome]
  cases hplan : secs.foldlM (Plan.step true) (Plan.start v) with
  | none => simp
  | some p =>
    obtain ⟨hinherited, -⟩ := foldlM_step_eq_some hplan
    have hp : p.inherited = inheritedAfter v.tool [] secs := hinherited
    rw [Option.map_some, Option.bind_some, freeDefault_conf, hp]
    cases last Mention.passwd (inheritedAfter v.tool [] secs) <;> simp

/-- **What such a load leaves**: the sessions, the strings of the default device,
and `vtun`. -/
theorem readConfig_eq_some (h : parsed pf file = some secs) {v : VtunOpts} {kept : ℕ}
    {sawEnd : Bool} {s' : Conf}
    (hload : readConfig pf (Conf.init v) ⟨some file, kept, sawEnd⟩ = some s') :
    s'.hosts = ((entries v.tool [] secs).filter Entry.complete).map (Entry.host 0) ∧
      s'.cells = strings (devices (inheritedAfter v.tool [] secs)) (deadAfter v.tool [] false secs) ∧
      s'.vtun = secs.foldl Section.opts v := by
  obtain ⟨r, hread⟩ := readConfig_fresh h v kept sawEnd
  rw [hread] at hload
  obtain ⟨t, hsteps, rfl⟩ := Option.map_eq_some_iff.mp hload
  obtain ⟨u, hplan, hfree⟩ := Option.bind_eq_some_iff.mp hsteps
  obtain ⟨p, hp, rfl⟩ := Option.map_eq_some_iff.mp hplan
  obtain ⟨hinherited, hdead, hentries, hvtun⟩ := foldlM_step_eq_some hp
  rw [freeDefault_conf] at hfree
  split at hfree
  · cases hfree
  · obtain rfl := Option.some.inj hfree
    refine ⟨?_, ?_, hvtun⟩
    · show p.entries.map (Entry.host 0) = _
      rw [hentries]
      rfl
    · show [] ++ strings (devices p.inherited) p.dead = _
      rw [hinherited, hdead]
      rfl

end Vtun
