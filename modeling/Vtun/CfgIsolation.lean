/-
Sessions of a configuration file are isolated from each other (`cfg_file.y`,
`client.c`).

The options of a session reach others in two ways only: `device` frees the string of
the default device, which other sessions share, and the first `persist` of the file
is for all clients.

* `ruling_eq` — `vtun.persist` behind a file: the first that is not `-1`;
* `isolation_iff` — when two files that differ in the body of one session give all
  others the same settings, and their clients the same decision;
* `isolation_fails` — a session with `persist`.
-/
import Vtun.CfgRecord
import Vtun.Client

namespace Vtun

open LastWrite (last)

/-! ### Reconnecting -/

/-- The values of `persist` in a section. -/
def Section.persists : Section → List Int32
  | .options _ => []
  | .default acts | .host _ acts => acts.filterMap Mention.persist

/-- The values of `persist` in a file. -/
def persists (secs : List Section) : List Int32 := secs.flatMap Section.persists

/-- `vtun.persist` when `main` has filled in the defaults. -/
def mainPersist (n : Int32) : Int32 := if n = -1 then 0 else n

/-- The value of `persist` that is for all clients: from the command line, or else the
first of the file. -/
def ruling (cmdline : Int32) (secs : List Section) : Int32 :=
  ((cmdline :: persists secs).find? (· ≠ -1)).getD 0

/-- The test in `client` when a connection of a session has ended. -/
def reconnects (v : VtunOpts) (h : ConfHost) : Bool :=
  (clientStart (mainPersist v.persist).toInt h.persist.toInt).persistent

theorem reconnects_eq_true {v : VtunOpts} {h : ConfHost} :
    reconnects v h = true ↔ mainPersist v.persist ≠ 0 ∨ h.persist ≠ 0 := by
  have hzero : ∀ n : Int32, n.toInt = 0 ↔ n = 0 := fun n => by
    rw [← Int32.toInt_inj]
    rfl
  rw [reconnects, Client.persistent, decide_eq_true_iff]
  show (mainPersist v.persist).toInt ≠ 0 ∨ h.persist.toInt ≠ 0 ↔ _
  rw [ne_eq, hzero, ne_eq, hzero]

theorem mainPersist_foldl (n : Int32) (ns : List Int32) :
    mainPersist (ns.foldl (fun p n => if p = -1 then n else p) n) =
      ((n :: ns).find? (· ≠ -1)).getD 0 := by
  induction ns generalizing n with
  | nil => by_cases hn : n = -1 <;> simp [mainPersist, hn]
  | cons m ns ih =>
    rw [List.foldl_cons, ih]
    by_cases hn : n = -1
    · simp [hn]
    · simp [hn]

theorem persist_foldl_opts (v : VtunOpts) (acts : List HostAct) :
    (acts.foldl HostAct.opts v).persist =
      (acts.filterMap Mention.persist).foldl (fun p n => if p = -1 then n else p) v.persist := by
  induction acts generalizing v with
  | nil => rfl
  | cons a acts ih =>
    rw [List.foldl_cons, ih]
    cases a with
    | persist n =>
      have hcons : (HostAct.persist n :: acts).filterMap Mention.persist =
          n :: acts.filterMap Mention.persist := List.filterMap_cons_some rfl
      rw [hcons, List.foldl_cons, HostAct.opts]
      by_cases hn : v.persist = -1
      · rw [if_pos hn, if_pos hn]
      · rw [if_neg hn, if_neg hn]
    | _ => rfl

theorem OptAct.persist_run (v : VtunOpts) (a : OptAct) : (a.run v).persist = v.persist := by
  cases a <;> simp only [OptAct.run] <;> try split
  all_goals rfl

theorem persist_foldl_run (v : VtunOpts) (acts : List OptAct) :
    (acts.foldl OptAct.run v).persist = v.persist := by
  induction acts generalizing v with
  | nil => rfl
  | cons a acts ih => rw [List.foldl_cons, ih, OptAct.persist_run]

/-- **`vtun.persist` behind a file** is the first value that is not `-1`. -/
theorem ruling_eq (v : VtunOpts) (secs : List Section) :
    mainPersist (secs.foldl Section.opts v).persist = ruling v.persist secs := by
  rw [ruling, ← mainPersist_foldl]
  congr 1
  induction secs generalizing v with
  | nil => rfl
  | cons sec secs ih =>
    have hcons : persists (sec :: secs) = sec.persists ++ persists secs := List.flatMap_cons
    rw [List.foldl_cons, ih, hcons, List.foldl_append]
    congr 1
    cases sec with
    | options acts => exact persist_foldl_run v acts
    | default acts => exact persist_foldl_opts v acts
    | host name acts => exact persist_foldl_opts v acts

theorem Entry.persist_host (base : ℕ) (e : Entry) :
    (e.host base).persist = e.value Mention.persist 0 := by
  have hmade : ∀ (h : ConfHost) (acts : List HostAct),
      (made h acts).persist = (last Mention.persist acts).getD h.persist :=
    fun h acts => LastWrite.foldl_last (fun h a => @persist_make h a) h acts
  exact Entry.host_value (fun acts _ h => hmade h acts) (fun _ _ _ => ⟨rfl, rfl⟩) base

/-! ### Two files -/

/-- The complete sessions of a file but for one. -/
def others (v : VtunOpts) (pre post : List Section) : List Entry :=
  (entries v.tool [] (pre ++ post)).filter Entry.complete

/-- The number of complete sessions before it. -/
def place (v : VtunOpts) (pre : List Section) : ℕ :=
  ((entries v.tool [] pre).filter Entry.complete).length

/-- A session names a device if there is a default one. -/
def Entry.Frees (e : Entry) : Prop := devices e.inherited ≠ [] ∧ devices e.own ≠ []

/-- Two loads leave the same sessions with the same decisions to reconnect, but for the
one at a place. -/
def Isolated (pf : Platform) (v : VtunOpts) (ev₁ ev₂ : Load) (k : ℕ) : Prop :=
  ∃ s₁ s₂, readConfig pf (Conf.init v) ev₁ = some s₁ ∧ readConfig pf (Conf.init v) ev₂ = some s₂ ∧
    s₁.sessions.eraseIdx k = s₂.sessions.eraseIdx k ∧
    (s₁.hosts.eraseIdx k).map (reconnects s₁.vtun) = (s₂.hosts.eraseIdx k).map (reconnects s₂.vtun)

/-- When they do, for files that differ in the body of a session: both can be loaded;
the files agree on whether the default device is freed, or no other session has
the last default device; and every other session has `persist`, or the
files agree on whether it is on for all. -/
structure Isolable (v : VtunOpts) (pre : List Section) (name : List Byte)
    (acts₁ acts₂ : List HostAct) (post : List Section) : Prop where
  commands : ∀ e ∈ entries v.tool [] (pre ++ .host name acts₁ :: post),
    ∀ d, ∀ cmd ∈ commands d e.inherited, cmd.prog.isSome = true ∧ cmd.args.isSome = true
  passwd : ∀ a ∈ inheritedAfter v.tool [] (pre ++ post), Mention.passwd a = none
  freed₁ : FreedLast v.tool [] false (pre ++ .host name acts₁ :: post)
  freed₂ : FreedLast v.tool [] false (pre ++ .host name acts₂ :: post)
  device : ((∃ e ∈ entries v.tool [] (pre ++ .host name acts₁ :: post), e.Frees) ↔
      ∃ e ∈ entries v.tool [] (pre ++ .host name acts₂ :: post), e.Frees) ∨
    ∀ e ∈ others v pre post, devices e.own = [] → devices e.inherited ≠ [] →
      devices (inheritedAfter v.tool [] (pre ++ post)) ≠ devices e.inherited
  persist : ∀ e ∈ others v pre post, e.value Mention.persist 0 ≠ 0 ∨
    (ruling v.persist (pre ++ .host name acts₁ :: post) ≠ 0 ↔
      ruling v.persist (pre ++ .host name acts₂ :: post) ≠ 0)

/-! ### The other sessions -/

section Around

variable {tool : Tool → List Byte} {inherited : List HostAct}

theorem resolved_entries {secs : List Section}
    (h : ∀ a ∈ inherited, ∀ d t args, a ≠ .tool d t args) :
    ∀ e ∈ entries tool inherited secs, ∀ a ∈ e.inherited, ∀ d t args, a ≠ .tool d t args := by
  induction secs generalizing tool inherited with
  | nil => exact List.forall_mem_nil _
  | cons sec secs ih =>
    refine List.forall_mem_append.mpr ⟨fun e he => ?_, ih (List.forall_mem_append.mpr ⟨h, ?_⟩)⟩
    · cases sec with
      | host name acts =>
        obtain rfl := List.mem_singleton.mp he
        exact h
      | _ => cases he
    · intro b hb d t args heq
      cases sec with
      | default acts =>
        obtain ⟨a, -, rfl⟩ := List.mem_map.mp hb
        cases a <;> cases heq
      | _ => cases hb

theorem deadAfter_eq_true {secs : List Section} {dead : Bool} :
    deadAfter tool inherited dead secs = true ↔
      dead = true ∨ ∃ e ∈ entries tool inherited secs, e.Frees := by
  induction secs generalizing tool inherited dead with
  | nil => simp [deadAfter, entries]
  | cons sec secs ih =>
    have hfrees : sec.frees inherited = true ↔ ∃ e ∈ sec.entry tool inherited, e.Frees := by
      cases sec with
      | host name acts =>
        simp only [Section.frees, Section.entry, List.mem_singleton, exists_eq_left, Entry.Frees,
          devices_resolve, Bool.and_eq_true, Bool.not_eq_true', List.isEmpty_eq_false_iff]
        exact and_comm
      | _ => simp [Section.frees, Section.entry]
    rw [deadAfter, ih, Bool.or_eq_true, hfrees, entries, or_assoc]
    simp only [List.mem_append, or_and_right, exists_or]

/-- A session leaves the default options and the tools alone. -/
theorem inheritedAfter_around (pre post : List Section) (name : List Byte)
    (acts : List HostAct) :
    inheritedAfter tool inherited (pre ++ .host name acts :: post) =
      inheritedAfter tool inherited (pre ++ post) := by
  induction pre generalizing tool inherited with
  | nil =>
    show inheritedAfter tool (inherited ++ []) post = inheritedAfter tool inherited post
    rw [List.append_nil]
  | cons sec pre ih => exact ih

theorem entries_around (pre post : List Section) (name : List Byte) (acts : List HostAct) :
    entries tool inherited (pre ++ .host name acts :: post) =
      entries tool inherited pre ++
        ⟨name, inheritedAfter tool inherited pre,
          acts.map (HostAct.resolve (pre.foldl Section.setTool tool))⟩ ::
        entries (pre.foldl Section.setTool tool) (inheritedAfter tool inherited pre) post := by
  rw [entries_append]
  show _ ++ ([_] ++ entries _ (_ ++ []) post) = _
  rw [List.append_nil]
  rfl

theorem passwd_resolve (acts : List HostAct) :
    last Mention.passwd (acts.map (HostAct.resolve tool)) = last Mention.passwd acts := by
  have hone : ∀ a : HostAct, Mention.passwd (a.resolve tool) = Mention.passwd a := by
    intro a
    cases a <;> rfl
  rw [last, last, List.filterMap_map]
  congr 2
  funext a
  exact hone a

/-- Around a complete session the other complete ones stand as they are. -/
theorem complete_around {v : VtunOpts} (pre post : List Section) (name : List Byte)
    {acts : List HostAct} (hcomplete : (last Mention.passwd acts).isSome = true) :
    ((entries v.tool [] (pre ++ .host name acts :: post)).filter Entry.complete).eraseIdx
      (place v pre) = others v pre post := by
  have hlisted : (Entry.mk name (inheritedAfter v.tool [] pre)
      (acts.map (HostAct.resolve (pre.foldl Section.setTool v.tool)))).complete = true := by
    rw [Entry.complete, passwd_resolve]
    exact hcomplete
  rw [entries_around, List.filter_append, List.filter_cons_of_pos hlisted, place,
    List.eraseIdx_append_of_length_le (Nat.le_refl _), Nat.sub_self, List.eraseIdx_cons_zero,
    others, entries_append, List.filter_append]

end Around

/-- The text of the device of a session, whether the default one is freed or not. -/
theorem Entry.devText_dead (e : Entry) {all : List (List Byte)}
    (hpre : devices e.inherited <+: all) (dead₁ dead₂ : Bool) :
    devText (strings all dead₁) (e.host 0).dev = devText (strings all dead₂) (e.host 0).dev ↔
      dead₁ = dead₂ ∨ (devices e.own = [] → devices e.inherited ≠ [] →
        all ≠ devices e.inherited) := by
  by_cases hsame : dead₁ = dead₂
  · rw [hsame]
    exact ⟨fun _ => .inl rfl, fun _ => rfl⟩
  · rw [or_iff_right hsame]
    have hown : last Mention.device e.own = (devices e.own).getLast? := rfl
    rw [Entry.host, hown]
    cases hlast : (devices e.own).getLast? with
    | some s =>
      have hne : devices e.own ≠ [] := fun h => by simp [h] at hlast
      exact ⟨fun _ hnil => absurd hnil hne, fun _ => rfl⟩
    | none =>
      have hnil : devices e.own = [] := List.getLast?_eq_none_iff.mp hlast
      by_cases hempty : devices e.inherited = []
      · rw [hempty]
        exact ⟨fun _ _ h => absurd rfl h, fun _ => rfl⟩
      · show devText ([] ++ strings all dead₁) (pointer 0 (devices e.inherited)) =
          devText ([] ++ strings all dead₂) (pointer 0 (devices e.inherited)) ↔ _
        rw [show (0 : ℕ) = ([] : List (Option (List Byte))).length from rfl,
          devText_pointer [] hpre hempty, devText_pointer [] hpre hempty]
        by_cases hall : all = devices e.inherited
        · have hfreed : ¬ (all = devices e.inherited ∧ true = false) := by simp
          refine ⟨fun h => ?_, fun h => absurd hall (h hnil hempty)⟩
          cases dead₁ <;> cases dead₂
          · exact absurd rfl hsame
          · rw [if_pos ⟨hall, rfl⟩, if_neg hfreed] at h
            cases h
          · rw [if_neg hfreed, if_pos ⟨hall, rfl⟩] at h
            cases h
          · exact absurd rfl hsame
        · rw [if_neg fun h => hall h.1, if_neg fun h => hall h.1]
          exact ⟨fun _ _ _ => hall, fun _ => rfl⟩

/-! ### Isolation -/

/-- What a load of a file leaves of the sessions but for one. -/
theorem load_others {pf : Platform} {v : VtunOpts} {file : List Byte} {kept : ℕ} {sawEnd : Bool}
    {pre post : List Section} {name : List Byte} {acts : List HostAct} {s : Conf}
    (hparse : parsed pf file = some (pre ++ .host name acts :: post))
    (hcomplete : (last Mention.passwd acts).isSome = true)
    (hload : readConfig pf (Conf.init v) ⟨some file, kept, sawEnd⟩ = some s) :
    s.hosts.eraseIdx (place v pre) = (others v pre post).map (Entry.host 0) ∧
      s.cells = strings (devices (inheritedAfter v.tool [] (pre ++ post)))
        (deadAfter v.tool [] false (pre ++ .host name acts :: post)) ∧
      mainPersist s.vtun.persist = ruling v.persist (pre ++ .host name acts :: post) := by
  obtain ⟨hhosts, hcells, hvtun⟩ := readConfig_eq_some hparse hload
  refine ⟨?_, ?_, ?_⟩
  · rw [hhosts, List.eraseIdx_map, complete_around pre post name hcomplete]
  · rw [hcells, inheritedAfter_around]
  · rw [hvtun, ruling_eq]

theorem others_devices {v : VtunOpts} {pre post : List Section} {e : Entry}
    (he : e ∈ others v pre post) :
    devices e.inherited <+: devices (inheritedAfter v.tool [] (pre ++ post)) := by
  obtain ⟨rest, hrest⟩ := entry_inherited (List.mem_filter.mp he).1
  rw [← hrest, devices_append]
  exact List.prefix_append _ _

theorem settings_eq_iff {cells₁ cells₂ : List (Option (List Byte))} {h : ConfHost} :
    settings cells₁ h = settings cells₂ h ↔ devText cells₁ h.dev = devText cells₂ h.dev := by
  rw [settings, settings, Prod.mk.injEq]
  exact and_iff_right rfl

/-- When the other sessions have the same settings, whether the default device is
freed or not. -/
theorem others_settings_iff (v : VtunOpts) (pre post : List Section) (dead₁ dead₂ : Bool) :
    ((others v pre post).map (Entry.host 0)).map
          (settings (strings (devices (inheritedAfter v.tool [] (pre ++ post))) dead₁)) =
        ((others v pre post).map (Entry.host 0)).map
          (settings (strings (devices (inheritedAfter v.tool [] (pre ++ post))) dead₂)) ↔
      dead₁ = dead₂ ∨ ∀ e ∈ others v pre post, devices e.own = [] → devices e.inherited ≠ [] →
        devices (inheritedAfter v.tool [] (pre ++ post)) ≠ devices e.inherited := by
  rw [List.map_map, List.map_map, List.map_inj_left]
  have hone : ∀ e ∈ others v pre post,
      (settings _ ∘ Entry.host 0) e = (settings _ ∘ Entry.host 0) e ↔ _ :=
    fun e he => settings_eq_iff.trans (e.devText_dead (others_devices he) dead₁ dead₂)
  rw [forall₂_congr hone]
  constructor
  · intro h
    by_cases hsame : dead₁ = dead₂
    · exact .inl hsame
    · exact .inr fun e he => (h e he).resolve_left hsame
  · rintro (h | h) e he
    · exact .inl h
    · exact .inr (h e he)

/-- When their clients decide the same. -/
theorem others_reconnect_iff {v : VtunOpts} {pre post : List Section} {v₁ v₂ : VtunOpts}
    {n₁ n₂ : Int32} (h₁ : mainPersist v₁.persist = n₁) (h₂ : mainPersist v₂.persist = n₂) :
    ((others v pre post).map (Entry.host 0)).map (reconnects v₁) =
        ((others v pre post).map (Entry.host 0)).map (reconnects v₂) ↔
      ∀ e ∈ others v pre post, e.value Mention.persist 0 ≠ 0 ∨ (n₁ ≠ 0 ↔ n₂ ≠ 0) := by
  rw [List.map_map, List.map_map, List.map_inj_left]
  refine forall₂_congr fun e _ => ?_
  rw [Function.comp_apply, Function.comp_apply, Bool.eq_iff_iff, reconnects_eq_true,
    reconnects_eq_true, h₁, h₂, Entry.persist_host]
  tauto

/-- What two loads leave of the other sessions. -/
theorem loads_others {pf : Platform} {v : VtunOpts} {file₁ file₂ : List Byte} {kept₁ kept₂ : ℕ}
    {sawEnd₁ sawEnd₂ : Bool} {pre post : List Section} {name : List Byte}
    {acts₁ acts₂ : List HostAct} {s₁ s₂ : Conf}
    (hparse₁ : parsed pf file₁ = some (pre ++ .host name acts₁ :: post))
    (hparse₂ : parsed pf file₂ = some (pre ++ .host name acts₂ :: post))
    (hcomplete₁ : (last Mention.passwd acts₁).isSome = true)
    (hcomplete₂ : (last Mention.passwd acts₂).isSome = true)
    (hload₁ : readConfig pf (Conf.init v) ⟨some file₁, kept₁, sawEnd₁⟩ = some s₁)
    (hload₂ : readConfig pf (Conf.init v) ⟨some file₂, kept₂, sawEnd₂⟩ = some s₂) :
    (s₁.sessions.eraseIdx (place v pre) = s₂.sessions.eraseIdx (place v pre) ↔
      ((∃ e ∈ entries v.tool [] (pre ++ .host name acts₁ :: post), e.Frees) ↔
          ∃ e ∈ entries v.tool [] (pre ++ .host name acts₂ :: post), e.Frees) ∨
        ∀ e ∈ others v pre post, devices e.own = [] → devices e.inherited ≠ [] →
          devices (inheritedAfter v.tool [] (pre ++ post)) ≠ devices e.inherited) ∧
    ((s₁.hosts.eraseIdx (place v pre)).map (reconnects s₁.vtun) =
        (s₂.hosts.eraseIdx (place v pre)).map (reconnects s₂.vtun) ↔
      ∀ e ∈ others v pre post, e.value Mention.persist 0 ≠ 0 ∨
        (ruling v.persist (pre ++ .host name acts₁ :: post) ≠ 0 ↔
          ruling v.persist (pre ++ .host name acts₂ :: post) ≠ 0)) := by
  obtain ⟨hhosts₁, hcells₁, hpersist₁⟩ := load_others hparse₁ hcomplete₁ hload₁
  obtain ⟨hhosts₂, hcells₂, hpersist₂⟩ := load_others hparse₂ hcomplete₂ hload₂
  have hdead : (deadAfter v.tool [] false (pre ++ .host name acts₁ :: post) =
        deadAfter v.tool [] false (pre ++ .host name acts₂ :: post)) ↔
      ((∃ e ∈ entries v.tool [] (pre ++ .host name acts₁ :: post), e.Frees) ↔
        ∃ e ∈ entries v.tool [] (pre ++ .host name acts₂ :: post), e.Frees) := by
    rw [Bool.eq_iff_iff, deadAfter_eq_true, deadAfter_eq_true]
    simp
  rw [Conf.sessions, Conf.sessions, List.eraseIdx_map, List.eraseIdx_map, hhosts₁, hhosts₂,
    hcells₁, hcells₂]
  exact ⟨(others_settings_iff v pre post _ _).trans (or_congr_left hdead),
    others_reconnect_iff hpersist₁ hpersist₂⟩

/-- **Two files that differ in the body of a complete session give all others the
same settings, and their clients the same decision, exactly if** both can be
loaded, the default device fares the same or nobody else has it, and so does the
`persist` that is for all. -/
theorem isolation_iff (pf : Platform) (v : VtunOpts) (file₁ file₂ : List Byte)
    (kept₁ kept₂ : ℕ) (sawEnd₁ sawEnd₂ : Bool) (pre post : List Section) (name : List Byte)
    (acts₁ acts₂ : List HostAct)
    (hparse₁ : parsed pf file₁ = some (pre ++ .host name acts₁ :: post))
    (hparse₂ : parsed pf file₂ = some (pre ++ .host name acts₂ :: post))
    (hcomplete₁ : (last Mention.passwd acts₁).isSome = true)
    (hcomplete₂ : (last Mention.passwd acts₂).isSome = true) :
    Isolated pf v ⟨some file₁, kept₁, sawEnd₁⟩ ⟨some file₂, kept₂, sawEnd₂⟩ (place v pre) ↔
      Isolable v pre name acts₁ acts₂ post := by
  have hcopies : ∀ e ∈ entries v.tool [] (pre ++ .host name acts₁ :: post), e.copies = true ↔ _ :=
    fun e he => Entry.copies_iff (resolved_entries (List.forall_mem_nil _) e he)
  -- what is copied does not depend on the body
  have hbody : (∀ e ∈ entries v.tool [] (pre ++ .host name acts₁ :: post), e.copies = true) ↔
      ∀ e ∈ entries v.tool [] (pre ++ .host name acts₂ :: post), e.copies = true := by
    simp only [entries_around, List.forall_mem_append, List.forall_mem_cons, Entry.copies]
  have hdefined₁ := readConfig_isSome hparse₁ v kept₁ sawEnd₁
  have hdefined₂ := readConfig_isSome hparse₂ v kept₂ sawEnd₂
  rw [inheritedAfter_around, LastWrite.last_eq_none] at hdefined₁ hdefined₂
  constructor
  · rintro ⟨s₁, s₂, hload₁, hload₂, hsessions, hdecisions⟩
    obtain ⟨⟨hall, hfreed₁⟩, hpasswd⟩ := hdefined₁.mp (hload₁ ▸ rfl)
    obtain ⟨⟨-, hfreed₂⟩, -⟩ := hdefined₂.mp (hload₂ ▸ rfl)
    obtain ⟨hsame, hdecide⟩ :=
      loads_others hparse₁ hparse₂ hcomplete₁ hcomplete₂ hload₁ hload₂
    exact ⟨fun e he => (hcopies e he).mp (hall e he), hpasswd, hfreed₁, hfreed₂,
      hsame.mp hsessions, hdecide.mp hdecisions⟩
  · intro h
    have hall : ∀ e ∈ entries v.tool [] (pre ++ .host name acts₁ :: post), e.copies = true :=
      fun e he => (hcopies e he).mpr (h.commands e he)
    obtain ⟨s₁, hload₁⟩ := Option.isSome_iff_exists.mp
      (hdefined₁.mpr ⟨⟨hall, h.freed₁⟩, h.passwd⟩)
    obtain ⟨s₂, hload₂⟩ := Option.isSome_iff_exists.mp
      (hdefined₂.mpr ⟨⟨hbody.mp hall, h.freed₂⟩, h.passwd⟩)
    obtain ⟨hsame, hdecide⟩ :=
      loads_others hparse₁ hparse₂ hcomplete₁ hcomplete₂ hload₁ hload₂
    exact ⟨s₁, s₂, hload₁, hload₂, hsame.mpr h.device, hdecide.mpr h.persist⟩

/-- A file with two sessions. -/
def twoFile : List Byte := lit "lion \x7b\n passwd x;\n\x7d\nzebra \x7b\n passwd y;\n\x7d\n"

/-- The same with a time-out in the first. -/
def timeoutFile : List Byte :=
  lit "lion \x7b\n passwd x; timeout 5;\n\x7d\nzebra \x7b\n passwd y;\n\x7d\n"

/-- The same with `persist` in the first. -/
def persistFile : List Byte :=
  lit "lion \x7b\n passwd x; persist yes;\n\x7d\nzebra \x7b\n passwd y;\n\x7d\n"

/-- The second session. -/
def zebra : List Section := [.host (lit "zebra") [.passwd (lit "y")]]

/-- A time-out is nobody else's business. -/
theorem isolation_timeout :
    Isolated .lp64 (mainOpts (-1)) ⟨some twoFile, 0, false⟩ ⟨some timeoutFile, 0, false⟩
      (place (mainOpts (-1)) []) := by
  have hparse₁ : parsed .lp64 twoFile =
      some ([] ++ .host (lit "lion") [.passwd (lit "x")] :: zebra) := eq_of_beq (by decide)
  have hparse₂ : parsed .lp64 timeoutFile =
      some ([] ++ .host (lit "lion") [.passwd (lit "x"), .timeout 5] :: zebra) := by
    exact eq_of_beq (by decide)
  refine (isolation_iff .lp64 (mainOpts (-1)) twoFile timeoutFile 0 0 false false [] zebra
    (lit "lion") _ _ hparse₁ hparse₂ rfl rfl).mpr ?_
  -- no default section, no device, no `persist`
  have hinherited : ∀ acts,
      ∀ e ∈ entries (mainOpts (-1)).tool [] (.host (lit "lion") acts :: zebra), e.inherited = [] := by
    intro acts e he
    rcases List.mem_cons.mp he with rfl | he
    · rfl
    · obtain rfl := List.mem_singleton.mp he
      rfl
  have hother : ∀ e ∈ others (mainOpts (-1)) [] zebra, e.inherited = [] := by
    intro e he
    obtain rfl := List.mem_singleton.mp he
    rfl
  refine ⟨fun e he d cmd hcmd => ?_, List.forall_mem_nil _,
    by simp [FreedLast, zebra, Section.frees, devices],
    by simp [FreedLast, zebra, Section.frees, devices], .inr fun e he _ hne => ?_,
    fun e _ => .inr Iff.rfl⟩
  · rw [hinherited _ e he] at hcmd
    cases hcmd
  · rw [hother e he] at hne
    exact absurd rfl hne

/-- **`persist` in one session keeps the clients of all others going.** -/
theorem isolation_fails :
    parsed .lp64 twoFile = some ([] ++ .host (lit "lion") [.passwd (lit "x")] :: zebra) ∧
      parsed .lp64 persistFile =
        some ([] ++ .host (lit "lion") [.passwd (lit "x"), .persist 1] :: zebra) ∧
      ¬ Isolated .lp64 (mainOpts (-1)) ⟨some twoFile, 0, false⟩ ⟨some persistFile, 0, false⟩
        (place (mainOpts (-1)) []) := by
  refine ⟨eq_of_beq (by decide), eq_of_beq (by decide), ?_⟩
  have hexits : (readConfig .lp64 (Conf.init (mainOpts (-1))) ⟨some twoFile, 0, false⟩).map
      (fun s => (s.hosts.eraseIdx 0).map (reconnects s.vtun)) = some [false] := by decide
  have hstays : (readConfig .lp64 (Conf.init (mainOpts (-1))) ⟨some persistFile, 0, false⟩).map
      (fun s => (s.hosts.eraseIdx 0).map (reconnects s.vtun)) = some [true] := by decide
  rintro ⟨s₁, s₂, hload₁, hload₂, -, hsame⟩
  rw [hload₁] at hexits
  rw [hload₂] at hstays
  have hfirst : (s₁.hosts.eraseIdx 0).map (reconnects s₁.vtun) = [false] := Option.some.inj hexits
  have hsecond : (s₂.hosts.eraseIdx 0).map (reconnects s₂.vtun) = [true] := Option.some.inj hstays
  have hplace : place (mainOpts (-1)) [] = 0 := rfl
  rw [hplace, hfirst, hsecond] at hsame
  cases hsame

end Vtun
