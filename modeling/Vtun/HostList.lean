/-
The list of sessions (`cfg_file.y`).

Every complete session is a record on the heap that `host_list` holds a pointer to.
`find_host` takes the list apart: it hands every record to `free_host`, which keeps
the records of the name and releases the others.

* `loads_holds` — after any loads `host_list` holds the sessions of the last one;
* `findHost_vtunHost` — the lookup of the server on the sessions as values;
* `find_host_correct` — what `find_host` returns, what it releases and what it
  leaves.
-/
import Vtun.Llist
import Vtun.Auth
import Vtun.CfgFlags

namespace Vtun

/-! ### Records on the heap -/

/-- The records, with the calls of `free_host` and the releases so far. -/
structure Recs where
  recs : Heap ConfHost
  handed : List Addr
  released : List Addr

/-- `free` of a record that is there. -/
def Recs.free (s : Recs) (d : Addr) : Recs :=
  { s with recs := s.recs.set d none, released := s.released ++ [d] }

/-- Contents for a record. -/
def Recs.put (s : Recs) (d : Addr) (h : ConfHost) : Recs :=
  { s with recs := s.recs.set d (some h) }

/-- A record whose commands and source address have been freed. -/
def ConfHost.emptied (h : ConfHost) : ConfHost := { h with up := [], down := [], srcAddr := none }

/-- A record is handed to `free_host`. -/
def Recs.hand (s : Recs) (d : Addr) : Recs := { s with handed := s.handed ++ [d] }

/-- `free_host`.  A record that is not there cannot be read. -/
def freeHost (u : Option (List Byte)) (s : Recs) (d : Addr) : Option (Bool × Recs) :=
  match s.recs.get d with
  | none => none
  | some h =>
    if u = some h.host then some (true, s.hand d)
    else if h.passwd.isSome then some (false, (s.hand d).free d)
    -- what the record points to is freed, but not the record
    else some (false, (s.hand d).put d h.emptied)

/-- A record of the name is kept. -/
theorem freeHost_named {u : Option (List Byte)} {s : Recs} {d : Addr} {h : ConfHost}
    (hd : s.recs.get d = some h) (hu : u = some h.host) :
    freeHost u s d = some (true, s.hand d) := by
  rw [freeHost, hd]
  exact if_pos hu

/-- Another one that is complete is released. -/
theorem freeHost_other {u : Option (List Byte)} {s : Recs} {d : Addr} {h : ConfHost}
    (hd : s.recs.get d = some h) (hu : u ≠ some h.host) (hpasswd : h.passwd.isSome = true) :
    freeHost u s d = some (false, (s.hand d).free d) := by
  rw [freeHost, hd]
  simp only [if_neg hu, if_pos hpasswd]

/-- An incomplete one is emptied. -/
theorem freeHost_incomplete {s : Recs} {d : Addr} {h : ConfHost} (hd : s.recs.get d = some h)
    (hpasswd : ¬ h.passwd.isSome = true) :
    freeHost none s d = some (false, (s.hand d).put d h.emptied) := by
  rw [freeHost, hd]
  simp only [reduceCtorEq, if_false, if_neg hpasswd]

/-- The memory of the process: the elements of `host_list`, the records, the list,
how many sessions have been read, and `cfg_loaded`. -/
structure HostMem where
  elms : Heap (LlistElm Addr)
  recs : Recs
  list : Llist
  turn : ℕ
  cfgLoaded : Bool

/-- The memory of a freshly started process. -/
def HostMem.init : HostMem := ⟨.empty, ⟨.empty, [], []⟩, llistInit, 0, false⟩

/-- `malloc`, in each turn: an address that nothing stands at. -/
structure Malloc where
  elm : ℕ → Heap (LlistElm Addr) → Addr
  host : ℕ → Heap ConfHost → Addr
  elm_fresh : ∀ n (heap : Heap (LlistElm Addr)), heap.get (elm n heap) = none
  host_fresh : ∀ n (heap : Heap ConfHost), heap.get (host n heap) = none

/-- `llist_free(&host_list, free_host, u)`.  The list has no more elements than
sessions have been read. -/
def HostMem.llistFree (m : HostMem) (u : Option (List Byte)) : Option (Option Addr × HostMem) :=
  (Vtun.llistFree (freeHost u) m.turn m.elms m.recs m.list).map fun r =>
    (r.1, { m with elms := r.2.1, recs := r.2.2.1, list := r.2.2.2 })

/-- `find_host`. -/
def HostMem.findHost (m : HostMem) (host : List Byte) : Option (Option Addr × HostMem) :=
  m.llistFree (some host)

/-- `free_host_list`. -/
def HostMem.freeHostList (m : HostMem) : Option HostMem := (m.llistFree none).map Prod.snd

/-- The end of a session in the file: `h` is what its options have made of
`parse_host`. -/
def HostMem.endHost (mal : Malloc) (m : HostMem) (h : ConfHost) : Option HostMem :=
  let d := mal.host m.turn m.recs.recs
  let m : HostMem := { m with recs := m.recs.put d h, turn := m.turn + 1 }
  if h.passwd.isSome then
    (llistAdd m.elms m.list d (some (mal.elm m.turn m.elms))).map fun r =>
      { m with elms := r.2.1, list := r.2.2 }
  else
    (freeHost none m.recs d).map fun r => { m with recs := r.2.free d }

/-- The record at the end of a statement that defines a session. -/
def Section.record (s : Conf) : Section → Option (List ConfHost)
  | .host name acts => do
    let h ← openHost s.default name
    let w ← acts.foldlM (HostAct.run false) ⟨h, s.cells, s.vtun⟩
    some [w.h]
  | _ => some []

/-- A whole statement, with the memory. -/
def HostMem.statement (mal : Malloc) (p : Conf × HostMem) (sec : Section) :
    Option (Conf × HostMem) := do
  let s ← sec.run true p.1
  let hs ← sec.record p.1
  let m ← hs.foldlM (HostMem.endHost mal) p.2
  some (s, m)

/-- The start of `read_config`: the list of an earlier load is freed. -/
def HostMem.restart (m : HostMem) : Option HostMem :=
  (if m.cfgLoaded then m.freeHostList else some m).map fun m =>
    { m with cfgLoaded := true, list := llistInit }

/-- `read_config`, with the memory.  A session that is not parsed to its end does not
get into the list. -/
def readHosts (pf : Platform) (mal : Malloc) (p : Conf × HostMem) (ev : Load) :
    Option (Conf × HostMem) := do
  let m ← p.2.restart
  let s ← readConfig pf p.1 ev
  match ev.file with
  | none => some (s, m)
  | some file => do
    let r ← yyparse pf (p.1.lexer file)
    let q ← r.done.foldlM (HostMem.statement mal) ({ p.1 with hosts := [] }, m)
    some (s, q.2)

/-! ### What the memory holds -/

/-- `host_list` has the elements `elms`, and their records are `hosts`, all of them
complete. -/
structure HoldsHosts (m : HostMem) (hosts : List ConfHost) (elms : List (Addr × Addr)) : Prop where
  list : IsLlist m.elms m.list elms
  nodup : (elms.map Prod.snd).Nodup
  recs : (elms.map Prod.snd).map m.recs.recs.get = hosts.map some
  complete : ∀ h ∈ hosts, h.passwd.isSome = true
  bound : elms.length ≤ m.turn

/-- The record of an element is one of the sessions. -/
theorem HoldsHosts.mem {m : HostMem} {hosts : List ConfHost} {elms : List (Addr × Addr)}
    (hm : HoldsHosts m hosts elms) {d : Addr} (hd : d ∈ elms.map Prod.snd) :
    ∃ h ∈ hosts, m.recs.recs.get d = some h := by
  have hin : m.recs.recs.get d ∈ hosts.map some := by
    rw [← hm.recs]
    exact List.mem_map_of_mem hd
  obtain ⟨h, hh, heq⟩ := List.mem_map.mp hin
  exact ⟨h, hh, heq.symm⟩

/-- **The end of a session**: a complete one is added to the list, an incomplete one
is released. -/
theorem HoldsHosts.endHost (mal : Malloc) {m : HostMem} {hosts : List ConfHost}
    {elms : List (Addr × Addr)} (hm : HoldsHosts m hosts elms) (h : ConfHost) :
    ∃ m' elms', m.endHost mal h = some m' ∧
      HoldsHosts m' (hosts ++ if h.passwd.isSome then [h] else []) elms' ∧
      m'.cfgLoaded = m.cfgLoaded := by
  set d := mal.host m.turn m.recs.recs with hd
  have hfresh : m.recs.recs.get d = none := mal.host_fresh _ _
  have hout : d ∉ elms.map Prod.snd := by
    intro hin
    obtain ⟨g, -, hg⟩ := hm.mem hin
    rw [hfresh] at hg
    cases hg
  have hold : ∀ recs : Heap ConfHost, (∀ a ≠ d, recs.get a = m.recs.recs.get a) →
      (elms.map Prod.snd).map recs.get = hosts.map some := by
    intro recs hrecs
    rw [← hm.recs]
    refine List.map_congr_left fun a ha => hrecs a ?_
    rintro rfl
    exact hout ha
  by_cases hpasswd : h.passwd.isSome = true
  · obtain ⟨heap, l, hadd, hlist⟩ :=
      llistAdd_spec hm.list (mal.elm_fresh (m.turn + 1) m.elms) d
    refine ⟨⟨heap, m.recs.put d h, l, m.turn + 1, m.cfgLoaded⟩,
      elms ++ [(mal.elm (m.turn + 1) m.elms, d)], ?_, ⟨hlist, ?_, ?_, ?_, ?_⟩, rfl⟩
    · rw [HostMem.endHost]
      simp only [if_pos hpasswd, ← hd, hadd, Option.map_some]
    · rw [List.map_append, List.map_singleton]
      exact List.nodup_append.mpr ⟨hm.nodup, List.nodup_singleton d, fun a ha b hb => by
        rw [List.mem_singleton.mp hb]
        rintro rfl
        exact hout ha⟩
    · have hrest := hold (m.recs.put d h).recs fun a ha => Heap.get_set_of_ne _ ha _
      have hget : (m.recs.put d h).recs.get d = some h := Heap.get_set_self _ _ _
      rw [List.map_append, List.map_append, hrest, if_pos hpasswd, List.map_append]
      exact congrArg (fun c => hosts.map some ++ [c]) hget
    · intro g hg
      rw [if_pos hpasswd] at hg
      rcases List.mem_append.mp hg with hg | hg
      · exact hm.complete g hg
      · rw [List.mem_singleton.mp hg]
        exact hpasswd
    · rw [List.length_append, List.length_singleton]
      exact Nat.succ_le_succ hm.bound
  · have hget : (m.recs.put d h).recs.get d = some h := Heap.get_set_self _ _ _
    have hfree := freeHost_incomplete hget hpasswd
    refine ⟨⟨m.elms, (((m.recs.put d h).hand d).put d h.emptied).free d, m.list, m.turn + 1,
      m.cfgLoaded⟩, elms, ?_, ⟨hm.list, hm.nodup, ?_, ?_, Nat.le_succ_of_le hm.bound⟩, rfl⟩
    · simp only [HostMem.endHost, if_neg hpasswd, ← hd, hfree, Option.map_some]
    · rw [if_neg hpasswd, List.append_nil]
      refine hold _ fun a ha => ?_
      rw [Recs.free, Heap.get_set_of_ne _ ha, Recs.put, Heap.get_set_of_ne _ ha, Recs.hand,
        Recs.put, Heap.get_set_of_ne _ ha]
    · rw [if_neg hpasswd, List.append_nil]
      exact hm.complete

/-- The sessions a statement adds. -/
theorem Section.run_hosts {s s' : Conf} {sec : Section} (hrun : sec.run true s = some s') :
    ∃ hs, sec.record s = some hs ∧
      s'.hosts = s.hosts ++ hs.filter fun h => h.passwd.isSome := by
  cases sec with
  | options acts =>
    obtain rfl := Option.some.inj hrun
    exact ⟨[], rfl, (List.append_nil _).symm⟩
  | default acts =>
    obtain ⟨w, -, hw⟩ := Option.bind_eq_some_iff.mp hrun
    obtain rfl := Option.some.inj hw
    exact ⟨[], rfl, (List.append_nil _).symm⟩
  | host name acts =>
    obtain ⟨h, hopen, hrest⟩ := Option.bind_eq_some_iff.mp hrun
    obtain ⟨w, hacts, hw⟩ := Option.bind_eq_some_iff.mp hrest
    obtain rfl := Option.some.inj hw
    refine ⟨[w.h], ?_, ?_⟩
    · rw [Section.record, hopen]
      simp only [Option.bind_eq_bind, Option.bind_some, hacts]
    · cases hpasswd : w.h.passwd <;> simp [hpasswd]

theorem HoldsHosts.endHosts (mal : Malloc) {m : HostMem} {hosts : List ConfHost}
    {elms : List (Addr × Addr)} (hm : HoldsHosts m hosts elms) (hs : List ConfHost) :
    ∃ m' elms', hs.foldlM (HostMem.endHost mal) m = some m' ∧
      HoldsHosts m' (hosts ++ hs.filter fun h => h.passwd.isSome) elms' ∧
      m'.cfgLoaded = m.cfgLoaded := by
  induction hs generalizing m hosts elms with
  | nil => exact ⟨m, elms, rfl, by rwa [List.filter_nil, List.append_nil], rfl⟩
  | cons h hs ih =>
    obtain ⟨m₁, elms₁, hone, hm₁, hflag₁⟩ := hm.endHost mal h
    obtain ⟨m₂, elms₂, hrest, hm₂, hflag₂⟩ := ih hm₁
    refine ⟨m₂, elms₂, ?_, ?_, hflag₂.trans hflag₁⟩
    · rw [List.foldlM_cons, hone]
      exact hrest
    · rw [List.append_assoc] at hm₂
      cases hpasswd : h.passwd <;> simpa [hpasswd] using hm₂

/-- **A statement** keeps what the memory holds in step with the sessions. -/
theorem HoldsHosts.statement (mal : Malloc) {s s' : Conf} {m : HostMem} {elms : List (Addr × Addr)}
    (hm : HoldsHosts m s.hosts elms) {sec : Section} (hrun : sec.run true s = some s') :
    ∃ m' elms', HostMem.statement mal (s, m) sec = some (s', m') ∧ HoldsHosts m' s'.hosts elms' ∧
      m'.cfgLoaded = m.cfgLoaded := by
  obtain ⟨hs, hrecord, hhosts⟩ := Section.run_hosts hrun
  obtain ⟨m', elms', hend, hm', hflag⟩ := hm.endHosts mal hs
  refine ⟨m', elms', ?_, by rwa [hhosts], hflag⟩
  simp only [HostMem.statement, hrun, hrecord, hend, Option.bind_eq_bind, Option.bind_some]

/-- The same for the statements of a file. -/
theorem HoldsHosts.statements (mal : Malloc) {s s' : Conf} {m : HostMem} {elms : List (Addr × Addr)}
    (hm : HoldsHosts m s.hosts elms) {secs : List Section} (hrun : runSections s secs = some s') :
    ∃ m' elms', secs.foldlM (HostMem.statement mal) (s, m) = some (s', m') ∧
      HoldsHosts m' s'.hosts elms' ∧ m'.cfgLoaded = m.cfgLoaded := by
  induction secs generalizing s m elms with
  | nil =>
    obtain rfl := Option.some.inj hrun
    exact ⟨m, elms, rfl, hm, rfl⟩
  | cons sec secs ih =>
    obtain ⟨s₁, hone, hrest⟩ := Option.bind_eq_some_iff.mp hrun
    obtain ⟨m₁, elms₁, hstep, hm₁, hflag₁⟩ := hm.statement mal hone
    obtain ⟨m₂, elms₂, hall, hm₂, hflag₂⟩ := ih hm₁ hrest
    refine ⟨m₂, elms₂, ?_, hm₂, hflag₂.trans hflag₁⟩
    rw [List.foldlM_cons, hstep]
    exact hall

/-! ### The traversal -/

/-- Whether the record at an address is of the name `u`. -/
def Recs.named (s : Recs) (u : Option (List Byte)) (d : Addr) : Bool :=
  u.isSome && u = (s.recs.get d).map ConfHost.host

/-- What `free_host` makes of a complete record. -/
def Recs.pass (keep : Addr → Bool) (s : Recs) (d : Addr) : Recs :=
  if keep d then s.hand d else (s.hand d).free d

theorem Recs.pass_all (keep : Addr → Bool) (s : Recs) (ds : List Addr) :
    (ds.foldl (Recs.pass keep) s).handed = s.handed ++ ds ∧
      (ds.foldl (Recs.pass keep) s).released = s.released ++ ds.filter (fun d => !keep d) ∧
      ∀ a, (ds.foldl (Recs.pass keep) s).recs.get a =
        if a ∈ ds ∧ keep a = false then none else s.recs.get a := by
  induction ds generalizing s with
  | nil => simp
  | cons d ds ih =>
    obtain ⟨hhanded, hreleased, hget⟩ := ih (s.pass keep d)
    rw [List.foldl_cons]
    cases hkeep : keep d with
    | true =>
      have hpass : s.pass keep d = s.hand d := if_pos hkeep
      rw [hpass] at hhanded hreleased hget ⊢
      refine ⟨?_, ?_, fun a => ?_⟩
      · rw [hhanded, Recs.hand, List.append_assoc]
        rfl
      · rw [hreleased, List.filter_cons_of_neg (by simp [hkeep])]
        rfl
      · have hiff : a ∈ d :: ds ∧ keep a = false ↔ a ∈ ds ∧ keep a = false := by
          refine and_congr_left fun ha => ?_
          have hne : a ≠ d := by
            rintro rfl
            rw [hkeep] at ha
            cases ha
          rw [List.mem_cons, or_iff_right hne]
        rw [hget]
        simp only [hiff]
        rfl
    | false =>
      have hpass : s.pass keep d = (s.hand d).free d := if_neg (by rw [hkeep]; decide)
      rw [hpass] at hhanded hreleased hget ⊢
      refine ⟨?_, ?_, fun a => ?_⟩
      · rw [hhanded, Recs.free, Recs.hand, List.append_assoc]
        rfl
      · rw [hreleased, List.filter_cons_of_pos (by simp [hkeep]), Recs.free, List.append_assoc]
        rfl
      · rw [hget]
        by_cases had : a = d
        · rw [had, Recs.free, Heap.get_set_self, ite_self, if_pos ⟨by simp, hkeep⟩]
        · have hiff : a ∈ d :: ds ∧ keep a = false ↔ a ∈ ds ∧ keep a = false := by
            rw [List.mem_cons, or_iff_right had]
          rw [Recs.free, Heap.get_set_of_ne _ had]
          simp only [hiff]
          rfl

/-- **The list is taken apart**: every record is handed to `free_host` once, in order;
those of the name `u` stay, and the others are released. -/
theorem HoldsHosts.llistFree {m : HostMem} {hosts : List ConfHost} {elms : List (Addr × Addr)}
    (hm : HoldsHosts m hosts elms) (u : Option (List Byte)) :
    ∃ m', m.llistFree u =
        some (((elms.map Prod.snd).filter (m.recs.named u)).getLast?, m') ∧
      m'.recs = (elms.map Prod.snd).foldl (Recs.pass (m.recs.named u)) m.recs ∧
      (∀ x ∈ elms, m'.elms.get x.1 = if m.recs.named u x.2 then m.elms.get x.1 else none) ∧
      m'.list = llistInit ∧ m'.turn = m.turn ∧ m'.cfgLoaded = m.cfgLoaded := by
  have hcall : ∀ before d behind, elms.map Prod.snd = before ++ d :: behind →
      freeHost u (before.foldl (Recs.pass (m.recs.named u)) m.recs) d =
        some (m.recs.named u d,
          (before.foldl (Recs.pass (m.recs.named u)) m.recs).pass (m.recs.named u) d) := by
    intro before d behind heq
    have hnodup := hm.nodup
    rw [heq] at hnodup
    have hout : d ∉ before := fun hin =>
      (List.nodup_append.mp hnodup).2.2 d hin d (by simp) rfl
    obtain ⟨h, hh, hget⟩ := hm.mem (d := d) (by rw [heq]; simp)
    -- the records before have left this one alone
    have hnow : (before.foldl (Recs.pass (m.recs.named u)) m.recs).recs.get d = some h := by
      rw [((Recs.pass_all (m.recs.named u) m.recs before).2.2 d), if_neg fun hin => hout hin.1]
      exact hget
    by_cases hu : u = some h.host
    · have hname : m.recs.named u d = true := by
        rw [Recs.named, hget, hu]
        simp
      rw [freeHost_named hnow hu, Recs.pass, if_pos hname, hname]
    · have hname : m.recs.named u d = false := by
        rw [Recs.named, hget]
        cases u with
        | none => rfl
        | some name => simpa using hu
      rw [freeHost_other hnow hu (hm.complete h hh), Recs.pass, if_neg (by rw [hname]; decide),
        hname]
  obtain ⟨heap, hfree, hin, -⟩ := llistFree_spec hm.bound hm.list hcall
  refine ⟨⟨heap, _, llistInit, m.turn, m.cfgLoaded⟩, ?_, rfl, hin, rfl, rfl, rfl⟩
  rw [HostMem.llistFree, hfree]
  rfl

/-! ### Loads -/

/-- After a load has been read, or before any. -/
structure Booted (p : Conf × HostMem) : Prop where
  holds : ∃ elms, HoldsHosts p.2 p.1.hosts elms
  fresh : p.2.cfgLoaded = false → p.2.list = llistInit

theorem booted_init (v : VtunOpts) : Booted (Conf.init v, HostMem.init) :=
  ⟨⟨[], isLlist_init _, List.nodup_nil, rfl, by simp [Conf.init], Nat.le_refl 0⟩, fun _ => rfl⟩

/-- The records of an earlier load are released before the next. -/
theorem Booted.restart {p : Conf × HostMem} (hp : Booted p) :
    ∃ m, p.2.restart = some m ∧ HoldsHosts m [] [] ∧ m.cfgLoaded = true ∧ m.list = llistInit := by
  obtain ⟨elms, hm⟩ := hp.holds
  have hempty : ∀ m : HostMem,
      HoldsHosts { m with cfgLoaded := true, list := llistInit } [] [] := by
    intro m
    exact ⟨isLlist_init _, List.nodup_nil, rfl, by simp, Nat.zero_le _⟩
  rw [HostMem.restart]
  cases hflag : p.2.cfgLoaded with
  | false => exact ⟨_, rfl, hempty p.2, rfl, rfl⟩
  | true =>
    obtain ⟨m, hfree, -⟩ := hm.llistFree none
    exact ⟨_, by rw [if_pos rfl, HostMem.freeHostList, hfree]; rfl, hempty m, rfl, rfl⟩

theorem section_unfinished {s s' : Conf} {sec : Section} (hrun : sec.run false s = some s') :
    s'.hosts = s.hosts := by
  cases sec with
  | options acts =>
    obtain rfl := Option.some.inj hrun
    rfl
  | default acts =>
    obtain ⟨w, -, hw⟩ := Option.bind_eq_some_iff.mp hrun
    obtain rfl := Option.some.inj hw
    rfl
  | host name acts =>
    obtain ⟨h, -, hrest⟩ := Option.bind_eq_some_iff.mp hrun
    obtain ⟨w, -, hw⟩ := Option.bind_eq_some_iff.mp hrest
    obtain rfl := Option.some.inj hw
    rfl

/-- The sessions of a load are those of its whole statements. -/
theorem readConfig_hosts {pf : Platform} {s s' : Conf} {file : List Byte} {kept : ℕ}
    {sawEnd : Bool} {r : Parsed} (hparse : yyparse pf (s.lexer file) = some r)
    (hload : readConfig pf s ⟨some file, kept, sawEnd⟩ = some s') :
    ∃ s₁, runSections { s with hosts := [] } r.done = some s₁ ∧ s'.hosts = s₁.hosts := by
  rw [readConfig_parsed hparse] at hload
  obtain ⟨s₃, hsteps, rfl⟩ := Option.map_eq_some_iff.mp hload
  obtain ⟨s₂, hrun, hfree⟩ := Option.bind_eq_some_iff.mp hsteps
  obtain ⟨s₁, hdone, hcurrent⟩ := Option.bind_eq_some_iff.mp hrun
  refine ⟨s₁, hdone, ?_⟩
  show s₃.hosts = s₁.hosts
  rw [(freeDefault_eq hfree).2]
  cases hcase : r.current with
  | none =>
    rw [hcase] at hcurrent
    rw [Option.some.inj hcurrent]
  | some sec =>
    rw [hcase] at hcurrent
    have hone : sec.run false s₁ = some s₂ := by simpa using hcurrent
    exact section_unfinished hone

/-- **A load** keeps what the memory holds in step with the sessions. -/
theorem Booted.load {pf : Platform} (mal : Malloc) {p : Conf × HostMem} (hp : Booted p)
    {ev : Load} {s' : Conf} (hload : readConfig pf p.1 ev = some s') :
    ∃ m', readHosts pf mal p ev = some (s', m') ∧ Booted (s', m') := by
  obtain ⟨m, hrestart, hm, hset, hlist⟩ := hp.restart
  obtain ⟨file, kept, sawEnd⟩ := ev
  cases file with
  | none =>
    obtain rfl := Option.some.inj hload
    refine ⟨m, ?_, ⟨[], hm⟩, fun _ => hlist⟩
    simp only [readHosts, hrestart, hload, Option.bind_eq_bind, Option.bind_some]
  | some file =>
    obtain ⟨r, hparse⟩ := Option.isSome_iff_exists.mp (yyparse_isSome pf (p.1.lexer file))
    obtain ⟨s₁, hdone, hhosts⟩ := readConfig_hosts hparse hload
    obtain ⟨m', elms', hall, hm', hflag⟩ := HoldsHosts.statements mal
      (s := { p.1 with hosts := [] }) hm hdone
    refine ⟨m', ?_, ⟨elms', by rwa [hhosts]⟩, fun hunset => ?_⟩
    · simp only [readHosts, hrestart, hload, hparse, hall, Option.bind_eq_bind, Option.bind_some]
    · rw [show m'.cfgLoaded = true from hflag.trans hset] at hunset
      cases hunset

/-- **After any loads `host_list` holds the sessions of the last one.** -/
theorem loads_holds (mal : Malloc) {pf : Platform} {p : Conf × HostMem} (hp : Booted p)
    {loads : List Load} {s : Conf} (hrun : Run.exec (readConfig pf) p.1 loads = some s) :
    ∃ m, Run.exec (readHosts pf mal) p loads = some (s, m) ∧ Booted (s, m) := by
  have hstep : ∀ (s : Conf) (p : Conf × HostMem) ev s', p.1 = s ∧ Booted p →
      readConfig pf s ev = some s' →
      ∃ p', readHosts pf mal p ev = some p' ∧ p'.1 = s' ∧ Booted p' := by
    rintro s p ev s' ⟨rfl, hp⟩ hload
    obtain ⟨m', hone, hp'⟩ := hp.load mal hload
    exact ⟨_, hone, rfl, hp'⟩
  obtain ⟨p', hall, rfl, hp'⟩ := Run.exec_simulates hstep ⟨rfl, hp⟩ hrun
  exact ⟨p'.2, hall, hp'⟩

/-! ### The lookup -/

/-- The last of the sessions of a name. -/
def lastNamed (hosts : List ConfHost) (name : List Byte) : Option ConfHost :=
  (hosts.filter fun h => h.host = name).getLast?

theorem lastNamed_eq_none {hosts : List ConfHost} {name : List Byte} :
    lastNamed hosts name = none ↔ ∀ h ∈ hosts, h.host ≠ name := by
  rw [lastNamed, List.getLast?_eq_none_iff, List.filter_eq_nil_iff]
  simp

/-- The record of the last address of a name is the last session of the name. -/
theorem lastNamed_map {s : Recs} {hosts : List ConfHost} {ds : List Addr}
    (hds : ds.map s.recs.get = hosts.map some) (name : List Byte) :
    ((ds.filter (s.named (some name))).getLast?).bind s.recs.get = lastNamed hosts name := by
  induction ds using List.reverseRecOn generalizing hosts with
  | nil =>
    have hnil : hosts = [] := by simpa using hds.symm
    rw [hnil]
    rfl
  | append_singleton ds d ih =>
    rw [List.map_append, List.map_singleton] at hds
    obtain ⟨front, last, hsplit, hfront, hlast⟩ := List.map_eq_append_iff.mp hds.symm
    obtain ⟨h, rest, rfl, hget, hrest⟩ := List.map_eq_cons_iff.mp hlast
    obtain rfl := List.map_eq_nil_iff.mp hrest
    subst hsplit
    have hnamed : s.named (some name) d = decide (h.host = name) := by
      rw [Recs.named, ← hget]
      simp [eq_comm]
    rw [lastNamed, List.filter_append, List.filter_append]
    by_cases hname : h.host = name
    · rw [List.filter_cons_of_pos (by rw [hnamed]; simpa), List.filter_cons_of_pos (by simpa)]
      rw [List.filter_nil, List.filter_nil, List.getLast?_concat, List.getLast?_concat]
      exact hget.symm
    · rw [List.filter_cons_of_neg (by rw [hnamed]; simpa), List.filter_cons_of_neg (by simpa)]
      rw [List.filter_nil, List.filter_nil, List.append_nil, List.append_nil]
      exact ih hfront.symm

/-- The record that `auth_server` works with. -/
def ConfHost.vtunHost (h : ConfHost) : VtunHost where
  host := h.host
  passwd := h.passwd.getD []
  flags := h.flags
  spdIn := h.spdIn
  spdOut := h.spdOut
  zlevel := h.zlevel
  cipher := h.cipher
  multi := if h.multi = 1 then .allow else if h.multi = 2 then .kill else .deny

/-- The lookup of the server finds the last session of the name. -/
theorem findHost_vtunHost (hosts : List ConfHost) (name : List Byte) :
    Vtun.findHost (hosts.map ConfHost.vtunHost) (some name) =
      (lastNamed hosts name).map ConfHost.vtunHost := by
  induction hosts using List.reverseRecOn with
  | nil => rfl
  | append_singleton hosts h ih =>
    rw [Vtun.findHost] at ih ⊢
    rw [List.map_append, List.foldl_append, ih]
    show (if some name = some h.host then some h.vtunHost else _) = _
    rw [lastNamed, lastNamed, List.filter_append]
    by_cases hname : h.host = name
    · rw [if_pos (by rw [hname]), List.filter_cons_of_pos (by simpa), List.filter_nil,
        List.getLast?_concat]
      rfl
    · rw [if_neg (by simpa [eq_comm] using hname), List.filter_cons_of_neg (by simpa),
        List.filter_nil, List.append_nil]

/-- What `find_host` does to the list, with the records at the addresses `ds`. -/
theorem HoldsHosts.findHost {m : HostMem} {hosts : List ConfHost} {elms : List (Addr × Addr)}
    (hm : HoldsHosts m hosts elms) {ds : List Addr} (hds : elms.map Prod.snd = ds)
    (name : List Byte) :
    ∃ ff m', m.findHost name = some (ff, m') ∧
      (∀ d ∈ ff, d ∈ ds) ∧ ff.bind m'.recs.recs.get = lastNamed hosts name ∧
      (ff = none ↔ ∀ h ∈ hosts, h.host ≠ name) ∧
      m'.recs.handed = m.recs.handed ++ ds ∧
      m'.recs.released =
        m.recs.released ++ ds.filter (fun d => !m.recs.named (some name) d) ∧
      (∀ d ∈ ds, m'.recs.recs.get d =
        if m.recs.named (some name) d then m.recs.recs.get d else none) ∧
      m'.list = llistInit ∧ llistEmpty m'.list = true := by
  obtain ⟨m', hfree, hrecs, -, hlist, -⟩ := hm.llistFree (some name)
  obtain ⟨hhanded, hreleased, hget⟩ := Recs.pass_all (m.recs.named (some name)) m.recs ds
  rw [hds] at hfree hrecs
  rw [← hrecs] at hhanded hreleased hget
  have hin : ∀ d ∈ ds, m'.recs.recs.get d =
      if m.recs.named (some name) d then m.recs.recs.get d else none := by
    intro d hd
    rw [hget]
    cases hname : m.recs.named (some name) d <;> simp [hd]
  have hlast : ((ds.filter (m.recs.named (some name))).getLast?).bind m.recs.recs.get =
      lastNamed hosts name := by
    rw [← hds]
    exact lastNamed_map hm.recs name
  -- the record that is returned is still there
  have hff : ((ds.filter (m.recs.named (some name))).getLast?).bind m'.recs.recs.get =
      lastNamed hosts name := by
    rw [← hlast]
    cases hcase : (ds.filter (m.recs.named (some name))).getLast? with
    | none => rfl
    | some d =>
      obtain ⟨hd, hname⟩ := List.mem_filter.mp (List.mem_of_getLast? hcase)
      rw [Option.bind_some, Option.bind_some, hin d hd, if_pos hname]
  refine ⟨_, m', hfree, ?_, hff, ?_, hhanded, hreleased, hin, hlist, ?_⟩
  · intro d hd
    exact (List.mem_filter.mp (List.mem_of_getLast? hd)).1
  · rw [← lastNamed_eq_none, ← hlast]
    cases hcase : (ds.filter (m.recs.named (some name))).getLast? with
    | none => exact iff_of_true rfl rfl
    | some d =>
      have hd := (List.mem_filter.mp (List.mem_of_getLast? hcase)).1
      obtain ⟨h, -, hh⟩ := hm.mem (d := d) (by rw [hds]; exact hd)
      exact iff_of_false (by simp) (by rw [Option.bind_some, hh]; simp)
  · rw [hlist]
    rfl

/-- **`find_host`** behind any loads returns the last complete session of the name, or
`NULL` exactly if there is none.  Every record is handed to `free_host` once; those of
other names are released, once, and those of the name stay as they are.  The list is
empty afterwards. -/
theorem find_host_correct (pf : Platform) (mal : Malloc) (v : VtunOpts) {loads : List Load}
    {s : Conf} (hrun : Run.exec (readConfig pf) (Conf.init v) loads = some s) :
    ∃ m ds, Run.exec (readHosts pf mal) (Conf.init v, .init) loads = some (s, m) ∧
      ds.Nodup ∧ ds.map m.recs.recs.get = s.hosts.map some ∧
      ∀ name, ∃ ff m', m.findHost name = some (ff, m') ∧
        (∀ d ∈ ff, d ∈ ds) ∧ ff.bind m'.recs.recs.get = lastNamed s.hosts name ∧
        (ff = none ↔ ∀ h ∈ s.hosts, h.host ≠ name) ∧
        m'.recs.handed = m.recs.handed ++ ds ∧
        m'.recs.released =
          m.recs.released ++ ds.filter (fun d => !m.recs.named (some name) d) ∧
        (∀ d ∈ ds, m'.recs.recs.get d =
          if m.recs.named (some name) d then m.recs.recs.get d else none) ∧
        m'.list = llistInit ∧ llistEmpty m'.list = true := by
  obtain ⟨m, hmem, ⟨elms, hm⟩, -⟩ := loads_holds mal (booted_init v) hrun
  exact ⟨m, _, hmem, hm.nodup, hm.recs, fun name => hm.findHost rfl name⟩

/-- A `malloc` that never hands out an address twice. -/
def boundMalloc : Malloc where
  elm _ heap := heap.bound
  host _ heap := heap.bound
  elm_fresh _ heap := heap.room _ (Nat.le_refl _)
  host_fresh _ heap := heap.room _ (Nat.le_refl _)

/-- A file with two sessions of one name, one of another, and one without a
password. -/
def twoLions : List Byte :=
  lit "lion {passwd a;} cow {passwd b;} lion {passwd c;} lion {type tun;}"

/-- The second is found. -/
theorem find_host_lion : ∃ s m ff m',
    Run.exec (readHosts .lp64 boundMalloc) (Conf.init (mainOpts (-1)), .init)
        [⟨some twoLions, 0, false⟩] = some (s, m) ∧
      m.findHost (lit "lion") = some (ff, m') ∧
      (ff.bind m'.recs.recs.get).map ConfHost.passwd = some (some (lit "c")) := by
  have hval : (Run.exec (readConfig .lp64) (Conf.init (mainOpts (-1)))
      [⟨some twoLions, 0, false⟩]).map (fun s => (lastNamed s.hosts (lit "lion")).map
        ConfHost.passwd) = some (some (some (lit "c"))) := by
    decide
  obtain ⟨s, hrun, hlast⟩ := Option.map_eq_some_iff.mp hval
  obtain ⟨m, ds, hmem, -, -, hall⟩ := find_host_correct .lp64 boundMalloc (mainOpts (-1)) hrun
  obtain ⟨ff, m', hfind, -, hff, -⟩ := hall (lit "lion")
  exact ⟨s, m, ff, m', hmem, hfind, by rw [hff, hlast]⟩

end Vtun
