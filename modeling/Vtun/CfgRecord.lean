/-
What the record of a session holds (`cfg_file.y`).

For every option a record holds the value of its last mention: in the session's own
section, or else in the default sections before it.  The words that are put into the
flag word as they are must not have bits of other options.

* `made_last` — the value of the last mention, for options of one or two actions;
* `foldl_commands` — a block of commands replaces those that were there;
* `inheritsFrom_iff` — apart from its device every session inherits as it should.
-/
import Vtun.CfgPlan
import Vtun.CfgFlags

namespace Vtun

open LastWrite (last last_snoc)

/-! ### What options mention -/

namespace Mention

def multi : HostAct → Option Int32
  | .multi n => some n
  | _ => none

def timeout : HostAct → Option Int32
  | .timeout n => some n
  | _ => none

/-- The speeds in and out, or none. -/
def speed : HostAct → Option (Option (Int32 × Int32))
  | .speed n => some (if n ≠ 0 then some (n, n) else none)
  | .speeds n₁ n₂ => some (if n₁ ≠ 0 ∨ n₂ ≠ 0 then some (n₂, n₁) else none)
  | _ => none

/-- The method and the level of compression, or none. -/
def compress : HostAct → Option (Option (BitVec 32 × Int32))
  | .compress n => some (if n ≠ 0 then some (Flag.zlib, n) else none)
  | .compressPair n₁ n₂ => some (if n₁.toBitVec ≠ 0 then some (n₁.toBitVec, n₂) else none)
  | _ => none

/-- The cipher, or none. -/
def encrypt : HostAct → Option (Option Int32)
  | .encrypt n => some (if n ≠ 0 then some n else none)
  | _ => none

def keepAlive : HostAct → Option Bool
  | .kalive n => some (n ≠ 0)
  | .kalivePair n₁ _ => some (n₁ ≠ 0)
  | _ => none

/-- The interval and the number of failures of `keepalive`. -/
def kaTimes : HostAct → Option (Int32 × Int32)
  | .kalivePair n₁ n₂ => if n₁ ≠ 0 then some (n₁, n₂) else none
  | _ => none

def stat : HostAct → Option Bool
  | .stat n => some (n ≠ 0)
  | _ => none

def persist : HostAct → Option Int32
  | .persist n => some n
  | _ => none

def type : HostAct → Option (BitVec 32)
  | .type n => some n.toBitVec
  | _ => none

def prot : HostAct → Option (BitVec 32)
  | .prot n => some n.toBitVec
  | _ => none

def natHack : HostAct → Option (BitVec 32)
  | .natHack n => some n.toBitVec
  | _ => none

def srcAddr : HostAct → Option (AddrType × List Byte)
  | .srcName s => some (.name, s)
  | .srcIface s => some (.iface, s)
  | _ => none

def srcPort : HostAct → Option Int32
  | .srcPort n => some n
  | _ => none

end Mention

/-- The commands of the last `up` or `down` block. -/
def commandsStep (d : Dir) (cmds : List Cmd) : HostAct → List Cmd
  | .cmdsStart d' => if d' = d then [] else cmds
  | .prog d' cmd => if d' = d then cmds ++ [cmd] else cmds
  | _ => cmds

/-- The commands that a list of options leaves. -/
def commands (d : Dir) (acts : List HostAct) : List Cmd := acts.foldl (commandsStep d) []

/-! ### What a record holds -/

def ConfHost.cmds (h : ConfHost) : Dir → List Cmd
  | .up => h.up
  | .down => h.down

def ConfHost.speed (h : ConfHost) : Option (Int32 × Int32) :=
  if h.flags &&& Flag.shape ≠ 0 then some (h.spdIn, h.spdOut) else none

def ConfHost.compression (h : ConfHost) : Option (BitVec 32 × Int32) :=
  if h.flags &&& (Flag.zlib ||| Flag.lzo) ≠ 0 then
    some (h.flags &&& (Flag.zlib ||| Flag.lzo), h.zlevel)
  else none

def ConfHost.encryption (h : ConfHost) : Option Int32 :=
  if h.flags &&& Flag.encrypt ≠ 0 then some h.cipher else none

/-! ### Well-formed values -/

/-- The numbers that are put into the flag word as they are have no bits of other
options. -/
def HostAct.WellFormed : HostAct → Prop
  | .type n => n.toBitVec &&& ~~~Flag.typeMask = 0
  | .prot n => n.toBitVec &&& ~~~Flag.protMask = 0
  | .natHack n => n.toBitVec &&& ~~~Flag.natHackMask = 0
  | .compressPair n _ => n.toBitVec &&& ~~~(Flag.zlib ||| Flag.lzo) = 0
  | _ => True

/-- The options of a section have well-formed values. -/
def Section.WellFormed : Section → Prop
  | .options _ => True
  | .default acts | .host _ acts => ∀ a ∈ acts, a.WellFormed

/-- Options as they stand in the plan of a file with well-formed values. -/
structure Regular (acts : List HostAct) : Prop where
  grouped : Grouped acts
  wellFormed : ∀ a ∈ acts, a.WellFormed
  resolved : ∀ a ∈ acts, ∀ d t args, a ≠ .tool d t args

/-- The options of two actions. -/
theorem HostAct.opens_cases {a b : HostAct} (h : a.opens b = true) :
    a = .compressStart ∧ ((∃ n, b = .compress n) ∨ ∃ n₁ n₂, b = .compressPair n₁ n₂) ∨
      a = .kaliveStart ∧ ((∃ n, b = .kalive n) ∨ ∃ n₁ n₂, b = .kalivePair n₁ n₂) := by
  cases a with
  | compressStart =>
    cases b with
    | compress n => exact Or.inl ⟨rfl, Or.inl ⟨n, rfl⟩⟩
    | compressPair n₁ n₂ => exact Or.inl ⟨rfl, Or.inr ⟨n₁, n₂, rfl⟩⟩
    | _ => cases h
  | kaliveStart =>
    cases b with
    | kalive n => exact Or.inr ⟨rfl, Or.inl ⟨n, rfl⟩⟩
    | kalivePair n₁ n₂ => exact Or.inr ⟨rfl, Or.inr ⟨n₁, n₂, rfl⟩⟩
    | _ => cases h
  | _ => simp [HostAct.opens] at h

theorem Grouped.append {acts acts' : List HostAct} (h : Grouped acts) (h' : Grouped acts') :
    Grouped (acts ++ acts') := by
  induction h' with
  | nil => simpa using h
  | one _ hsingle hcmd ih =>
    rw [← List.append_assoc]
    exact .one ih hsingle fun d hd => List.mem_append_right _ (hcmd d hd)
  | pair _ hopens ih =>
    rw [← List.append_assoc, ← List.append_assoc]
    exact .pair ih hopens

theorem Grouped.resolve (tool : Tool → List Byte) {acts : List HostAct} (h : Grouped acts) :
    Grouped (acts.map (HostAct.resolve tool)) := by
  induction h with
  | nil => exact .nil
  | @one acts a _ hsingle hcmd ih =>
    rw [List.map_append]
    refine .one ih (by cases a <;> first | rfl | cases hsingle) fun d hd => ?_
    have hcmd' : a.cmdDir = some d := by cases a <;> exact hd
    exact List.mem_map.mpr ⟨_, hcmd d hcmd', rfl⟩
  | @pair acts a b _ hopens ih =>
    rw [List.map_append, List.map_append]
    refine .pair ih ?_
    obtain ⟨rfl, ⟨n, rfl⟩ | ⟨n₁, n₂, rfl⟩⟩ | ⟨rfl, ⟨n, rfl⟩ | ⟨n₁, n₂, rfl⟩⟩ :=
      HostAct.opens_cases hopens <;> rfl

theorem HostAct.opens_cmdDir {a b : HostAct} (h : a.opens b = true) :
    a.cmdDir = none ∧ b.cmdDir = none := by
  obtain ⟨rfl, ⟨n, rfl⟩ | ⟨n₁, n₂, rfl⟩⟩ | ⟨rfl, ⟨n, rfl⟩ | ⟨n₁, n₂, rfl⟩⟩ :=
    HostAct.opens_cases h <;> exact ⟨rfl, rfl⟩

theorem Grouped.cmd {acts : List HostAct} (h : Grouped acts) {a : HostAct} (ha : a ∈ acts)
    {d : Dir} (hd : a.cmdDir = some d) : HostAct.cmdsStart d ∈ acts := by
  induction h with
  | nil => cases ha
  | one _ _ hcmd ih =>
    refine List.mem_append_left _ ?_
    rcases List.mem_append.mp ha with ha | ha
    · exact ih ha
    · obtain rfl := List.mem_singleton.mp ha
      exact hcmd d hd
  | @pair acts b c _ hopens ih =>
    refine List.mem_append_left _ (List.mem_append_left _ ?_)
    rcases List.mem_append.mp ha with ha | ha
    · rcases List.mem_append.mp ha with ha | ha
      · exact ih ha
      · obtain rfl := List.mem_singleton.mp ha
        rw [(HostAct.opens_cmdDir hopens).1] at hd
        cases hd
    · obtain rfl := List.mem_singleton.mp ha
      rw [(HostAct.opens_cmdDir hopens).2] at hd
      cases hd

theorem Regular.append {acts acts' : List HostAct} (h : Regular acts) (h' : Regular acts') :
    Regular (acts ++ acts') where
  grouped := h.grouped.append h'.grouped
  wellFormed := List.forall_mem_append.mpr ⟨h.wellFormed, h'.wellFormed⟩
  resolved := List.forall_mem_append.mpr ⟨h.resolved, h'.resolved⟩

theorem regular_nil : Regular [] :=
  ⟨.nil, List.forall_mem_nil _, List.forall_mem_nil _⟩

/-- The options of a section, resolved. -/
theorem regular_resolve (tool : Tool → List Byte) {acts : List HostAct} (h : Grouped acts)
    (hwell : ∀ a ∈ acts, a.WellFormed) : Regular (acts.map (HostAct.resolve tool)) where
  grouped := h.resolve tool
  wellFormed := fun b hb => by
    obtain ⟨a, ha, rfl⟩ := List.mem_map.mp hb
    have ha := hwell a ha
    cases a <;> exact ha
  resolved := fun b hb d t args heq => by
    obtain ⟨a, -, rfl⟩ := List.mem_map.mp hb
    cases a <;> cases heq

/-! ### The value of the last mention -/

section Made

variable {β : Type} {get : ConfHost → β} {mention : HostAct → Option β} {acts : List HostAct}

/-- **The value of the last mention**, for options that may have two actions. -/
theorem made_last (hreg : Regular acts)
    (hone : ∀ h a, a.single = true → a.WellFormed →
      get (HostAct.make h a) = (mention a).getD (get h))
    (hpair : ∀ h a b, a.opens b = true → b.WellFormed →
      get (HostAct.make (HostAct.make h a) b) = (mention b).getD (get h))
    (hfirst : ∀ a b, a.opens b = true → mention a = none) (h : ConfHost) :
    get (made h acts) = (last mention acts).getD (get h) := by
  obtain ⟨hgrouped, hwell, -⟩ := hreg
  induction hgrouped with
  | nil => rfl
  | @one acts a _ hsingle _ ih =>
    rw [List.forall_mem_append] at hwell
    rw [made_append, last_snoc]
    show get (HostAct.make (made h acts) a) = _
    rw [hone _ _ hsingle (hwell.2 a (List.mem_singleton.mpr rfl)), ih hwell.1]
    cases mention a <;> rfl
  | @pair acts a b _ hopens ih =>
    rw [List.append_assoc, List.forall_mem_append] at hwell
    rw [last_snoc, last_snoc, hfirst a b hopens, List.append_assoc, made_append]
    show get (HostAct.make (HostAct.make (made h acts) a) b) = _
    rw [hpair _ _ _ hopens (hwell.2 b (by simp)), ih hwell.1]
    cases mention b <;> rfl

/-- The same for options of one action. -/
theorem made_last_single (hreg : Regular acts)
    (hone : ∀ h a, a.WellFormed → get (HostAct.make h a) = (mention a).getD (get h))
    (hfirst : ∀ a b, a.opens b = true → mention a = none) (h : ConfHost) :
    get (made h acts) = (last mention acts).getD (get h) := by
  refine made_last hreg (fun h a _ hwell => hone h a hwell) (fun h a b hopens hwell => ?_) hfirst h
  have hstart : a.WellFormed := by cases a <;> trivial
  rw [hone _ b hwell, hone _ a hstart, hfirst a b hopens]
  rfl

end Made

/-! ### Flags -/

/-- The flags of an option. -/
def HostAct.group : HostAct → BitVec 32
  | .speed _ | .speeds _ _ => Flag.shape
  | .compressStart | .compress _ | .compressPair _ _ => Flag.zlib ||| Flag.lzo
  | .encrypt _ => Flag.encrypt
  | .kaliveStart | .kalive _ | .kalivePair _ _ => Flag.keepAlive
  | .stat _ => Flag.stat
  | .type _ => Flag.typeMask
  | .prot _ => Flag.protMask
  | .natHack _ => Flag.natHackMask
  | _ => 0

theorem HostAct.sets_group {a : HostAct} (h : a.WellFormed) : a.sets &&& ~~~a.group = 0 := by
  cases a <;> simp only [HostAct.sets, HostAct.group] <;> try split
  all_goals first | exact h | decide

theorem HostAct.clears_group (a : HostAct) : a.clears &&& ~~~a.group = 0 := by
  cases a <;> simp only [HostAct.clears, HostAct.group] <;> decide

theorem apart_of_group {x g m : BitVec 32} (hx : x &&& ~~~g = 0) (hm : g &&& m = 0) :
    x &&& m = 0 := by
  ext i hi
  have h₁ : (x &&& ~~~g)[i] = false := by simp [hx]
  have h₂ : (g &&& m)[i] = false := by simp [hm]
  simp only [BitVec.getElem_and, BitVec.getElem_not] at h₁ h₂
  simp only [BitVec.getElem_and]
  cases hxi : x[i] <;> cases hgi : g[i] <;> simp_all

theorem and_of_group {x g : BitVec 32} (hx : x &&& ~~~g = 0) : x &&& g = x := by
  ext i hi
  have h : (x &&& ~~~g)[i] = false := by simp [hx]
  simp only [BitVec.getElem_and, BitVec.getElem_not] at h ⊢
  cases hxi : x[i] <;> cases hgi : g[i] <;> simp_all

theorem HostAct.flags_make (h : ConfHost) (a : HostAct) :
    (HostAct.make h a).flags = a.flags h.flags := by
  cases a <;> simp only [HostAct.make, HostAct.fields, ConfHost.mapCmds] <;> try split
  all_goals rfl

/-- Flags of other options stay. -/
theorem HostAct.flags_apart {a : HostAct} (hwell : a.WellFormed) {m : BitVec 32}
    (hm : a.group &&& m = 0) (h : ConfHost) :
    (HostAct.make h a).flags &&& m = h.flags &&& m := by
  rw [HostAct.flags_make, flags_kept (apart_of_group a.clears_group hm), LastWrite.or_and_eq,
    apart_of_group (HostAct.sets_group hwell) hm]
  exact BitVec.or_zero

/-- Flags of an option that clears them are those it sets. -/
theorem HostAct.flags_set {a : HostAct} (hwell : a.WellFormed) (hclears : a.clears = a.group)
    (h : ConfHost) : (HostAct.make h a).flags &&& a.group = a.sets := by
  rw [HostAct.flags_make, flags_cleared hclears, and_of_group (HostAct.sets_group hwell)]

/-- The flags that an option of two actions leaves. -/
theorem HostAct.flags_pair {a b : HostAct} (hopens : a.opens b = true) (hwell : b.WellFormed)
    (h : ConfHost) : (HostAct.make (HostAct.make h a) b).flags &&& b.group = b.sets := by
  have hclears : a.clears = b.group ∧ a.sets = 0 ∧ b.clears = 0 := by
    obtain ⟨rfl, ⟨n, rfl⟩ | ⟨n₁, n₂, rfl⟩⟩ | ⟨rfl, ⟨n, rfl⟩ | ⟨n₁, n₂, rfl⟩⟩ :=
      HostAct.opens_cases hopens <;> exact ⟨rfl, rfl, rfl⟩
  obtain ⟨hclears, hsets, hkeeps⟩ := hclears
  rw [HostAct.flags_make, flags_kept (by rw [hkeeps]; exact BitVec.zero_and),
    LastWrite.or_and_eq, HostAct.flags_make, flags_cleared hclears, hsets,
    and_of_group (HostAct.sets_group hwell)]
  show 0#32 &&& b.group ||| b.sets = b.sets
  rw [BitVec.zero_and, BitVec.zero_or]

/-! ### One option on what a record holds -/

section Fields

variable (h : ConfHost) {a b : HostAct}

theorem multi_make : (HostAct.make h a).multi = (Mention.multi a).getD h.multi := by
  cases a <;> simp only [HostAct.make, HostAct.fields, ConfHost.mapCmds] <;> try split
  all_goals rfl

theorem timeout_make : (HostAct.make h a).timeout = (Mention.timeout a).getD h.timeout := by
  cases a <;> simp only [HostAct.make, HostAct.fields, ConfHost.mapCmds] <;> try split
  all_goals rfl

theorem persist_make : (HostAct.make h a).persist = (Mention.persist a).getD h.persist := by
  cases a <;> simp only [HostAct.make, HostAct.fields, ConfHost.mapCmds] <;> try split
  all_goals rfl

theorem srcPort_make : (HostAct.make h a).srcPort = (Mention.srcPort a).getD h.srcPort := by
  cases a <;> simp only [HostAct.make, HostAct.fields, ConfHost.mapCmds] <;> try split
  all_goals rfl

theorem srcAddr_make : (HostAct.make h a).srcAddr = (Mention.srcAddr a).or h.srcAddr := by
  cases a <;> simp only [HostAct.make, HostAct.fields, ConfHost.mapCmds] <;> try split
  all_goals rfl

theorem kaTimes_make : ((HostAct.make h a).kaInterval, (HostAct.make h a).kaMaxfail) =
    (Mention.kaTimes a).getD (h.kaInterval, h.kaMaxfail) := by
  cases a <;> simp only [HostAct.make, HostAct.fields, ConfHost.mapCmds, Mention.kaTimes] <;>
    try split
  all_goals rfl

theorem type_make (hwell : a.WellFormed) : (HostAct.make h a).flags &&& Flag.typeMask =
    (Mention.type a).getD (h.flags &&& Flag.typeMask) := by
  cases a with
  | type n => exact HostAct.flags_set hwell rfl h
  | _ => exact HostAct.flags_apart hwell (by simp only [HostAct.group]; decide) h

theorem prot_make (hwell : a.WellFormed) : (HostAct.make h a).flags &&& Flag.protMask =
    (Mention.prot a).getD (h.flags &&& Flag.protMask) := by
  cases a with
  | prot n => exact HostAct.flags_set hwell rfl h
  | _ => exact HostAct.flags_apart hwell (by simp only [HostAct.group]; decide) h

theorem natHack_make (hwell : a.WellFormed) : (HostAct.make h a).flags &&& Flag.natHackMask =
    (Mention.natHack a).getD (h.flags &&& Flag.natHackMask) := by
  cases a with
  | natHack n => exact HostAct.flags_set hwell rfl h
  | _ => exact HostAct.flags_apart hwell (by simp only [HostAct.group]; decide) h

theorem stat_make (hwell : a.WellFormed) : hasFlag (HostAct.make h a).flags Flag.stat =
    (Mention.stat a).getD (hasFlag h.flags Flag.stat) := by
  rw [hasFlag, hasFlag]
  cases a with
  | stat n =>
    have hset := HostAct.flags_set hwell rfl h
    simp only [HostAct.group, HostAct.sets] at hset
    rw [hset]
    by_cases hn : n = 0 <;> simp [Mention.stat, hn, Flag.stat]
  | _ =>
    rw [HostAct.flags_apart hwell (by simp only [HostAct.group]; decide) h]
    rfl

theorem spd_make (ha : a.group &&& Flag.shape = 0) :
    (HostAct.make h a).spdIn = h.spdIn ∧ (HostAct.make h a).spdOut = h.spdOut := by
  cases a with
  | speed n => exact absurd ha (by simp only [HostAct.group]; decide)
  | speeds n₁ n₂ => exact absurd ha (by simp only [HostAct.group]; decide)
  | _ =>
    constructor <;> simp only [HostAct.make, HostAct.fields, ConfHost.mapCmds] <;> try split
    all_goals rfl

theorem cipher_make (ha : a.group &&& Flag.encrypt = 0) :
    (HostAct.make h a).cipher = h.cipher := by
  cases a with
  | encrypt n => exact absurd ha (by simp only [HostAct.group]; decide)
  | _ =>
    simp only [HostAct.make, HostAct.fields, ConfHost.mapCmds] <;> try split
    all_goals rfl

theorem zlevel_make (ha : a.group &&& (Flag.zlib ||| Flag.lzo) = 0) :
    (HostAct.make h a).zlevel = h.zlevel := by
  cases a with
  | compress n => exact absurd ha (by simp only [HostAct.group]; decide)
  | compressPair n₁ n₂ => exact absurd ha (by simp only [HostAct.group]; decide)
  | _ =>
    simp only [HostAct.make, HostAct.fields, ConfHost.mapCmds] <;> try split
    all_goals rfl

theorem speed_make (hwell : a.WellFormed) : (HostAct.make h a).speed =
    (Mention.speed a).getD h.speed := by
  rw [ConfHost.speed, ConfHost.speed]
  by_cases ha : a.group &&& Flag.shape = 0
  · have hnone : Mention.speed a = none := by
      cases a <;> first | rfl | exact absurd ha (by simp only [HostAct.group]; decide)
    rw [HostAct.flags_apart hwell ha h, (spd_make h ha).1, (spd_make h ha).2, hnone]
    rfl
  · have hset : a.clears = a.group → _ := fun hc => HostAct.flags_set hwell hc h
    cases a with
    | speed n =>
      simp only [HostAct.group, HostAct.sets] at hset
      rw [hset rfl]
      by_cases hn : n = 0 <;>
        simp [Mention.speed, hn, Flag.shape, HostAct.make, HostAct.fields]
    | speeds n₁ n₂ =>
      simp only [HostAct.group, HostAct.sets] at hset
      rw [hset rfl]
      by_cases hn : n₁ ≠ 0 ∨ n₂ ≠ 0
      · rw [if_pos hn, if_pos (by decide), Mention.speed, if_pos hn]
        simp [HostAct.make, HostAct.fields, hn]
      · rw [if_neg hn, if_neg (by decide), Mention.speed, if_neg hn]
        rfl
    | _ => exact absurd (by simp only [HostAct.group]; decide) ha

theorem encryption_make (hwell : a.WellFormed) : (HostAct.make h a).encryption =
    (Mention.encrypt a).getD h.encryption := by
  rw [ConfHost.encryption, ConfHost.encryption]
  by_cases ha : a.group &&& Flag.encrypt = 0
  · have hnone : Mention.encrypt a = none := by
      cases a <;> first | rfl | exact absurd ha (by simp only [HostAct.group]; decide)
    rw [HostAct.flags_apart hwell ha h, cipher_make h ha, hnone]
    rfl
  · have hset : a.clears = a.group → _ := fun hc => HostAct.flags_set hwell hc h
    cases a with
    | encrypt n =>
      simp only [HostAct.group, HostAct.sets] at hset
      rw [hset rfl]
      by_cases hn : n = 0 <;>
        simp [Mention.encrypt, hn, Flag.encrypt, HostAct.make, HostAct.fields]
    | _ => exact absurd (by simp only [HostAct.group]; decide) ha

theorem HostAct.opens_group (hopens : a.opens b = true) : a.group = b.group ∧ a.WellFormed := by
  obtain ⟨rfl, ⟨n, rfl⟩ | ⟨n₁, n₂, rfl⟩⟩ | ⟨rfl, ⟨n, rfl⟩ | ⟨n₁, n₂, rfl⟩⟩ :=
    HostAct.opens_cases hopens <;> exact ⟨rfl, trivial⟩

/-- An option of another group leaves the compression alone. -/
theorem compression_apart (hwell : a.WellFormed)
    (ha : a.group &&& (Flag.zlib ||| Flag.lzo) = 0) :
    (HostAct.make h a).compression = h.compression := by
  rw [ConfHost.compression, ConfHost.compression, HostAct.flags_apart hwell ha h,
    zlevel_make h ha]

theorem compression_pair (hopens : a.opens b = true) (hwell : b.WellFormed) :
    (HostAct.make (HostAct.make h a) b).compression = (Mention.compress b).getD h.compression := by
  by_cases hb : b.group &&& (Flag.zlib ||| Flag.lzo) = 0
  · obtain ⟨hgroup, hstart⟩ := HostAct.opens_group hopens
    have hnone : Mention.compress b = none := by
      cases b <;> first | rfl | exact absurd hb (by simp only [HostAct.group]; decide)
    rw [compression_apart _ hwell hb, compression_apart _ hstart (by rw [hgroup]; exact hb), hnone]
    rfl
  · have hset := HostAct.flags_pair hopens hwell h
    cases b with
    | compress n =>
      simp only [HostAct.group, HostAct.sets] at hset
      rw [ConfHost.compression, hset]
      by_cases hn : n = 0 <;>
        simp [Mention.compress, hn, Flag.zlib, HostAct.make, HostAct.fields]
    | compressPair n₁ n₂ =>
      simp only [HostAct.group, HostAct.sets] at hset
      rw [ConfHost.compression, hset]
      rfl
    | compressStart => simp [HostAct.opens] at hopens
    | _ => exact absurd (by simp only [HostAct.group]; decide) hb

theorem compression_single (hsingle : a.single = true) (hwell : a.WellFormed) :
    (HostAct.make h a).compression = (Mention.compress a).getD h.compression := by
  have ha : a.group &&& (Flag.zlib ||| Flag.lzo) = 0 ∧ Mention.compress a = none := by
    cases a <;> first | exact ⟨by simp only [HostAct.group]; decide, rfl⟩ | cases hsingle
  rw [compression_apart h hwell ha.1, ha.2]
  rfl

theorem keepAlive_apart (hwell : a.WellFormed) (ha : a.group &&& Flag.keepAlive = 0) :
    hasFlag (HostAct.make h a).flags Flag.keepAlive = hasFlag h.flags Flag.keepAlive := by
  rw [hasFlag, hasFlag, HostAct.flags_apart hwell ha h]

theorem keepAlive_pair (hopens : a.opens b = true) (hwell : b.WellFormed) :
    hasFlag (HostAct.make (HostAct.make h a) b).flags Flag.keepAlive =
      (Mention.keepAlive b).getD (hasFlag h.flags Flag.keepAlive) := by
  by_cases hb : b.group &&& Flag.keepAlive = 0
  · obtain ⟨hgroup, hstart⟩ := HostAct.opens_group hopens
    have hnone : Mention.keepAlive b = none := by
      cases b <;> first | rfl | exact absurd hb (by simp only [HostAct.group]; decide)
    rw [keepAlive_apart _ hwell hb, keepAlive_apart _ hstart (by rw [hgroup]; exact hb), hnone]
    rfl
  · have hset := HostAct.flags_pair hopens hwell h
    cases b with
    | kalive n =>
      simp only [HostAct.group, HostAct.sets] at hset
      rw [hasFlag, hset]
      by_cases hn : n = 0 <;> simp [Mention.keepAlive, hn, Flag.keepAlive]
    | kalivePair n₁ n₂ =>
      simp only [HostAct.group, HostAct.sets] at hset
      rw [hasFlag, hset]
      by_cases hn : n₁ = 0 <;> simp [Mention.keepAlive, hn, Flag.keepAlive]
    | kaliveStart => simp [HostAct.opens] at hopens
    | _ => exact absurd (by simp only [HostAct.group]; decide) hb

theorem keepAlive_single (hsingle : a.single = true) (hwell : a.WellFormed) :
    hasFlag (HostAct.make h a).flags Flag.keepAlive =
      (Mention.keepAlive a).getD (hasFlag h.flags Flag.keepAlive) := by
  have ha : a.group &&& Flag.keepAlive = 0 ∧ Mention.keepAlive a = none := by
    cases a <;> first | exact ⟨by simp only [HostAct.group]; decide, rfl⟩ | cases hsingle
  rw [keepAlive_apart h hwell ha.1, ha.2]
  rfl

/-- The commands of a record, for options that stand resolved. -/
theorem cmds_make (d : Dir) (hresolved : ∀ d t args, a ≠ .tool d t args) :
    (HostAct.make h a).cmds d = commandsStep d (h.cmds d) a := by
  cases a with
  | cmdsStart d' => cases d <;> cases d' <;> rfl
  | prog d' cmd => cases d <;> cases d' <;> rfl
  | tool d' t args => exact absurd rfl (hresolved d' t args)
  | _ =>
    simp only [HostAct.make, HostAct.fields]
    try split
    all_goals cases d <;> rfl

end Fields

theorem cmds_made (h : ConfHost) (d : Dir) {acts : List HostAct}
    (hresolved : ∀ a ∈ acts, ∀ d t args, a ≠ .tool d t args) :
    (made h acts).cmds d = acts.foldl (commandsStep d) (h.cmds d) := by
  induction acts using List.reverseRecOn with
  | nil => rfl
  | append_singleton acts a ih =>
    rw [List.forall_mem_append] at hresolved
    rw [made_append, List.foldl_append, ← ih hresolved.1]
    exact cmds_make _ d (hresolved.2 a (List.mem_singleton.mpr rfl))

/-- A block replaces the commands; without one they stay. -/
theorem foldl_commands {d : Dir} {acts : List HostAct} (hgrouped : Grouped acts)
    (cmds : List Cmd) :
    acts.foldl (commandsStep d) cmds =
      if .cmdsStart d ∈ acts then commands d acts else cmds := by
  split
  · rename_i hstart
    clear hgrouped
    rw [commands]
    induction acts using List.reverseRecOn with
    | nil => cases hstart
    | append_singleton acts a ih =>
      rw [List.foldl_append, List.foldl_append]
      rcases List.mem_append.mp hstart with hstart | hlast
      · rw [ih hstart]
      · obtain rfl := List.mem_singleton.mp hlast
        simp [commandsStep]
  · rename_i hnone
    have hother : ∀ a ∈ acts, ∀ cmds, commandsStep d cmds a = cmds := by
      intro a ha cmds
      cases a with
      | cmdsStart d' =>
        refine if_neg fun hd => hnone ?_
        rwa [← hd]
      | prog d' cmd =>
        refine if_neg fun hd => hnone ?_
        rw [← hd]
        exact hgrouped.cmd ha rfl
      | _ => rfl
    clear hgrouped hnone
    induction acts with
    | nil => rfl
    | cons a acts ih =>
      rw [List.foldl_cons, hother a (List.mem_cons_self ..)]
      exact ih fun b hb => hother b (List.mem_cons_of_mem _ hb)

/-- The default commands that are copied. -/
theorem Entry.copies_iff {e : Entry}
    (hresolved : ∀ a ∈ e.inherited, ∀ d t args, a ≠ .tool d t args) : e.copies = true ↔
    ∀ d, ∀ cmd ∈ commands d e.inherited, cmd.prog.isSome = true ∧ cmd.args.isSome = true := by
  have hcmds : ∀ d, (made defaultHost e.inherited).cmds d = commands d e.inherited := by
    intro d
    rw [cmds_made _ d hresolved]
    cases d <;> rfl
  have hwhole : ∀ cmd : Cmd, cmd.whole = true ↔
      cmd.prog.isSome = true ∧ cmd.args.isSome = true := fun cmd => Bool.and_eq_true_iff
  rw [Entry.copies, Bool.and_eq_true_iff, List.all_eq_true, List.all_eq_true]
  constructor
  · rintro ⟨hup, hdown⟩ d cmd hcmd
    rw [← hcmds] at hcmd
    cases d with
    | up => exact (hwhole cmd).mp (hup cmd hcmd)
    | down => exact (hwhole cmd).mp (hdown cmd hcmd)
  · intro h
    exact ⟨fun cmd hcmd => (hwhole cmd).mpr (h .up cmd (by rw [← hcmds]; exact hcmd)),
      fun cmd hcmd => (hwhole cmd).mpr (h .down cmd (by rw [← hcmds]; exact hcmd))⟩

/-! ### What a session inherits -/

/-- The value of an option for a session: of the last mention in its own section,
or else in the default sections before it, or else the built-in one. -/
def Entry.value {β : Type} (e : Entry) (mention : HostAct → Option β) (builtin : β) : β :=
  ((last mention e.own).or (last mention e.inherited)).getD builtin

/-- The record of a session carries for every option, passwords apart, what it
should. -/
structure InheritsFrom (e : Entry) (cells : List (Option (List Byte))) (h : ConfHost) : Prop where
  host : h.host = e.name
  device : devText cells h.dev =
    some ((last Mention.device e.own).or (last Mention.device e.inherited))
  multi : h.multi = e.value Mention.multi 1
  timeout : h.timeout = e.value Mention.timeout 30
  speed : h.speed = e.value Mention.speed none
  compress : h.compression = e.value Mention.compress none
  encrypt : h.encryption = e.value Mention.encrypt none
  keepAlive : hasFlag h.flags Flag.keepAlive = e.value Mention.keepAlive false
  kaTimes : (h.kaInterval, h.kaMaxfail) = e.value Mention.kaTimes (30, 4)
  stat : hasFlag h.flags Flag.stat = e.value Mention.stat false
  persist : h.persist = e.value Mention.persist 0
  type : h.flags &&& Flag.typeMask = e.value Mention.type Flag.tty
  prot : h.flags &&& Flag.protMask = e.value Mention.prot Flag.tcp
  natHack : h.flags &&& Flag.natHackMask = e.value Mention.natHack 0
  srcAddr : h.srcAddr = (last Mention.srcAddr e.own).or (last Mention.srcAddr e.inherited)
  srcPort : h.srcPort = e.value Mention.srcPort 0
  cmds : ∀ d, h.cmds d =
    if .cmdsStart d ∈ e.own then commands d e.own else commands d e.inherited

/-- The options of a session stand as in a plan. -/
structure Entry.Regular (e : Entry) : Prop where
  inherited : Vtun.Regular e.inherited
  own : Vtun.Regular e.own

section Entry

variable {e : Entry}

/-- What a session holds for an option that does not look at name, password and
device. -/
theorem Entry.host_value {β : Type} {get : ConfHost → β} {mention : HostAct → Option β}
    (hlast : ∀ acts, acts = e.own ∨ acts = e.inherited → ∀ h : ConfHost,
      get (made h acts) = (last mention acts).getD (get h))
    (hget : ∀ (h : ConfHost) (name : List Byte) (dev : Dev),
      get { h with host := name, passwd := none } = get h ∧ get { h with dev := dev } = get h)
    (base : ℕ) : get (e.host base) = e.value mention (get defaultHost) := by
  rw [Entry.host, (hget _ [] _).2, hlast _ (.inl rfl), (hget _ e.name .null).1,
    hlast _ (.inr rfl), Entry.value]
  cases last mention e.own <;> rfl

theorem Entry.Regular.acts (he : e.Regular) {acts : List HostAct}
    (h : acts = e.own ∨ acts = e.inherited) : Vtun.Regular acts := by
  rcases h with rfl | rfl
  · exact he.own
  · exact he.inherited

/-- An option of one action that has a field or a group of flags for itself. -/
theorem Entry.host_single {β : Type} {get : ConfHost → β} {mention : HostAct → Option β}
    (he : e.Regular)
    (hone : ∀ h a, a.WellFormed → get (HostAct.make h a) = (mention a).getD (get h))
    (hfirst : ∀ a b, a.opens b = true → mention a = none)
    (hget : ∀ (h : ConfHost) (name : List Byte) (dev : Dev),
      get { h with host := name, passwd := none } = get h ∧ get { h with dev := dev } = get h)
    (base : ℕ) : get (e.host base) = e.value mention (get defaultHost) :=
  Entry.host_value (fun _ hacts h => made_last_single (he.acts hacts) hone hfirst h) hget base

/-- An option that may have two actions. -/
theorem Entry.host_pair {β : Type} {get : ConfHost → β} {mention : HostAct → Option β}
    (he : e.Regular)
    (hone : ∀ h a, a.single = true → a.WellFormed →
      get (HostAct.make h a) = (mention a).getD (get h))
    (hpair : ∀ h a b, a.opens b = true → b.WellFormed →
      get (HostAct.make (HostAct.make h a) b) = (mention b).getD (get h))
    (hfirst : ∀ a b, a.opens b = true → mention a = none)
    (hget : ∀ (h : ConfHost) (name : List Byte) (dev : Dev),
      get { h with host := name, passwd := none } = get h ∧ get { h with dev := dev } = get h)
    (base : ℕ) : get (e.host base) = e.value mention (get defaultHost) :=
  Entry.host_value (fun _ hacts h => made_last (he.acts hacts) hone hpair hfirst h) hget base

theorem Entry.host_cmds (he : e.Regular) (base : ℕ) (d : Dir) :
    (e.host base).cmds d =
      if .cmdsStart d ∈ e.own then commands d e.own else commands d e.inherited := by
  have hdefault : (made defaultHost e.inherited).cmds d = commands d e.inherited := by
    rw [cmds_made _ d he.inherited.resolved]
    cases d <;> rfl
  have hstart : ({ made defaultHost e.inherited with host := e.name, passwd := none } :
      ConfHost).cmds d = commands d e.inherited := by
    rw [← hdefault]
    cases d <;> rfl
  rw [← foldl_commands he.own.grouped, ← hstart, ← cmds_made _ d he.own.resolved, Entry.host]
  cases d <;> rfl

theorem Entry.host_host (base : ℕ) : (e.host base).host = e.name := by
  have hname : ∀ (h : ConfHost) (acts : List HostAct), (made h acts).host = h.host := by
    intro h acts
    induction acts using List.reverseRecOn with
    | nil => rfl
    | append_singleton acts a ih =>
      rw [made_append, ← ih]
      show (HostAct.make _ a).host = _
      cases a <;> simp only [HostAct.make, HostAct.fields, ConfHost.mapCmds] <;> try split
      all_goals rfl
  exact hname _ e.own

theorem Entry.host_srcAddr (base : ℕ) : (e.host base).srcAddr =
    (last Mention.srcAddr e.own).or (last Mention.srcAddr e.inherited) := by
  have hmade : ∀ (h : ConfHost) (acts : List HostAct),
      (made h acts).srcAddr = (last Mention.srcAddr acts).or h.srcAddr :=
    fun h acts => LastWrite.foldl_last_or (fun h a => @srcAddr_make h a) h acts
  show (made { made defaultHost e.inherited with host := e.name, passwd := none } e.own).srcAddr = _
  rw [hmade]
  show (last Mention.srcAddr e.own).or (made defaultHost e.inherited).srcAddr = _
  rw [hmade, show defaultHost.srcAddr = none from rfl, Option.or_none]

/-- The first actions of options of two mention nothing. -/
theorem first_mentions {β : Type} {mention : HostAct → Option β}
    (hc : mention .compressStart = none) (hk : mention .kaliveStart = none) (a b : HostAct)
    (hopens : a.opens b = true) : mention a = none := by
  obtain ⟨rfl, -⟩ | ⟨rfl, -⟩ := HostAct.opens_cases hopens
  · exact hc
  · exact hk

/-- **Apart from its device every session inherits as it should.** -/
theorem inheritsFrom_iff (he : e.Regular) (base : ℕ) (cells : List (Option (List Byte))) :
    InheritsFrom e cells (e.host base) ↔ devText cells (e.host base).dev =
      some ((last Mention.device e.own).or (last Mention.device e.inherited)) := by
  refine ⟨fun h => h.device, fun hdevice => ?_⟩
  exact {
    host := Entry.host_host base
    device := hdevice
    multi := Entry.host_single he (fun h _ _ => multi_make h) (first_mentions rfl rfl)
      (fun _ _ _ => ⟨rfl, rfl⟩) base
    timeout := Entry.host_single he (fun h _ _ => timeout_make h) (first_mentions rfl rfl)
      (fun _ _ _ => ⟨rfl, rfl⟩) base
    speed := Entry.host_single he (fun h _ hw => speed_make h hw) (first_mentions rfl rfl)
      (fun _ _ _ => ⟨rfl, rfl⟩) base
    compress := Entry.host_pair he (fun h _ hs hw => compression_single h hs hw)
      (fun h _ _ ho hw => compression_pair h ho hw) (first_mentions rfl rfl)
      (fun _ _ _ => ⟨rfl, rfl⟩) base
    encrypt := Entry.host_single he (fun h _ hw => encryption_make h hw) (first_mentions rfl rfl)
      (fun _ _ _ => ⟨rfl, rfl⟩) base
    keepAlive := @Entry.host_pair e _ (fun h => hasFlag h.flags Flag.keepAlive) _ he
      (fun h _ hs hw => keepAlive_single h hs hw) (fun h _ _ ho hw => keepAlive_pair h ho hw)
      (first_mentions rfl rfl) (fun _ _ _ => ⟨rfl, rfl⟩) base
    kaTimes := @Entry.host_single e _ (fun h => (h.kaInterval, h.kaMaxfail)) _ he
      (fun h _ _ => kaTimes_make h) (first_mentions rfl rfl) (fun _ _ _ => ⟨rfl, rfl⟩) base
    stat := @Entry.host_single e _ (fun h => hasFlag h.flags Flag.stat) _ he
      (fun h _ hw => stat_make h hw) (first_mentions rfl rfl) (fun _ _ _ => ⟨rfl, rfl⟩) base
    persist := Entry.host_single he (fun h _ _ => persist_make h) (first_mentions rfl rfl)
      (fun _ _ _ => ⟨rfl, rfl⟩) base
    type := @Entry.host_single e _ (fun h => h.flags &&& Flag.typeMask) _ he
      (fun h _ hw => type_make h hw) (first_mentions rfl rfl) (fun _ _ _ => ⟨rfl, rfl⟩) base
    prot := @Entry.host_single e _ (fun h => h.flags &&& Flag.protMask) _ he
      (fun h _ hw => prot_make h hw) (first_mentions rfl rfl) (fun _ _ _ => ⟨rfl, rfl⟩) base
    natHack := @Entry.host_single e _ (fun h => h.flags &&& Flag.natHackMask) _ he
      (fun h _ hw => natHack_make h hw) (first_mentions rfl rfl) (fun _ _ _ => ⟨rfl, rfl⟩) base
    srcAddr := Entry.host_srcAddr base
    srcPort := Entry.host_single he (fun h _ _ => srcPort_make h) (first_mentions rfl rfl)
      (fun _ _ _ => ⟨rfl, rfl⟩) base
    cmds := Entry.host_cmds he base }

end Entry

end Vtun
