/-
The flags of configured sessions (`cfg_file.y`).

Every parameter word arrives as a number, and five of the options put their number
into the flag word as it is, whatever bits it has.  So what a session ends up with
depends on all the numbers written since the field was cleared.

* `flagsMade_mask` — the bits of a field are those of the numbers written to it since;
* `session_flags` — the sessions that a load leaves have well-formed flags exactly
  if their options are disciplined;
* `session_flags_stray` — a session of a type that does not exist.
-/
import Vtun.CfgHost
import Vtun.Flags
import Vtun.Lib.LastWrite
import Vtun.Lib.Run

namespace Vtun

open LastWrite

/-! ### The options of a session -/

/-- The options of the default sections. -/
def defaults (secs : List Section) : List HostAct :=
  secs.flatMap fun
    | .default acts => acts
    | _ => []

/-- For each complete session, the options that lead to its record: those of the
default sections before it, and its own. -/
def listed (inherited : List HostAct) : List Section → List (List HostAct)
  | [] => []
  | .options _ :: secs => listed inherited secs
  | .default acts :: secs => listed (inherited ++ acts) secs
  | .host _ acts :: secs =>
    if (last Mention.passwd acts).isSome then (inherited ++ acts) :: listed inherited secs
    else listed inherited secs

/-- The flags behind a list of options. -/
def flagsMade (f : BitVec 32) (acts : List HostAct) : BitVec 32 :=
  acts.foldl (fun f a => a.flags f) f

theorem flagsMade_append (f : BitVec 32) (acts acts' : List HostAct) :
    flagsMade f (acts ++ acts') = flagsMade (flagsMade f acts) acts' := List.foldl_append

/-- An option on the flags and the password of a record. -/
theorem run_flags {main : Bool} {w w' : Work} {a : HostAct} (h : HostAct.run main w a = some w') :
    w'.h.flags = a.flags w.h.flags ∧ w'.h.passwd = (Mention.passwd a).or w.h.passwd := by
  cases a with
  | device s =>
    obtain ⟨cells, -, hw⟩ := Option.bind_eq_some_iff.mp h
    cases main <;>
    · obtain rfl := Option.some.inj hw
      exact ⟨rfl, rfl⟩
  | _ =>
    obtain rfl := Option.some.inj h
    constructor <;> simp only [HostAct.fields, ConfHost.mapCmds] <;> try split
    all_goals rfl

theorem foldlM_flags {main : Bool} {w w' : Work} {acts : List HostAct}
    (h : acts.foldlM (HostAct.run main) w = some w') :
    w'.h.flags = flagsMade w.h.flags acts ∧
      w'.h.passwd = (last Mention.passwd acts).or w.h.passwd := by
  induction acts using List.reverseRecOn generalizing w' with
  | nil =>
    obtain rfl := Option.some.inj h
    exact ⟨rfl, rfl⟩
  | append_singleton acts a ih =>
    rw [List.foldlM_append] at h
    obtain ⟨t, ht, hlast⟩ := Option.bind_eq_some_iff.mp h
    have hone : HostAct.run main t a = some w' := by simpa using hlast
    obtain ⟨hflags, hpasswd⟩ := ih ht
    obtain ⟨hflags', hpasswd'⟩ := run_flags hone
    rw [hflags', hflags, hpasswd', hpasswd, flagsMade_append, last_snoc, Option.or_assoc]
    exact ⟨rfl, rfl⟩

/-- The sessions of a process have the flags of lists of options. -/
def FlagsOf (hosts : List ConfHost) (acts : List (List HostAct)) : Prop :=
  List.Forall₂ (fun h acts => h.flags = flagsMade defaultHost.flags acts) hosts acts

/-- A statement, whole or not, on the flags of the default record and of the
sessions. -/
theorem section_flags {whole : Bool} {s s' : Conf} {sec : Section} {inherited : List HostAct}
    {acts : List (List HostAct)} (h : Section.run whole s sec = some s')
    (hdefault : s.default.flags = flagsMade defaultHost.flags inherited)
    (hhosts : FlagsOf s.hosts acts) :
    s'.default.flags = flagsMade defaultHost.flags (inherited ++ defaults [sec]) ∧
      FlagsOf s'.hosts (acts ++ if whole then listed inherited [sec] else []) := by
  cases sec with
  | options oacts =>
    obtain rfl := Option.some.inj h
    cases whole <;> simpa [defaults, listed] using ⟨hdefault, hhosts⟩
  | default dacts =>
    obtain ⟨w, hw, hs⟩ := Option.bind_eq_some_iff.mp h
    obtain rfl := Option.some.inj hs
    obtain ⟨hflags, -⟩ := foldlM_flags hw
    refine ⟨?_, by cases whole <;> simpa [listed] using hhosts⟩
    rw [flagsMade_append, ← hdefault]
    simpa [defaults] using hflags
  | host name hacts =>
    obtain ⟨h₀, hopen, hrest⟩ := Option.bind_eq_some_iff.mp h
    obtain ⟨w, hw, hs⟩ := Option.bind_eq_some_iff.mp hrest
    obtain rfl := Option.some.inj hs
    obtain ⟨hflags, hpasswd⟩ := foldlM_flags hw
    have hnew : h₀.flags = s.default.flags ∧ h₀.passwd = none := by
      obtain ⟨up, -, hup⟩ := Option.bind_eq_some_iff.mp hopen
      obtain ⟨down, -, hdown⟩ := Option.bind_eq_some_iff.mp hup
      obtain rfl := Option.some.inj hdown
      exact ⟨rfl, rfl⟩
    rw [hnew.1, hdefault, ← flagsMade_append] at hflags
    rw [hnew.2, Option.or_none] at hpasswd
    refine ⟨by simpa [defaults] using hdefault, ?_⟩
    cases whole with
    | false => simpa using hhosts
    | true =>
      simp only [hpasswd, true_and, if_true, listed]
      split
      · exact List.rel_append hhosts (.cons hflags .nil)
      · simpa using hhosts

theorem defaults_append (secs secs' : List Section) :
    defaults (secs ++ secs') = defaults secs ++ defaults secs' := List.flatMap_append

theorem listed_append (inherited : List HostAct) (secs secs' : List Section) :
    listed inherited (secs ++ secs') =
      listed inherited secs ++ listed (inherited ++ defaults secs) secs' := by
  induction secs generalizing inherited with
  | nil => simp [listed, defaults]
  | cons sec secs ih =>
    cases sec with
    | options acts => simp [listed, defaults, ih]
    | default acts => simp [listed, defaults, ih, List.append_assoc]
    | host name acts =>
      simp only [List.cons_append, listed, ih]
      split <;> simp [defaults]

theorem sections_flags {whole : Bool} {s s' : Conf} {secs : List Section}
    {inherited : List HostAct} {acts : List (List HostAct)}
    (h : secs.foldlM (Section.run whole) s = some s')
    (hdefault : s.default.flags = flagsMade defaultHost.flags inherited)
    (hhosts : FlagsOf s.hosts acts) :
    s'.default.flags = flagsMade defaultHost.flags (inherited ++ defaults secs) ∧
      FlagsOf s'.hosts (acts ++ if whole then listed inherited secs else []) := by
  induction secs using List.reverseRecOn generalizing s' with
  | nil =>
    obtain rfl := Option.some.inj h
    cases whole <;> simpa [defaults, listed] using ⟨hdefault, hhosts⟩
  | append_singleton secs sec ih =>
    rw [List.foldlM_append] at h
    obtain ⟨t, ht, hlast⟩ := Option.bind_eq_some_iff.mp h
    have hone : Section.run whole t sec = some s' := by simpa using hlast
    obtain ⟨hdefault', hhosts'⟩ := ih ht
    obtain ⟨hflags, hlisted⟩ := section_flags hone hdefault' hhosts'
    rw [defaults_append, ← List.append_assoc, listed_append]
    refine ⟨hflags, ?_⟩
    cases whole with
    | false => simpa using hlisted
    | true => simpa using hlisted

/-! ### Loads -/

/-- The options of the default sections that a load goes through. -/
def loadDefaults (pf : Platform) (s : Conf) (ev : Load) : List HostAct :=
  match ev.file with
  | none => []
  | some file =>
    match yyparse pf (s.lexer file) with
    | none => []
    | some r => defaults (r.done ++ r.current.toList)

theorem loadDefaults_eq {pf : Platform} {s : Conf} {file : List Byte} {r : Parsed}
    (hparse : yyparse pf (s.lexer file) = some r) (kept : ℕ) (sawEnd : Bool) :
    loadDefaults pf s ⟨some file, kept, sawEnd⟩ = defaults r.done ++ defaults r.current.toList := by
  simp only [loadDefaults, hparse, defaults_append]

/-- A load, with the default options of all loads so far. -/
def loadStep (pf : Platform) (s : Conf × List HostAct) (ev : Load) : Option (Conf × List HostAct) :=
  (readConfig pf s.1 ev).map fun s' => (s', s.2 ++ loadDefaults pf s.1 ev)

theorem freeDefault_eq {s s' : Conf} (h : freeDefault s = some s') :
    s'.default.flags = s.default.flags ∧ s'.hosts = s.hosts := by
  rw [freeDefault] at h
  split at h
  · cases h
  · obtain rfl := Option.some.inj h
    exact ⟨rfl, rfl⟩

/-- **The flags behind a load**, of the default record and of the sessions. -/
theorem load_flags {pf : Platform} {s s' : Conf} {inherited : List HostAct} {file : List Byte}
    {kept : ℕ} {sawEnd : Bool} {r : Parsed} (hparse : yyparse pf (s.lexer file) = some r)
    (hload : readConfig pf s ⟨some file, kept, sawEnd⟩ = some s')
    (hdefault : s.default.flags = flagsMade defaultHost.flags inherited) :
    s'.default.flags =
        flagsMade defaultHost.flags (inherited ++ loadDefaults pf s ⟨some file, kept, sawEnd⟩) ∧
      FlagsOf s'.hosts (listed inherited r.done) := by
  rw [readConfig_parsed hparse] at hload
  obtain ⟨s₃, hsteps, rfl⟩ := Option.map_eq_some_iff.mp hload
  obtain ⟨s₂, hrun, hfree⟩ := Option.bind_eq_some_iff.mp hsteps
  obtain ⟨s₁, hdone, hcurrent⟩ := Option.bind_eq_some_iff.mp hrun
  have hnil : FlagsOf { s with hosts := [] }.hosts [] := .nil
  obtain ⟨hflags₁, hhosts₁⟩ := sections_flags hdone hdefault hnil
  obtain ⟨hflags₂, hhosts₂⟩ := sections_flags hcurrent hflags₁ hhosts₁
  obtain ⟨hflags₃, hhosts₃⟩ := freeDefault_eq hfree
  constructor
  · show s₃.default.flags = _
    rw [hflags₃, hflags₂, loadDefaults_eq hparse, List.append_assoc]
  · show FlagsOf s₃.hosts _
    rw [hhosts₃]
    simpa using hhosts₂

/-- The default record has the flags of all default options so far. -/
theorem loads_flags {pf : Platform} {v : VtunOpts} {loads : List Load} {s : Conf}
    {inherited : List HostAct}
    (hrun : Run.exec (loadStep pf) (Conf.init v, []) loads = some (s, inherited)) :
    s.default.flags = flagsMade defaultHost.flags inherited := by
  let inv : Conf × List HostAct → Prop := fun s =>
    s.1.default.flags = flagsMade defaultHost.flags s.2
  have hstart : inv (Conf.init v, []) := rfl
  show inv (s, inherited)
  refine Run.exec_preserves (fun s ev s' h hs => ?_) hstart hrun
  obtain ⟨t, ht, rfl⟩ := Option.map_eq_some_iff.mp hs
  obtain ⟨file, kept, sawEnd⟩ := ev
  cases file with
  | none =>
    obtain rfl := Option.some.inj ht
    simpa [loadDefaults] using h
  | some file =>
    obtain ⟨r, hparse⟩ := Option.isSome_iff_exists.mp (yyparse_isSome pf (s.1.lexer file))
    exact (load_flags hparse ht h).1

/-! ### The fields of the flag word -/

/-- The numbers written to a field since it was cleared. -/
def written (mask : BitVec 32) (acts : List HostAct) : List (BitVec 32) :=
  words (fun a => decide (a.clears = mask)) HostAct.sets defaultHost.flags acts

/-- The fields that sessions are checked for. -/
def checked : List (BitVec 32) :=
  [Flag.typeMask, Flag.protMask, Flag.zlib ||| Flag.lzo, Flag.encrypt]

/-- An option clears such a field, or leaves it alone. -/
theorem clears_field {mask : BitVec 32} (hmask : mask ∈ checked) (a : HostAct) :
    a.clears = mask ∨ a.clears &&& mask = 0 := by
  simp only [checked, List.mem_cons, List.not_mem_nil, or_false] at hmask
  rcases hmask with rfl | rfl | rfl | rfl <;> cases a <;> simp only [HostAct.clears] <;> decide

theorem flags_cleared {f mask : BitVec 32} {a : HostAct} (h : a.clears = mask) :
    a.flags f &&& mask = a.sets &&& mask := by
  rw [HostAct.flags_eq, or_and_eq, h]
  have hzero : f &&& ~~~mask &&& mask = 0 := by
    ext i hi
    simp
  rw [hzero]
  exact BitVec.zero_or

theorem flags_kept {f mask : BitVec 32} {a : HostAct} (h : a.clears &&& mask = 0) :
    a.flags f &&& mask = (f ||| a.sets) &&& mask := by
  rw [HostAct.flags_eq, or_and_eq, or_and_eq]
  have hkept : f &&& ~~~a.clears &&& mask = f &&& mask := by
    ext i hi
    have hbit : (a.clears &&& mask)[i] = false := by simp [h]
    simp only [BitVec.getElem_and, BitVec.getElem_not] at hbit ⊢
    cases f[i] <;> cases hc : a.clears[i] <;> simp [hc] at hbit ⊢
    exact hbit
  rw [hkept]

/-- The bits of a field that every option clears or leaves alone. -/
theorem flagsMade_field {mask : BitVec 32}
    (hmask : ∀ a : HostAct, a.clears = mask ∨ a.clears &&& mask = 0) (acts : List HostAct) :
    flagsMade defaultHost.flags acts &&& mask = orAll (written mask acts) &&& mask := by
  refine foldl_masked (fun f a h => ?_) (fun f a h => ?_) _ _
  · exact flags_cleared (of_decide_eq_true h)
  · rcases hmask a with hclears | hkeeps
    · exact absurd hclears (of_decide_eq_false h)
    · exact flags_kept hkeeps

/-- **The bits of a field are those of the numbers written to it** since it was
cleared. -/
theorem flagsMade_mask {mask : BitVec 32} (hmask : mask ∈ checked) (acts : List HostAct) :
    flagsMade defaultHost.flags acts &&& mask = orAll (written mask acts) &&& mask :=
  flagsMade_field (clears_field hmask) acts

/-- A bit of such a field is set if one of the numbers has it. -/
theorem hasFlag_field {mask bit : BitVec 32}
    (hmask : ∀ a : HostAct, a.clears = mask ∨ a.clears &&& mask = 0)
    (hbit : mask &&& bit = bit) (acts : List HostAct) :
    hasFlag (flagsMade defaultHost.flags acts) bit = true ↔
      ∃ x ∈ written mask acts, hasFlag x bit = true := by
  have hfield : flagsMade defaultHost.flags acts &&& bit = orAll (written mask acts) &&& bit := by
    rw [← hbit, ← BitVec.and_assoc, ← BitVec.and_assoc, flagsMade_field hmask]
  have hzero : ¬ orAll (written mask acts) &&& bit = 0 ↔ ¬ ∀ x ∈ written mask acts, x &&& bit = 0 :=
    orAll_and_eq_zero.not
  rw [hasFlag, hfield, bne_iff_ne, ne_eq, hzero]
  simp [hasFlag]

/-! ### Well-formed flags -/

/-- The flags of a session are as the rest of the program wants them: the device
and protocol switches select a driver, `bf2cf` writes a letter for each, at most
one compression is on, and encryption only where one of the options asks for it. -/
structure FlagsOk (flags : BitVec 32) (acts : List HostAct) : Prop where
  oneOfEach : OneOfEach flags
  letters : (protLetter flags).length = 1 ∧ (typeLetter flags).length = 1
  compress : ¬ (hasFlag flags Flag.zlib = true ∧ hasFlag flags Flag.lzo = true)
  encrypt : hasFlag flags Flag.encrypt = true → ∃ n ≠ 0, HostAct.encrypt n ∈ acts

/-- The tunnel types. -/
def types : List (BitVec 32) := [Flag.tty, Flag.pipe, Flag.ether, Flag.tun]

/-- The protocols. -/
def prots : List (BitVec 32) := [Flag.tcp, Flag.udp]

/-- The options of a session are disciplined: the numbers written since the last
`type` amount to one of the types, those since the last `proto` to one of the
protocols, those since the last `compress` do not have both compressions, and
without an `encrypt` that asks for it none has the bit of encryption. -/
structure Disciplined (acts : List HostAct) : Prop where
  type : ∃ b ∈ types, Amount Flag.typeMask b (written Flag.typeMask acts)
  prot : ∃ b ∈ prots, Amount Flag.protMask b (written Flag.protMask acts)
  compress : ¬ ((∃ x ∈ written (Flag.zlib ||| Flag.lzo) acts, hasFlag x Flag.zlib = true) ∧
    ∃ x ∈ written (Flag.zlib ||| Flag.lzo) acts, hasFlag x Flag.lzo = true)
  encrypt : (∃ n ≠ 0, HostAct.encrypt n ∈ acts) ∨
    ∀ x ∈ written Flag.encrypt acts, hasFlag x Flag.encrypt = false

theorem oneOfEach_iff {flags : BitVec 32} :
    OneOfEach flags ↔ flags &&& Flag.protMask ∈ prots ∧ flags &&& Flag.typeMask ∈ types := by
  constructor
  · rintro ⟨hprot, htype⟩
    exact ⟨by simpa [prots] using hprot, by simpa [types] using htype⟩
  · rintro ⟨hprot, htype⟩
    exact ⟨by simpa [prots] using hprot, by simpa [types] using htype⟩

/-- One letter each. -/
theorem OneOfEach.letters {flags : BitVec 32} (h : OneOfEach flags) :
    (protLetter flags).length = 1 ∧ (typeLetter flags).length = 1 := by
  constructor
  · rw [protLetter]
    rcases h.prot with h | h <;> rw [h] <;> rfl
  · rw [typeLetter]
    rcases h.type with h | h | h | h <;> rw [h] <;> rfl

/-- The bits of a field amount to one of its values. -/
theorem flagsMade_mem {mask : BitVec 32} (hmask : mask ∈ checked) {bits : List (BitVec 32)}
    (hbits : ∀ b ∈ bits, ∃ i < 32, b = BitVec.twoPow 32 i) (acts : List HostAct) :
    flagsMade defaultHost.flags acts &&& mask ∈ bits ↔
      ∃ b ∈ bits, Amount mask b (written mask acts) := by
  rw [flagsMade_mask hmask]
  constructor
  · intro hmem
    obtain ⟨i, hi, hb⟩ := hbits _ hmem
    refine ⟨_, hmem, ?_⟩
    rw [hb]
    exact (orAll_eq_bit hi).mp hb
  · rintro ⟨b, hb, hamount⟩
    obtain ⟨i, hi, rfl⟩ := hbits b hb
    rwa [(orAll_eq_bit hi).mpr hamount]

theorem types_bits : ∀ b ∈ types, ∃ i < 32, b = BitVec.twoPow 32 i := by
  simp only [types, List.forall_mem_cons]
  exact ⟨⟨8, by decide, rfl⟩, ⟨9, by decide, rfl⟩, ⟨10, by decide, rfl⟩, ⟨11, by decide, rfl⟩,
    by simp⟩

theorem prots_bits : ∀ b ∈ prots, ∃ i < 32, b = BitVec.twoPow 32 i := by
  simp only [prots, List.forall_mem_cons]
  exact ⟨⟨4, by decide, rfl⟩, ⟨5, by decide, rfl⟩, by simp⟩

/-- A bit of a field is set if one of the numbers has it. -/
theorem hasFlag_flagsMade {mask bit : BitVec 32} (hmask : mask ∈ checked)
    (hbit : mask &&& bit = bit) (acts : List HostAct) :
    hasFlag (flagsMade defaultHost.flags acts) bit = true ↔
      ∃ x ∈ written mask acts, hasFlag x bit = true :=
  hasFlag_field (clears_field hmask) hbit acts

/-- **Well-formed flags are those of disciplined options.** -/
theorem flagsOk_iff (acts : List HostAct) :
    FlagsOk (flagsMade defaultHost.flags acts) acts ↔ Disciplined acts := by
  have htype : flagsMade defaultHost.flags acts &&& Flag.typeMask ∈ types ↔ _ :=
    flagsMade_mem (by simp [checked]) types_bits acts
  have hprot : flagsMade defaultHost.flags acts &&& Flag.protMask ∈ prots ↔ _ :=
    flagsMade_mem (by simp [checked]) prots_bits acts
  have hcompress : Flag.zlib ||| Flag.lzo ∈ checked := by simp [checked]
  have hencrypt : Flag.encrypt ∈ checked := by simp [checked]
  have hz : (Flag.zlib ||| Flag.lzo) &&& Flag.zlib = Flag.zlib := by decide
  have hl : (Flag.zlib ||| Flag.lzo) &&& Flag.lzo = Flag.lzo := by decide
  have hzlib := hasFlag_flagsMade hcompress hz acts
  have hlzo := hasFlag_flagsMade hcompress hl acts
  have henc := hasFlag_flagsMade hencrypt (BitVec.and_self : _ = Flag.encrypt) acts
  constructor
  · intro h
    obtain ⟨hp, ht⟩ := oneOfEach_iff.mp h.oneOfEach
    refine ⟨htype.mp ht, hprot.mp hp, ?_, ?_⟩
    · rw [← hzlib, ← hlzo]
      exact h.compress
    · by_cases hset : hasFlag (flagsMade defaultHost.flags acts) Flag.encrypt = true
      · exact .inl (h.encrypt hset)
      · refine .inr fun x hx => ?_
        by_contra hbit
        exact hset (henc.mpr ⟨x, hx, by simpa using hbit⟩)
  · intro h
    have hone : OneOfEach (flagsMade defaultHost.flags acts) :=
      oneOfEach_iff.mpr ⟨hprot.mpr h.prot, htype.mpr h.type⟩
    refine ⟨hone, hone.letters, ?_, fun hset => ?_⟩
    · rw [hzlib, hlzo]
      exact h.compress
    · obtain ⟨x, hx, hbit⟩ := henc.mp hset
      rcases h.encrypt with hasked | hnone
      · exact hasked
      · rw [hnone x hx] at hbit
        cases hbit

theorem forall₂_flagsOk {hosts : List ConfHost} {acts : List (List HostAct)}
    (h : FlagsOf hosts acts) :
    List.Forall₂ (fun h acts => FlagsOk h.flags acts) hosts acts ↔ ∀ as ∈ acts, Disciplined as := by
  induction h with
  | nil => simp
  | cons hflags _ ih => rw [List.forall₂_cons, ih, hflags, flagsOk_iff, List.forall_mem_cons]

/-- **The sessions that a load leaves have well-formed flags exactly if their
options are disciplined**, whatever the process has loaded before; the default
options of earlier loads are among the options that lead to a record. -/
theorem session_flags (pf : Platform) (v : VtunOpts) (loads : List Load) (s s' : Conf)
    (inherited : List HostAct) (file : List Byte) (kept : ℕ) (sawEnd : Bool) (r : Parsed)
    (hrun : Run.exec (loadStep pf) (Conf.init v, []) loads = some (s, inherited))
    (hparse : yyparse pf (s.lexer file) = some r)
    (hload : readConfig pf s ⟨some file, kept, sawEnd⟩ = some s') :
    List.Forall₂ (fun h acts => FlagsOk h.flags acts) s'.hosts (listed inherited r.done) ↔
      ∀ acts ∈ listed inherited r.done, Disciplined acts := by
  have hhosts := (load_flags hparse hload (loads_flags hrun)).2
  exact forall₂_flagsOk hhosts

/-- A file with a session that inherits its type and asks for encryption. -/
def plainFile : List Byte :=
  lit "default \x7b\n type tun; proto udp;\n\x7d\n" ++
    lit "lion \x7b\n passwd x; encrypt yes; compress lzo:9;\n\x7d\n"

/-- That session, after a load of nothing. -/
theorem session_flags_plain :
    ∃ (r : Parsed) (s' : Conf),
      yyparse .lp64 ((Conf.init (mainOpts (-1))).lexer plainFile) = some r ∧ r.ok = true ∧
      List.Forall₂ (fun h acts => FlagsOk h.flags acts) s'.hosts (listed [] r.done) ∧
      s'.hosts.length = 1 := by
  have hparsed : (yyparse .lp64 ((Conf.init (mainOpts (-1))).lexer plainFile)).any (fun r =>
      r.ok && listed [] r.done == [[.type 0x800, .prot 0x20, .passwd (lit "x"), .encrypt 1,
        .compressStart, .compressPair 2 9]]) = true := by decide
  have hloaded : (readConfig .lp64 (Conf.init (mainOpts (-1))) ⟨some plainFile, 0, false⟩).any
      (fun s => s.hosts.length = 1) = true := by decide
  obtain ⟨r, hr, hok⟩ := (Option.any_eq_true _ _).mp hparsed
  obtain ⟨s', hs', hlen⟩ := (Option.any_eq_true _ _).mp hloaded
  obtain ⟨hok, hlisted⟩ := Bool.and_eq_true_iff.mp hok
  refine ⟨r, s', hr, hok, ?_, of_decide_eq_true hlen⟩
  refine (session_flags .lp64 (mainOpts (-1)) [] _ s' [] plainFile 0 false r rfl hr hs').mpr ?_
  rw [eq_of_beq hlisted]
  intro acts hacts
  obtain rfl := List.mem_singleton.mp hacts
  refine ⟨⟨Flag.tun, by simp [types], by decide⟩,
    ⟨Flag.udp, by simp [prots], by decide⟩, ?_, .inl ⟨1, by decide, by simp⟩⟩
  rintro ⟨⟨x, hx, hzlib⟩, -⟩
  have hnone : (written (Flag.zlib ||| Flag.lzo) [.type 0x800, .prot 0x20, .passwd (lit "x"),
      .encrypt 1, .compressStart, .compressPair 2 9]).all (fun x => !hasFlag x Flag.zlib) =
        true := by decide
  have hbit := List.all_eq_true.mp hnone x hx
  rw [hzlib] at hbit
  cases hbit

/-- A file with a type that does not exist. -/
def strayFile : List Byte := lit "lion \x7b\n passwd x;\n type 5;\n\x7d\n"

/-- **A number where a type is expected goes through**: the file is accepted, and
its session has no type but both compressions. -/
theorem session_flags_stray :
    ∃ (r : Parsed) (s' : Conf) (h : ConfHost),
      yyparse .lp64 ((Conf.init (mainOpts (-1))).lexer strayFile) = some r ∧ r.ok = true ∧
      readConfig .lp64 (Conf.init (mainOpts (-1))) ⟨some strayFile, 0, false⟩ = some s' ∧
      h ∈ s'.hosts ∧ ¬ OneOfEach h.flags := by
  have hparsed : (yyparse .lp64 ((Conf.init (mainOpts (-1))).lexer strayFile)).any (·.ok) =
      true := by decide
  have hloaded : (readConfig .lp64 (Conf.init (mainOpts (-1))) ⟨some strayFile, 0, false⟩).any
      (fun s => s.hosts.any fun h => !decide (OneOfEach h.flags)) = true := by decide
  obtain ⟨r, hr, hok⟩ := (Option.any_eq_true _ _).mp hparsed
  obtain ⟨s', hs', hany⟩ := (Option.any_eq_true _ _).mp hloaded
  obtain ⟨h, hmem, hbad⟩ := List.any_eq_true.mp hany
  exact ⟨r, s', h, hr, hok, hs', hmem, by simpa using hbad⟩

end Vtun
