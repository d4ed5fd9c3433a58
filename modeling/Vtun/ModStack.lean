/-
The stack of frame modules (`linkfd.c`).

The modules are static nodes of a doubly linked list whose head and tail
outlive the sessions of a process.  `linkfd` adds the modules the host's flags
select, allocates them, runs the linker and frees them; a failing allocation
leaves before the list is cleared.

* `lfdAddMod_linked` — adding a fresh module extends an intact stack;
* `buildStack_of_empty` — from an empty stack the linker is entered with exactly
  the selected modules, linked both ways;
* `buildStack_not_intact` — from a stack left behind it never is;
* `stack_intact_iff` — over every sequence of sessions, the stack is intact at
  every entry of the linker iff no entry comes right after a session that
  failed to allocate its modules.
-/
import Vtun.Host
import Vtun.Lib.Chain

namespace Vtun

open Chain

/-- The module structures of the process. -/
inductive Module
  | zlib
  | lzo
  | encrypt
  | legacyEncrypt
  | shaper
  deriving DecidableEq, Repr

instance : Fintype Module where
  elems := {.zlib, .lzo, .encrypt, .legacyEncrypt, .shaper}
  complete mod := by cases mod <;> decide

/-- `lfd_mod_head`, `lfd_mod_tail` and the links of the nodes. -/
structure ModList where
  head : Option Module
  tail : Option Module
  next : Module → Option Module
  prev : Module → Option Module

/-- The static initialisation. -/
def ModList.init : ModList := ⟨none, none, fun _ => none, fun _ => none⟩

/-- `lfd_add_mod`. -/
def lfdAddMod (s : ModList) (mod : Module) : ModList :=
  match s.head, s.tail with
  | none, _ =>
    { head := some mod
      tail := some mod
      next := Function.update s.next mod none
      prev := Function.update s.prev mod none }
  | some _, some t =>
    { s with
      next := Function.update (Function.update s.next t (some mod)) mod none
      prev := Function.update s.prev mod (some t)
      tail := some mod }
  -- a head without a tail never occurs
  | some _, none => s

/-- The stack `linkfd` builds for a host. -/
def buildStack (s : ModList) (host : VtunHost) : ModList :=
  let s := if hasFlag host.flags Flag.zlib then lfdAddMod s .zlib else s
  let s := if hasFlag host.flags Flag.lzo then lfdAddMod s .lzo else s
  let s :=
    if hasFlag host.flags Flag.encrypt then
      if host.cipher = legacyEncrypt then lfdAddMod s .legacyEncrypt else lfdAddMod s .encrypt
    else s
  if hasFlag host.flags Flag.shape then lfdAddMod s .shaper else s

/-- The loop of `lfd_alloc_mod`: whether every `alloc` on the way succeeded, or
`none` while the end of the list is not reached. -/
def allocLoop (next : Module → Option Module) (ok : Module → Bool) :
    ℕ → Option Module → Option Bool
  | _, none => some true
  | 0, some _ => none
  | n + 1, some mod => if ok mod then allocLoop next ok n (next mod) else some false

/-- `lfd_alloc_mod`; `ok` tells which modules can be allocated. -/
def lfdAllocMod (s : ModList) (ok : Module → Bool) : Option Bool :=
  allocLoop s.next ok (Fintype.card Module) s.head

/-- The value of a module's `free`, where it has one. -/
def Module.free : Module → Option ℤ
  | .shaper => none
  | _ => some 0

/-- `lfd_free_mod`: every `free` returns zero, so the list is always cleared. -/
def lfdFreeMod (s : ModList) : Option ModList :=
  (walk s.next (Fintype.card Module) s.head).map fun mods =>
    if mods.all fun mod => (mod.free.getD 0) = 0 then { s with head := none, tail := none } else s

/-- What a call of `linkfd` came to: the linker was entered with a stack, or
some allocation failed. -/
inductive Outcome
  | entered (s : ModList)
  | refused

/-- One session: the host record and the modules that can be allocated. -/
structure Call where
  host : VtunHost
  ok : Module → Bool

/-- `linkfd`, as far as the module list is concerned. -/
def linkfd (s : ModList) (c : Call) : Option (ModList × Outcome) := do
  let s := buildStack s c.host
  let ok ← lfdAllocMod s c.ok
  if ok then
    let s' ← lfdFreeMod s
    some (s', .entered s)
  else some (s, .refused)

/-- The sessions of one process. -/
def linkfds (s : ModList) : List Call → Option (ModList × List Outcome)
  | [] => some (s, [])
  | c :: calls => do
    let (s, o) ← linkfd s c
    let (s, os) ← linkfds s calls
    some (s, o :: os)

/-! ### The intended stack -/

/-- The modules a host selects: compressors, then the encryptor, then the
shaper. -/
def selected (host : VtunHost) : List Module :=
  (if hasFlag host.flags Flag.zlib then [.zlib] else []) ++
  (if hasFlag host.flags Flag.lzo then [.lzo] else []) ++
  (if hasFlag host.flags Flag.encrypt then
    if host.cipher = legacyEncrypt then [.legacyEncrypt] else [.encrypt]
  else []) ++
  (if hasFlag host.flags Flag.shape then [.shaper] else [])

/-- The stack is the list `mods`, forwards from the head and backwards from the
tail. -/
def Intact (s : ModList) (mods : List Module) : Prop :=
  Linked s.next s.prev s.head s.tail mods

instance (s : ModList) (mods : List Module) : Decidable (Intact s mods) :=
  decidable_of_iff (Follows s.next s.head mods ∧ Follows s.prev s.tail mods.reverse)
    ⟨fun h => ⟨h.1, h.2⟩, fun h => ⟨h.1, h.2⟩⟩

theorem selected_nodup (host : VtunHost) : (selected host).Nodup := by
  unfold selected
  cases hasFlag host.flags Flag.zlib <;> cases hasFlag host.flags Flag.lzo <;>
    cases hasFlag host.flags Flag.encrypt <;> cases hasFlag host.flags Flag.shape <;>
    by_cases hc : host.cipher = legacyEncrypt <;> simp [hc]

theorem buildStack_eq (s : ModList) (host : VtunHost) :
    buildStack s host = (selected host).foldl lfdAddMod s := by
  unfold buildStack selected
  cases hasFlag host.flags Flag.zlib <;> cases hasFlag host.flags Flag.lzo <;>
    cases hasFlag host.flags Flag.encrypt <;> cases hasFlag host.flags Flag.shape <;>
    by_cases hc : host.cipher = legacyEncrypt <;> simp [hc]

/-! ### Adding modules -/

/-- Head and tail are set together, and the list from the head ends. -/
structure ModList.Sound (s : ModList) : Prop where
  tail_isSome : s.tail.isSome = s.head.isSome
  ends : ∃ mods, Follows s.next s.head mods

theorem ModList.sound_init : ModList.init.Sound := ⟨rfl, [], rfl⟩

theorem ModList.Sound.addMod {s : ModList} (h : s.Sound) (mod : Module) :
    (lfdAddMod s mod).Sound := by
  obtain ⟨mods, hmods⟩ := h.ends
  rcases hhead : s.head with _ | a
  · exact ⟨by simp [lfdAddMod, hhead], [mod], by simp [lfdAddMod, hhead]⟩
  · obtain ⟨t, ht⟩ := Option.isSome_iff_exists.mp (h.tail_isSome.trans (by simp [hhead]))
    obtain ⟨mods', hmods'⟩ := hmods.append_node t mod
    exact ⟨by simp [lfdAddMod, hhead, ht], mods', by simpa [lfdAddMod, hhead, ht] using hmods'⟩

theorem ModList.Sound.addMods {s : ModList} (h : s.Sound) (mods : List Module) :
    (mods.foldl lfdAddMod s).Sound := by
  induction mods generalizing s with
  | nil => exact h
  | cons mod mods ih => exact ih (h.addMod mod)

/-- **A fresh module extends an intact stack.** -/
theorem lfdAddMod_linked {s : ModList} {mods : List Module} (h : Intact s mods) {mod : Module}
    (hmod : mod ∉ mods) : Intact (lfdAddMod s mod) (mods ++ [mod]) := by
  rcases List.eq_nil_or_concat mods with rfl | ⟨l, t, rfl⟩
  · have hhead : s.head = none := h.forward
    exact ⟨by simp [lfdAddMod, hhead], by simp [lfdAddMod, hhead]⟩
  · rw [List.concat_eq_append] at *
    have htail : s.tail = some t := by
      have := h.backward
      rw [List.reverse_append] at this
      exact this.1
    obtain ⟨a, ha⟩ : ∃ a, s.head = some a := by
      cases l with
      | nil => exact ⟨t, h.forward.1⟩
      | cons a l => exact ⟨a, h.forward.1⟩
    simpa [Intact, lfdAddMod, ha, htail] using Linked.snoc h hmod

theorem addMods_linked {s : ModList} {mods mods' : List Module} (h : Intact s mods)
    (hnd : (mods ++ mods').Nodup) : Intact (mods'.foldl lfdAddMod s) (mods ++ mods') := by
  induction mods' generalizing s mods with
  | nil => simpa using h
  | cons mod mods' ih =>
    have hmod : mod ∉ mods := fun hmem =>
      (List.nodup_append.mp hnd).2.2 mod hmem mod (by simp) rfl
    have hrec := ih (lfdAddMod_linked h hmod) (by simpa using hnd)
    simpa using hrec

theorem lfdAddMod_head {s : ModList} {a : Module} (ha : s.head = some a)
    (mod : Module) : (lfdAddMod s mod).head = some a := by
  rcases ht : s.tail with _ | t <;> simp [lfdAddMod, ha, ht]

/-- Once there is a head, adding modules leaves it and the links of every other
node towards the head alone. -/
theorem addMods_prev {mods : List Module} {mod : Module} (hmod : mod ∉ mods) {s : ModList}
    {a : Module} (ha : s.head = some a) :
    (mods.foldl lfdAddMod s).prev mod = s.prev mod ∧
      (mods.foldl lfdAddMod s).head = some a := by
  induction mods generalizing s with
  | nil => exact ⟨rfl, ha⟩
  | cons m mods ih =>
    have hne : mod ≠ m := fun he => hmod (by simp [he])
    have hprev : (lfdAddMod s m).prev mod = s.prev mod := by
      rcases ht : s.tail with _ | t <;> simp [lfdAddMod, ha, ht, Function.update_of_ne hne]
    obtain ⟨hprev', hhead'⟩ := ih (fun hmem => hmod (by simp [hmem])) (lfdAddMod_head ha m)
    exact ⟨hprev'.trans hprev, hhead'⟩

/-! ### One session -/

theorem allocLoop_eq {next : Module → Option Module} {ok : Module → Bool} {n : ℕ}
    {p : Option Module} {mods : List Module} (h : Follows next p mods) (hn : mods.length ≤ n) :
    allocLoop next ok n p = some (mods.all ok) := by
  induction mods generalizing n p with
  | nil => rw [follows_nil.mp h]; cases n <;> rfl
  | cons mod mods ih =>
    obtain ⟨rfl, h⟩ := h
    obtain ⟨n, rfl⟩ : ∃ k, n = k + 1 := ⟨n - 1, by simp at hn; omega⟩
    cases hok : ok mod with
    | true => simpa [allocLoop, hok] using ih h (by simpa using hn)
    | false => simp [allocLoop, hok]

theorem Module.free_eq (mod : Module) : mod.free.getD 0 = 0 := by cases mod <;> rfl

/-- What a session does: it fails and leaves its stack behind, or it enters the
linker and clears the list. -/
theorem linkfd_cases {s : ModList} (h : s.Sound) (c : Call) :
    (linkfd s c = some (buildStack s c.host, .refused) ∧ (buildStack s c.host).head.isSome) ∨
      linkfd s c = some ({ buildStack s c.host with head := none, tail := none },
        .entered (buildStack s c.host)) := by
  have hsound : (buildStack s c.host).Sound := by rw [buildStack_eq]; exact h.addMods _
  obtain ⟨mods, hmods⟩ := hsound.ends
  have halloc : lfdAllocMod (buildStack s c.host) c.ok = some (mods.all c.ok) :=
    allocLoop_eq hmods hmods.nodup.length_le_card
  cases hok : mods.all c.ok with
  | false =>
    refine .inl ⟨by simp [linkfd, halloc, hok], ?_⟩
    cases mods with
    | nil => simp at hok
    | cons mod mods => simp [hmods.1]
  | true =>
    have hfree : lfdFreeMod (buildStack s c.host) =
        some { buildStack s c.host with head := none, tail := none } := by
      simp [lfdFreeMod, walk_card.mpr hmods, Module.free_eq]
    exact .inr (by simp [linkfd, halloc, hok, hfree])

/-- **From an empty stack the linker meets exactly the selected modules.** -/
theorem buildStack_of_empty {s : ModList} (h : s.Sound) (hs : s.head = none) (host : VtunHost) :
    Intact (buildStack s host) (selected host) := by
  have htail : s.tail = none := by simpa [hs] using h.tail_isSome
  rw [buildStack_eq]
  have hempty : Intact s [] := ⟨hs, htail⟩
  exact addMods_linked hempty (selected_nodup host)

/-- **From a stack left behind it never does**: the old head would have to be
the first selected module, but adding it again gives it a predecessor. -/
theorem buildStack_not_intact {s : ModList} (h : s.Sound) {a : Module} (ha : s.head = some a)
    (host : VtunHost) : ¬ Intact (buildStack s host) (selected host) := by
  rw [buildStack_eq]
  intro hint
  have hnd := selected_nodup host
  obtain ⟨t, ht⟩ := Option.isSome_iff_exists.mp (h.tail_isSome.trans (by simp [ha]))
  cases hsel : selected host with
  | nil =>
    rw [hsel] at hint
    exact absurd (ha.symm.trans hint.forward) (by simp)
  | cons m mods =>
    rw [hsel] at hint hnd
    rw [List.foldl_cons] at hint
    obtain ⟨hprev, hhead⟩ := addMods_prev (List.nodup_cons.mp hnd).1 (lfdAddMod_head ha m)
    obtain rfl : a = m := by simpa using hhead.symm.trans hint.forward.1
    -- The backward list ends at `a`, but `a` was hung behind the old tail.
    have hlast : (mods.foldl lfdAddMod (lfdAddMod s a)).prev a = none :=
      Follows.next_last (by simpa using hint.backward)
    rw [hprev] at hlast
    simp [lfdAddMod, ha, ht] at hlast

/-! ### All sessions of a process -/

/-- Every session returns, and leaves a sound list. -/
theorem linkfds_returns {s : ModList} (h : s.Sound) (calls : List Call) :
    ∃ s' os, linkfds s calls = some (s', os) ∧ s'.Sound ∧ os.length = calls.length := by
  induction calls generalizing s with
  | nil => exact ⟨s, [], rfl, h, rfl⟩
  | cons c calls ih =>
    have hsound : (buildStack s c.host).Sound := by rw [buildStack_eq]; exact h.addMods _
    rcases linkfd_cases h c with ⟨heq, -⟩ | heq
    · obtain ⟨s', os, hrun, hs', hlen⟩ := ih hsound
      exact ⟨s', .refused :: os, by simp [linkfds, heq, hrun], hs', by simp [hlen]⟩
    · obtain ⟨s', os, hrun, hs', hlen⟩ := ih
        (s := { buildStack s c.host with head := none, tail := none }) ⟨rfl, [], rfl⟩
      exact ⟨s', .entered (buildStack s c.host) :: os, by simp [linkfds, heq, hrun], hs',
        by simp [hlen]⟩

/-- The linker is only entered with intact stacks. -/
def EntersIntact (calls : List Call) (os : List Outcome) : Prop :=
  ∀ (i : ℕ) (c : Call) (t : ModList), calls[i]? = some c → os[i]? = some (.entered t) →
    Intact t (selected c.host)

/-- No entry of the linker comes right after a session that failed. -/
def NoEntryAfterRefusal (os : List Outcome) : Prop :=
  ∀ (i : ℕ) (t : ModList), os[i]? = some .refused → os[i + 1]? ≠ some (.entered t)

theorem entersIntact_cons {c : Call} {calls : List Call} {o : Outcome} {os : List Outcome} :
    EntersIntact (c :: calls) (o :: os) ↔
      (∀ t, o = .entered t → Intact t (selected c.host)) ∧ EntersIntact calls os := by
  constructor
  · intro h
    exact ⟨fun t ht => h 0 c t rfl (by simp [ht]), fun i c' t hc ho => h (i + 1) c' t hc ho⟩
  · rintro ⟨h0, hs⟩ i c' t hc ho
    rcases i with _ | i
    · obtain rfl : c = c' := by simpa using hc
      exact h0 t (by simpa using ho)
    · exact hs i c' t hc ho

theorem noEntryAfterRefusal_cons {o : Outcome} {os : List Outcome} :
    NoEntryAfterRefusal (o :: os) ↔
      (o = .refused → ∀ t, os[0]? ≠ some (.entered t)) ∧ NoEntryAfterRefusal os := by
  constructor
  · intro h
    exact ⟨fun ho t => h 0 t (by simp [ho]), fun i t ho => h (i + 1) t ho⟩
  · rintro ⟨h0, hs⟩ i t ho
    rcases i with _ | i
    · exact h0 (by simpa using ho) t
    · exact hs i t ho

/-- The stacks are intact iff no entry follows a stack left behind: neither
the one the run starts with nor one of its own. -/
theorem entersIntact_iff {s : ModList} (h : s.Sound) {calls : List Call} {s' : ModList}
    {os : List Outcome} (hrun : linkfds s calls = some (s', os)) :
    EntersIntact calls os ↔
      (s.head.isSome → ∀ t, os[0]? ≠ some (.entered t)) ∧ NoEntryAfterRefusal os := by
  induction calls generalizing s os with
  | nil =>
    obtain ⟨rfl, rfl⟩ : s = s' ∧ [] = os := by simpa [linkfds] using hrun
    simp [EntersIntact, NoEntryAfterRefusal]
  | cons c calls ih =>
    have hsound : (buildStack s c.host).Sound := by rw [buildStack_eq]; exact h.addMods _
    rcases linkfd_cases h c with ⟨heq, hhead⟩ | heq
    · -- The session fails: its stack is what the next one starts with.
      obtain ⟨s₁, os₁, hrun₁, -, -⟩ := linkfds_returns hsound calls
      obtain ⟨rfl, rfl⟩ : s₁ = s' ∧ .refused :: os₁ = os := by
        simpa [linkfds, heq, hrun₁] using hrun
      rw [entersIntact_cons, noEntryAfterRefusal_cons, ih hsound hrun₁]
      simp [hhead]
    · -- The session enters: its stack is the one built, and the list is cleared.
      have hclear : ModList.Sound { buildStack s c.host with head := none, tail := none } :=
        ⟨rfl, [], rfl⟩
      obtain ⟨s₁, os₁, hrun₁, -, -⟩ := linkfds_returns hclear calls
      obtain ⟨rfl, rfl⟩ : s₁ = s' ∧ .entered (buildStack s c.host) :: os₁ = os := by
        simpa [linkfds, heq, hrun₁] using hrun
      rw [entersIntact_cons, noEntryAfterRefusal_cons, ih hclear hrun₁]
      rcases hs : s.head with _ | a
      · simp [buildStack_of_empty h hs]
      · simp [buildStack_not_intact h hs]

/-- **Module stack integrity.**  Over every sequence of sessions of a process,
the linker is entered with exactly the selected modules, linked both ways, iff
it is never entered right after a session that failed to allocate its
modules. -/
theorem stack_intact_iff (calls : List Call) :
    ∃ s os, linkfds ModList.init calls = some (s, os) ∧
      (EntersIntact calls os ↔ NoEntryAfterRefusal os) := by
  obtain ⟨s, os, hrun, -, -⟩ := linkfds_returns ModList.sound_init calls
  refine ⟨s, os, hrun, (entersIntact_iff ModList.sound_init hrun).trans ?_⟩
  simp [ModList.init]

/-- A host with encryption and nothing else. -/
def encryptedHost : VtunHost where
  host := []
  passwd := []
  flags := Flag.encrypt
  spdIn := 0
  spdOut := 0
  zlevel := 0
  cipher := 1
  multi := .deny

/-- An encryptor that cannot be allocated once leaves itself behind: the next
session adds it to itself, and the backward list runs in a circle. -/
theorem stack_left_behind :
    ¬ ∀ calls s os, linkfds ModList.init calls = some (s, os) → EntersIntact calls os := by
  intro hall
  have hrun := hall [⟨encryptedHost, fun _ => false⟩, ⟨encryptedHost, fun _ => true⟩] _ _ rfl
  have hint := hrun 1 _ _ rfl rfl
  revert hint
  decide

end Vtun
