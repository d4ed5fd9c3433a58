/-
Packets on their way between two stacks of modules (`linkfd.c`).

Both ends of a session encode and decode with one state for each module.  `Mod.Relays`
says that a module keeps a relation between the states of the two ends, the packets on
their way from one to the other and the frames these were made from, in both directions
at once; `Relayed` composes the relations of the modules of a stack.

* `relayed_down`, `relayed_up` — a stack of such modules is one of them;
* `encrypt_relays`, `legacy_relays`, `shaper_relays` — the modules of the daemon;
* `stack_relays` — a session whose modules keep their relations;
* `daemon_relays` — two ends with the same cipher and password.
-/
import Vtun.CodecStack
import Vtun.EncryptLength
import Vtun.Flags

namespace Vtun

variable {ε ι : Type} {τ : ι → Type}

/-! ### One module -/

/-- A relation between the end that sends, the end that receives, the packets on their
way and the frames they were made from. -/
abbrev OnTheWay (κ : Type) : Type := κ → κ → List (List Byte) → List (List Byte) → Prop

/-- The state `s'` stands to every other end as `s` does. -/
def OnTheWay.Keeps {κ : Type} (D : OnTheWay κ) (s s' : κ) : Prop :=
  ∀ r flight ms, (D s r flight ms → D s' r flight ms) ∧ (D r s flight ms → D r s' flight ms)

/-- A module that keeps the relation `D` and makes of frames of at most `limit` bytes packets
that are at most `room` bytes longer. -/
structure Mod.Relays {κ : Type} (m : Mod ε κ) (D : OnTheWay κ) (limit room : ℕ) : Prop where
  /-- an encoded frame goes behind the packets on their way -/
  down : ∀ {s r flight ms back ns} (e : ε) {f : Span} {x : List Byte},
    D s r flight ms → D r s back ns → f.Holds x → x ≠ [] → x.length ≤ limit →
    let o := m.encode.getD passOn e s f
    o.2.Sound ∧ o.2.frame.length ≤ x.length + room ∧
      D o.1 r (flight ++ [o.2.frame]) (ms ++ [x]) ∧ D r o.1 back ns
  /-- the oldest packet gives back its frame -/
  up : ∀ {s r y flight ms back ns} (e : ε) {g : Span},
    D s r (y :: flight) ms → D r s back ns → g.Holds y →
    let o := m.decode.getD passOn e r g
    ∃ x ms', ms = x :: ms' ∧ x ≠ [] ∧ o.2.Holds x ∧ D s o.1 flight ms' ∧ D o.1 s back ns
  availEncode : ∀ avail, m.availEncode = some avail → ∀ e s, D.Keeps s (avail e s).1
  availDecode : ∀ avail, m.availDecode = some avail → ∀ e s, D.Keeps s (avail e s).1
  /-- a packet for each frame -/
  length : ∀ {s r flight ms}, D s r flight ms → flight.length = ms.length

/-! ### The stack -/

/-- Between the frames and the packets of a stack lie the packets of each module, which
are the frames of the next. -/
def Relayed (D : ∀ i, OnTheWay (τ i)) : List ι → OnTheWay (∀ i, τ i)
  | [], _, _, flight, ms => flight = ms ∧ ∀ x ∈ ms, x ≠ []
  | i :: l, s, r, flight, ms => ∃ mid, D i (s i) (r i) mid ms ∧ Relayed D l s r flight mid

/-- What the relation of a stack reads of the states. -/
theorem Relayed.congr {D : ∀ i, OnTheWay (τ i)} {l : List ι} {s s' r r' : ∀ i, τ i}
    {flight ms : List (List Byte)} (h : Relayed D l s r flight ms) (hs : ∀ i ∈ l, s' i = s i)
    (hr : ∀ i ∈ l, r' i = r i) : Relayed D l s' r' flight ms := by
  induction l generalizing ms with
  | nil => exact h
  | cons i l ih =>
    obtain ⟨mid, hone, hrest⟩ := h
    refine ⟨mid, ?_, ih hrest (fun j hj => hs j (List.mem_cons_of_mem i hj))
      fun j hj => hr j (List.mem_cons_of_mem i hj)⟩
    rw [hs i List.mem_cons_self, hr i List.mem_cons_self]
    exact hone

/-- A stack makes a packet of each frame. -/
theorem Relayed.length_eq {m : ∀ i, Mod ε (τ i)} {D : ∀ i, OnTheWay (τ i)} {room : ι → ℕ}
    {limit : ℕ} {l : List ι} (h : ∀ i ∈ l, (m i).Relays (D i) limit (room i)) {s r : ∀ i, τ i}
    {flight ms : List (List Byte)} (hout : Relayed D l s r flight ms) :
    flight.length = ms.length := by
  induction l generalizing ms with
  | nil => exact congrArg List.length hout.1
  | cons i l ih =>
    obtain ⟨mid, hone, hrest⟩ := hout
    rw [ih (fun j hj => h j (List.mem_cons_of_mem i hj)) hrest,
      (h i List.mem_cons_self).length hone]

section Stack

variable [DecidableEq ι]

/-- A callback on the states of all modules. -/
def onState {α β : Type} (i : ι) (f : ε → τ i → α → τ i × β) (e : ε) (s : ∀ i, τ i) (x : α) :
    (∀ i, τ i) × β :=
  let r := f e (s i) x
  (Function.update s i r.1, r.2)

/-- The module `i` among all modules. -/
def Mod.on (i : ι) (m : Mod ε (τ i)) : Mod ε (∀ i, τ i) where
  encode := m.encode.map (onState i)
  availEncode := m.availEncode.map fun avail e s => onState i (fun e s _ => avail e s) e s ()
  decode := m.decode.map (onState i)
  availDecode := m.availDecode.map fun avail e s => onState i (fun e s _ => avail e s) e s ()

/-- The modules of a list, from head to tail. -/
def modsOn (m : ∀ i, Mod ε (τ i)) (l : List ι) : List (Mod ε (∀ i, τ i)) :=
  l.map fun i => (m i).on i

variable {m : ∀ i, Mod ε (τ i)} {D : ∀ i, OnTheWay (τ i)} {limit : ℕ} {room : ι → ℕ} {l : List ι}
  {i : ι}

theorem modsOn_cons : modsOn m (i :: l) = (m i).on i :: modsOn m l := rfl

/-- One module of the way down. -/
theorem lfdRunDown_on (e : ε) (s : ∀ i, τ i) {f : Span} (hlen : 0 < f.len) :
    lfdRunDown e (modsOn m (i :: l)) s f =
      let o := (m i).encode.getD passOn e (s i) f
      lfdRunDown e (modsOn m l) (Function.update s i o.1) o.2 := by
  rw [modsOn_cons, lfdRunDown, if_neg (by omega), Mod.on]
  cases (m i).encode with
  | none => simp [passOn]
  | some encode => rfl

/-- One module of the way up. -/
theorem lfdRunUp_on (e : ε) (s : ∀ i, τ i) {f : Span} :
    lfdRunUp e (modsOn m (i :: l)).reverse s f =
      let u := lfdRunUp e (modsOn m l).reverse s f
      lfdRunUp e [(m i).on i] u.1 u.2 := by
  rw [modsOn_cons, List.reverse_cons, lfdRunUp_append]

theorem lfdRunUp_one (e : ε) (s : ∀ i, τ i) {f : Span} (hlen : 0 < f.len) :
    lfdRunUp e [(m i).on i] s f =
      (Function.update s i ((m i).decode.getD passOn e (s i) f).1,
        ((m i).decode.getD passOn e (s i) f).2) := by
  rw [lfdRunUp, if_neg (by omega), Mod.on]
  cases (m i).decode with
  | none => simp [passOn, lfdRunUp]
  | some decode => rfl

variable (h : ∀ i ∈ l, (m i).Relays (D i) limit (room i)) {s r : ∀ i, τ i}
  {flight ms back ns : List (List Byte)} (e : ε)

include h

/-- **A frame through the stack goes behind the packets on their way.** -/
theorem relayed_down (hl : l.Nodup) (hout : Relayed D l s r flight ms)
    (hin : Relayed D l r s back ns) {f : Span} {x : List Byte} (hf : f.Holds x) (hx : x ≠ [])
    (hlimit : x.length + (l.map room).sum ≤ limit) :
    let o := lfdRunDown e (modsOn m l) s f
    o.2.Sound ∧ o.2.frame.length ≤ x.length + (l.map room).sum ∧
      Relayed D l o.1 r (flight ++ [o.2.frame]) (ms ++ [x]) ∧ Relayed D l r o.1 back ns ∧
      ∀ i ∉ l, o.1 i = s i := by
  -- On the modules from head to tail; the packet of one is the frame of the next.
  induction l generalizing s f x ms ns with
  | nil =>
    obtain ⟨rfl, hms⟩ := hout
    have hframe : f.frame = x := hf.2
    refine ⟨?_, ?_, ?_, hin, fun _ _ => rfl⟩
    · change f.Sound
      exact ⟨by rwa [hframe], by rwa [hframe]⟩
    · change f.frame.length ≤ _
      rw [hframe]
      exact Nat.le_add_right _ _
    · change flight ++ [f.frame] = flight ++ [x] ∧ _
      refine ⟨by rw [hframe], fun y hy => ?_⟩
      rcases List.mem_append.mp hy with hy | hy
      · exact hms y hy
      · rwa [List.mem_singleton.mp hy]
  | cons i l ih =>
    obtain ⟨hi, hl'⟩ := List.nodup_cons.mp hl
    obtain ⟨mid, hone, hrest⟩ := hout
    obtain ⟨mid', hone', hrest'⟩ := hin
    rw [List.map_cons, List.sum_cons] at hlimit
    obtain ⟨hsound, hlen, hone, hone'⟩ :=
      (h i List.mem_cons_self).down e hone hone' hf hx (by omega)
    dsimp only
    rw [lfdRunDown_on e s (hf.pos hx)]
    set o := (m i).encode.getD passOn e (s i) f with ho
    -- the other modules have the states they had
    have hsame : ∀ j ∈ l, Function.update s i o.1 j = s j := fun j hj =>
      Function.update_of_ne (ne_of_mem_of_not_mem hj hi) _ _
    have htail := ih (fun j hj => h j (List.mem_cons_of_mem i hj)) hl'
      (hrest.congr hsame fun _ _ => rfl) (hrest'.congr (fun _ _ => rfl) hsame) hsound.1 hsound.2
      (by omega)
    obtain ⟨hsound', hlen', hout', hin', hframe⟩ := htail
    have hstate := hframe i hi
    rw [Function.update_self] at hstate
    refine ⟨hsound', ?_, ⟨_, ?_, hout'⟩, ⟨_, ?_, hin'⟩, ?_⟩
    · rw [List.map_cons, List.sum_cons]
      dsimp only
      omega
    · rw [hstate]
      exact hone
    · rw [hstate]
      exact hone'
    · intro j hj
      rw [List.mem_cons, not_or] at hj
      rw [hframe j hj.2, Function.update_of_ne hj.1]

/-- **The oldest packet gives back its frame.** -/
theorem relayed_up (hl : l.Nodup) {y : List Byte} (hout : Relayed D l s r (y :: flight) ms)
    (hin : Relayed D l r s back ns) {g : Span} (hg : g.Holds y) :
    let o := lfdRunUp e (modsOn m l).reverse r g
    ∃ x ms', ms = x :: ms' ∧ x ≠ [] ∧ o.2.Holds x ∧ Relayed D l s o.1 flight ms' ∧
      Relayed D l o.1 s back ns ∧ ∀ i ∉ l, o.1 i = r i := by
  -- On the modules from head to tail; the head is the last one called.
  induction l generalizing ms ns with
  | nil =>
    obtain ⟨rfl, hms⟩ := hout
    obtain ⟨hy, hflight⟩ := List.forall_mem_cons.mp hms
    exact ⟨y, flight, rfl, hy, hg, ⟨rfl, hflight⟩, hin, fun _ _ => rfl⟩
  | cons i l ih =>
    obtain ⟨hi, hl'⟩ := List.nodup_cons.mp hl
    obtain ⟨mid, hone, hrest⟩ := hout
    obtain ⟨mid', hone', hrest'⟩ := hin
    dsimp only
    rw [lfdRunUp_on e r]
    obtain ⟨z, mid₁, rfl, hz, hholds, hout', hin', hframe⟩ :=
      ih (fun j hj => h j (List.mem_cons_of_mem i hj)) hl' hrest hrest'
    set u := lfdRunUp e (modsOn m l).reverse r g with hu
    have hstate : u.1 i = r i := hframe i hi
    obtain ⟨x, ms', rfl, hx, hback, hone, hone'⟩ :=
      (h i List.mem_cons_self).up e hone hone' hholds
    rw [lfdRunUp_one e u.1 (hholds.pos hz), hstate]
    set o := (m i).decode.getD passOn e (r i) u.2 with ho
    have hsame : ∀ j ∈ l, Function.update u.1 i o.1 j = u.1 j := fun j hj =>
      Function.update_of_ne (ne_of_mem_of_not_mem hj hi) _ _
    refine ⟨x, ms', rfl, hx, hback, ⟨mid₁, ?_, hout'.congr (fun _ _ => rfl) hsame⟩,
      ⟨mid', ?_, hin'.congr hsame fun _ _ => rfl⟩, ?_⟩
    · simpa only [Function.update_self] using hone
    · simpa only [Function.update_self] using hone'
    · intro j hj
      rw [List.mem_cons, not_or] at hj
      dsimp only
      rw [Function.update_of_ne hj.1, hframe j hj.2]

omit h

/-- What a state is changed to stands to every other end as the state does, if this holds
of the module that was changed. -/
theorem relayed_update {t : τ i} (ht : (D i).Keeps (s i) t) :
    (Relayed D l).Keeps s (Function.update s i t) := by
  have hone : ∀ j, (D j).Keeps (s j) (Function.update s i t j) := by
    intro j
    by_cases hj : j = i
    · subst hj
      rwa [Function.update_self]
    · rw [Function.update_of_ne hj]
      exact fun _ _ _ => ⟨id, id⟩
  intro r flight ms
  induction l generalizing ms with
  | nil => exact ⟨id, id⟩
  | cons j l ih =>
    constructor
    · rintro ⟨mid, hj, hrest⟩
      exact ⟨mid, (hone j _ _ _).1 hj, (ih mid).1 hrest⟩
    · rintro ⟨mid, hj, hrest⟩
      exact ⟨mid, (hone j _ _ _).2 hj, (ih mid).2 hrest⟩

theorem OnTheWay.Keeps.trans {κ : Type} {D : OnTheWay κ} {s s' s'' : κ} (h : D.Keeps s s')
    (h' : D.Keeps s' s'') : D.Keeps s s'' := fun r flight ms =>
  ⟨fun hD => (h' r flight ms).1 ((h r flight ms).1 hD),
    fun hD => (h' r flight ms).2 ((h r flight ms).2 hD)⟩

/-- Asking the modules whether they take a frame keeps the relation. -/
theorem relayed_checkDown {l' : List ι}
    (h : ∀ i ∈ l', (m i).Relays (D i) limit (room i)) (s : ∀ i, τ i) (err : ℤ) :
    (Relayed D l).Keeps s (lfdCheckDown e (modsOn m l') s err).1 := by
  induction l' generalizing s err with
  | nil => exact fun _ _ _ => ⟨id, id⟩
  | cons i l' ih =>
    have hrest := ih fun j hj => h j (List.mem_cons_of_mem i hj)
    rw [modsOn_cons, lfdCheckDown]
    split
    · exact fun _ _ _ => ⟨id, id⟩
    · have havail := (h i List.mem_cons_self).availEncode
      rw [Mod.on]
      dsimp only
      cases hm : (m i).availEncode with
      | none => exact hrest s err
      | some avail =>
        dsimp only [Option.map_some]
        exact (relayed_update (havail avail hm e (s i))).trans (hrest _ _)

theorem relayed_checkUp {l' : List ι} (h : ∀ i ∈ l', (m i).Relays (D i) limit (room i))
    (s : ∀ i, τ i) (err : ℤ) :
    (Relayed D l).Keeps s (lfdCheckUp e (modsOn m l') s err).1 := by
  induction l' generalizing s err with
  | nil => exact fun _ _ _ => ⟨id, id⟩
  | cons i l' ih =>
    have hrest := ih fun j hj => h j (List.mem_cons_of_mem i hj)
    rw [modsOn_cons, lfdCheckUp]
    split
    · exact fun _ _ _ => ⟨id, id⟩
    · have havail := (h i List.mem_cons_self).availDecode
      rw [Mod.on]
      dsimp only
      cases hm : (m i).availDecode with
      | none => exact hrest s err
      | some avail =>
        dsimp only [Option.map_some]
        exact (relayed_update (havail avail hm e (s i))).trans (hrest _ _)

end Stack

/-! ### Modules of the daemon -/

section Modules

variable {X : OpenSsl} {pf : Platform} {c : Cipher} {key : List Byte} {limit : ℕ}

/-- A module that leaves frames alone. -/
def Passing (κ : Type) : OnTheWay κ := fun _ _ flight ms => flight = ms ∧ ∀ x ∈ ms, x ≠ []

theorem Passing.down {κ : Type} {s r s' r' : κ} {flight ms : List (List Byte)}
    (h : Passing κ s r flight ms) {x : List Byte} (hx : x ≠ []) :
    Passing κ s' r' (flight ++ [x]) (ms ++ [x]) := by
  obtain ⟨rfl, hms⟩ := h
  refine ⟨rfl, fun y hy => ?_⟩
  rcases List.mem_append.mp hy with hy | hy
  · exact hms y hy
  · rwa [List.mem_singleton.mp hy]

theorem passing_relays {κ : Type} {m : Mod ε κ} (hdec : m.decode = none)
    (henc : ∀ e s f, (m.encode.getD passOn e s f).2 = f) :
    m.Relays (Passing κ) limit 0 where
  down := by
    intro s r flight ms back ns e f x hout hin hf hx hlen
    dsimp only
    rw [henc e s f, hf.2]
    exact ⟨⟨by rwa [hf.2], by rwa [hf.2]⟩, le_rfl, Passing.down hout hx, hin⟩
  up := by
    intro s r y flight ms back ns e g hout hin hg
    obtain ⟨rfl, hms⟩ := hout
    obtain ⟨hy, hflight⟩ := List.forall_mem_cons.mp hms
    rw [hdec]
    exact ⟨y, flight, rfl, hy, hg, ⟨rfl, hflight⟩, hin⟩
  availEncode := fun _ _ _ _ _ _ _ => ⟨id, id⟩
  availDecode := fun _ _ _ _ _ _ _ => ⟨id, id⟩
  length := fun h => congrArg List.length h.1

theorem shaper_relays (pf : Platform) (now : EncEnv → TimeVal) :
    (lfdShaper pf now).Relays (Passing Shaper) limit 0 :=
  passing_relays rfl fun _ _ _ => rfl

/-- The packets of the old encryptor. -/
def LegacyOnTheWay (X : OpenSsl) (key : List Byte) : OnTheWay (List Byte) := fun s r flight ms =>
  s = key ∧ r = key ∧
    List.Forall₂ (fun y x => x ≠ [] ∧ (legacyEncryptBuf X key ⟨x.length, x⟩).mem = y) flight ms

theorem legacy_relays (hX : BlockCipher X .bf key) :
    (lfdLegacyEncrypt X).Relays (LegacyOnTheWay X key) limit 8 where
  down := by
    intro s r flight ms back ns e f x hout hin hf hx hlimit
    obtain ⟨rfl, hr, hall⟩ := hout
    have hspan : legacyEncryptBuf X s f = legacyEncryptBuf X s ⟨x.length, x⟩ := by
      rw [legacyEncryptBuf, legacyEncryptBuf, hf.2, Span.frame_all]
    have hcall : (lfdLegacyEncrypt X).encode.getD passOn e s f =
        (s, legacyEncryptBuf X s ⟨x.length, x⟩) := congrArg (Prod.mk s) hspan
    obtain ⟨hlen, hmem⟩ := legacyEncryptBuf_sized hX.encLen ⟨x.length, x⟩
    rw [Span.frame_all] at hlen hmem
    dsimp only
    rw [hcall]
    set out := legacyEncryptBuf X s ⟨x.length, x⟩ with hout
    have hframe : out.frame = out.mem := by
      rw [Span.frame, hlen, Int.toNat_natCast, List.take_of_length_le hmem.le]
    have hne : out.mem ≠ [] := by
      rw [← List.length_pos_iff, hmem]
      omega
    refine ⟨⟨⟨by rw [hframe, hlen, hmem], rfl⟩, by rwa [hframe]⟩, ?_, ⟨rfl, hr, ?_⟩, hin⟩
    · rw [hframe, hmem]
      omega
    · rw [hframe]
      exact List.rel_append hall (.cons ⟨hx, rfl⟩ .nil)
  up := by
    intro s r y flight ms back ns e g hout hin hg
    obtain ⟨hs, rfl, hall⟩ := hout
    cases hall with
    | @cons _ x _ ms' hone hrest =>
      obtain ⟨hx, rfl⟩ := hone
      obtain ⟨hlen, hmem⟩ := legacyEncryptBuf_sized hX.encLen ⟨x.length, x⟩
      have hback := legacy_round_trip hX x
        (g.mem.drop (legacyEncryptBuf X r ⟨x.length, x⟩).mem.length)
      have hsize : (legacyEncryptBuf X r ⟨x.length, x⟩).len =
          (legacyEncryptBuf X r ⟨x.length, x⟩).mem.length := by rw [hlen, hmem]
      dsimp only at hback
      rw [hsize, ← hg.eq] at hback
      exact ⟨x, ms', rfl, hx, hback, ⟨hs, rfl, hrest⟩, hin⟩
  availEncode := fun _ h => absurd h (by simp [lfdLegacyEncrypt])
  availDecode := fun _ h => absurd h (by simp [lfdLegacyEncrypt])
  length := fun h => h.2.2.length_eq

/-- The packets of the encryptor with a chained cipher, between two ends that have no
reason to complain. -/
structure ChainedOnTheWay (c : Cipher) (key : List Byte) (s r : Encryptor X)
    (flight ms : List (List Byte)) : Prop where
  direction : Direction c key s r flight ms
  calm : Calm c key false s ∧ Calm c key false r
  sized : Sized c key s ∧ Sized c key r
  frames : ∀ x ∈ ms, x ≠ []

theorem encrypt_relays (hX : ChainedCipher X c key) (hfit : HeaderFits pf c) :
    (lfdEncrypt pf X).Relays (ChainedOnTheWay c key) limit 64 where
  down := by
    intro s r flight ms back ns e f x hout hin hf hx hlimit
    obtain ⟨hdir, ⟨hs, hr⟩, ⟨hsize, hsize'⟩, hms⟩ := hout
    obtain ⟨hdir', hs', hdec, hctx⟩ := hdir.encrypt hs hfit e f
    rw [hf.2] at hdir'
    have hmade := hsize.encryptBuf hX.lengthsKept pf e (f := f) (by rwa [hf.2])
    have hkept := hsize.encryptBuf_state hX.lengthsKept pf e f
    have hroom := s.packetLength_le x.length
    have hbs : s.blocksize ≤ 16 := s.cipher.algo.blocksize_le
    dsimp only at hmade
    rw [hf.2] at hmade
    change (encryptBuf pf e s f).2.Sound ∧ (encryptBuf pf e s f).2.frame.length ≤ _ ∧
      ChainedOnTheWay c key (encryptBuf pf e s f).1 r (flight ++ [(encryptBuf pf e s f).2.frame])
        (ms ++ [x]) ∧ ChainedOnTheWay c key r (encryptBuf pf e s f).1 back ns
    set out := encryptBuf pf e s f with hout
    have hframe : out.2.frame = out.2.mem := by
      rw [Span.frame, hmade.1, Int.toNat_natCast, List.take_of_length_le hmade.2.le]
    have hne : out.2.mem ≠ [] := by
      rw [← List.length_pos_iff, hmade.2]
      omega
    refine ⟨⟨⟨by rw [hframe, hmade.1, hmade.2], rfl⟩, by rwa [hframe]⟩, ?_, ?_, ?_⟩
    · rw [hframe, hmade.2]
      omega
    · refine ⟨hdir', ⟨hs', hr⟩, ⟨hkept, hsize'⟩, fun y hy => ?_⟩
      rcases List.mem_append.mp hy with hy | hy
      · exact hms y hy
      · rwa [List.mem_singleton.mp hy]
    · -- what comes the other way only meets another encoder here
      exact ⟨hin.direction.congr rfl rfl hdec hctx, ⟨hr, hs'⟩, ⟨hsize', hkept⟩, hin.frames⟩
  up := by
    intro s r y flight ms back ns e g hout hin hg
    obtain ⟨hdir, ⟨hs, hr⟩, ⟨hsize, hsize'⟩, hms⟩ := hout
    obtain ⟨x, ms', rfl, hret, hdir', hr', henc, hctx⟩ :=
      hdir.deliver hX hr e (g.mem.drop y.length)
    rw [← hg.eq] at hret hdir' hr' henc hctx
    have hkept := hsize'.decryptBuf e g
    obtain ⟨hx, hms'⟩ := List.forall_mem_cons.mp hms
    exact ⟨x, ms', rfl, hx, hret, ⟨hdir', ⟨hs, hr'⟩, ⟨hsize, hkept⟩, hms'⟩,
      ⟨hin.direction.congr henc hctx rfl rfl, ⟨hr', hs⟩, ⟨hkept, hsize⟩, hin.frames⟩⟩
  availEncode := fun _ h => absurd h (by simp [lfdEncrypt])
  availDecode := fun _ h => absurd h (by simp [lfdEncrypt])
  length := fun h => h.direction.length_eq.symm

end Modules

/-! ### Sessions -/

/-- A session whose modules keep the relation `D`, make of frames of at most `mtu` bytes packets
the drivers can take, and ask for no packet of their own. -/
structure Session.Relays {σ : Type} (S : Session ε σ) (D : OnTheWay σ) (mtu : ℕ) : Prop where
  down : ∀ {s r flight ms back ns} (e : ε) {f : Span} {x : List Byte},
    D s r flight ms → D r s back ns → f.Holds x → x ≠ [] → x.length ≤ mtu →
    let o := lfdRunDown e S.mods s f
    o.2.Sound ∧ o.2.frame.length ≤ frameSize + frameOverhead ∧
      D o.1 r (flight ++ [o.2.frame]) (ms ++ [x]) ∧ D r o.1 back ns
  up : ∀ {s r y flight ms back ns} (e : ε) {g : Span},
    D s r (y :: flight) ms → D r s back ns → g.Holds y →
    let o := lfdRunUp e S.mods.reverse r g
    ∃ x ms', ms = x :: ms' ∧ x ≠ [] ∧ o.2.Holds x ∧ D s o.1 flight ms' ∧ D o.1 s back ns
  checkDown : ∀ e s, D.Keeps s (lfdCheckDown e S.mods s 1).1
  checkUp : ∀ e s, D.Keeps s (lfdCheckUp e S.mods.reverse s 1).1
  silent : ∀ {s r flight ms}, D s r flight ms → S.sendAPacket s = false
  length : ∀ {s r flight ms}, D s r flight ms → flight.length = ms.length

section Stack

variable {τ : Module → Type}

/-- The shaper is the last module of a stack. -/
theorem selected_codecs (host : VtunHost) :
    selected host =
      codecs host ++ if hasFlag host.flags Flag.shape then [.shaper] else [] := by
  unfold codecs selected
  cases hasFlag host.flags Flag.zlib <;> cases hasFlag host.flags Flag.lzo <;>
    cases hasFlag host.flags Flag.encrypt <;> cases hasFlag host.flags Flag.shape <;>
    by_cases hc : host.cipher = legacyEncrypt <;> simp [hc]

/-- Modules that only pass frames on may be at one end and not at the other. -/
theorem relayed_passing {ι : Type} {τ : ι → Type} {D : ∀ i, OnTheWay (τ i)} {i : ι}
    (hi : D i = Passing (τ i)) (l : List ι) (s r : ∀ i, τ i) (flight ms : List (List Byte)) :
    Relayed D (l ++ [i]) s r flight ms ↔ Relayed D l s r flight ms := by
  induction l generalizing ms with
  | nil =>
    constructor
    · rintro ⟨mid, hone, hrest⟩
      rw [hi] at hone
      obtain ⟨rfl, hms⟩ := hone
      exact hrest
    · rintro ⟨rfl, hms⟩
      exact ⟨flight, hi ▸ ⟨rfl, hms⟩, rfl, hms⟩
  | cons j l ih =>
    constructor
    · rintro ⟨mid, hone, hrest⟩
      exact ⟨mid, hone, (ih mid).mp hrest⟩
    · rintro ⟨mid, hone, hrest⟩
      exact ⟨mid, hone, (ih mid).mpr hrest⟩

/-- Only modules that are asked for it have anything to say about taking frames. -/
theorem lfdCheckDown_other {ι : Type} [DecidableEq ι] {τ : ι → Type} {m : ∀ i, Mod ε (τ i)}
    {i : ι} (hi : (m i).availEncode = none) (e : ε) (l : List ι) (s : ∀ i, τ i) (err : ℤ) :
    (lfdCheckDown e (modsOn m l) s err).1 i = s i := by
  induction l generalizing s err with
  | nil => rfl
  | cons j l ih =>
    rw [modsOn_cons, lfdCheckDown]
    split
    · rfl
    · rw [Mod.on]
      cases hj : (m j).availEncode with
      | none => exact ih s err
      | some avail =>
        have hne : i ≠ j := fun hij => absurd (hij ▸ hi) (by rw [hj]; simp)
        exact (ih _ _).trans (Function.update_of_ne hne _ _)

theorem lfdCheckUp_other {ι : Type} [DecidableEq ι] {τ : ι → Type} {m : ∀ i, Mod ε (τ i)}
    {i : ι} (hi : (m i).availDecode = none) (e : ε) (l : List ι) (s : ∀ i, τ i) (err : ℤ) :
    (lfdCheckUp e (modsOn m l) s err).1 i = s i := by
  induction l generalizing s err with
  | nil => rfl
  | cons j l ih =>
    rw [modsOn_cons, lfdCheckUp]
    split
    · rfl
    · rw [Mod.on]
      cases hj : (m j).availDecode with
      | none => exact ih s err
      | some avail =>
        have hne : i ≠ j := fun hij => absurd (hij ▸ hi) (by rw [hj]; simp)
        exact (ih _ _).trans (Function.update_of_ne hne _ _)

/-- The packets between two ends whose modules keep the relations `D`: those of the codecs.
Neither end has a packet of its own to send, as `asks` tells of the encryptor. -/
structure StackOnTheWay (D : ∀ mod, OnTheWay (τ mod)) (asks : τ .encrypt → Bool) (l : List Module)
    (s r : ∀ mod, τ mod) (flight ms : List (List Byte)) : Prop where
  relayed : Relayed D l s r flight ms
  sender : asks (s .encrypt) = false
  receiver : asks (r .encrypt) = false

variable {D : ∀ mod, OnTheWay (τ mod)} {asks : τ .encrypt → Bool}

/-- The modules of an end with the same codecs. -/
theorem relayed_selected (hshaper : D .shaper = Passing (τ .shaper)) {host host' : VtunHost}
    (hcodecs : codecs host' = codecs host) (s r : ∀ mod, τ mod) (flight ms : List (List Byte)) :
    Relayed D (selected host') s r flight ms ↔ Relayed D (codecs host) s r flight ms := by
  rw [selected_codecs, hcodecs]
  cases hasFlag host'.flags Flag.shape with
  | false => simp
  | true => exact relayed_passing hshaper (codecs host) s r flight ms

/-- An encryptor among the codecs asks for no packet. -/
theorem Relayed.silent
    (hquiet : ∀ {s r flight ms}, D .encrypt s r flight ms → asks s = false ∧ asks r = false)
    {l : List Module} {s r : ∀ mod, τ mod} {flight ms : List (List Byte)}
    (h : Relayed D l s r flight ms) (hmem : .encrypt ∈ l) :
    asks (s .encrypt) = false ∧ asks (r .encrypt) = false := by
  induction l generalizing ms with
  | nil => exact absurd hmem List.not_mem_nil
  | cons mod l ih =>
    obtain ⟨mid, hone, hrest⟩ := h
    rcases List.mem_cons.mp hmem with rfl | hmem
    · exact hquiet hone
    · exact ih hrest hmem

/-- Modules before anything is sent. -/
theorem relayed_start {l : List Module} {s r : ∀ mod, τ mod}
    (h : ∀ mod ∈ l, D mod (s mod) (r mod) [] []) : Relayed D l s r [] [] := by
  induction l with
  | nil => exact ⟨rfl, List.forall_mem_nil _⟩
  | cons mod l ih =>
    exact ⟨[], h mod List.mem_cons_self, ih fun j hj => h j (List.mem_cons_of_mem mod hj)⟩

/-- **The session of a stack**, at either end: `host` is the record of one of them, and the other
has the same codecs. -/
theorem stack_relays {m : ∀ mod, Mod ε (τ mod)} {S : Session ε (∀ mod, τ mod)}
    {host host' : VtunHost} {limit mtu : ℕ} {room : Module → ℕ}
    (hmods : S.mods = modsOn m (selected host'))
    (hasks : ∀ s, S.sendAPacket s = asks (s .encrypt)) (hcodecs : codecs host' = codecs host)
    (h : ∀ mod, mod ∈ codecs host ∨ mod = .shaper → (m mod).Relays (D mod) limit (room mod))
    (hshaper : D .shaper = Passing (τ .shaper))
    (hquiet : ∀ {s r flight ms}, D .encrypt s r flight ms → asks s = false ∧ asks r = false)
    (hdown : (m .encrypt).availEncode = none) (hup : (m .encrypt).availDecode = none)
    (hlimit : mtu + ((selected host').map room).sum ≤ limit)
    (hroom : mtu + ((selected host').map room).sum ≤ frameSize + frameOverhead) :
    S.Relays (StackOnTheWay D asks (codecs host)) mtu := by
  have hrelays : ∀ mod ∈ selected host', (m mod).Relays (D mod) limit (room mod) := by
    intro mod hmod
    rw [selected_codecs, hcodecs, List.mem_append] at hmod
    refine h mod (hmod.imp_right fun hshape => ?_)
    split at hshape
    · exact List.mem_singleton.mp hshape
    · exact absurd hshape List.not_mem_nil
  have hrel := fun (s r : ∀ mod, τ mod) flight ms =>
    relayed_selected hshaper hcodecs s r flight ms
  have hreverse : S.mods.reverse = modsOn m (selected host').reverse := by
    rw [hmods]
    exact (List.map_reverse).symm
  -- an encryptor in the stack stays silent, and any other is left alone
  have hsilent : ∀ {s s' r : ∀ mod, τ mod} {flight ms},
      Relayed D (selected host') s' r flight ms → (∀ mod ∉ selected host', s' mod = s mod) →
      asks (s .encrypt) = false → asks (s' .encrypt) = false := by
    intro s s' r flight ms h hframe hs
    by_cases hin : .encrypt ∈ selected host'
    · exact (h.silent hquiet hin).1
    · rwa [hframe .encrypt hin]
  have hkeeps : ∀ {s s' : ∀ mod, τ mod}, (Relayed D (codecs host)).Keeps s s' →
      s' .encrypt = s .encrypt → OnTheWay.Keeps (StackOnTheWay D asks (codecs host)) s s' := by
    intro s s' h hsame r flight ms
    constructor
    · rintro ⟨hrelayed, hs, hr⟩
      exact ⟨(h r flight ms).1 hrelayed, hsame ▸ hs, hr⟩
    · rintro ⟨hrelayed, hr, hs⟩
      exact ⟨(h r flight ms).2 hrelayed, hr, hsame ▸ hs⟩
  constructor
  case down =>
    intro s r flight ms back ns e f x hout hin hf hx hlen
    obtain ⟨hsound, hlonger, hout', hin', hframe⟩ := relayed_down hrelays e (selected_nodup host')
      ((hrel _ _ _ _).mpr hout.relayed) ((hrel _ _ _ _).mpr hin.relayed) hf hx (by omega)
    have hstill := hsilent hout' hframe hout.sender
    dsimp only
    rw [hmods]
    refine ⟨hsound, by omega, ⟨(hrel _ _ _ _).mp hout', hstill, hout.receiver⟩,
      ⟨(hrel _ _ _ _).mp hin', hout.receiver, hstill⟩⟩
  case up =>
    intro s r y flight ms back ns e g hout hin hg
    obtain ⟨x, ms', rfl, hx, hback, hout', hin', hframe⟩ := relayed_up hrelays e
      (selected_nodup host') ((hrel _ _ _ _).mpr hout.relayed) ((hrel _ _ _ _).mpr hin.relayed) hg
    have hstill := hsilent hin' hframe hout.receiver
    dsimp only
    rw [hmods]
    exact ⟨x, ms', rfl, hx, hback, ⟨(hrel _ _ _ _).mp hout', hout.sender, hstill⟩,
      ⟨(hrel _ _ _ _).mp hin', hstill, hout.sender⟩⟩
  case checkDown =>
    intro e s
    rw [hmods]
    exact hkeeps (relayed_checkDown e hrelays s 1) (lfdCheckDown_other hdown e _ s 1)
  case checkUp =>
    intro e s
    rw [hreverse]
    exact hkeeps (relayed_checkUp e (fun mod hmod => hrelays mod (List.mem_reverse.mp hmod)) s 1)
      (lfdCheckUp_other hup e _ s 1)
  case silent =>
    intro s r flight ms hout
    exact (hasks s).trans hout.sender
  case length =>
    intro s r flight ms hout
    exact Relayed.length_eq hrelays ((hrel _ _ _ _).mpr hout.relayed)

end Stack

section Daemon

variable {X : OpenSsl} {pf : Platform} {now : EncEnv → TimeVal} {kaMaxfail : ℤ}
  {host : VtunHost} {limit : ℕ}

/-- The session of the daemon for a host. -/
def daemonSession (pf : Platform) (X : OpenSsl) (now : EncEnv → TimeVal) (kaMaxfail : ℤ)
    (host : VtunHost) : Session EncEnv (∀ mod, ModuleState X mod) where
  mods := modsOn (daemonMods pf X now) (selected host)
  kaMaxfail := kaMaxfail
  sendAPacket s := (show Encryptor X from s .encrypt).sendAPacket
  packetSent s :=
    Function.update s .encrypt { (show Encryptor X from s .encrypt) with sendAPacket := false }

/-- The packets of each module, under the cipher and the password of a host. -/
def moduleOnTheWay (X : OpenSsl) (host : VtunHost) : ∀ mod, OnTheWay (ModuleState X mod)
  | .zlib => Passing Unit
  | .lzo => Passing Unit
  | .encrypt => ChainedOnTheWay (Cipher.ofNumber host.cipher)
      (prepKey X (Cipher.ofNumber host.cipher).keysize host.passwd)
  | .legacyEncrypt => LegacyOnTheWay X (allocLegacyEncrypt X host)
  | .shaper => Passing Shaper

/-- By how much a module lengthens a frame at most. -/
def moduleRoom : Module → ℕ
  | .encrypt => 64
  | .legacyEncrypt => 8
  | _ => 0

/-- What the encryptor of a host relies on, if it has one: a chained AES cipher, or the
block cipher of the old encryptor. -/
structure CipherWorks (X : OpenSsl) (host : VtunHost) : Prop where
  chained : .encrypt ∈ codecs host → (Cipher.ofNumber host.cipher).algo = .aes ∧
    (Cipher.ofNumber host.cipher).mode ≠ .ecb ∧ ChainedCipher X (Cipher.ofNumber host.cipher)
      (prepKey X (Cipher.ofNumber host.cipher).keysize host.passwd)
  legacy : .legacyEncrypt ∈ codecs host → BlockCipher X .bf (allocLegacyEncrypt X host)

/-- Every module of the daemon keeps its relation. -/
theorem module_relays (h : CipherWorks X host) {mod : Module}
    (hmod : mod ∈ codecs host ∨ mod = .shaper) :
    (daemonMods pf X now mod).Relays (moduleOnTheWay X host mod) limit (moduleRoom mod) := by
  cases mod with
  | zlib => exact passing_relays rfl fun _ _ _ => rfl
  | lzo => exact passing_relays rfl fun _ _ _ => rfl
  | encrypt =>
    obtain ⟨halgo, -, hX⟩ := h.chained (hmod.resolve_right (by decide))
    exact encrypt_relays hX (headerFits_aes pf halgo)
  | legacyEncrypt => exact legacy_relays (h.legacy (hmod.resolve_right (by decide)))
  | shaper => exact shaper_relays pf now

/-- A session has at most one encryptor. -/
theorem sum_moduleRoom (host : VtunHost) :
    ((selected host).map moduleRoom).sum ≤ frameOverhead := by
  unfold selected
  cases hasFlag host.flags Flag.zlib <;> cases hasFlag host.flags Flag.lzo <;>
    cases hasFlag host.flags Flag.encrypt <;> cases hasFlag host.flags Flag.shape <;>
    by_cases hc : host.cipher = legacyEncrypt <;> simp [hc, moduleRoom, frameOverhead]

/-- The packets between two ends, one of them of the record `host`. -/
abbrev DaemonOnTheWay (X : OpenSsl) (host : VtunHost) : OnTheWay (∀ mod, ModuleState X mod) :=
  StackOnTheWay (moduleOnTheWay X host) (fun s : Encryptor X => s.sendAPacket) (codecs host)

/-- **The session of the daemon**, at either end: `host` is the record of one of them, and the
other has the same codecs. -/
theorem daemon_relays (h : CipherWorks X host) {host' : VtunHost}
    (hcodecs : codecs host' = codecs host) :
    (daemonSession pf X now kaMaxfail host').Relays (DaemonOnTheWay X host) frameSize := by
  have hroom := Nat.add_le_add_left (sum_moduleRoom host') frameSize
  exact stack_relays rfl (fun _ => rfl) hcodecs (fun mod hmod => module_relays h hmod) rfl
    (fun hchained => ⟨hchained.calm.1.sendAPacket, hchained.calm.2.sendAPacket⟩) rfl rfl hroom hroom

/-- The end of the record `a` has the codecs, the cipher and the password of `host`. -/
structure Shares (host a : VtunHost) : Prop where
  codecs : codecs a = codecs host
  cipher : hasFlag host.flags Flag.encrypt = true → a.cipher = host.cipher
  passwd : a.passwd = host.passwd

theorem Shares.refl (host : VtunHost) : Shares host host := ⟨rfl, fun _ => rfl, rfl⟩

theorem Agree.shares {a : VtunHost} (h : Agree host a) (hpasswd : a.passwd = host.passwd) :
    Shares host a :=
  ⟨h.codecs, h.cipher, hpasswd⟩

theorem encrypt_of_codecs (h : .encrypt ∈ codecs host) :
    hasFlag host.flags Flag.encrypt = true := by
  revert h
  unfold codecs selected
  cases hasFlag host.flags Flag.zlib <;> cases hasFlag host.flags Flag.lzo <;>
    cases hasFlag host.flags Flag.encrypt <;> cases hasFlag host.flags Flag.shape <;> simp

/-- The modules of an end before anything is sent. -/
theorem module_start (hworks : CipherWorks X host) {a b : VtunHost} (ha : Shares host a)
    (hb : Shares host b) (seq seq' : UInt32) (buf buf' : List Byte) (last last' : Shaper)
    {mod : Module} (hmod : mod ∈ codecs host) :
    moduleOnTheWay X host mod (daemonStart pf X a seq buf false last mod)
      (daemonStart pf X b seq' buf' false last' mod) [] [] := by
  cases mod with
  | zlib => exact ⟨rfl, List.forall_mem_nil _⟩
  | lzo => exact ⟨rfl, List.forall_mem_nil _⟩
  | shaper => exact ⟨rfl, List.forall_mem_nil _⟩
  | legacyEncrypt => exact ⟨congrArg X.md5 ha.passwd, congrArg X.md5 hb.passwd, .nil⟩
  | encrypt =>
    obtain ⟨-, hmode, -⟩ := hworks.chained hmod
    have henc := encrypt_of_codecs hmod
    have hstart : ∀ {a : VtunHost}, Shares host a → ∀ seq buf,
        let s := allocEncrypt X a seq buf false
        s.encState = .init ∧ s.decState = .init ∧
          Calm (Cipher.ofNumber host.cipher)
            (prepKey X (Cipher.ofNumber host.cipher).keysize host.passwd) false s ∧
          Sized (Cipher.ofNumber host.cipher)
            (prepKey X (Cipher.ofNumber host.cipher).keysize host.passwd) s := by
      intro a ha seq buf
      have hsized := sized_allocEncrypt X a seq buf false
      rw [ha.cipher henc, ha.passwd] at hsized
      refine ⟨?_, ?_, ⟨hsized.cipher, hsized.key, rfl, rfl⟩, hsized⟩
      · simp [allocEncrypt, ha.cipher henc, hmode]
      · simp [allocEncrypt, ha.cipher henc, hmode]
    obtain ⟨hs, -, hcalm, hsized⟩ := hstart ha seq buf
    obtain ⟨-, hr, hcalm', hsized'⟩ := hstart hb seq' buf'
    exact ⟨.idle hs hr, ⟨hcalm, hcalm'⟩, ⟨hsized, hsized'⟩, List.forall_mem_nil _⟩

/-- **Two ends with the same codecs, cipher and password**, before anything is sent. -/
theorem daemon_start (hworks : CipherWorks X host) {a b : VtunHost} (ha : Shares host a)
    (hb : Shares host b) (seq seq' : UInt32) (buf buf' : List Byte) (last last' : Shaper) :
    DaemonOnTheWay X host (daemonStart pf X a seq buf false last)
      (daemonStart pf X b seq' buf' false last') [] [] := by
  exact ⟨relayed_start fun mod hmod => module_start hworks ha hb seq seq' buf buf' last last' hmod,
    rfl, rfl⟩

end Daemon

end Vtun
