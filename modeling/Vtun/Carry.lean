/-
Packets that need no order (`linkfd.c`, `lfd_encrypt.c`, `lfd_legacy_encrypt.c`).

Over UDP a packet may get lost, come late or come twice.  `Mod.Carries` says that every
packet of a module gives back its frame, whatever has come before it; `CarriedBy` composes
this over the modules of a stack.

* `carried_down`, `carried_up` — a stack of such modules is one of them;
* `ecb_carries`, `legacy_carries`, `passing_carries` — the modules of the daemon;
* `daemon_carries` — two ends with the same password and a cipher in ECB mode, the old
  encryptor, or none.
-/
import Vtun.EcbSession
import Vtun.Relay

namespace Vtun

open Blocks

variable {ε ι : Type} {τ : ι → Type}

/-! ### One module -/

/-- A module that makes packets of frames, as `G` says, at most `room` bytes longer, and gives
back the frame of any of them; `I` holds of all its states. -/
structure Mod.Carries {κ : Type} (m : Mod ε κ) (I : κ → Prop) (G : List Byte → List Byte → Prop)
    (room : ℕ) : Prop where
  down : ∀ {s} (e : ε) {f : Span} {x : List Byte}, I s → f.Holds x → x ≠ [] →
    let o := m.encode.getD passOn e s f
    o.2.Sound ∧ o.2.frame.length ≤ x.length + room ∧ G o.2.frame x ∧ I o.1
  up : ∀ {r y x} (e : ε) {g : Span}, I r → G y x → g.Holds y →
    let o := m.decode.getD passOn e r g
    x ≠ [] ∧ o.2.Holds x ∧ I o.1
  availEncode : ∀ avail, m.availEncode = some avail → ∀ e s, I s → I (avail e s).1
  availDecode : ∀ avail, m.availDecode = some avail → ∀ e s, I s → I (avail e s).1

/-! ### The stack -/

/-- The packet `y` of a stack was made of the frame `x`. -/
def CarriedBy (G : ι → List Byte → List Byte → Prop) : List ι → List Byte → List Byte → Prop
  | [], y, x => y = x ∧ x ≠ []
  | i :: l, y, x => ∃ mid, G i mid x ∧ CarriedBy G l y mid

section Stack

variable [DecidableEq ι] {m : ∀ i, Mod ε (τ i)} {I : ∀ i, τ i → Prop}
  {G : ι → List Byte → List Byte → Prop} {room : ι → ℕ} {l : List ι} {i : ι}

/-- A module has gone on to a state in which it carries packets. -/
theorem forall_update {s : ∀ i, τ i} (hs : ∀ i, I i (s i)) {t : τ i} (ht : I i t) :
    ∀ j, I j (Function.update s i t j) := by
  intro j
  by_cases hj : j = i
  · subst hj
    rwa [Function.update_self]
  · rw [Function.update_of_ne hj]
    exact hs j

variable (h : ∀ i ∈ l, (m i).Carries (I i) (G i) (room i)) (e : ε) {s r : ∀ i, τ i}

include h

/-- **A frame through the stack.** -/
theorem carried_down (hs : ∀ i, I i (s i)) {f : Span} {x : List Byte} (hf : f.Holds x)
    (hx : x ≠ []) :
    let o := lfdRunDown e (modsOn m l) s f
    o.2.Sound ∧ o.2.frame.length ≤ x.length + (l.map room).sum ∧ CarriedBy G l o.2.frame x ∧
      ∀ i, I i (o.1 i) := by
  -- On the modules from head to tail; the packet of one is the frame of the next.
  induction l generalizing s f x with
  | nil =>
    have hframe : f.frame = x := hf.2
    refine ⟨?_, ?_, ?_, hs⟩
    · change f.Sound
      exact ⟨by rwa [hframe], by rwa [hframe]⟩
    · change f.frame.length ≤ _
      rw [hframe]
      exact Nat.le_add_right _ _
    · change f.frame = x ∧ _
      exact ⟨hframe, hx⟩
  | cons i l ih =>
    obtain ⟨hsound, hlen, hmade, hstate⟩ := (h i List.mem_cons_self).down e (hs i) hf hx
    dsimp only
    rw [lfdRunDown_on e s (hf.pos hx)]
    set o := (m i).encode.getD passOn e (s i) f with ho
    obtain ⟨hsound', hlen', hcarried, hall⟩ :=
      ih (fun j hj => h j (List.mem_cons_of_mem i hj)) (forall_update hs hstate) hsound.1 hsound.2
    refine ⟨hsound', ?_, ⟨_, hmade, hcarried⟩, hall⟩
    rw [List.map_cons, List.sum_cons]
    dsimp only
    omega

/-- **A packet gives back its frame.** -/
theorem carried_up (hr : ∀ i, I i (r i)) {y x : List Byte} (hy : CarriedBy G l y x) {g : Span}
    (hg : g.Holds y) :
    let o := lfdRunUp e (modsOn m l).reverse r g
    x ≠ [] ∧ o.2.Holds x ∧ ∀ i, I i (o.1 i) := by
  -- On the modules from head to tail; the head is the last one called.
  induction l generalizing x with
  | nil =>
    obtain ⟨rfl, hx⟩ := hy
    exact ⟨hx, hg, hr⟩
  | cons i l ih =>
    obtain ⟨mid, hmade, hrest⟩ := hy
    dsimp only
    rw [lfdRunUp_on e r]
    obtain ⟨hmid, hholds, hall⟩ := ih (fun j hj => h j (List.mem_cons_of_mem i hj)) hrest
    set u := lfdRunUp e (modsOn m l).reverse r g with hu
    obtain ⟨hx, hback, hstate⟩ := (h i List.mem_cons_self).up e (hall i) hmade hholds
    rw [lfdRunUp_one e u.1 (hholds.pos hmid)]
    exact ⟨hx, hback, forall_update hall hstate⟩

/-- Asking the modules whether they take a frame. -/
theorem carried_checkDown (hs : ∀ i, I i (s i)) (err : ℤ) :
    ∀ i, I i ((lfdCheckDown e (modsOn m l) s err).1 i) := by
  induction l generalizing s err with
  | nil => exact hs
  | cons i l ih =>
    have hrest := fun {s : ∀ i, τ i} (hs : ∀ i, I i (s i)) =>
      ih (fun j hj => h j (List.mem_cons_of_mem i hj)) hs
    rw [modsOn_cons, lfdCheckDown]
    split
    · exact hs
    · have havail := (h i List.mem_cons_self).availEncode
      rw [Mod.on]
      dsimp only
      cases hm : (m i).availEncode with
      | none => exact hrest hs err
      | some avail => exact hrest (forall_update hs (havail avail hm e (s i) (hs i))) _

theorem carried_checkUp (hs : ∀ i, I i (s i)) (err : ℤ) :
    ∀ i, I i ((lfdCheckUp e (modsOn m l) s err).1 i) := by
  induction l generalizing s err with
  | nil => exact hs
  | cons i l ih =>
    have hrest := fun {s : ∀ i, τ i} (hs : ∀ i, I i (s i)) =>
      ih (fun j hj => h j (List.mem_cons_of_mem i hj)) hs
    rw [modsOn_cons, lfdCheckUp]
    split
    · exact hs
    · have havail := (h i List.mem_cons_self).availDecode
      rw [Mod.on]
      dsimp only
      cases hm : (m i).availDecode with
      | none => exact hrest hs err
      | some avail => exact hrest (forall_update hs (havail avail hm e (s i) (hs i))) _

omit h [DecidableEq ι]

/-- A module that passes frames on can be at one end and not at the other. -/
theorem carriedBy_passing (hi : G i = fun y x => y = x ∧ x ≠ []) (l : List ι) (y x : List Byte) :
    CarriedBy G (l ++ [i]) y x ↔ CarriedBy G l y x := by
  induction l generalizing x with
  | nil =>
    constructor
    · rintro ⟨mid, hone, rfl, hmid⟩
      rw [hi] at hone
      exact hone
    · rintro ⟨rfl, hy⟩
      exact ⟨y, hi ▸ ⟨rfl, hy⟩, rfl, hy⟩
  | cons j l ih =>
    exact exists_congr fun mid => and_congr_right fun _ => ih mid

end Stack

/-! ### Modules of the daemon -/

section Modules

variable {X : OpenSsl} {pf : Platform} {c : Cipher} {key : List Byte}

theorem passing_carries {κ : Type} {m : Mod ε κ} (hdec : m.decode = none)
    (henc : ∀ e s f, (m.encode.getD passOn e s f).2 = f) :
    m.Carries (fun _ => True) (fun y x => y = x ∧ x ≠ []) 0 where
  down := by
    intro s e f x _ hf hx
    dsimp only
    rw [henc e s f, hf.2]
    exact ⟨⟨by rwa [hf.2], by rwa [hf.2]⟩, le_rfl, ⟨rfl, hx⟩, trivial⟩
  up := by
    rintro r y x e g - ⟨rfl, hy⟩ hg
    rw [hdec]
    exact ⟨hy, hg, trivial⟩
  availEncode := fun _ _ _ _ _ => trivial
  availDecode := fun _ _ _ _ _ => trivial

/-- A packet of the old encryptor. -/
def LegacyPacket (X : OpenSsl) (key y x : List Byte) : Prop :=
  x ≠ [] ∧ (legacyEncryptBuf X key ⟨x.length, x⟩).mem = y

theorem legacy_carries (hX : BlockCipher X .bf key) :
    (lfdLegacyEncrypt X).Carries (· = key) (LegacyPacket X key) 8 where
  down := by
    rintro s e f x rfl hf hx
    have hspan : legacyEncryptBuf X s f = legacyEncryptBuf X s ⟨x.length, x⟩ := by
      rw [legacyEncryptBuf, legacyEncryptBuf, hf.2, Span.frame_all]
    have hcall : (lfdLegacyEncrypt X).encode.getD passOn e s f =
        (s, legacyEncryptBuf X s ⟨x.length, x⟩) := congrArg (Prod.mk s) hspan
    obtain ⟨hlen, hmem⟩ := legacyEncryptBuf_sized hX.encLen ⟨x.length, x⟩
    rw [Span.frame_all] at hlen hmem
    dsimp only
    rw [hcall]
    set out := legacyEncryptBuf X s ⟨x.length, x⟩ with hout
    have hframe : out.frame = out.mem := by
      rw [Span.frame, hlen, Int.toNat_natCast, List.take_of_length_le hmem.le]
    have hne : out.mem ≠ [] := by
      rw [← List.length_pos_iff, hmem]
      omega
    refine ⟨⟨⟨by rw [hframe, hlen, hmem], rfl⟩, by rwa [hframe]⟩, ?_, ⟨hx, hframe.symm⟩, rfl⟩
    rw [hframe, hmem]
    omega
  up := by
    rintro r y x e g rfl ⟨hx, rfl⟩ hg
    obtain ⟨hlen, hmem⟩ := legacyEncryptBuf_sized hX.encLen ⟨x.length, x⟩
    have hback := legacy_round_trip hX x
      (g.mem.drop (legacyEncryptBuf X r ⟨x.length, x⟩).mem.length)
    have hsize : (legacyEncryptBuf X r ⟨x.length, x⟩).len =
        (legacyEncryptBuf X r ⟨x.length, x⟩).mem.length := by rw [hlen, hmem]
    dsimp only at hback
    rw [hsize, ← hg.eq] at hback
    exact ⟨hx, hback, rfl⟩
  availEncode := fun _ h => absurd h (by simp [lfdLegacyEncrypt])
  availDecode := fun _ h => absurd h (by simp [lfdLegacyEncrypt])

/-- A packet of the encryptor in ECB mode. -/
def EcbPacket (X : OpenSsl) (c : Cipher) (key y x : List Byte) : Prop :=
  x ≠ [] ∧ ∃ env, y = ecbText X c key env x

/-- An encryptor in ECB mode whose contexts hold no partial block. -/
structure EcbReady (c : Cipher) (key : List Byte) (s : Encryptor X) : Prop where
  encoder : EcbEncoder c key s
  decoder : EcbDecoder c key [] s
  sendAPacket : s.sendAPacket = false

theorem length_ecbText (hX : BlockCipher X c.algo key) (env : EncEnv) (x : List Byte) :
    (ecbText X c key env x).length ≤ x.length + 16 := by
  have hn : 0 < c.blocksize := c.algo.blocksize_pos
  have hn16 : c.blocksize ≤ 16 := c.algo.blocksize_le
  have hlen : (ecbText X c key env x).length = (x ++ padding env c.blocksize x.length).length :=
    (length_mapBlocks hX.encLen _).trans (Nat.div_mul_cancel (dvd_length_padded env hn x))
  rw [hlen, List.length_append, length_padding env hn]
  omega

/-- The encoder only changes its own context. -/
theorem encryptBuf_ecbReady {s : Encryptor X} (h : EcbReady c key s) (env : EncEnv) {f : Span}
    (hf : f.frame ≠ []) : EcbReady c key (encryptBuf pf env s f).1 := by
  have henc := (encryptBuf_ecb h.encoder pf env hf).2
  have hmsg : sendMsg env s = ([], s) := by rw [sendMsg, h.encoder.encState]
  have hib : sendIbMesg pf s f.frame = (f.frame, s) := by rw [sendIbMesg, h.encoder.encState]
  have hlen : f.frame.length ≠ 0 := fun h0 => hf (List.length_eq_zero_iff.mp h0)
  have hkept : (encryptBuf pf env s f).1.decState = s.decState ∧
      (encryptBuf pf env s f).1.ctxDec = s.ctxDec ∧
      (encryptBuf pf env s f).1.sendAPacket = s.sendAPacket := by
    simp only [encryptBuf, hmsg, hib, if_neg hlen, Encryptor.encUpdate, h.encoder.ctxEnc,
      and_self]
  exact ⟨henc, ⟨henc.cipher, henc.key, hkept.1.trans h.decoder.decState,
    hkept.2.1.trans h.decoder.ctxDec⟩, hkept.2.2.trans h.sendAPacket⟩

/-- The decoder only changes its own context, which whole blocks leave empty. -/
theorem decryptBuf_ecbReady {s : Encryptor X} (h : EcbReady c key s) (env : EncEnv) {f : Span}
    (hpos : 0 < f.len) (hdvd : c.blocksize ∣ f.frame.length) :
    EcbReady c key (decryptBuf env s f).1 := by
  have hdec := (decryptBuf_ecb h.decoder env hpos).2
  rw [feed_aligned hdvd] at hdec
  have hmsg : recvMsg env s f = (f, s) := by rw [recvMsg, h.decoder.decState]
  have hib : ∀ (t : Encryptor X) (len : ℤ), t.decState = .code →
      recvIbMesg t len = ((len, 0), t) := by
    intro t len ht
    rw [recvIbMesg, if_neg (by rw [ht]; decide)]
  have hupd : ∃ text ctx, s.decUpdate env f.len f.mem =
      (text, { s with decOps := s.decOps ++ [.update], ctxDec := ctx }) := by
    simp only [Encryptor.decUpdate, if_neg (not_le.mpr hpos), h.decoder.ctxDec]
    exact ⟨_, _, rfl⟩
  obtain ⟨text, ctx, hupd⟩ := hupd
  have hkept : (decryptBuf env s f).1.encState = s.encState ∧
      (decryptBuf env s f).1.ctxEnc = s.ctxEnc ∧
      (decryptBuf env s f).1.sendAPacket = s.sendAPacket := by
    simp only [decryptBuf, hmsg, if_neg (ne_of_gt hpos), hupd]
    rw [hib { s with
      decOps := s.decOps ++ [.update], ctxDec := ctx, decBuf := store s.decBuf text }
      _ h.decoder.decState]
    exact ⟨rfl, rfl, rfl⟩
  exact ⟨⟨hdec.cipher, hdec.key, hkept.1.trans h.encoder.encState,
    hkept.2.1.trans h.encoder.ctxEnc⟩, hdec, hkept.2.2.trans h.sendAPacket⟩

theorem ecb_carries (hX : BlockCipher X c.algo key) :
    (lfdEncrypt pf X).Carries (EcbReady c key) (EcbPacket X c key) 64 where
  down := by
    intro s e f x hs hf hx
    have hne : f.frame ≠ [] := by rwa [hf.2]
    have hout := (encryptBuf_ecb hs.encoder pf e hne).1
    have hstate : EcbReady c key (encryptBuf pf e s f).1 := encryptBuf_ecbReady hs e hne
    rw [hf.2] at hout
    change (encryptBuf pf e s f).2.Sound ∧ (encryptBuf pf e s f).2.frame.length ≤ _ ∧
      EcbPacket X c key (encryptBuf pf e s f).2.frame x ∧ _
    have hframe : (encryptBuf pf e s f).2.frame = ecbText X c key e x := by
      rw [hout, Span.frame_all]
    have hlen := length_ecbText hX e x
    have hpos := (ecbText_length (c := c) hX e x).2
    refine ⟨⟨⟨by rw [hframe, hout], rfl⟩, ?_⟩, ?_, ⟨hx, e, hframe⟩, hstate⟩
    · rw [hframe, ← List.length_pos_iff]
      omega
    · rw [hframe]
      omega
  up := by
    rintro r y x e g hr ⟨hx, env, rfl⟩ hg
    obtain ⟨hout, -⟩ := encryptBuf_ecb hr.encoder pf env (f := ⟨x.length, x⟩) (by
      rwa [Span.frame_all])
    rw [Span.frame_all] at hout
    have hback := decodes_aligned hX hr.encoder hr.decoder pf env e x
      (g.mem.drop (ecbText X c key env x).length) hx
    dsimp only at hback
    rw [hout, ← hg.eq] at hback
    obtain ⟨hdvd, hlt⟩ := ecbText_length (c := c) hX env x
    refine ⟨hx, hback, decryptBuf_ecbReady hr e ?_ ?_⟩
    · rw [hg.1]
      omega
    · rwa [hg.2]
  availEncode := fun _ h => absurd h (by simp [lfdEncrypt])
  availDecode := fun _ h => absurd h (by simp [lfdEncrypt])

end Modules

/-! ### Sessions -/

/-- A session whose modules carry packets that the drivers can take, and ask for no packet of
their own. -/
structure Session.Carries {σ : Type} (S : Session ε σ) (I : σ → Prop)
    (G : List Byte → List Byte → Prop) : Prop where
  down : ∀ {s} (e : ε) {f : Span} {x : List Byte}, I s → f.Holds x → x ≠ [] →
    x.length ≤ frameSize →
    let o := lfdRunDown e S.mods s f
    o.2.Sound ∧ o.2.frame.length ≤ frameSize + frameOverhead ∧ G o.2.frame x ∧ I o.1
  up : ∀ {r y x} (e : ε) {g : Span}, I r → G y x → g.Holds y →
    let o := lfdRunUp e S.mods.reverse r g
    x ≠ [] ∧ o.2.Holds x ∧ I o.1
  checkDown : ∀ e s, I s → I (lfdCheckDown e S.mods s 1).1
  checkUp : ∀ e s, I s → I (lfdCheckUp e S.mods.reverse s 1).1
  silent : ∀ s, I s → S.sendAPacket s = false

section Daemon

variable {X : OpenSsl} {pf : Platform} {now : EncEnv → TimeVal} {kaMaxfail : ℤ}
  {host : VtunHost}

/-- The key of the encryptor of a host. -/
def hostKey (X : OpenSsl) (host : VtunHost) : List Byte :=
  prepKey X (Cipher.ofNumber host.cipher).keysize host.passwd

/-- The states of the modules, under the cipher and the password of a host.  An encryptor that
is not in the stack has no packet to send either. -/
def ModuleReady (X : OpenSsl) (host : VtunHost) : ∀ mod, ModuleState X mod → Prop
  | .encrypt, s => (show Encryptor X from s).sendAPacket = false ∧
      (.encrypt ∈ codecs host → EcbReady (Cipher.ofNumber host.cipher) (hostKey X host)
        (show Encryptor X from s))
  | .legacyEncrypt, key => .legacyEncrypt ∈ codecs host → key = allocLegacyEncrypt X host
  | _, _ => True

/-- The packets of the modules. -/
def ModulePacket (X : OpenSsl) (host : VtunHost) : Module → List Byte → List Byte → Prop
  | .encrypt => EcbPacket X (Cipher.ofNumber host.cipher) (hostKey X host)
  | .legacyEncrypt => LegacyPacket X (allocLegacyEncrypt X host)
  | _ => fun y x => y = x ∧ x ≠ []

/-- The cipher of a host, if it has one, is in ECB mode or the old one, and a block cipher. -/
structure CipherAlone (X : OpenSsl) (host : VtunHost) : Prop where
  ecb : .encrypt ∈ codecs host → (Cipher.ofNumber host.cipher).mode = .ecb ∧
    BlockCipher X (Cipher.ofNumber host.cipher).algo (hostKey X host)
  legacy : .legacyEncrypt ∈ codecs host → BlockCipher X .bf (allocLegacyEncrypt X host)

/-- The same states, described in another way. -/
theorem Mod.Carries.congr {κ : Type} {m : Mod ε κ} {I J : κ → Prop}
    {G : List Byte → List Byte → Prop} {room : ℕ} (h : m.Carries I G room)
    (hIJ : ∀ s, J s ↔ I s) : m.Carries J G room := by
  obtain rfl : J = I := funext fun s => propext (hIJ s)
  exact h

/-- Every module of the daemon carries its packets. -/
theorem module_carries (h : CipherAlone X host) {mod : Module}
    (hmod : mod ∈ codecs host ∨ mod = .shaper) :
    (daemonMods pf X now mod).Carries (ModuleReady X host mod) (ModulePacket X host mod)
      (moduleRoom mod) := by
  cases mod with
  | zlib => exact passing_carries rfl fun _ _ _ => rfl
  | lzo => exact passing_carries rfl fun _ _ _ => rfl
  | shaper => exact passing_carries rfl fun _ _ _ => rfl
  | encrypt =>
    have hin := hmod.resolve_right (by decide)
    exact (ecb_carries (h.ecb hin).2).congr fun s =>
      ⟨fun hs => hs.2 hin, fun hs => ⟨hs.sendAPacket, fun _ => hs⟩⟩
  | legacyEncrypt =>
    have hin := hmod.resolve_right (by decide)
    exact (legacy_carries (h.legacy hin)).congr fun s => ⟨fun hs => hs hin, fun hs _ => hs⟩

/-- The packets of an end with the same codecs. -/
theorem carriedBy_selected {host' : VtunHost} (hcodecs : codecs host' = codecs host)
    (y x : List Byte) :
    CarriedBy (ModulePacket X host) (selected host') y x ↔
      CarriedBy (ModulePacket X host) (codecs host) y x := by
  rw [selected_codecs, hcodecs]
  cases hasFlag host'.flags Flag.shape with
  | false => simp
  | true => exact carriedBy_passing rfl (codecs host) y x

/-- **The session of the daemon**, at either end: `host` is the record of one of them, and the
other has the same codecs. -/
theorem daemon_carries (h : CipherAlone X host) {host' : VtunHost}
    (hcodecs : codecs host' = codecs host) :
    (daemonSession pf X now kaMaxfail host').Carries
      (fun s => ∀ mod, ModuleReady X host mod (s mod))
      (CarriedBy (ModulePacket X host) (codecs host)) := by
  have hcarries : ∀ mod ∈ selected host', (daemonMods pf X now mod).Carries
      (ModuleReady X host mod) (ModulePacket X host mod) (moduleRoom mod) := by
    intro mod hmod
    rw [selected_codecs, hcodecs, List.mem_append] at hmod
    refine module_carries h (hmod.imp_right fun hshape => ?_)
    split at hshape
    · exact List.mem_singleton.mp hshape
    · exact absurd hshape List.not_mem_nil
  have hmods : (daemonSession pf X now kaMaxfail host').mods.reverse =
      modsOn (daemonMods pf X now) (selected host').reverse := (List.map_reverse).symm
  constructor
  case down =>
    intro s e f x hs hf hx hlen
    obtain ⟨hsound, hroom, hmade, hall⟩ := carried_down hcarries e hs hf hx
    have hsum := sum_moduleRoom host'
    exact ⟨hsound, hroom.trans (Nat.add_le_add hlen hsum),
      (carriedBy_selected hcodecs _ _).mp hmade, hall⟩
  case up =>
    intro r y x e g hr hy hg
    exact carried_up hcarries e hr ((carriedBy_selected hcodecs _ _).mpr hy) hg
  case checkDown =>
    intro e s hs
    exact carried_checkDown hcarries e hs 1
  case checkUp =>
    intro e s hs
    rw [hmods]
    exact carried_checkUp (fun mod hmod => hcarries mod (List.mem_reverse.mp hmod)) e hs 1
  case silent => exact fun s hs => (hs .encrypt).1

/-- The modules of an end before anything is sent. -/
theorem ready_start (halone : CipherAlone X host) {a : VtunHost} (ha : Shares host a)
    (seq : UInt32) (buf : List Byte) (last : Shaper) (mod : Module) :
    ModuleReady X host mod (daemonStart pf X a seq buf false last mod) := by
  cases mod with
  | zlib => trivial
  | lzo => trivial
  | shaper => trivial
  | legacyEncrypt => exact fun _ => congrArg X.md5 ha.passwd
  | encrypt =>
    refine ⟨rfl, fun hin => ?_⟩
    have hcipher := ha.cipher (encrypt_of_codecs hin)
    have hmode := (halone.ecb hin).1
    have hkey : prepKey X (Cipher.ofNumber a.cipher).keysize a.passwd = hostKey X host := by
      rw [hcipher, ha.passwd, hostKey]
    refine ⟨⟨?_, hkey, ?_, ?_⟩, ⟨?_, hkey, ?_, ?_⟩, rfl⟩ <;>
      simp [daemonStart, allocEncrypt, hcipher, hmode]

end Daemon

end Vtun
