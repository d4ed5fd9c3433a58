/-
How much longer frames get (`lfd_encrypt.c`, `lfd_legacy_encrypt.c`).

A packet is made of the header of `send_msg`, the in-band block, the frame and the padding.
`encrypt_buf` changes its state between the first two: a packet with the header has the block
as well.

* `Sized` — the invariant: the contexts keep the lengths of whole blocks;
* `Sized.exec` — it holds in every state a session reaches;
* `Sized.encryptBuf` — the length of a packet;
* `legacyEncryptBuf_sized` — and of one of the old encryptor.
-/
import Vtun.EncryptCtx
import Vtun.EncryptBuffer

namespace Vtun

open Blocks

variable {X : OpenSsl} {pf : Platform} {c : Cipher} {key : List Byte}

/-! ### The invariant -/

/-- What is relied on of a cipher under a key: blocks are encrypted to blocks, and the chained
modes keep the lengths of whole blocks. -/
structure LengthsKept (X : OpenSsl) (c : Cipher) (key : List Byte) : Prop where
  blocks : KeepsBlocks (X.blkEnc c.algo key) c.blocksize
  chained : ∀ iv, iv.length = c.blocksize → CtxKeepsLength X c (X.encInit c key iv)

theorem ChainedCipher.lengthsKept (h : ChainedCipher X c key) : LengthsKept X c key :=
  ⟨h.sideband.encLen, h.keepsLength⟩

/-- A context keeps the lengths of whole blocks: no part of a block is left over in it. -/
def CtxSized (c : Cipher) : Option (EncCtx X) → Prop
  | none => True
  | some (.ecb rest) => rest = []
  | some (.chained e) => CtxKeepsLength X c e

/-- The encryptor of a session with the cipher `c`, whose context keeps lengths. -/
structure Sized (c : Cipher) (key : List Byte) (s : Encryptor X) : Prop where
  cipher : s.cipher = c
  key : s.key = key
  ctx : CtxSized c s.ctxEnc

theorem sized_allocEncrypt (X : OpenSsl) (host : VtunHost) (seq : UInt32) (buf : List Byte)
    (packet : Bool) :
    Sized (Cipher.ofNumber host.cipher)
      (prepKey X (Cipher.ofNumber host.cipher).keysize host.passwd)
      (allocEncrypt X host seq buf packet) := by
  refine ⟨rfl, rfl, ?_⟩
  rw [allocEncrypt]
  dsimp only
  split
  · exact rfl
  · exact trivial

theorem Sized.blocksize {s : Encryptor X} (h : Sized c key s) : s.blocksize = c.blocksize := by
  rw [Encryptor.blocksize, h.cipher]

/-- What the invariant reads of an encryptor. -/
theorem Sized.congr {s s' : Encryptor X} (h : Sized c key s) (hcipher : s'.cipher = s.cipher)
    (hkey : s'.key = s.key) (hctx : s'.ctxEnc = s.ctxEnc ∨ s'.ctxEnc = none) :
    Sized c key s' := by
  refine ⟨hcipher.trans h.cipher, hkey.trans h.key, ?_⟩
  rcases hctx with hctx | hctx
  · rw [hctx]
    exact h.ctx
  · rw [hctx]
    exact trivial

/-! ### One packet -/

/-- A context that keeps lengths, given whole blocks. -/
theorem Sized.encUpdate {s : Encryptor X} (h : Sized c key s) (hX : LengthsKept X c key)
    (env : EncEnv) {input : List Byte} (hin : c.blocksize ∣ input.length) :
    (s.encUpdate env input).1.length = input.length ∧ Sized c key (s.encUpdate env input).2 := by
  obtain ⟨hcipher, hkey, hctx⟩ := h
  rw [Encryptor.encUpdate]
  dsimp only
  split
  · rename_i rest hecb
    have hrest : rest = [] := by
      rw [hecb] at hctx
      exact hctx
    have hfeed := feed_aligned (f := X.blkEnc c.algo key) hin
    rw [Encryptor.blocksize, hcipher, hkey, hrest, hfeed]
    refine ⟨?_, rfl, rfl, rfl⟩
    dsimp only
    rw [length_mapBlocks hX.blocks, Nat.div_mul_cancel hin]
  · rename_i e hchained
    have hkeeps : CtxKeepsLength X c e := by
      rw [hchained] at hctx
      exact hctx
    exact ⟨hkeeps.one hin, hcipher, hkey, hkeeps.step hin⟩
  · rename_i hnone
    refine ⟨length_draw _ _, hcipher, hkey, ?_⟩
    rw [hnone]
    exact trivial

/-- The length of the header of `send_msg`, if the encoder sends one. -/
def Encryptor.headerLength (s : Encryptor X) : ℕ :=
  if s.encState = .init then 2 * s.blocksize else 0

theorem Sized.sendMsg {s : Encryptor X} (h : Sized c key s) (hX : LengthsKept X c key)
    (env : EncEnv) :
    (sendMsg env s).1.length = s.headerLength ∧ Sized c key (sendMsg env s).2 := by
  obtain ⟨hcipher, hkey, hctx⟩ := h
  rw [Encryptor.headerLength, Vtun.sendMsg]
  split
  · rename_i hinit
    rw [if_pos hinit, Encryptor.blocksize, hcipher, hkey]
    have hplain : (lit "ivec" ++ draw env.iv c.blocksize ++
        draw env.fill (c.blocksize - 4)).length = c.blocksize * 2 :=
      length_ivecPlain (length_draw _ _) (length_draw _ _)
    constructor
    · rw [length_mapBlocks hX.blocks, hplain, Nat.div_mul_cancel (Nat.dvd_mul_right _ _),
        Nat.mul_comm]
    · refine ⟨hcipher, hkey, ?_⟩
      change CtxKeepsLength X c (X.encInit s.cipher s.key _)
      rw [hcipher, hkey]
      exact hX.chained _ (length_draw _ _)
  · rename_i hinit
    rw [if_neg (fun hs => hinit hs)]
    exact ⟨rfl, hcipher, hkey, hctx⟩

theorem Sized.sendIbMesg {s : Encryptor X} (h : Sized c key s) (pf : Platform) (m : List Byte) :
    Sized c key (sendIbMesg pf s m).2 := by
  rw [Vtun.sendIbMesg]
  split
  · exact h
  · exact h.congr rfl rfl (Or.inl rfl)
  · exact h

/-- The plaintext fills whole blocks, the last one with padding. -/
theorem Sized.length_plaintext {s : Encryptor X} (h : Sized c key s) (pf : Platform)
    (env : EncEnv) (m : List Byte) :
    (s.plaintext pf env m).length =
      c.blocksize * ((m.length + s.blockLength) / c.blocksize + 1) := by
  have hbs : 0 < c.blocksize := c.algo.blocksize_pos
  have hlen := length_sendIbMesg pf env s m
  have hsize : (Vtun.sendIbMesg pf (Vtun.sendMsg env s).2 m).2.blocksize = c.blocksize := by
    rw [blocksize_sent, h.blocksize]
  rw [Encryptor.plaintext, List.length_append, hsize, length_padding env hbs, hlen, Nat.mul_add,
    Nat.mul_one]
  have hdiv := Nat.div_add_mod (m.length + s.blockLength) c.blocksize
  have hmod := Nat.mod_lt (m.length + s.blockLength) hbs
  omega

/-- The length of a packet: the header, and the plaintext in whole blocks. -/
def Encryptor.packetLength (s : Encryptor X) (n : ℕ) : ℕ :=
  s.headerLength + s.blocksize * ((n + s.blockLength) / s.blocksize + 1)

/-- **The length of a packet.** -/
theorem Sized.encryptBuf {s : Encryptor X} (h : Sized c key s) (hX : LengthsKept X c key)
    (pf : Platform) (env : EncEnv) {f : Span} (hf : f.frame ≠ []) :
    let out := (encryptBuf pf env s f).2
    out.len = s.packetLength f.frame.length ∧ out.mem.length = s.packetLength f.frame.length := by
  obtain ⟨hheader, hsent⟩ := h.sendMsg hX env
  have hplain := h.length_plaintext pf env f.frame
  have hwhole : c.blocksize ∣ (s.plaintext pf env f.frame).length := by
    rw [hplain]
    exact Nat.dvd_mul_right _ _
  have htext := ((hsent.sendIbMesg pf f.frame).encUpdate hX env hwhole).1
  rw [encryptBuf_plaintext pf env s hf]
  dsimp only
  rw [List.length_append, hheader, htext, hplain, Encryptor.packetLength, h.blocksize]
  exact ⟨rfl, rfl⟩

/-- A packet is at most four blocks longer than its frame. -/
theorem Encryptor.packetLength_le (s : Encryptor X) (n : ℕ) :
    n < s.packetLength n ∧ s.packetLength n ≤ n + 4 * s.blocksize := by
  have hbs : 0 < s.blocksize := s.cipher.algo.blocksize_pos
  have hblock : s.blockLength ≤ s.blocksize := by
    rw [Encryptor.blockLength]
    split <;> omega
  have hheader : s.headerLength ≤ 2 * s.blocksize := by
    rw [Encryptor.headerLength]
    split <;> omega
  have hdiv := Nat.div_add_mod (n + s.blockLength) s.blocksize
  have hmod := Nat.mod_lt (n + s.blockLength) hbs
  rw [Encryptor.packetLength, Nat.mul_add, Nat.mul_one]
  omega

/-! ### Runs -/

theorem Sized.dropEncoder {s : Encryptor X} (h : Sized c key s) : Sized c key s.dropEncoder := by
  rw [Encryptor.dropEncoder]
  split
  · exact h.congr rfl rfl (Or.inr rfl)
  · exact h

theorem Sized.countGibberish {s : Encryptor X} (h : Sized c key s) (env : EncEnv) :
    Sized c key (countGibberish env s) := by
  rw [Vtun.countGibberish]
  dsimp only
  generalize (if s.gibberish + 1 = 1 then env.time₁ else s.gibTimeStart) = start
  -- whether the encoder is told to ask for a resynchronisation makes no difference
  have hasked : Sized c key (if s.gibberish + 1 = minGibberish then
      { s with gibberish := s.gibberish + 1, gibTimeStart := start, encState := .reqInit,
               sendAPacket := true }
      else { s with gibberish := s.gibberish + 1, gibTimeStart := start }) := by
    split
    · exact h.congr rfl rfl (Or.inl rfl)
    · exact h.congr rfl rfl (Or.inl rfl)
  by_cases hover : s.gibberish + 1 ≥ maxGibberish ∨ env.time₂ - start ≥ maxGibberishTime
  · rw [if_pos hover]
    refine Sized.dropEncoder ?_
    exact hasked.congr rfl rfl (Or.inl rfl)
  · rw [if_neg hover]
    exact hasked

theorem Sized.recvMsg {s : Encryptor X} (h : Sized c key s) (env : EncEnv) (f : Span) :
    Sized c key (recvMsg env s f).2 := by
  rw [Vtun.recvMsg]
  dsimp only
  split
  · split
    · exact h.congr rfl rfl (Or.inl rfl)
    · exact h.countGibberish env
  · exact h

theorem Sized.decUpdate {s : Encryptor X} (h : Sized c key s) (env : EncEnv) (len : ℤ)
    (mem : List Byte) : Sized c key (s.decUpdate env len mem).2 := by
  rw [Encryptor.decUpdate]
  dsimp only
  split
  · exact h.congr rfl rfl (Or.inl rfl)
  · split
    · exact h.congr rfl rfl (Or.inl rfl)
    · exact h.congr rfl rfl (Or.inl rfl)
    · exact h.congr rfl rfl (Or.inl rfl)

theorem Sized.recvIbMesg {s : Encryptor X} (h : Sized c key s) (len : ℤ) :
    Sized c key (recvIbMesg s len).2 := by
  rw [Vtun.recvIbMesg]
  split
  · split
    · exact h
    · split
      · exact h.dropEncoder
      · dsimp only
        split
        · exact h.congr rfl rfl (Or.inl rfl)
        · exact h
  · exact h

theorem Sized.decryptBuf {s : Encryptor X} (h : Sized c key s) (env : EncEnv) (f : Span) :
    Sized c key (decryptBuf env s f).1 := by
  have hmsg := h.recvMsg env f
  rw [Vtun.decryptBuf]
  dsimp only
  split
  · exact hmsg
  · have hupd := hmsg.decUpdate env (Vtun.recvMsg env s f).1.len (Vtun.recvMsg env s f).1.mem
    refine Sized.recvIbMesg ?_ _
    exact hupd.congr rfl rfl (Or.inl rfl)

/-- `encrypt_buf` keeps the invariant, for every frame. -/
theorem Sized.encryptBuf_state {s : Encryptor X} (h : Sized c key s) (hX : LengthsKept X c key)
    (pf : Platform) (env : EncEnv) (f : Span) : Sized c key (Vtun.encryptBuf pf env s f).1 := by
  have hsent := ((h.sendMsg hX env).2).sendIbMesg pf f.frame
  rw [Vtun.encryptBuf]
  dsimp only
  split
  · exact hsent
  · have hwhole := dvd_length_padded env c.algo.blocksize_pos
      (Vtun.sendIbMesg pf (Vtun.sendMsg env s).2 f.frame).1
    have hupd := (hsent.encUpdate hX env hwhole).2
    rw [← Cipher.blocksize, ← hsent.blocksize] at hupd
    exact hupd.congr rfl rfl (Or.inl rfl)

/-- **Lengths are kept in every state of a session.** -/
theorem sized_exec {host : VtunHost}
    (hX : LengthsKept X (Cipher.ofNumber host.cipher)
      (prepKey X (Cipher.ofNumber host.cipher).keysize host.passwd))
    {seq : UInt32} {buf : List Byte} {packet : Bool} {es : List CryptEv} {s : Encryptor X}
    (hrun : Run.exec (cryptStep pf) (allocEncrypt X host seq buf packet) es = some s) :
    Sized (Cipher.ofNumber host.cipher)
      (prepKey X (Cipher.ofNumber host.cipher).keysize host.passwd) s := by
  refine Run.exec_preserves ?_ (sized_allocEncrypt X host seq buf packet) hrun
  intro s e s' h hs'
  cases e with
  | encrypt env f =>
    obtain rfl := Option.some.inj hs'
    exact h.encryptBuf_state hX pf env f
  | decrypt env f =>
    obtain rfl := Option.some.inj hs'
    exact h.decryptBuf env f

/-! ### The old encryptor -/

/-- **The length of a packet of the old encryptor.** -/
theorem legacyEncryptBuf_sized (hX : KeepsBlocks (X.blkEnc .bf key) 8) (f : Span) :
    let out := legacyEncryptBuf X key f
    out.len = (8 * (f.frame.length / 8 + 1) : ℕ) ∧
      out.mem.length = 8 * (f.frame.length / 8 + 1) := by
  have hmod := Nat.mod_lt f.frame.length (by decide : 0 < 8)
  have hdiv := Nat.div_add_mod f.frame.length 8
  have hfirst : (legacyPadding f.frame.length ++
      f.frame.take (f.frame.length % 8)).length = 8 := by
    rw [List.length_append, length_legacyPadding, List.length_take]
    omega
  rw [legacyEncryptBuf]
  dsimp only
  rw [List.length_append, hX _ hfirst, length_mapBlocks hX, List.length_drop]
  constructor <;> omega

end Vtun
