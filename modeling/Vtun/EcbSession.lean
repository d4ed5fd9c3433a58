/-
Sessions in ECB mode (`lfd_encrypt.c`).

In `CIPHER_CODE` nothing looks at the length of a received frame, so a frame
that is not a number of whole blocks leaves a partial block in the decryption
context, and the next frame is decrypted behind it.

* `encryptBuf_ecb` — what the encoder sends is the padded frame, block by block;
* `decryptBuf_ecb` — what the decoder returns, and what its context holds then;
* `ecb_decodes_iff` — after any history the next frame of the encoder is decoded
  exactly when the frames received so far make up whole blocks; the old
  encryptor always decodes it;
* `padding_round_trip` — padding at either end is taken off again.
-/
import Vtun.LegacyEncrypt

namespace Vtun

open Blocks

variable {X : OpenSsl} {c : Cipher} {key : List Byte}

/-- The state of a module after some frames through one of its callbacks. -/
def afterAll {σ : Type} (code : EncEnv → σ → Span → σ × Span) (s : σ)
    (frames : List (EncEnv × Span)) : σ :=
  frames.foldl (fun s f => (code f.1 s f.2).1) s

/-- Whatever frame the encoder is given next, the decoder returns it. -/
def DecodesNext {σ : Type} (encode decode : EncEnv → σ → Span → σ × Span) (e d : σ) : Prop :=
  ∀ env env' m tail, m ≠ [] →
    let out := (encode env e ⟨m.length, m⟩).2
    let r := (decode env' d ⟨out.len, out.mem ++ tail⟩).2
    r.len = m.length ∧ r.frame = m

/-! ### The encoder -/

/-- An encoder in ECB mode, between two frames. -/
structure EcbEncoder (c : Cipher) (key : List Byte) (s : Encryptor X) : Prop where
  cipher : s.cipher = c
  key : s.key = key
  encState : s.encState = .code
  ctxEnc : s.ctxEnc = some (.ecb [])

/-- The text the encoder sends for a frame. -/
def ecbText (X : OpenSsl) (c : Cipher) (key : List Byte) (env : EncEnv) (m : List Byte) :
    List Byte :=
  mapBlocks (X.blkEnc c.algo key) c.blocksize (m ++ padding env c.blocksize m.length)

theorem encryptBuf_ecb {s : Encryptor X} (h : EcbEncoder c key s) (pf : Platform) (env : EncEnv)
    {f : Span} (hm : f.frame ≠ []) :
    (encryptBuf pf env s f).2 =
        ⟨(ecbText X c key env f.frame).length, ecbText X c key env f.frame⟩ ∧
      EcbEncoder c key (encryptBuf pf env s f).1 := by
  have hn : 0 < c.blocksize := c.algo.blocksize_pos
  have hmsg : sendMsg env s = ([], s) := by rw [sendMsg, h.encState]
  have hib : sendIbMesg pf s f.frame = (f.frame, s) := by rw [sendIbMesg, h.encState]
  have hlen : f.frame.length ≠ 0 := fun h0 => hm (List.length_eq_zero_iff.mp h0)
  have hfeed := feed_aligned (f := X.blkEnc c.algo key)
    (dvd_length_padded env hn f.frame)
  have hupd : s.encUpdate env (f.frame ++ padding env c.blocksize f.frame.length) =
      (ecbText X c key env f.frame,
        { s with encOps := s.encOps ++ [.update], ctxEnc := some (.ecb []) }) := by
    simp only [Encryptor.encUpdate, h.ctxEnc, Encryptor.blocksize, h.cipher, h.key, hfeed]
    rfl
  have hbs : s.blocksize = c.blocksize := by rw [Encryptor.blocksize, h.cipher]
  simp only [encryptBuf, hmsg, hib, if_neg hlen, hbs, hupd, List.nil_append, true_and]
  exact ⟨h.cipher, h.key, h.encState, rfl⟩

theorem afterAll_ecbEncoder {s : Encryptor X} (h : EcbEncoder c key s) (pf : Platform)
    {frames : List (EncEnv × Span)} (hf : ∀ f ∈ frames, f.2.frame ≠ []) :
    EcbEncoder c key (afterAll (encryptBuf pf) s frames) := by
  induction frames generalizing s with
  | nil => exact h
  | cons f frames ih =>
    have hone := (encryptBuf_ecb h pf f.1 (hf f (by simp))).2
    exact ih hone fun g hg => hf g (by simp [hg])

/-! ### The decoder -/

/-- A decoder in ECB mode whose context holds the partial block `rest`. -/
structure EcbDecoder (c : Cipher) (key rest : List Byte) (s : Encryptor X) : Prop where
  cipher : s.cipher = c
  key : s.key = key
  decState : s.decState = .code
  ctxDec : s.ctxDec = some (.ecb rest)

/-- What the decoder returns for the decrypted text of a frame. -/
def ecbTaken (env : EncEnv) (s : Encryptor X) (f : Span) (text : List Byte) : Span :=
  takePadding env { s with decBuf := store s.decBuf text } f.mem text.length 0

theorem decryptBuf_ecb {s : Encryptor X} {rest : List Byte} (h : EcbDecoder c key rest s)
    (env : EncEnv) {f : Span} (hlen : 0 < f.len) :
    (decryptBuf env s f).2 =
        ecbTaken env s f (feed (X.blkDec c.algo key) c.blocksize rest f.frame).1 ∧
      EcbDecoder c key (feed (X.blkDec c.algo key) c.blocksize rest f.frame).2
        (decryptBuf env s f).1 := by
  have hmsg : recvMsg env s f = (f, s) := by rw [recvMsg, h.decState]
  have hbs : s.blocksize = c.blocksize := by rw [Encryptor.blocksize, h.cipher]
  set r := feed (X.blkDec c.algo key) c.blocksize rest f.frame with hr
  have hupd : s.decUpdate env f.len f.mem =
      (r.1, { s with decOps := s.decOps ++ [.update], ctxDec := some (.ecb r.2) }) := by
    simp only [Encryptor.decUpdate, h.ctxDec, Encryptor.blocksize, h.cipher, h.key,
      if_neg (not_le.mpr hlen)]
    rfl
  have hib : ∀ (t : Encryptor X) (len : ℤ), t.decState = .code →
      recvIbMesg t len = ((len, 0), t) := by
    intro t len ht
    rw [recvIbMesg, if_neg (by rw [ht]; decide)]
  simp only [decryptBuf, hmsg, if_neg (ne_of_gt hlen), hupd]
  rw [hib { s with
    decOps := s.decOps ++ [.update], ctxDec := some (.ecb r.2), decBuf := store s.decBuf r.1 }
    _ h.decState]
  exact ⟨rfl, h.cipher, h.key, h.decState, rfl⟩

theorem afterAll_ecbDecoder {s : Encryptor X} {rest : List Byte} (h : EcbDecoder c key rest s)
    {frames : List (EncEnv × Span)} (hf : ∀ f ∈ frames, 0 < f.2.len) :
    EcbDecoder c key
      (feedAll (X.blkDec c.algo key) c.blocksize rest (frames.map fun f => f.2.frame))
      (afterAll decryptBuf s frames) := by
  induction frames generalizing s rest with
  | nil => exact h
  | cons f frames ih =>
    have hone := (decryptBuf_ecb h f.1 (hf f (by simp))).2
    exact ih hone fun g hg => hf g (by simp [hg])

/-! ### The next frame -/

theorem ecbText_length (hX : BlockCipher X c.algo key) (env : EncEnv) (m : List Byte) :
    c.blocksize ∣ (ecbText X c key env m).length ∧
      m.length < (ecbText X c key env m).length := by
  have hn : 0 < c.blocksize := c.algo.blocksize_pos
  have hdvd := dvd_length_padded env hn m
  have hlen : (ecbText X c key env m).length = (m ++ padding env c.blocksize m.length).length := by
    exact (length_mapBlocks hX.encLen _).trans (Nat.div_mul_cancel hdvd)
  have hmod := Nat.mod_lt m.length hn
  rw [hlen]
  refine ⟨hdvd, ?_⟩
  rw [List.length_append, length_padding env hn]
  omega

/-- What the decoder returns for the next frame of the encoder. -/
theorem ecb_pass {e d : Encryptor X} {rest : List Byte} (hX : BlockCipher X c.algo key)
    (he : EcbEncoder c key e) (hd : EcbDecoder c key rest d) (pf : Platform) (env env' : EncEnv)
    {m : List Byte} (hm : m ≠ []) (tail : List Byte) :
    let out := (encryptBuf pf env e ⟨m.length, m⟩).2
    let f : Span := ⟨out.len, out.mem ++ tail⟩
    (decryptBuf env' d f).2 =
      ecbTaken env' d f
        (feed (X.blkDec c.algo key) c.blocksize rest (ecbText X c key env m)).1 := by
  have hframe := Span.frame_all m
  obtain ⟨hout, -⟩ := encryptBuf_ecb he pf env (f := ⟨m.length, m⟩) (by rwa [hframe])
  rw [hframe] at hout
  have hlt := (ecbText_length (c := c) hX env m).2
  dsimp only
  rw [hout]
  set text := ecbText X c key env m with htext
  obtain ⟨hret, -⟩ := decryptBuf_ecb hd env' (f := ⟨text.length, text ++ tail⟩)
    (by simp only; omega)
  rwa [Span.frame_append] at hret

/-- A decoder whose context is empty returns what the encoder was given. -/
theorem decodes_aligned {e d : Encryptor X} (hX : BlockCipher X c.algo key)
    (he : EcbEncoder c key e) (hd : EcbDecoder c key [] d) (pf : Platform) :
    DecodesNext (encryptBuf pf) decryptBuf e d := by
  intro env env' m tail hm
  have hn : 0 < c.blocksize := c.algo.blocksize_pos
  have hpass := ecb_pass hX he hd pf env env' hm tail
  have hdvd := (ecbText_length (c := c) hX env m).1
  have hplain : mapBlocks (X.blkDec c.algo key) c.blocksize (ecbText X c key env m) =
      m ++ padding env c.blocksize m.length :=
    mapBlocks_inverse hn hX.encLen hX.dec_enc (dvd_length_padded env hn m)
  dsimp only at hpass ⊢
  rw [hpass, feed_aligned hdvd, hplain, ecbTaken]
  have htake := takePadding_padded env' env ((encryptBuf pf env e ⟨m.length, m⟩).2.mem ++ tail)
    d.decBuf [] m
    (s := { d with decBuf := store d.decBuf (m ++ padding env c.blocksize m.length) })
    (by simp only [List.nil_append, Encryptor.blocksize, hd.cipher])
  simpa only [List.nil_append, Encryptor.blocksize, hd.cipher, List.length_nil] using htake

/-- What the decoder returns is the start of the decrypted text, or nothing. -/
theorem ecbTaken_frame (env : EncEnv) (s : Encryptor X) (f : Span) (text : List Byte) :
    (ecbTaken env s f text).frame = text.take (ecbTaken env s f text).len.toNat := by
  rw [ecbTaken, takePadding]
  dsimp only
  split
  · simp [Span.frame]
  · split
    · simp [Span.frame]
    · rw [Span.frame, List.drop_zero, store]
      exact List.take_append_of_le_length (by dsimp only; omega)

/-- A decoder that holds a partial block does not return every frame: it fails
on one whose ciphertext does not start with the bytes it holds. -/
theorem misdecodes_unaligned {e d : Encryptor X} (hX : BlockCipher X c.algo key)
    (he : EcbEncoder c key e) {x : Byte} {rest : List Byte}
    (hd : EcbDecoder c key (x :: rest) d) (hrest : (x :: rest).length < c.blocksize)
    (pf : Platform) : ¬ DecodesNext (encryptBuf pf) decryptBuf e d := by
  intro h
  have hn : 0 < c.blocksize := c.algo.blocksize_pos
  -- the frame is the decryption of a block that starts with another byte
  set b := List.replicate c.blocksize (x + 1) with hb
  set m := X.blkDec c.algo key b with hm
  have hblen : b.length = c.blocksize := List.length_replicate
  have hmlen : m.length = c.blocksize := hX.decLen b hblen
  have hmne : m ≠ [] := by
    intro h0
    rw [h0] at hmlen
    exact absurd hmlen (by simpa using (ne_of_lt hn))
  have htext : ecbText X c key calmEnv m = b ++ mapBlocks (X.blkEnc c.algo key) c.blocksize
      (padding calmEnv c.blocksize m.length) := by
    rw [ecbText, mapBlocks_cons hn hmlen, hm, hX.enc_dec b hblen]
  obtain ⟨hlen, hret⟩ := h calmEnv calmEnv m [] hmne
  have hpass := ecb_pass hX he hd pf calmEnv calmEnv hmne []
  dsimp only at hpass
  rw [hpass] at hlen hret
  rw [ecbTaken_frame, hlen, Int.toNat_natCast, hmlen] at hret
  -- what the decoder takes for the first block starts with what it holds
  set first := (x :: rest) ++ b.take (c.blocksize - (x :: rest).length) with hfirst
  have hflen : first.length = c.blocksize := by
    rw [hfirst, List.length_append, List.length_take, hblen]
    omega
  have hsplit : (x :: rest) ++ ecbText X c key calmEnv m =
      first ++ (b.drop (c.blocksize - (x :: rest).length) ++
        mapBlocks (X.blkEnc c.algo key) c.blocksize (padding calmEnv c.blocksize m.length)) := by
    rw [htext, hfirst, List.append_assoc, ← List.append_assoc (b.take _), List.take_append_drop]
  have hblock : X.blkDec c.algo key first = X.blkDec c.algo key b := by
    rw [← hm, ← hret, feed, hsplit, mapBlocks_cons hn hflen]
    exact (List.take_left' (hX.decLen first hflen)).symm
  have heq : first = b := by
    rw [← hX.enc_dec first hflen, hblock, hX.enc_dec b hblen]
  have hcons := congrArg List.head? heq
  obtain ⟨k, hk⟩ := Nat.exists_eq_succ_of_ne_zero (ne_of_gt hn)
  rw [hfirst, hb, hk, List.replicate_succ] at hcons
  simp at hcons

theorem afterAll_legacyEncode (key : List Byte) (frames : List (EncEnv × Span)) :
    afterAll (legacyEncode X) key frames = key := by
  induction frames with
  | nil => rfl
  | cons f frames ih => exact ih

theorem afterAll_legacyDecode (key : List Byte) (frames : List (EncEnv × Span)) :
    afterAll (legacyDecode X) key frames = key := by
  induction frames with
  | nil => rfl
  | cons f frames ih => exact ih

/-- The total length of frames that lie within their memory. -/
theorem sum_lengths {frames : List (EncEnv × Span)}
    (hf : ∀ f ∈ frames, 0 < f.2.len ∧ f.2.len ≤ f.2.mem.length) :
    (frames.map fun f => f.2.len).sum =
      (((frames.map fun f => f.2.frame).map List.length).sum : ℕ) := by
  induction frames with
  | nil => rfl
  | cons f frames ih =>
    obtain ⟨hpos, hle⟩ := hf f (by simp)
    have hone : f.2.len = (f.2.frame.length : ℕ) := by
      rw [Span.frame, List.length_take]
      omega
    simp only [List.map_cons, List.sum_cons, Nat.cast_add]
    rw [← hone, ih fun g hg => hf g (by simp [hg])]

/-- **The ECB sessions.**  After any frames of any contents, every next frame of
the encoder is decoded if and only if the frames received so far make up whole
blocks; the old encryptor decodes it after any history. -/
theorem ecb_decodes_iff (pf : Platform) (host host' : VtunHost)
    (hcipher : host'.cipher = host.cipher) (hpasswd : host'.passwd = host.passwd)
    (hecb : (Cipher.ofNumber host.cipher).mode = .ecb)
    (hX : BlockCipher X (Cipher.ofNumber host.cipher).algo
      (prepKey X (Cipher.ofNumber host.cipher).keysize host.passwd))
    (hlegacy : BlockCipher X .bf (allocLegacyEncrypt X host))
    (seq seq' : UInt32) (buf buf' : List Byte) (packet packet' : Bool)
    (sent got : List (EncEnv × Span)) (hsent : ∀ f ∈ sent, f.2.frame ≠ [])
    (hgot : ∀ f ∈ got, 1 ≤ f.2.len ∧ f.2.len ≤ 2148 ∧ f.2.len ≤ f.2.mem.length) :
    (DecodesNext (encryptBuf pf) decryptBuf
        (afterAll (encryptBuf pf) (allocEncrypt X host seq buf packet) sent)
        (afterAll decryptBuf (allocEncrypt X host' seq' buf' packet') got) ↔
      ((Cipher.ofNumber host.cipher).blocksize : ℤ) ∣ (got.map fun f => f.2.len).sum) ∧
    DecodesNext (legacyEncode X) (legacyDecode X)
        (afterAll (legacyEncode X) (allocLegacyEncrypt X host) sent)
        (afterAll (legacyDecode X) (allocLegacyEncrypt X host') got) := by
  set c := Cipher.ofNumber host.cipher with hc
  set key := prepKey X c.keysize host.passwd with hkey
  have hn : 0 < c.blocksize := c.algo.blocksize_pos
  constructor
  · have he : EcbEncoder c key (allocEncrypt X host seq buf packet) :=
      ⟨rfl, rfl, by simp [allocEncrypt, ← hc, hecb], by simp [allocEncrypt, ← hc, hecb]⟩
    have hd : EcbDecoder c key [] (allocEncrypt X host' seq' buf' packet') :=
      ⟨by simp [allocEncrypt, hcipher, hc], by simp [allocEncrypt, hcipher, hpasswd, hc, hkey],
        by simp [allocEncrypt, hcipher, ← hc, hecb], by simp [allocEncrypt, hcipher, ← hc, hecb]⟩
    have he' := afterAll_ecbEncoder he pf hsent
    have hd' := afterAll_ecbDecoder hd fun f hf => lt_of_lt_of_le one_pos (hgot f hf).1
    have hlens : (got.map fun f => f.2.len).sum =
        (((got.map fun f => f.2.frame).map List.length).sum : ℕ) :=
      sum_lengths fun f hf => ⟨lt_of_lt_of_le one_pos (hgot f hf).1, (hgot f hf).2.2⟩
    have hrest := length_feedAll (f := X.blkDec c.algo key)
      (show ([] : List Byte).length < c.blocksize from hn)
      (got.map fun f => f.2.frame)
    rw [hlens, Int.natCast_dvd_natCast, Nat.dvd_iff_mod_eq_zero]
    rw [List.length_nil, Nat.zero_add] at hrest
    rw [← hrest]
    set rest := feedAll (X.blkDec c.algo key) c.blocksize [] (got.map fun f => f.2.frame)
    -- The context is empty exactly when the lengths make up whole blocks.
    cases hcase : rest with
    | nil =>
      rw [hcase] at hd'
      exact iff_of_true (decodes_aligned hX he' hd' pf) rfl
    | cons x rest' =>
      rw [hcase] at hd' hrest
      have hlt : (x :: rest').length < c.blocksize := by
        rw [hrest]
        exact Nat.mod_lt _ hn
      exact iff_of_false (misdecodes_unaligned hX he' hd' hlt pf) (by simp)
  · rw [afterAll_legacyEncode, afterAll_legacyDecode]
    have hsame : allocLegacyEncrypt X host' = allocLegacyEncrypt X host := by
      rw [allocLegacyEncrypt, allocLegacyEncrypt, hpasswd]
    intro env env' m tail _
    rw [hsame]
    exact legacy_round_trip hlegacy m tail

/-- AES 128 ECB, after an unintelligible frame of one block. -/
theorem ecb_decodes_iff_block :
    DecodesNext (encryptBuf .lp64) decryptBuf
      (allocEncrypt shiftSsl (sampleHost 9) 0 [] false)
      (afterAll decryptBuf (allocEncrypt shiftSsl (sampleHost 9) 0 [] false)
        [(calmEnv, ⟨16, List.replicate 16 9⟩)]) := by
  have h := ecb_decodes_iff (X := shiftSsl) .lp64 (sampleHost 9) (sampleHost 9)
    rfl rfl rfl (blockCipher_shiftSsl _ _) (blockCipher_shiftSsl _ _) 0 0 [] [] false false
    [] [(calmEnv, ⟨16, List.replicate 16 9⟩)] (by simp) (by simp)
  exact h.1.mpr (by decide)

/-- One byte from outside, and the next frame is lost. -/
theorem ecb_poisoned :
    ¬ ∀ (pf : Platform) (X : OpenSsl) (host : VtunHost) (seq seq' : UInt32) (buf buf' : List Byte)
        (packet packet' : Bool) (got : List (EncEnv × Span)),
      (Cipher.ofNumber host.cipher).mode = .ecb →
      (∀ algo key, BlockCipher X algo key) →
      (∀ f ∈ got, 1 ≤ f.2.len ∧ f.2.len ≤ 2148 ∧ f.2.len ≤ f.2.mem.length) →
      DecodesNext (encryptBuf pf) decryptBuf (allocEncrypt X host seq buf packet)
        (afterAll decryptBuf (allocEncrypt X host seq' buf' packet') got) := by
  intro hall
  have h := hall .lp64 shiftSsl (sampleHost 9) 0 0 [] [] false false [(calmEnv, ⟨1, [9]⟩)] rfl
    blockCipher_shiftSsl (by simp) calmEnv calmEnv [5] [] (by simp)
  exact absurd h.2 (by decide)

/-! ### Padding, both ways -/

/-- The lengths of the padding are those the bit operations on an `int` give. -/
theorem pad_bits (env : EncEnv) (algo : Algo) (len : BitVec 32) :
    (legacyPadding len.toNat).length = ((~~~len &&& 7) + 1).toNat ∧
      (padding env algo.blocksize len.toNat).length =
        algo.blocksize - (len &&& BitVec.ofNat 32 (algo.blocksize - 1)).toNat := by
  constructor
  · have hnot : (~~~len &&& 7).toNat = (~~~len).toNat % 8 := by
      rw [BitVec.toNat_and]
      exact Nat.and_two_pow_sub_one_eq_mod (~~~len).toNat 3
    have hlt := len.isLt
    rw [length_legacyPadding, BitVec.toNat_add, hnot, BitVec.toNat_not,
      show BitVec.toNat (1 : BitVec 32) = 1 from rfl]
    omega
  · rw [length_padding env algo.blocksize_pos, BitVec.toNat_and]
    cases algo with
    | bf => exact congrArg _ (Nat.and_two_pow_sub_one_eq_mod len.toNat 3).symm
    | aes => exact congrArg _ (Nat.and_two_pow_sub_one_eq_mod len.toNat 4).symm

/-- The old encryptor only looks at the frame. -/
theorem legacyEncryptBuf_behind (key m behind : List Byte) :
    legacyEncryptBuf X key ⟨m.length, m ++ behind⟩ = legacyEncryptBuf X key ⟨m.length, m⟩ := by
  rw [legacyEncryptBuf, legacyEncryptBuf, Span.frame_append, Span.frame_all]

/-- **The round trip of the block codecs**, for every frame, whatever stands behind
it in its buffer, whatever a full block of padding is filled with and whatever stands
behind the encoded frame. -/
theorem padding_round_trip {oldKey : List Byte} (hold : BlockCipher X .bf oldKey)
    (hX : BlockCipher X c.algo key) {e d : Encryptor X} (he : EcbEncoder c key e)
    (hd : EcbDecoder c key [] d) (pf : Platform) {m : List Byte} (hm : m ≠ [])
    (behind tail : List Byte) :
    (let out := legacyEncryptBuf X oldKey ⟨m.length, m ++ behind⟩
     let r := legacyDecryptBuf X oldKey ⟨out.len, out.mem ++ tail⟩
     r.len = m.length ∧ r.frame = m ∧ 0 < out.len ∧ 8 ∣ out.len ∧ out.len = out.mem.length) ∧
    ∀ env env' : EncEnv,
      let out := (encryptBuf pf env e ⟨m.length, m ++ behind⟩).2
      let r := (decryptBuf env' d ⟨out.len, out.mem ++ tail⟩).2
      r.len = m.length ∧ r.frame = m ∧ 0 < out.len ∧ (c.blocksize : ℤ) ∣ out.len ∧
        out.len = out.mem.length := by
  constructor
  · obtain ⟨hlen, hframe⟩ := legacy_round_trip hold m tail
    obtain ⟨hmem, hout⟩ := legacyEncryptBuf_eq (X := X) oldKey m
    have hmod := Nat.mod_lt m.length (by decide : 0 < 8)
    have hpad : (legacyPadding m.length ++ m).length = 8 - m.length % 8 + m.length := by
      rw [List.length_append, length_legacyPadding]
    have hdvd : 8 ∣ (legacyPadding m.length ++ m).length := by
      rw [hpad]
      omega
    have htext : (mapBlocks (X.blkEnc .bf oldKey) 8 (legacyPadding m.length ++ m)).length =
        (legacyPadding m.length ++ m).length :=
      (length_mapBlocks hold.encLen _).trans (Nat.div_mul_cancel hdvd)
    dsimp only
    rw [legacyEncryptBuf_behind]
    refine ⟨hlen, hframe, ?_, ?_, ?_⟩
    · rw [hout, hpad]
      omega
    · rw [hout]
      exact_mod_cast hdvd
    · rw [hout, hmem, htext]
  · intro env env'
    obtain ⟨hdvd, hlt⟩ := ecbText_length (c := c) hX env m
    have hbehind : (encryptBuf pf env e ⟨m.length, m ++ behind⟩).2 =
        (encryptBuf pf env e ⟨m.length, m⟩).2 := by
      have hfst := (encryptBuf_ecb he pf env (f := ⟨m.length, m ++ behind⟩)
        (by rwa [Span.frame_append])).1
      have hsnd := (encryptBuf_ecb he pf env (f := ⟨m.length, m⟩)
        (by rwa [Span.frame_all])).1
      rw [hfst, hsnd, Span.frame_append, Span.frame_all]
    have hout := (encryptBuf_ecb he pf env (f := ⟨m.length, m⟩) (by rwa [Span.frame_all])).1
    obtain ⟨hlen, hframe⟩ := decodes_aligned hX he hd pf env env' m tail hm
    dsimp only
    rw [hbehind]
    refine ⟨hlen, hframe, ?_, ?_, ?_⟩
    · rw [hout, Span.frame_all]
      dsimp only
      omega
    · rw [hout, Span.frame_all]
      exact Int.natCast_dvd_natCast.mpr hdvd
    · rw [hout]

/-- The old encryptor and AES 128 ECB, on a frame of one byte. -/
theorem padding_round_trip_byte :
    (legacyDecryptBuf shiftSsl [] (legacyEncryptBuf shiftSsl [] ⟨1, [5]⟩)).frame = [5] ∧
      (decryptBuf calmEnv (allocEncrypt shiftSsl (sampleHost 9) 0 [] false)
        (encryptBuf .lp64 calmEnv (allocEncrypt shiftSsl (sampleHost 9) 0 [] false)
          ⟨1, [5]⟩).2).2.frame = [5] := by
  have h := padding_round_trip (X := shiftSsl) (c := Cipher.ofNumber 9)
    (blockCipher_shiftSsl .bf []) (blockCipher_shiftSsl _ (prepKey shiftSsl 16 (lit "ma")))
    (e := allocEncrypt shiftSsl (sampleHost 9) 0 [] false)
    (d := allocEncrypt shiftSsl (sampleHost 9) 0 [] false) ⟨rfl, rfl, rfl, rfl⟩ ⟨rfl, rfl, rfl, rfl⟩
    .lp64 (m := [5]) (by simp) [] []
  refine ⟨?_, ?_⟩
  · have hold := h.1.2.1
    rw [List.append_nil, List.append_nil] at hold
    exact hold
  · have hnew := (h.2 calmEnv calmEnv).2.1
    rw [List.append_nil, List.append_nil] at hnew
    exact hnew

end Vtun
