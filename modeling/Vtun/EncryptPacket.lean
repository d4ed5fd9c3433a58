/-
Packets of the chained modes (`lfd_encrypt.c`).

A packet is a frame behind an in-band block, padded and encrypted with the
context of the session; the first one after `CIPHER_INIT` has the header with
the initialisation vector in front.

* `encryptBuf_init`, `encryptBuf_sequence`, `encryptBuf_reqInit` — the packets
  the encoder makes in each of its states;
* `decryptBuf_fresh` — the header opens a new context;
* `decryptBuf_seq`, `decryptBuf_rsyn` — a packet that the context decrypts gives
  back the frame.
-/
import Vtun.LegacyEncrypt
import Vtun.Lib.Codec

namespace Vtun

open Blocks

variable {X : OpenSsl} {pf : Platform} {c : Cipher} {key : List Byte}

/-! ### What a session relies on -/

/-- Texts of whole blocks. -/
def WholeBlocks (c : Cipher) (text : List Byte) : Prop := c.blocksize ∣ text.length

/-- The contexts `e` and `d` are in step. -/
def CtxInStep (X : OpenSsl) (c : Cipher) (e : X.Enc) (d : X.Dec) : Prop :=
  Codec.InStep X.encUpdate X.decUpdate (WholeBlocks c) e d

/-- The context `e` keeps the length of what it encrypts. -/
def CtxKeepsLength (X : OpenSsl) (c : Cipher) (e : X.Enc) : Prop :=
  Codec.KeepsSize X.encUpdate (WholeBlocks c) List.length List.length e

/-- What a session relies on of a chained cipher under a key: contexts with the
same vector start in step, lengths are kept, and the sideband cipher can be
undone. -/
structure ChainedCipher (X : OpenSsl) (c : Cipher) (key : List Byte) : Prop where
  sideband : BlockCipher X c.algo key
  inStep : ∀ iv, iv.length = c.blocksize →
    CtxInStep X c (X.encInit c key iv) (X.decInit c key iv)
  keepsLength : ∀ iv, iv.length = c.blocksize → CtxKeepsLength X c (X.encInit c key iv)

theorem length_shiftEnc (b : Byte) (input : List Byte) :
    (shiftEnc b input).length = input.length := by
  induction input generalizing b with
  | nil => rfl
  | cons x input ih => rw [shiftEnc, List.length_cons, List.length_cons, ih]

theorem shiftDec_shiftEnc (b : Byte) (input : List Byte) :
    shiftDec b (shiftEnc b input) = input := by
  induction input generalizing b with
  | nil => rfl
  | cons x input ih => rw [shiftEnc, shiftDec, ih, UInt8.add_sub_cancel]

theorem runAll_shiftSsl (b : Byte) (as : List (List Byte)) :
    (Codec.runAll shiftSsl.decUpdate b (Codec.runAll shiftSsl.encUpdate b as).1).1 = as ∧
      (Codec.runAll shiftSsl.encUpdate b as).1.map List.length = as.map List.length := by
  induction as generalizing b with
  | nil => exact ⟨rfl, rfl⟩
  | cons a as ih =>
    obtain ⟨hdec, hlen⟩ := ih ((shiftEnc b a).getLastD b)
    exact ⟨congrArg₂ List.cons (shiftDec_shiftEnc b a) hdec,
      congrArg₂ List.cons (length_shiftEnc b a) hlen⟩

theorem chainedCipher_shiftSsl (c : Cipher) (key : List Byte) :
    ChainedCipher shiftSsl c key :=
  ⟨blockCipher_shiftSsl c.algo key, fun iv _ as _ => (runAll_shiftSsl (iv.headD 0) as).1,
    fun iv _ as _ => (runAll_shiftSsl (iv.headD 0) as).2⟩

/-! ### Texts -/

/-- The in-band header fits into one block. -/
def HeaderFits (pf : Platform) (c : Cipher) : Prop := 4 + (longBytes pf 0).length ≤ c.blocksize

/-- The text of the frame `m`: a block that starts with `tag`, the frame, and
the padding behind both. -/
def InBand (blocksize : ℕ) (tag m text : List Byte) : Prop :=
  ∃ block env, block.length = blocksize ∧ block.take 4 = tag ∧
    text = block ++ (m ++ padding env blocksize (block ++ m).length)

theorem InBand.whole {tag m text : List Byte} (h : InBand c.blocksize tag m text) :
    WholeBlocks c text := by
  obtain ⟨block, env, -, -, rfl⟩ := h
  have hdvd := dvd_length_padded env c.algo.blocksize_pos (block ++ m)
  rwa [List.append_assoc] at hdvd

theorem InBand.length_le {tag m text : List Byte} (h : InBand c.blocksize tag m text) :
    m.length < text.length ∧ text.length ≤ m.length + 2 * c.blocksize := by
  obtain ⟨block, env, hblock, -, rfl⟩ := h
  have hn : 0 < c.blocksize := c.algo.blocksize_pos
  have hmod := Nat.mod_lt (block ++ m).length hn
  rw [List.length_append, (List.length_append : (m ++ _).length = _), length_padding env hn]
  omega

theorem Cipher.blocksize_ge (c : Cipher) : 4 ≤ c.blocksize := by
  rw [Cipher.blocksize]
  cases c.algo <;> decide

/-- What is left of the frame `m` when the number in front of it does not end
within its block: the store goes on over the first bytes. -/
def overwritten (pf : Platform) (blocksize : ℕ) (n : UInt32) (m : List Byte) : List Byte :=
  let spill := (longBytes pf n).drop (blocksize - 4)
  (spill ++ m.drop spill.length).take m.length

theorem length_overwritten (pf : Platform) (blocksize : ℕ) (n : UInt32) (m : List Byte) :
    (overwritten pf blocksize n m).length = m.length := by
  simp only [overwritten, List.length_take, List.length_append, List.length_drop]
  omega

theorem length_longBytes (pf : Platform) (n n' : UInt32) :
    (longBytes pf n).length = (longBytes pf n').length := by
  cases pf <;> rfl

/-- The frame is left alone if and only if the store does not reach it, or stores
there what it starts with anyway. -/
theorem overwritten_eq_iff {blocksize : ℕ} {n : UInt32} {m : List Byte} :
    overwritten pf blocksize n m = m ↔
      m.take ((longBytes pf n).drop (blocksize - 4)).length <+:
        (longBytes pf n).drop (blocksize - 4) := by
  set spill := (longBytes pf n).drop (blocksize - 4) with hspill
  have heq : overwritten pf blocksize n m =
      spill.take m.length ++ m.drop spill.length := by
    rw [overwritten, ← hspill, List.take_append]
    refine congrArg (spill.take m.length ++ ·) (List.take_of_length_le ?_)
    exact Nat.le_of_eq List.length_drop
  have hmin : spill.take (m.take spill.length).length = spill.take m.length := by
    rw [List.length_take]
    rcases Nat.le_total spill.length m.length with h | h
    · rw [Nat.min_eq_left h, List.take_length, List.take_of_length_le h]
    · rw [Nat.min_eq_right h]
  rw [heq, List.prefix_iff_eq_take, hmin]
  constructor
  · intro h
    have hsplit := h.trans (List.take_append_drop spill.length m).symm
    exact (List.append_cancel_right hsplit).symm
  · intro h
    rw [← h]
    exact List.take_append_drop _ _

/-- Where the header fits, the frame is left alone. -/
theorem HeaderFits.overwritten (h : HeaderFits pf c) (n : UInt32) (m : List Byte) :
    overwritten pf c.blocksize n m = m := by
  rw [HeaderFits, length_longBytes pf 0 n] at h
  have hnil : (longBytes pf n).drop (c.blocksize - 4) = [] := List.drop_of_length_le (by omega)
  rw [overwritten_eq_iff, hnil]
  exact List.nil_prefix

/-- What `send_ib_mesg` leaves in front of the padding: a block of its own, and
what the store has left of the frame. -/
theorem tagged_eq (pf : Platform) (c : Cipher) (tag : List Byte) (htag : tag.length = 4)
    (n : UInt32) (m : List Byte) :
    ∃ block, block.length = c.blocksize ∧ block.take 4 = tag ∧
      tagged pf c.blocksize tag n m = block ++ overwritten pf c.blocksize n m := by
  set long := longBytes pf n with hlong
  set spill := long.drop (c.blocksize - 4) with hspill
  set rest := List.replicate (c.blocksize - (4 + long.length)) (0 : Byte) with hrest
  have h4 : 4 ≤ c.blocksize := c.blocksize_ge
  refine ⟨tag ++ long.take (c.blocksize - 4) ++ rest, ?_, ?_, ?_⟩
  · simp only [List.length_append, List.length_take, List.length_replicate, htag, hrest]
    omega
  · rw [List.append_assoc]
    exact List.take_left' htag
  · have hdrop : (tag ++ List.replicate (c.blocksize - 4) 0 ++ m).drop (4 + long.length) =
        rest ++ m.drop spill.length := by
      rw [List.append_assoc, ← List.drop_drop, List.drop_left' htag, List.drop_append,
        List.drop_replicate, List.length_replicate, Nat.sub_sub, hspill, List.length_drop]
    -- either the number ends within the block, or it fills the block to its end
    have hcomm : spill ++ rest = rest ++ spill := by
      rcases Nat.le_total (c.blocksize) (4 + long.length) with h | h
      · rw [hrest, Nat.sub_eq_zero_of_le h, List.replicate_zero, List.append_nil, List.nil_append]
      · rw [hspill, List.drop_of_length_le (by omega), List.append_nil, List.nil_append]
    have hall : tag ++ long ++ (rest ++ m.drop spill.length) =
        (tag ++ long.take (c.blocksize - 4) ++ rest) ++ (spill ++ m.drop spill.length) := by
      nth_rewrite 1 [← List.take_append_drop (c.blocksize - 4) long]
      rw [← hspill]
      simp only [List.append_assoc]
      rw [← List.append_assoc spill rest, hcomm, List.append_assoc]
    have hlen : (tag ++ List.replicate (c.blocksize - 4) 0 ++ m).length =
        (tag ++ long.take (c.blocksize - 4) ++ rest).length + m.length := by
      simp only [List.length_append, List.length_take, List.length_replicate, htag, hrest]
      omega
    simp only [tagged, htag]
    rw [← hlong, hdrop, hlen, List.append_assoc tag (List.replicate _ _), List.take_left' htag,
      hall, List.take_append, Nat.add_sub_cancel_left,
      List.take_of_length_le (Nat.le_add_right _ _)]
    rfl

/-! ### The encoder -/

/-- The encrypted header of `send_msg`. -/
def ivecHeader (X : OpenSsl) (c : Cipher) (key iv fill : List Byte) : List Byte :=
  mapBlocks (X.blkEnc c.algo key) c.blocksize (lit "ivec" ++ iv ++ fill)

theorem length_ivecPlain {iv fill : List Byte} (hiv : iv.length = c.blocksize)
    (hfill : fill.length = c.blocksize - 4) :
    (lit "ivec" ++ iv ++ fill).length = c.blocksize * 2 := by
  have h4 := c.blocksize_ge
  rw [List.length_append, List.length_append, hiv, hfill, show (lit "ivec").length = 4 from rfl]
  omega

theorem length_ivecHeader (hX : BlockCipher X c.algo key) {iv fill : List Byte}
    (hiv : iv.length = c.blocksize) (hfill : fill.length = c.blocksize - 4) :
    (ivecHeader X c key iv fill).length = c.blocksize * 2 := by
  refine (length_mapBlocks hX.encLen _).trans ?_
  rw [length_ivecPlain hiv hfill]
  exact Nat.div_mul_cancel (Nat.dvd_mul_right _ _)

/-- The frame as it goes into a packet behind an in-band block. -/
def Encryptor.inside (pf : Platform) (s : Encryptor X) (m : List Byte) : List Byte :=
  overwritten pf s.cipher.blocksize s.sequenceNum m

theorem Encryptor.inside_fits {s : Encryptor X} (hfit : HeaderFits pf s.cipher) (m : List Byte) :
    s.inside pf m = m :=
  hfit.overwritten s.sequenceNum m

/-- What is left of `encrypt_buf` after the header: the in-band block is in front
of the frame, and the text is encrypted. -/
theorem encryptBuf_eq {env : EncEnv} {s s₁ s₂ : Encryptor X} {f : Span}
    {header plain : List Byte} (hmsg : sendMsg env s = (header, s₁))
    (hib : sendIbMesg pf s₁ f.frame = (plain, s₂)) (hne : plain ≠ []) :
    let r := s₂.encUpdate env (plain ++ padding env s₂.blocksize plain.length)
    encryptBuf pf env s f =
      ({ r.2 with sequenceNum := r.2.sequenceNum + 1 },
        ⟨(header ++ r.1).length, header ++ r.1⟩) := by
  have hlen : plain.length ≠ 0 := fun h0 => hne (List.length_eq_zero_iff.mp h0)
  simp only [encryptBuf, hmsg, hib, if_neg hlen]

/-- The frame behind the in-band block, encrypted with a live context. -/
theorem encUpdate_inBand {s : Encryptor X} {e : X.Enc} (hctx : s.ctxEnc = some (.chained e))
    (env : EncEnv) {block tag m : List Byte} (hblock : block.length = s.cipher.blocksize)
    (htag : block.take 4 = tag) :
    ∃ text ops, InBand s.cipher.blocksize tag m text ∧
      s.encUpdate env ((block ++ m) ++ padding env s.blocksize (block ++ m).length) =
        ((X.encUpdate e text).1,
          { s with ctxEnc := some (.chained (X.encUpdate e text).2), encOps := ops }) := by
  refine ⟨block ++ (m ++ padding env s.cipher.blocksize (block ++ m).length),
    s.encOps ++ [CtxOp.update], ⟨block, env, hblock, htag, rfl⟩, ?_⟩
  simp only [Encryptor.encUpdate, hctx, Encryptor.blocksize, List.append_assoc]

theorem append_ne_nil_of_block {c : Cipher} {block m : List Byte}
    (hblock : block.length = c.blocksize) : block ++ m ≠ [] := by
  intro h
  have hn : 0 < c.blocksize := c.algo.blocksize_pos
  rw [List.append_eq_nil_iff] at h
  rw [← hblock, h.1] at hn
  exact absurd hn (by decide)

/-- **The packet of an encoder in `CIPHER_INIT`**: a header with a new vector, and
the frame under the context it stands for. -/
theorem encryptBuf_init (pf : Platform) {s : Encryptor X} (hs : s.encState = .init)
    (env : EncEnv) (f : Span) :
    ∃ iv fill text ops, iv.length = s.cipher.blocksize ∧ fill.length = s.cipher.blocksize - 4 ∧
      InBand s.cipher.blocksize (lit "seq#") (s.inside pf f.frame) text ∧
      encryptBuf pf env s f =
        let r := X.encUpdate (X.encInit s.cipher s.key iv) text
        let bytes := ivecHeader X s.cipher s.key iv fill ++ r.1
        ({ s with
          encState := .sequence
          ctxEnc := some (.chained r.2)
          sequenceNum := s.sequenceNum + 1
          encOps := ops }, ⟨bytes.length, bytes⟩) := by
  set iv := draw env.iv s.blocksize with hiv
  set fill := draw env.fill (s.blocksize - 4) with hfill
  set t : Encryptor X := { s.cipherEncInit iv with encState := .sequence } with ht
  have hmsg : sendMsg env s = (ivecHeader X s.cipher s.key iv fill, t) := by
    rw [sendMsg, hs]
    rfl
  obtain ⟨block, hblock, htag, heq⟩ :=
    tagged_eq pf s.cipher (lit "seq#") rfl s.sequenceNum f.frame
  have hib : sendIbMesg pf t f.frame = (block ++ s.inside pf f.frame, t) := by
    rw [Encryptor.inside, ← heq]
    rfl
  obtain ⟨text, ops, htext, hupd⟩ :=
    encUpdate_inBand (s := t) (m := s.inside pf f.frame) rfl env hblock htag
  refine ⟨iv, fill, text, ops, length_draw _ _, length_draw _ _, htext, ?_⟩
  rw [encryptBuf_eq hmsg hib (append_ne_nil_of_block hblock), hupd]
  rfl

/-- **The packet of an encoder in `CIPHER_SEQUENCE`.** -/
theorem encryptBuf_sequence (pf : Platform) {s : Encryptor X}
    (hs : s.encState = .sequence) {e : X.Enc} (hctx : s.ctxEnc = some (.chained e))
    (env : EncEnv) (f : Span) :
    ∃ text ops, InBand s.cipher.blocksize (lit "seq#") (s.inside pf f.frame) text ∧
      encryptBuf pf env s f =
        let r := X.encUpdate e text
        ({ s with
          ctxEnc := some (.chained r.2)
          sequenceNum := s.sequenceNum + 1
          encOps := ops }, ⟨r.1.length, r.1⟩) := by
  have hmsg : sendMsg env s = ([], s) := by rw [sendMsg, hs]
  obtain ⟨block, hblock, htag, heq⟩ :=
    tagged_eq pf s.cipher (lit "seq#") rfl s.sequenceNum f.frame
  have hib : sendIbMesg pf s f.frame = (block ++ s.inside pf f.frame, s) := by
    rw [sendIbMesg, hs, Encryptor.inside, ← heq]
    rfl
  obtain ⟨text, ops, htext, hupd⟩ :=
    encUpdate_inBand hctx env (m := s.inside pf f.frame) hblock htag
  refine ⟨text, ops, htext, ?_⟩
  rw [encryptBuf_eq hmsg hib (append_ne_nil_of_block hblock), hupd]
  rfl

/-- **The packet of an encoder in `CIPHER_REQ_INIT`**, which asks for a packet
more. -/
theorem encryptBuf_reqInit (pf : Platform) {s : Encryptor X}
    (hs : s.encState = .reqInit) {e : X.Enc} (hctx : s.ctxEnc = some (.chained e))
    (env : EncEnv) (f : Span) :
    ∃ text ops, InBand s.cipher.blocksize (lit "rsyn") (s.inside pf f.frame) text ∧
      encryptBuf pf env s f =
        let r := X.encUpdate e text
        ({ s with
          encState := .sequence
          sendAPacket := true
          ctxEnc := some (.chained r.2)
          sequenceNum := s.sequenceNum + 1
          encOps := ops }, ⟨r.1.length, r.1⟩) := by
  have hmsg : sendMsg env s = ([], s) := by rw [sendMsg, hs]
  obtain ⟨block, hblock, htag, heq⟩ :=
    tagged_eq pf s.cipher (lit "rsyn") rfl s.sequenceNum f.frame
  set t : Encryptor X := { s with encState := .sequence, sendAPacket := true } with ht
  have hib : sendIbMesg pf s f.frame = (block ++ s.inside pf f.frame, t) := by
    rw [sendIbMesg, hs, Encryptor.inside, ← heq]
    rfl
  obtain ⟨text, ops, htext, hupd⟩ :=
    encUpdate_inBand (s := t) (m := s.inside pf f.frame) hctx env hblock htag
  refine ⟨text, ops, htext, ?_⟩
  rw [encryptBuf_eq hmsg hib (append_ne_nil_of_block hblock), hupd]
  rfl

/-! ### The decoder -/

/-- The state after the header of a packet has opened a new context. -/
def Encryptor.opened (s : Encryptor X) (iv : List Byte) : Encryptor X :=
  { s.cipherDecInit iv with
    decState := .sequence
    gibberish := 0
    gibTimeStart := 0 }

/-- The start of a received packet, decrypted with the sideband cipher. -/
def sidebandHead (s : Encryptor X) (mem : List Byte) : List Byte :=
  mapBlocks (X.blkDec s.cipher.algo s.key) s.blocksize (mem.take (s.blocksize * 2))

theorem recvMsg_ivec {s : Encryptor X} (hs : s.decState = .init) {f : Span}
    (h : (sidebandHead s f.mem).take 4 = lit "ivec") (env : EncEnv) :
    recvMsg env s f =
      (⟨f.len - s.blocksize * 2, f.mem.drop (s.blocksize * 2)⟩,
        s.opened (((sidebandHead s f.mem).drop 4).take s.blocksize)) := by
  rw [recvMsg, hs]
  exact if_pos h

theorem recvMsg_gibberish {s : Encryptor X} (hs : s.decState = .init) {f : Span}
    (h : (sidebandHead s f.mem).take 4 ≠ lit "ivec") (env : EncEnv) :
    recvMsg env s f = (⟨0, f.mem⟩, countGibberish env s) := by
  rw [recvMsg, hs]
  exact if_neg h

/-- **The header of a packet opens a new context**, and the rest of the packet is
decrypted with it. -/
theorem decryptBuf_fresh {s : Encryptor X} (hX : BlockCipher X s.cipher.algo s.key)
    (hs : s.decState = .init) {iv fill : List Byte} (hiv : iv.length = s.cipher.blocksize)
    (hfill : fill.length = s.cipher.blocksize - 4) (env : EncEnv) (t tail : List Byte) :
    let bytes := ivecHeader X s.cipher s.key iv fill ++ t
    decryptBuf env s ⟨bytes.length, bytes ++ tail⟩ =
      decryptBuf env (s.opened iv) ⟨t.length, t ++ tail⟩ := by
  have hn : 0 < s.cipher.blocksize := s.cipher.algo.blocksize_pos
  have hdvd : s.cipher.blocksize ∣ (lit "ivec" ++ iv ++ fill).length := by
    rw [length_ivecPlain hiv hfill]
    exact Nat.dvd_mul_right _ _
  have hhead := length_ivecHeader hX hiv hfill
  have hundo : mapBlocks (X.blkDec s.cipher.algo s.key) s.cipher.blocksize
      (ivecHeader X s.cipher s.key iv fill) = lit "ivec" ++ iv ++ fill :=
    mapBlocks_inverse hn hX.encLen hX.dec_enc hdvd
  set header := ivecHeader X s.cipher s.key iv fill with hheader
  have hside : sidebandHead s (header ++ t ++ tail) = lit "ivec" ++ iv ++ fill := by
    rw [sidebandHead, Encryptor.blocksize, List.append_assoc, List.take_left' hhead]
    exact hundo
  have hvec : ((lit "ivec" ++ iv ++ fill).drop 4).take s.cipher.blocksize = iv := by
    rw [List.append_assoc, List.drop_left' (by rfl), List.take_left' hiv]
  have hrest : (header ++ t ++ tail).drop (s.blocksize * 2) = t ++ tail := by
    rw [List.append_assoc]
    exact List.drop_left' hhead
  have hlen : ((header ++ t).length : ℤ) - s.blocksize * 2 = t.length := by
    rw [List.length_append, hhead, Encryptor.blocksize]
    omega
  have hrecv : recvMsg env s ⟨(header ++ t).length, header ++ t ++ tail⟩ =
      (⟨t.length, t ++ tail⟩, s.opened iv) := by
    rw [recvMsg_ivec hs (by rw [hside]; rfl), hrest, hlen, hside]
    exact congrArg (fun v => (_, s.opened v)) hvec
  have hrecv' : recvMsg env (s.opened iv) ⟨t.length, t ++ tail⟩ =
      (⟨t.length, t ++ tail⟩, s.opened iv) := rfl
  dsimp only
  rw [decryptBuf, decryptBuf, hrecv, hrecv']

/-- The state after a packet has been decrypted with the context `d`. -/
def Encryptor.decrypted (s : Encryptor X) (d : X.Dec) (text : List Byte) : Encryptor X :=
  { s with
    ctxDec := some (.chained d)
    decOps := s.decOps ++ [.update]
    decBuf := store s.decBuf text }

theorem recvIbMesg_seq {s : Encryptor X} (hs : s.decState = .sequence)
    (h : s.decBuf.take 4 = lit "seq#") (len : ℤ) :
    recvIbMesg s len = ((len - s.blocksize, s.blocksize), s) := by
  rw [recvIbMesg, if_pos hs, if_pos h]

theorem recvIbMesg_rsyn {s : Encryptor X} (hs : s.decState = .sequence)
    (h : s.decBuf.take 4 = lit "rsyn") (len : ℤ) :
    recvIbMesg s len = ((len - s.blocksize, s.blocksize), s.dropEncoder) := by
  rw [recvIbMesg, if_pos hs, if_neg (by rw [h]; decide), if_pos h]

theorem recvIbMesg_other {s : Encryptor X} (hs : s.decState = .sequence)
    (hseq : s.decBuf.take 4 ≠ lit "seq#") (hrsyn : s.decBuf.take 4 ≠ lit "rsyn") (len : ℤ) :
    (recvIbMesg s len).1 = (0, 0) := by
  rw [recvIbMesg, if_pos hs, if_neg hseq, if_neg hrsyn]

/-- The decrypted text of a packet in `CIPHER_SEQUENCE`. -/
theorem decryptBuf_open {s : Encryptor X} (hs : s.decState = .sequence) {d : X.Dec}
    (hctx : s.ctxDec = some (.chained d)) (env : EncEnv) {t : List Byte} (ht : t ≠ [])
    (tail : List Byte) :
    let r := X.decUpdate d t
    let ib := recvIbMesg (s.decrypted r.2 r.1) r.1.length
    decryptBuf env s ⟨t.length, t ++ tail⟩ =
      (ib.2, takePadding env ib.2 (t ++ tail) ib.1.1 ib.1.2) := by
  have hlen : (t.length : ℤ) ≠ 0 := by
    intro h0
    exact ht (List.length_eq_zero_iff.mp (by exact_mod_cast h0))
  have hmsg : recvMsg env s ⟨t.length, t ++ tail⟩ = (⟨t.length, t ++ tail⟩, s) := by
    rw [recvMsg, hs]
  have hpos : ¬ (t.length : ℤ) ≤ 0 := by omega
  simp only [decryptBuf, hmsg, if_neg hlen, Encryptor.decUpdate, hctx, if_neg hpos,
    Int.toNat_natCast, List.take_left]
  rfl

theorem InBand.head {tag m text : List Byte} (h : InBand c.blocksize tag m text)
    (buf : List Byte) : (store buf text).take 4 = tag := by
  obtain ⟨block, env, hblock, htag, rfl⟩ := h
  have h4 := c.blocksize_ge
  rw [store, List.append_assoc, List.take_append_of_le_length (by omega), htag]

/-- The frame is what is left when the block and the padding are taken off. -/
theorem takePadding_inBand {s : Encryptor X} {tag m text buf : List Byte}
    (h : InBand s.cipher.blocksize tag m text) (hbuf : s.decBuf = store buf text)
    (env : EncEnv) (mem : List Byte) :
    let r := takePadding env s mem (text.length - s.blocksize) s.blocksize
    r.len = m.length ∧ r.frame = m := by
  obtain ⟨block, env', hblock, -, rfl⟩ := h
  have htake := takePadding_padded env env' mem buf block m hbuf
  have hlen : ((block ++ (m ++ padding env' s.cipher.blocksize (block ++ m).length)).length : ℤ) -
      s.blocksize = (m ++ padding env' s.blocksize (block ++ m).length).length := by
    rw [List.length_append, Encryptor.blocksize, hblock]
    omega
  dsimp only
  rw [hlen]
  rw [hblock] at htake
  exact htake

/-- **A packet of the context's own gives back the frame.** -/
theorem decryptBuf_seq {s : Encryptor X} (hs : s.decState = .sequence) {d : X.Dec}
    (hctx : s.ctxDec = some (.chained d)) (env : EncEnv) {t m text : List Byte} (ht : t ≠ [])
    (hdec : (X.decUpdate d t).1 = text) (htext : InBand s.cipher.blocksize (lit "seq#") m text)
    (tail : List Byte) :
    let r := decryptBuf env s ⟨t.length, t ++ tail⟩
    r.1 = s.decrypted (X.decUpdate d t).2 text ∧ r.2.len = m.length ∧ r.2.frame = m := by
  have hib := recvIbMesg_seq (s := s.decrypted (X.decUpdate d t).2 text) hs
    (htext.head s.decBuf) text.length
  have hopen := decryptBuf_open hs hctx env ht tail
  dsimp only at hopen ⊢
  rw [hopen, hdec, hib]
  exact ⟨rfl, takePadding_inBand (s := s.decrypted (X.decUpdate d t).2 text) htext rfl env _⟩

/-- The same for a packet that asks for a resynchronisation. -/
theorem decryptBuf_rsyn {s : Encryptor X} (hs : s.decState = .sequence) {d : X.Dec}
    (hctx : s.ctxDec = some (.chained d)) (env : EncEnv) {t m text : List Byte} (ht : t ≠ [])
    (hdec : (X.decUpdate d t).1 = text) (htext : InBand s.cipher.blocksize (lit "rsyn") m text)
    (tail : List Byte) :
    let r := decryptBuf env s ⟨t.length, t ++ tail⟩
    r.1 = (s.decrypted (X.decUpdate d t).2 text).dropEncoder ∧
      r.2.len = m.length ∧ r.2.frame = m := by
  set s' := s.decrypted (X.decUpdate d t).2 text with hs'
  have hib := recvIbMesg_rsyn (s := s') hs (htext.head s.decBuf) text.length
  have hopen := decryptBuf_open hs hctx env ht tail
  have hkeep : s'.dropEncoder.cipher = s.cipher ∧ s'.dropEncoder.decBuf = store s.decBuf text := by
    rw [Encryptor.dropEncoder]
    split <;> exact ⟨rfl, rfl⟩
  have htake := takePadding_inBand (s := s'.dropEncoder) (by rwa [hkeep.1]) hkeep.2 env
    (t ++ tail)
  rw [Encryptor.blocksize, hkeep.1] at htake
  dsimp only at hopen ⊢
  rw [hopen, hdec, ← hs', hib]
  exact ⟨rfl, htake⟩

end Vtun
