/-
The in-band block in front of a frame (`lfd_encrypt.c`).

`send_msg` and `send_ib_mesg` build their headers backwards from the frame.  The
number of the packet is stored as an `unsigned long` behind four bytes of tag: in
a block of eight bytes there is room for four bytes of it, and where a long is
longer the store goes on over the frame.

* `encryptBuf_plaintext` — what `encrypt_buf` hands to the cipher;
* `frame_intact_iff` — when the frame is in there as it was, and when an end in
  step gets it back.
-/
import Vtun.EcbSession
import Vtun.EncryptSession

namespace Vtun

open Blocks

variable {X : OpenSsl} {pf : Platform}

/-! ### The plaintext -/

/-- What `encrypt_buf` hands to `EVP_EncryptUpdate` for the frame `m`. -/
def Encryptor.plaintext (pf : Platform) (env : EncEnv) (s : Encryptor X) (m : List Byte) :
    List Byte :=
  let r := sendIbMesg pf (sendMsg env s).2 m
  r.1 ++ padding env r.2.blocksize r.1.length

/-- The length of the in-band block, if the encoder puts one in front. -/
def Encryptor.blockLength (s : Encryptor X) : ℕ :=
  if s.encState = .code then 0 else s.blocksize

/-- The plaintext is the in-band block, the frame `m` and the padding. -/
def FrameIntact (pf : Platform) (env : EncEnv) (s : Encryptor X) (m : List Byte) : Prop :=
  ∃ block, block.length = s.blockLength ∧
    s.plaintext pf env m = block ++ m ++ padding env s.blocksize (block ++ m).length

/-- Nothing is stored over the frame `m`, or only what is there: the encoder puts
no block in front, or tag and number fit into one, or the frame starts with the
bytes of the number that do not. -/
def NothingLost (pf : Platform) (s : Encryptor X) (m : List Byte) : Prop :=
  s.encState = .code ∨ 4 + (longBytes pf s.sequenceNum).length ≤ s.blocksize ∨
    m.take 4 <+: (longBytes pf s.sequenceNum).drop 4

theorem inside_eq_iff {s : Encryptor X} (hs : s.encState ≠ .code) {m : List Byte} :
    s.inside pf m = m ↔ NothingLost pf s m := by
  rw [Encryptor.inside, overwritten_eq_iff, NothingLost]
  by_cases hfit : 4 + (longBytes pf s.sequenceNum).length ≤ s.blocksize
  · have hle : 4 + (longBytes pf s.sequenceNum).length ≤ s.cipher.blocksize := hfit
    rw [List.drop_of_length_le (Nat.le_sub_of_add_le' hle)]
    simp [hfit]
  · -- what does not fit are the last four bytes of eight, behind half a block of eight
    have hsizes : s.cipher.blocksize - 4 = 4 ∧ (longBytes pf s.sequenceNum).length = 8 := by
      rw [Encryptor.blocksize, Cipher.blocksize] at hfit
      rw [Cipher.blocksize]
      revert hfit
      cases s.cipher.algo <;> cases pf <;> simp [longBytes, beBytes, Algo.blocksize]
    have hspill : ((longBytes pf s.sequenceNum).drop 4).length = 4 := by
      rw [List.length_drop, hsizes.2]
    rw [hsizes.1, hspill, or_iff_right hs, or_iff_right hfit]

/-- What `send_ib_mesg` leaves of a frame, in the states in which it puts a block in
front. -/
theorem sendIbMesg_block (pf : Platform) (env : EncEnv) {s : Encryptor X}
    (hs : s.encState ≠ .code) (m : List Byte) :
    ∃ block, block.length = s.blocksize ∧
      (sendIbMesg pf (sendMsg env s).2 m).1 = block ++ s.inside pf m := by
  obtain ⟨tag, htag, hplain⟩ : ∃ tag, List.length tag = 4 ∧
      (sendIbMesg pf (sendMsg env s).2 m).1 = tagged pf s.blocksize tag s.sequenceNum m := by
    cases hstate : s.encState with
    | init => exact ⟨lit "seq#", rfl, by rw [sendMsg, hstate]; rfl⟩
    | code => exact absurd hstate hs
    | sequence => exact ⟨lit "seq#", rfl, by simp only [sendMsg, sendIbMesg, hstate]⟩
    | reqInit => exact ⟨lit "rsyn", rfl, by simp only [sendMsg, sendIbMesg, hstate]⟩
  obtain ⟨block, hblock, -, heq⟩ := tagged_eq pf s.cipher tag htag s.sequenceNum m
  exact ⟨block, hblock, hplain.trans heq⟩

theorem sendIbMesg_code (pf : Platform) (env : EncEnv) {s : Encryptor X} (hs : s.encState = .code)
    (m : List Byte) : (sendIbMesg pf (sendMsg env s).2 m).1 = m := by
  simp only [sendMsg, sendIbMesg, hs]

@[simp] theorem blocksize_sent (pf : Platform) (env : EncEnv) (s : Encryptor X) (m : List Byte) :
    (sendIbMesg pf (sendMsg env s).2 m).2.blocksize = s.blocksize := by
  cases hs : s.encState <;> simp only [sendMsg, sendIbMesg, hs] <;> rfl

theorem plaintext_block (pf : Platform) (env : EncEnv) {s : Encryptor X}
    (hs : s.encState ≠ .code) (m : List Byte) :
    ∃ block, block.length = s.blockLength ∧
      s.plaintext pf env m = block ++ s.inside pf m ++
        padding env s.blocksize (block ++ m).length := by
  obtain ⟨block, hblock, heq⟩ := sendIbMesg_block pf env hs m
  have hlen : (block ++ s.inside pf m).length = (block ++ m).length := by
    rw [List.length_append, List.length_append, Encryptor.inside, length_overwritten]
  refine ⟨block, by rw [Encryptor.blockLength, if_neg hs, hblock], ?_⟩
  rw [Encryptor.plaintext, heq, blocksize_sent, hlen]

theorem plaintext_code (pf : Platform) (env : EncEnv) {s : Encryptor X} (hs : s.encState = .code)
    (m : List Byte) : s.plaintext pf env m = m ++ padding env s.blocksize m.length := by
  rw [Encryptor.plaintext, sendIbMesg_code pf env hs, blocksize_sent]

theorem frameIntact_iff_nothingLost (pf : Platform) (env : EncEnv) (s : Encryptor X)
    (m : List Byte) : FrameIntact pf env s m ↔ NothingLost pf s m := by
  by_cases hs : s.encState = .code
  · refine ⟨fun _ => Or.inl hs, fun _ => ⟨[], by rw [Encryptor.blockLength, if_pos hs]; rfl, ?_⟩⟩
    exact plaintext_code pf env hs m
  · obtain ⟨block, hblock, hplain⟩ := plaintext_block pf env hs m
    rw [← inside_eq_iff hs]
    constructor
    · rintro ⟨block', hblock', hplain'⟩
      rw [hplain, List.append_assoc, List.append_assoc] at hplain'
      obtain ⟨-, hrest⟩ := List.append_inj hplain' (hblock.trans hblock'.symm)
      exact (List.append_inj hrest (length_overwritten pf _ _ m)).1
    · intro h
      exact ⟨block, hblock, by rw [hplain, h]⟩

/-- `encrypt_buf` encrypts the plaintext, and puts the encrypted header of
`send_msg` in front. -/
theorem encryptBuf_plaintext (pf : Platform) (env : EncEnv) (s : Encryptor X) {f : Span}
    (hf : f.frame ≠ []) :
    let header := (sendMsg env s).1
    let t := (sendIbMesg pf (sendMsg env s).2 f.frame).2
    let r := t.encUpdate env (s.plaintext pf env f.frame)
    encryptBuf pf env s f =
      ({ r.2 with sequenceNum := r.2.sequenceNum + 1 },
        ⟨(header ++ r.1).length, header ++ r.1⟩) := by
  have hne : (sendIbMesg pf (sendMsg env s).2 f.frame).1 ≠ [] := by
    by_cases hs : s.encState = .code
    · rwa [sendIbMesg_code pf env hs]
    · obtain ⟨block, hblock, heq⟩ := sendIbMesg_block pf env hs f.frame
      rw [heq]
      exact append_ne_nil_of_block (c := s.cipher) hblock
  exact encryptBuf_eq rfl rfl hne

/-! ### The other end -/

/-- The decoder of `r` is in step with the encoder of `s`. -/
inductive PeerInStep (s r : Encryptor X) : Prop
  /-- the vector will come with the packet -/
  | fresh (hs : s.encState = .init) (hr : r.decState = .init)
      (hX : ChainedCipher X s.cipher s.key)
  /-- two contexts in step -/
  | chained {e : X.Enc} {d : X.Dec} (hs : s.encState = .sequence ∨ s.encState = .reqInit)
      (hctx : s.ctxEnc = some (.chained e)) (hr : r.decState = .sequence)
      (hd : r.ctxDec = some (.chained d)) (hstep : CtxInStep X s.cipher e d)
      (hlen : CtxKeepsLength X s.cipher e)
  /-- block by block, with nothing left over on either side -/
  | ecb (hs : s.encState = .code) (hctx : s.ctxEnc = some (.ecb [])) (hr : r.decState = .code)
      (hd : r.ctxDec = some (.ecb [])) (hX : BlockCipher X s.cipher.algo s.key)

/-- A packet of a context in step gives back what it was made from. -/
theorem returned_inStep {r : Encryptor X} {e : X.Enc} {d : X.Dec} (hr : r.decState = .sequence)
    (hd : r.ctxDec = some (.chained d)) (hstep : CtxInStep X r.cipher e d)
    (hlen : CtxKeepsLength X r.cipher e) {tag m text : List Byte}
    (htag : tag = lit "seq#" ∨ tag = lit "rsyn") (htext : InBand r.cipher.blocksize tag m text)
    (env : EncEnv) (tail : List Byte) :
    let t := (X.encUpdate e text).1
    Returned (decryptBuf env r ⟨t.length, t ++ tail⟩).2 m := by
  have hne : (X.encUpdate e text).1 ≠ [] := by
    intro h0
    have hsize := hlen.one htext.whole
    rw [h0, List.length_nil] at hsize
    have hlt := htext.length_le.1
    omega
  have hback := hstep.decode htext.whole
  rcases htag with rfl | rfl
  · exact (decryptBuf_seq hr hd env hne hback htext tail).2
  · exact (decryptBuf_rsyn hr hd env hne hback htext tail).2

/-- The frame an encoder has put into a packet, as an end in step gets it back. -/
theorem peer_returns {s r : Encryptor X} (hcipher : r.cipher = s.cipher) (hkey : r.key = s.key)
    (h : PeerInStep s r) (pf : Platform) (env env' : EncEnv) {f : Span} (hf : f.frame ≠ [])
    (tail : List Byte) :
    let out := (encryptBuf pf env s f).2
    ∃ m, (s.encState = .code ∧ m = f.frame ∨ s.encState ≠ .code ∧ m = s.inside pf f.frame) ∧
      Returned (decryptBuf env' r ⟨out.len, out.mem ++ tail⟩).2 m := by
  dsimp only
  cases h with
  | fresh hs hr hX =>
    refine ⟨_, Or.inr ⟨by simp [hs], rfl⟩, ?_⟩
    obtain ⟨iv, fill, text, ops, hiv, hfill, htext, heq⟩ := encryptBuf_init pf hs env f
    rw [← hcipher] at hiv hfill htext
    have hopen := decryptBuf_fresh (by rw [hcipher, hkey]; exact hX.sideband) hr hiv hfill env'
      (X.encUpdate (X.encInit s.cipher s.key iv) text).1 tail
    have hctx : (r.opened iv).ctxDec = some (.chained (X.decInit s.cipher s.key iv)) := by
      rw [← hcipher, ← hkey]
      rfl
    rw [hcipher, hkey] at hopen
    rw [heq]
    dsimp only at hopen ⊢
    rw [hopen]
    rw [hcipher] at hiv
    refine returned_inStep rfl hctx ?_ ?_ (Or.inl rfl) htext env' tail
    · exact hcipher ▸ hX.inStep iv hiv
    · exact hcipher ▸ hX.keepsLength iv hiv
  | chained hs hctx hr hd hstep hlen =>
    refine ⟨_, Or.inr ⟨by rcases hs with hs | hs <;> simp [hs], rfl⟩, ?_⟩
    rw [← hcipher] at hstep hlen
    rcases hs with hs | hs
    · obtain ⟨text, ops, htext, heq⟩ := encryptBuf_sequence pf hs hctx env f
      rw [← hcipher] at htext
      rw [heq]
      exact returned_inStep hr hd hstep hlen (Or.inl rfl) htext env' tail
    · obtain ⟨text, ops, htext, heq⟩ := encryptBuf_reqInit pf hs hctx env f
      rw [← hcipher] at htext
      rw [heq]
      exact returned_inStep hr hd hstep hlen (Or.inr rfl) htext env' tail
  | ecb hs hctx hr hd hX =>
    refine ⟨_, Or.inl ⟨hs, rfl⟩, ?_⟩
    have henc : EcbEncoder s.cipher s.key s := ⟨rfl, rfl, hs, hctx⟩
    have hspan : (⟨f.frame.length, f.frame⟩ : Span).frame = f.frame := Span.frame_all _
    have hsame : (encryptBuf pf env s f).2 = (encryptBuf pf env s ⟨f.frame.length, f.frame⟩).2 := by
      rw [(encryptBuf_ecb henc pf env hf).1,
        (encryptBuf_ecb henc pf env (by rwa [hspan])).1, hspan]
    rw [hsame]
    exact decodes_aligned hX henc ⟨hcipher, hkey, hr, hd⟩ pf env env' f.frame tail hf

/-- **When the frame gets through.**  The frame is in the plaintext as it was if
and only if nothing is stored over it, and that is also when an end in step gets
it back. -/
theorem frame_intact_iff (pf : Platform) (env : EncEnv) (s : Encryptor X) {f : Span}
    (hf : f.frame ≠ []) :
    (FrameIntact pf env s f.frame ↔ NothingLost pf s f.frame) ∧
    ∀ (r : Encryptor X) (env' : EncEnv) (tail : List Byte), r.cipher = s.cipher →
      r.key = s.key → PeerInStep s r →
      let out := (encryptBuf pf env s f).2
      (Returned (decryptBuf env' r ⟨out.len, out.mem ++ tail⟩).2 f.frame ↔
        NothingLost pf s f.frame) := by
  refine ⟨frameIntact_iff_nothingLost pf env s f.frame, ?_⟩
  intro r env' tail hcipher hkey hpeer
  obtain ⟨m, hm, hret⟩ := peer_returns hcipher hkey hpeer pf env env' hf tail
  dsimp only
  -- the frame that comes back is the one inside the packet
  have hback : Returned (decryptBuf env' r ⟨(encryptBuf pf env s f).2.len,
      (encryptBuf pf env s f).2.mem ++ tail⟩).2 f.frame ↔ m = f.frame :=
    ⟨fun h => hret.2.symm.trans h.2, fun h => h ▸ hret⟩
  rw [hback]
  rcases hm with ⟨hs, rfl⟩ | ⟨hs, rfl⟩
  · exact ⟨fun _ => Or.inl hs, fun _ => rfl⟩
  · exact inside_eq_iff hs

theorem frame_intact_iff_blowfish :
    let s := allocEncrypt shiftSsl (sampleHost 2) 0 [] false
    let f : Span := ⟨4, [0, 0, 0, 0]⟩
    f.frame ≠ [] ∧ (FrameIntact .lp64 calmEnv s f.frame ↔ NothingLost .lp64 s f.frame) ∧
      Returned (decryptBuf calmEnv s ⟨(encryptBuf .lp64 calmEnv s f).2.len,
        (encryptBuf .lp64 calmEnv s f).2.mem ++ []⟩).2 f.frame := by
  have hne : (⟨4, [0, 0, 0, 0]⟩ : Span).frame ≠ [] := by decide
  have h := frame_intact_iff .lp64 calmEnv (allocEncrypt shiftSsl (sampleHost 2) 0 [] false) hne
  have hzero : NothingLost .lp64 (allocEncrypt shiftSsl (sampleHost 2) 0 [] false) [0, 0, 0, 0] :=
    Or.inr (Or.inr (by decide))
  exact ⟨hne, h.1, (h.2 _ calmEnv [] rfl rfl
    (.fresh rfl rfl (chainedCipher_shiftSsl _ _))).mpr hzero⟩

/-- The first bytes of a packet of the Internet protocol do not survive Blowfish
where a long has eight bytes. -/
theorem frame_overwritten :
    ¬ ∀ (X : OpenSsl) (pf : Platform) (env env' : EncEnv) (s r : Encryptor X) (f : Span),
      f.frame ≠ [] → FrameIntact pf env s f.frame ∧
        (r.cipher = s.cipher → r.key = s.key → PeerInStep s r →
          Returned (decryptBuf env' r (encryptBuf pf env s f).2).2 f.frame) := by
  intro h
  have hlost := (h shiftSsl .lp64 calmEnv calmEnv (allocEncrypt shiftSsl (sampleHost 2) 0 [] false)
    (allocEncrypt shiftSsl (sampleHost 2) 0 [] false) ⟨4, [69, 0, 0, 84]⟩ (by decide)).2 rfl rfl
    (.fresh rfl rfl (chainedCipher_shiftSsl _ _))
  exact absurd hlost.2 (by decide)

end Vtun
