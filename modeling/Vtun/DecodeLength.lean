/-
The lengths the decryptors return (`lfd_encrypt.c`, `lfd_legacy_encrypt.c`).

Up to three amounts are taken off the length of a frame: the header with the
initialisation vector, the in-band block and the padding.  None of them is
compared with what is there.

* `soundDecode_iff` — the amounts `decrypt_buf` takes off are there if and only
  if the frame is long enough for what it is taken for;
* `soundLegacy_iff` — the same for `legacy_decrypt_buf`;
* `linkerRun_dev` — a linker whose modules return no negative length where they
  are called never writes one to the device;
* `decode_lengths` — the three together.
-/
import Vtun.EncryptCtx
import Vtun.LegacyEncrypt

namespace Vtun

open Blocks

variable {X : OpenSsl}

/-! ### What is taken off -/

/-- The frame as `EVP_DecryptUpdate` leaves it, once `recv_msg` has been through
it: the text, and the encryptor with the text at the start of `dec_buf`. -/
def Encryptor.textOf (env : EncEnv) (s : Encryptor X) (f : Span) : List Byte × Encryptor X :=
  let r := recvMsg env s f
  let u := r.2.decUpdate env r.1.len r.1.mem
  (u.1, { u.2 with decBuf := store u.2.decBuf u.1 })

/-- No amount is taken off that is not there, and what `decrypt_buf` returns lies
within the text of the frame. -/
structure SoundDecode (env : EncEnv) (s : Encryptor X) (f : Span) : Prop where
  header : 0 ≤ (recvMsg env s f).1.len
  block : (recvMsg env s f).1.len ≠ 0 →
    0 ≤ (recvIbMesg (s.textOf env f).2 (s.textOf env f).1.length).1.1
  length : 0 ≤ (decryptBuf env s f).2.len
  inside : 0 < (decryptBuf env s f).2.len → ∃ skip : ℕ,
    (decryptBuf env s f).2.mem = (decryptBuf env s f).1.decBuf.drop skip ∧
      skip + (decryptBuf env s f).2.len ≤ (s.textOf env f).1.length

/-- The memory of a frame after the loop of `legacy_decrypt_buf`. -/
def legacyDecrypted (X : OpenSsl) (key : List Byte) (f : Span) : List Byte :=
  let upto := (f.len.toNat + 7) / 8 * 8
  mapBlocks (X.blkDec .bf key) 8 (f.mem.take upto) ++ f.mem.drop upto

/-- What `legacy_decrypt_buf` returns lies within the frame. -/
structure SoundLegacy (X : OpenSsl) (key : List Byte) (f : Span) : Prop where
  length : 0 ≤ (legacyDecryptBuf X key f).len
  inside : 0 < (legacyDecryptBuf X key f).len → ∃ skip : ℕ,
    (legacyDecryptBuf X key f).mem = (legacyDecrypted X key f).drop skip ∧
      skip + (legacyDecryptBuf X key f).len ≤ f.len

/-! ### Frames that are long enough -/

/-- A number `decrypt_buf` takes for a padding length. -/
def ValidPad (blocksize : ℕ) (pad : Byte) : Prop := 1 ≤ pad.toNat ∧ pad.toNat ≤ blocksize

/-- `text` is `skip` bytes long, or it goes on with more than the padding its last
byte announces. -/
def TextFits (blocksize skip : ℕ) (text : List Byte) : Prop :=
  text.length = skip ∨ skip < text.length ∧
    (ValidPad blocksize (text.getLastD 0) → skip + (text.getLastD 0).toNat ≤ text.length)

/-- The decode buffer starts with the tag of an in-band block. -/
def Tagged (buf : List Byte) : Prop := buf.take 4 = lit "seq#" ∨ buf.take 4 = lit "rsyn"

/-- The initialisation vector in the first two blocks of a frame. -/
def vectorOf (s : Encryptor X) (f : Span) : List Byte :=
  ((mapBlocks (X.blkDec s.cipher.algo s.key) s.blocksize (f.mem.take (s.blocksize * 2))).drop
    4).take s.blocksize

/-- What a frame decrypts to with the context there is, or, while there is none,
behind a header with the context of its vector. -/
def frameText (env : EncEnv) (s : Encryptor X) (f : Span) : List Byte :=
  match s.decState with
  | .init => ((s.cipherDecInit (vectorOf s f)).decUpdate env (f.len - s.blocksize * 2)
      (f.mem.drop (s.blocksize * 2))).1
  | _ => (s.decUpdate env f.len f.mem).1

/-- The frame is long enough for what `decrypt_buf` takes it for. -/
def DecodeFits (env : EncEnv) (s : Encryptor X) (f : Span) : Prop :=
  let text := frameText env s f
  let inBand := Tagged (store s.decBuf text) → TextFits s.blocksize s.blocksize text
  match s.decState with
  | .init => ¬ Unintelligible s f →
      f.len = s.blocksize * 2 ∨ s.blocksize * 2 < f.len ∧ inBand
  | .sequence => inBand
  | _ => TextFits s.blocksize 0 text

/-- The first byte of the frame, decrypted, is not more than its length if it is
taken for a padding length. -/
def LegacyFits (X : OpenSsl) (key : List Byte) (f : Span) : Prop :=
  ValidPad 8 ((legacyDecrypted X key f).headD 0) →
    (((legacyDecrypted X key f).headD 0).toNat : ℤ) ≤ f.len

/-! ### The parts of `decrypt_buf` -/

theorem recvMsg_other (env : EncEnv) {s : Encryptor X} (hs : s.decState ≠ .init) (f : Span) :
    recvMsg env s f = (f, s) := by
  unfold recvMsg
  split
  · rename_i hinit
    exact absurd hinit hs
  · rfl

theorem recvMsg_unintelligible (env : EncEnv) {s : Encryptor X} (hs : s.decState = .init)
    {f : Span} (hf : Unintelligible s f) :
    recvMsg env s f = (⟨0, f.mem⟩, countGibberish env s) := by
  rw [Unintelligible] at hf
  rw [recvMsg, hs]
  dsimp only
  rw [if_neg hf]

theorem recvMsg_opened (env : EncEnv) {s : Encryptor X} (hs : s.decState = .init) {f : Span}
    (hf : ¬ Unintelligible s f) :
    recvMsg env s f = (⟨f.len - s.blocksize * 2, f.mem.drop (s.blocksize * 2)⟩,
      { s.cipherDecInit (vectorOf s f) with
        decState := .sequence
        gibberish := 0
        gibTimeStart := 0 }) := by
  rw [Unintelligible, not_not] at hf
  rw [recvMsg, hs]
  dsimp only
  rw [if_pos hf]
  rfl

/-- An update changes neither the cipher nor the state nor the buffer. -/
theorem decUpdate_frame (env : EncEnv) (s : Encryptor X) (len : ℤ) (mem : List Byte) :
    (s.decUpdate env len mem).2.cipher = s.cipher ∧
      (s.decUpdate env len mem).2.decState = s.decState ∧
      (s.decUpdate env len mem).2.decBuf = s.decBuf := by
  unfold Encryptor.decUpdate
  dsimp only
  repeat' split
  all_goals exact ⟨rfl, rfl, rfl⟩

theorem recvIbMesg_frame (s : Encryptor X) (len : ℤ) :
    (recvIbMesg s len).2.cipher = s.cipher ∧ (recvIbMesg s len).2.decBuf = s.decBuf := by
  unfold recvIbMesg Encryptor.dropEncoder
  repeat' split
  all_goals exact ⟨rfl, rfl⟩

theorem recvIbMesg_tagged {s : Encryptor X} (hs : s.decState = .sequence)
    (htag : Tagged s.decBuf) (len : ℤ) :
    (recvIbMesg s len).1 = (len - s.blocksize, s.blocksize) := by
  rw [recvIbMesg, if_pos hs]
  rcases htag with hseq | hrsyn
  · rw [if_pos hseq]
  · have hne : ¬ s.decBuf.take 4 = lit "seq#" := by
      rw [hrsyn]
      decide
    rw [if_neg hne, if_pos hrsyn]

theorem recvIbMesg_untagged {s : Encryptor X} (hs : s.decState = .sequence)
    (htag : ¬ Tagged s.decBuf) (len : ℤ) : (recvIbMesg s len).1 = (0, 0) := by
  obtain ⟨hseq, hrsyn⟩ := not_or.mp htag
  rw [recvIbMesg, if_pos hs, if_neg hseq, if_neg hrsyn]

theorem recvIbMesg_plain {s : Encryptor X} (hs : s.decState ≠ .sequence) (len : ℤ) :
    (recvIbMesg s len).1 = (len, 0) := by
  rw [recvIbMesg, if_neg hs]

/-- `decrypt_buf` behind `recv_msg`. -/
theorem decryptBuf_decrypted (env : EncEnv) {s : Encryptor X} {f : Span}
    (hlen : (recvMsg env s f).1.len ≠ 0) :
    decryptBuf env s f =
      let r := recvIbMesg (s.textOf env f).2 (s.textOf env f).1.length
      (r.2, takePadding env r.2 (recvMsg env s f).1.mem r.1.1 r.1.2) := by
  rw [decryptBuf]
  dsimp only
  rw [if_neg hlen]
  rfl

theorem decryptBuf_nothing (env : EncEnv) {s : Encryptor X} {f : Span}
    (hlen : (recvMsg env s f).1.len = 0) : (decryptBuf env s f).2.len = 0 := by
  rw [decryptBuf]
  dsimp only
  rw [if_pos hlen]

/-- The last byte of a text in the decode buffer. -/
theorem decBufAt_last (env : EncEnv) {s : Encryptor X} {buf text : List Byte}
    (hbuf : s.decBuf = store buf text) (skip : ℕ) (hskip : skip < text.length) :
    decBufAt env s (skip + ((text.length : ℤ) - skip) - 1) = text.getLastD 0 := by
  have hidx : ((skip : ℤ) + ((text.length : ℤ) - skip) - 1).toNat = text.length - 1 := by omega
  rw [decBufAt, if_neg (by omega), hidx, hbuf, store, List.getD_eq_getElem?_getD,
    List.getElem?_append_left (by omega), ← List.getLast?_eq_getElem?,
    List.getLastD_eq_getLast?]

/-- The padding behind `skip` bytes of a text is there if and only if the text is
long enough. -/
theorem takePadding_sound (env : EncEnv) {s : Encryptor X} (mem : List Byte)
    {buf text : List Byte} (hbuf : s.decBuf = store buf text) (skip : ℕ) :
    (skip ≤ text.length ∧ 0 ≤ (takePadding env s mem ((text.length : ℤ) - skip) skip).len) ↔
      TextFits s.blocksize skip text := by
  rcases Nat.lt_trichotomy text.length skip with hlt | heq | hgt
  · rw [TextFits]
    omega
  · rw [takePadding, if_pos (by omega)]
    exact ⟨fun _ => Or.inl heq, fun _ => ⟨by omega, le_refl 0⟩⟩
  · have hlast := decBufAt_last env hbuf skip hgt
    rw [takePadding, if_neg (by omega), hlast, TextFits, ValidPad]
    dsimp only
    split
    · rename_i hpad
      constructor
      · intro _
        exact Or.inr ⟨hgt, fun hvalid => by omega⟩
      · intro _
        exact ⟨by omega, le_refl 0⟩
    · rename_i hpad
      constructor
      · rintro ⟨-, hle⟩
        exact Or.inr ⟨hgt, fun _ => by simp only at hle; omega⟩
      · rintro (h | ⟨-, h⟩)
        · omega
        · have hle := h (by omega)
          exact ⟨by omega, by simp only; omega⟩

/-- Whatever is returned lies behind the bytes skipped. -/
theorem takePadding_inside (env : EncEnv) (s : Encryptor X) (mem : List Byte) (outlen : ℤ)
    (skip : ℕ) (h : 0 < (takePadding env s mem outlen skip).len) :
    (takePadding env s mem outlen skip).mem = s.decBuf.drop skip ∧
      skip + (takePadding env s mem outlen skip).len ≤ skip + outlen := by
  rw [takePadding] at h ⊢
  dsimp only at h ⊢
  split at h
  · exact absurd h (lt_irrefl 0)
  · rename_i hne
    split at h
    · exact absurd h (lt_irrefl 0)
    · rename_i hpad
      rw [if_neg hne, if_neg hpad]
      exact ⟨rfl, by simp only; omega⟩

/-- The end of `decrypt_buf` on a text in the decode buffer takes off what is there
if and only if the text is long enough for what it is taken for. -/
theorem ibMesg_sound (env : EncEnv) {s : Encryptor X} (mem : List Byte) {buf text : List Byte}
    (hbuf : s.decBuf = store buf text) :
    (0 ≤ (recvIbMesg s text.length).1.1 ∧
      0 ≤ (takePadding env (recvIbMesg s text.length).2 mem (recvIbMesg s text.length).1.1
        (recvIbMesg s text.length).1.2).len) ↔
      if s.decState = .sequence then
        Tagged (store buf text) → TextFits s.blocksize s.blocksize text
      else TextFits s.blocksize 0 text := by
  obtain ⟨hcipher, hkeep⟩ := recvIbMesg_frame s text.length
  have hsize : (recvIbMesg s text.length).2.blocksize = s.blocksize :=
    congrArg Cipher.blocksize hcipher
  have hsound := takePadding_sound env mem (hkeep.trans hbuf)
  rw [hsize] at hsound
  split
  · rename_i hseq
    by_cases htag : Tagged (store buf text)
    · have hone := recvIbMesg_tagged hseq (hbuf ▸ htag) text.length
      rw [hone, ← hsound s.blocksize]
      dsimp only
      constructor
      · rintro ⟨hle, hpad⟩ _
        exact ⟨by omega, hpad⟩
      · intro h
        obtain ⟨hle, hpad⟩ := h htag
        exact ⟨by omega, hpad⟩
    · have hone := recvIbMesg_untagged hseq (hbuf ▸ htag) text.length
      rw [hone, takePadding, if_pos rfl]
      exact ⟨fun _ h => absurd h htag, fun _ => ⟨le_refl 0, le_refl 0⟩⟩
  · rename_i hseq
    have hone := recvIbMesg_plain hseq text.length
    have hzero := hsound 0
    rw [Nat.cast_zero, sub_zero] at hzero
    rw [hone, ← hzero]
    dsimp only
    constructor
    · rintro ⟨-, hpad⟩
      exact ⟨Nat.zero_le _, hpad⟩
    · rintro ⟨-, hpad⟩
      exact ⟨by omega, hpad⟩

/-! ### `decrypt_buf` -/

theorem decrypted_other (env : EncEnv) {s : Encryptor X} (hs : s.decState ≠ .init) (f : Span) :
    (s.textOf env f).1 = frameText env s f ∧
      (s.textOf env f).2.decBuf = store s.decBuf (frameText env s f) ∧
      (s.textOf env f).2.decState = s.decState ∧ (s.textOf env f).2.cipher = s.cipher := by
  have htext : frameText env s f = (s.decUpdate env f.len f.mem).1 := by
    rw [frameText]
    split
    · rename_i hinit
      exact absurd hinit hs
    · rfl
  obtain ⟨hcipher, hstate, hbuf⟩ := decUpdate_frame env s f.len f.mem
  rw [Encryptor.textOf, recvMsg_other env hs, htext]
  refine ⟨rfl, ?_, hstate, hcipher⟩
  show store (s.decUpdate env f.len f.mem).2.decBuf _ = _
  rw [hbuf]

theorem decrypted_opened (env : EncEnv) {s : Encryptor X} (hs : s.decState = .init) {f : Span}
    (hf : ¬ Unintelligible s f) :
    (s.textOf env f).1 = frameText env s f ∧
      (s.textOf env f).2.decBuf = store s.decBuf (frameText env s f) ∧
      (s.textOf env f).2.decState = .sequence ∧ (s.textOf env f).2.cipher = s.cipher := by
  set t : Encryptor X := { s.cipherDecInit (vectorOf s f) with
        decState := .sequence
        gibberish := 0
        gibTimeStart := 0 } with ht
  have htext : frameText env s f =
      (t.decUpdate env (f.len - s.blocksize * 2) (f.mem.drop (s.blocksize * 2))).1 := by
    rw [frameText, hs]
    unfold Encryptor.decUpdate
    dsimp only
    split
    · rfl
    · rfl
  obtain ⟨hcipher, hstate, hbuf⟩ :=
    decUpdate_frame env t (f.len - s.blocksize * 2) (f.mem.drop (s.blocksize * 2))
  rw [Encryptor.textOf, recvMsg_opened env hs hf, htext]
  refine ⟨rfl, ?_, hstate, hcipher⟩
  show store (t.decUpdate env _ _).2.decBuf _ = _
  rw [hbuf]
  rfl

/-- Where the frame is decrypted at all, what `decrypt_buf` takes off behind
`recv_msg` decides. -/
theorem soundDecode_of_decrypted (env : EncEnv) {s : Encryptor X} {f : Span}
    (hlen : (recvMsg env s f).1.len ≠ 0) :
    SoundDecode env s f ↔ 0 ≤ (recvMsg env s f).1.len ∧
      0 ≤ (recvIbMesg (s.textOf env f).2 (s.textOf env f).1.length).1.1 ∧
      0 ≤ (takePadding env (recvIbMesg (s.textOf env f).2 (s.textOf env f).1.length).2
        (recvMsg env s f).1.mem
        (recvIbMesg (s.textOf env f).2 (s.textOf env f).1.length).1.1
        (recvIbMesg (s.textOf env f).2 (s.textOf env f).1.length).1.2).len := by
  have heq := decryptBuf_decrypted env hlen
  dsimp only at heq
  constructor
  · intro h
    have hret := h.length
    rw [heq] at hret
    exact ⟨h.header, h.block hlen, hret⟩
  · rintro ⟨hheader, hblock, hret⟩
    refine ⟨hheader, fun _ => hblock, by rw [heq]; exact hret, ?_⟩
    rw [heq]
    intro hpos
    obtain ⟨hmem, hle⟩ := takePadding_inside env _ _ _ _ hpos
    refine ⟨_, hmem, hle.trans ?_⟩
    -- what is skipped and what is left make up the text
    set d := s.textOf env f
    have hall : ((recvIbMesg d.2 d.1.length).1.2 : ℤ) + (recvIbMesg d.2 d.1.length).1.1 ≤
        d.1.length := by
      unfold recvIbMesg
      repeat' split
      all_goals simp
    exact hall

/-- A frame that is dropped. -/
theorem soundDecode_dropped (env : EncEnv) {s : Encryptor X} {f : Span} (hinit : s.decState = .init)
    (hhead : Unintelligible s f) : SoundDecode env s f := by
  have hmsg := recvMsg_unintelligible env hinit hhead
  have hret := decryptBuf_nothing env (s := s) (f := f) (by rw [hmsg])
  refine ⟨?_, ?_, ?_, ?_⟩
  · rw [hmsg]
  · exact fun hne => absurd (by rw [hmsg]) hne
  · rw [hret]
  · intro hpos
    rw [hret] at hpos
    exact absurd hpos (lt_irrefl 0)

/-- A frame that opens the session: its two blocks in front are taken off first. -/
theorem soundDecode_opened (env : EncEnv) {s : Encryptor X} {f : Span} (hinit : s.decState = .init)
    (hhead : ¬ Unintelligible s f) : SoundDecode env s f ↔ DecodeFits env s f := by
  have hmsg := recvMsg_opened env hinit hhead
  have hleft : (recvMsg env s f).1.len = f.len - s.blocksize * 2 := by rw [hmsg]
  obtain ⟨htext, hbuf, hstate, hcipher⟩ := decrypted_opened env hinit hhead
  have hsize : (s.textOf env f).2.blocksize = s.blocksize :=
    congrArg Cipher.blocksize hcipher
  have hsound := ibMesg_sound env (recvMsg env s f).1.mem hbuf
  rw [if_pos hstate, hsize, ← htext] at hsound
  rw [DecodeFits, hinit]
  dsimp only
  rw [← htext]
  rcases lt_trichotomy f.len (s.blocksize * 2) with hlt | heq | hgt
  · constructor
    · intro h
      have hheader := h.header
      rw [hleft] at hheader
      omega
    · intro h
      rcases h hhead with h | h
      · omega
      · omega
  · -- nothing is left to decrypt
    have hret := decryptBuf_nothing env (s := s) (f := f) (by rw [hleft]; omega)
    refine ⟨fun _ _ => Or.inl heq, fun _ => ⟨by rw [hleft]; omega, ?_, by rw [hret], ?_⟩⟩
    · intro hne
      rw [hleft] at hne
      omega
    · intro hpos
      rw [hret] at hpos
      exact absurd hpos (lt_irrefl 0)
  · rw [soundDecode_of_decrypted env (by rw [hleft]; omega), hsound, hleft]
    constructor
    · rintro ⟨-, h⟩ _
      exact Or.inr ⟨hgt, h⟩
    · intro h
      rcases h hhead with h | ⟨-, h⟩
      · omega
      · exact ⟨by omega, h⟩

/-- A frame of a session that is open. -/
theorem soundDecode_other (env : EncEnv) {s : Encryptor X} {f : Span} (hf : 0 < f.len)
    (hinit : s.decState ≠ .init) : SoundDecode env s f ↔ DecodeFits env s f := by
  have hleft : (recvMsg env s f).1.len = f.len := by rw [recvMsg_other env hinit]
  obtain ⟨htext, hbuf, hstate, hcipher⟩ := decrypted_other env hinit f
  have hsize : (s.textOf env f).2.blocksize = s.blocksize :=
    congrArg Cipher.blocksize hcipher
  have hsound := ibMesg_sound env (recvMsg env s f).1.mem hbuf
  rw [hstate, hsize, ← htext] at hsound
  rw [soundDecode_of_decrypted env (by rw [hleft]; omega), hsound, hleft, DecodeFits, ← htext]
  cases hs : s.decState with
  | init => exact absurd hs hinit
  | sequence => simp [hf.le]
  | code => simp [hf.le]
  | reqInit => simp [hf.le]

/-- **Nothing is taken off that is not there** if and only if the frame is long
enough for what it is taken for. -/
theorem soundDecode_iff (env : EncEnv) (s : Encryptor X) {f : Span} (hf : 0 < f.len) :
    SoundDecode env s f ↔ DecodeFits env s f := by
  by_cases hinit : s.decState = .init
  · by_cases hhead : Unintelligible s f
    · refine ⟨fun _ => ?_, fun _ => soundDecode_dropped env hinit hhead⟩
      rw [DecodeFits, hinit]
      exact fun h => absurd hhead h
    · exact soundDecode_opened env hinit hhead
  · exact soundDecode_other env hf hinit

/-- **The old decryptor** returns what is there if and only if the frame is long
enough. -/
theorem soundLegacy_iff (X : OpenSsl) (key : List Byte) (f : Span) :
    SoundLegacy X key f ↔ LegacyFits X key f := by
  set pad := ((legacyDecrypted X key f).headD 0).toNat with hpad
  have heq : legacyDecryptBuf X key f =
      if pad < 1 ∨ 8 < pad then ⟨0, legacyDecrypted X key f⟩
      else ⟨f.len - pad, (legacyDecrypted X key f).drop pad⟩ := rfl
  rw [LegacyFits, ValidPad, ← hpad]
  by_cases hvalid : pad < 1 ∨ 8 < pad
  · rw [if_pos hvalid] at heq
    refine ⟨fun _ h => by omega, fun _ => ⟨by rw [heq], ?_⟩⟩
    intro hpos
    rw [heq] at hpos
    exact absurd hpos (lt_irrefl 0)
  · rw [if_neg hvalid] at heq
    constructor
    · intro h _
      have hret := h.length
      rw [heq] at hret
      simp only at hret
      omega
    · intro h
      have hle := h (by omega)
      refine ⟨by rw [heq]; simp only; omega, fun _ => ⟨pad, by rw [heq], ?_⟩⟩
      rw [heq]
      simp only
      omega

/-! ### The linker -/

/-- The lengths written to the device. -/
def devLens (tr : List LinkEv) : List ℤ :=
  tr.filterMap fun
    | .dev out => some out.len
    | _ => none

@[simp] theorem devLens_append (tr tr' : List LinkEv) :
    devLens (tr ++ tr') = devLens tr ++ devLens tr' :=
  List.filterMap_append

@[simp] theorem devLens_nil : devLens [] = [] := rfl

@[simp] theorem devLens_net (up : Option (List Byte)) (tr : List LinkEv) :
    devLens (.net up :: tr) = devLens tr := rfl

@[simp] theorem devLens_down (frame : List Byte) (tr : List LinkEv) :
    devLens (.down frame :: tr) = devLens tr := rfl

@[simp] theorem devLens_proto (buf : List Byte) (len : ℕ) (tr : List LinkEv) :
    devLens (.proto buf len :: tr) = devLens tr := rfl

@[simp] theorem devLens_dev (out : Span) (tr : List LinkEv) :
    devLens (.dev out :: tr) = out.len :: devLens tr := rfl

section Linker

variable {ε σ ν : Type} (S : Session ε σ) (P : Ports ε ν)

/-- The linker where it hands a frame from the network to the modules, and the
length of the frame. -/
def netHanded (s : Linker σ ν) : Option (Linker σ ν × ℕ) :=
  let e := P.modEnv s.io
  let c := lfdCheckUp e.1 S.mods.reverse s.mods 1
  if c.2 = 0 then none
  else
    let r := P.protoRead e.2 s.buf
    let fl := frameFlags r.1.toNat
    if r.1 ≤ 0 ∨ fl = badFrame ∨ fl = echoReq ∨ fl = echoRep ∨ fl = connClose then none
    else
      some ({ s with idle := 0, kaNeedVerify := false, buf := r.2.1, io := r.2.2, mods := c.1 },
        frameLen r.1.toNat)

/-- The same for a whole turn of the loop. -/
def handedAt (s : Linker σ ν) : Option (Linker σ ν × ℕ) :=
  let r := P.select s.io
  match r.1 with
  | .ready true _ =>
    let q := seqFlow (keepAlive S P { s with io := r.2 }) (sendPacket S P)
    if q.2 = .fall then netHanded S P q.1 else none
  | _ => none

/-- Wherever the run hands a frame to the modules, it is one they can decode. -/
def HandedWell (ok : ε → σ → Span → Prop) (n : ℕ) (s : Linker σ ν) : Prop :=
  ∀ k < n, (linkerRun S P k s).2 = true → ∀ t len,
    handedAt S P (linkerRun S P k s).1 = some (t, len) → 0 < len →
      ok (P.modEnv t.io).1 t.mods ⟨len, t.buf⟩

/-- What is sent is not written to the device. -/
theorem OnlySends.devLens {σ ν : Type} {f : Linker σ ν → Linker σ ν × Flow} (h : OnlySends f)
    (s : Linker σ ν) : devLens (f s).1.trace = devLens s.trace := by
  obtain ⟨out, htr, hout⟩ := h s
  have hnil : Vtun.devLens out = [] := by
    refine List.filterMap_eq_nil_iff.mpr fun e he => ?_
    have hsent := hout e he
    cases e with
    | dev => cases hsent
    | _ => rfl
  rw [htr, devLens_append, hnil, List.append_nil]

/-- A frame handed to the modules is written to the device with the length they
return, if at all. -/
theorem deliverUp_devLens (s : Linker σ ν) (len : ℕ) :
    ∃ out ⊆ [(lfdRunUp (P.modEnv s.io).1 S.mods.reverse s.mods ⟨len, s.buf⟩).2.len],
      devLens (deliverUp S P s len).1.trace = devLens s.trace ++ out := by
  unfold deliverUp
  dsimp only
  split
  · exact ⟨[], List.nil_subset _, by simp⟩
  · split
    · exact ⟨[], List.nil_subset _, by simp⟩
    · refine ⟨[_], List.Subset.refl _, ?_⟩
      split
      all_goals simp

/-- The network part writes to the device only what the modules return of the
frame handed to them. -/
theorem netFrame_devLens (ready : Bool) (s : Linker σ ν) :
    devLens (netFrame S P ready s).1.trace = devLens s.trace ∨
      ready = true ∧ ∃ t len, netHanded S P s = some (t, len) ∧ t.trace = s.trace ∧
        netFrame S P ready s = deliverUp S P t len := by
  rw [netFrame]
  split
  · rename_i hready
    rw [netHanded]
    dsimp only
    split
    · exact Or.inl rfl
    · split
      · exact Or.inl (by simp)
      · rename_i hread
        unfold handleFlags putProto
        dsimp only
        split
        · exact Or.inl (by simp)
        · rename_i hbad
          split
          · left
            split
            all_goals simp
          · rename_i hreq
            split
            · exact Or.inl (by simp)
            · rename_i hrep
              split
              · exact Or.inl (by simp)
              · rename_i hclose
                refine Or.inr ⟨hready, _, _, if_neg ?_, rfl, rfl⟩
                simp only [not_or]
                exact ⟨hread, hbad, hreq, hrep, hclose⟩
  · exact Or.inl rfl

variable {S P} {ok : ε → σ → Span → Prop}

/-- One turn of the loop. -/
theorem linkerPass_devLens (hup : ∀ e s f, 0 < f.len → ok e s f →
      0 ≤ (lfdRunUp e S.mods.reverse s f).2.len) {s : Linker σ ν}
    (hs : ∀ len ∈ devLens s.trace, 0 ≤ len)
    (hok : ∀ t len, handedAt S P s = some (t, len) → 0 < len →
      ok (P.modEnv t.io).1 t.mods ⟨len, t.buf⟩) :
    ∀ len ∈ devLens (linkerPass S P s).1.trace, 0 ≤ len := by
  rw [handedAt] at hok
  rw [linkerPass]
  dsimp only at hok ⊢
  cases hsel : (P.select s.io).1 with
  | failed again => cases again <;> exact hs
  | ready net dev =>
    rw [hsel] at hok
    dsimp only at hok ⊢
    -- up to the network part nothing is written to the device
    have hfirst : devLens (seqFlow (keepAlive S P { s with io := (P.select s.io).2 })
        (sendPacket S P)).1.trace = devLens s.trace := by
      rw [seqFlow]
      split
      · rw [(sendPacket_sends S P).devLens, (keepAlive_sends S P).devLens]
      · rw [(keepAlive_sends S P).devLens]
    set q := seqFlow (keepAlive S P { s with io := (P.select s.io).2 }) (sendPacket S P)
    have hnet : ∀ len ∈ devLens (seqFlow q (netFrame S P net)).1.trace, 0 ≤ len := by
      rw [← hfirst] at hs
      rw [seqFlow]
      split
      · rename_i hfall
        rcases netFrame_devLens S P net q.1 with hsame | ⟨hready, t, len, hhanded, htrace, heq⟩
        · rw [hsame]
          exact hs
        · subst hready
          have hlen := hok t len (by rw [if_pos hfall]; exact hhanded)
          obtain ⟨out, hout, hdevs⟩ := deliverUp_devLens S P t len
          rw [heq, hdevs, htrace]
          intro l hl
          rcases List.mem_append.mp hl with hold | hnew
          · exact hs l hold
          · rw [List.mem_singleton.mp (hout hnew)]
            rcases Nat.eq_zero_or_pos len with hzero | hpos
            · subst hzero
              -- a frame without bytes is left alone by the modules
              cases S.mods.reverse with
              | nil => exact le_refl 0
              | cons mod mods =>
                rw [lfdRunUp, if_pos (le_of_eq Nat.cast_zero)]
                exact le_refl 0
            · exact hup _ _ _ (Int.natCast_pos.mpr hpos) (hlen hpos)
      · exact hs
    rw [seqFlow]
    split
    · rw [(devFrame_sends S P dev).devLens]
      exact hnet
    · exact hnet

/-- **A whole run.**  The induction is on the turns; the condition is asked of the
state each of them starts in. -/
theorem linkerRun_devLens (hup : ∀ e s f, 0 < f.len → ok e s f →
      0 ≤ (lfdRunUp e S.mods.reverse s f).2.len) {n : ℕ} {s : Linker σ ν}
    (hs : ∀ len ∈ devLens s.trace, 0 ≤ len) (hok : HandedWell S P ok n s) :
    ∀ len ∈ devLens (linkerRun S P n s).1.trace, 0 ≤ len := by
  induction n generalizing s with
  | zero => exact hs
  | succ n ih =>
    rw [linkerRun]
    split
    · exact hs
    · rename_i hterm
      have hrunning : (linkerRun S P 0 s).2 = true := by
        rw [linkerRun]
        simpa using hterm
      have hpass := linkerPass_devLens hup hs fun t len => hok 0 (Nat.succ_pos n) hrunning t len
      dsimp only
      split
      · exact hpass
      · rename_i hstop
        refine ih hpass fun k hk hrun => ?_
        have hnext : linkerRun S P (k + 1) s = linkerRun S P k (linkerPass S P s).1 := by
          rw [linkerRun, if_neg hterm]
          dsimp only
          rw [if_neg hstop]
        have hturn := hok (k + 1) (Nat.succ_lt_succ hk)
        rw [hnext] at hturn
        exact hturn hrun

end Linker

/-! ### Main result -/

theorem lfdRunUp_single {ε σ : Type} {mod : Mod ε σ} {decode : ε → σ → Span → σ × Span}
    (hmod : mod.decode = some decode) (e : ε) (s : σ) {f : Span} (hf : 0 < f.len) :
    lfdRunUp e [mod].reverse s f = decode e s f := by
  rw [List.reverse_singleton, lfdRunUp, if_neg (not_le.mpr hf), hmod]
  rfl

/-- **The decryptors return a possible length** if and only if the frame is long
enough for what it is taken for; a linker that hands them such frames only never
writes a negative length to the device. -/
theorem decode_lengths (pf : Platform) (X : OpenSsl) :
    (∀ (env : EncEnv) (s : Encryptor X) (f : Span), 0 < f.len →
      (SoundDecode env s f ↔ DecodeFits env s f)) ∧
    (∀ (key : List Byte) (f : Span), 0 < f.len →
      (SoundLegacy X key f ↔ LegacyFits X key f)) ∧
    (∀ (ν : Type) (S : Session EncEnv (Encryptor X)) (P : Ports EncEnv ν)
      (s : Linker (Encryptor X) ν) (n : ℕ), S.mods = [lfdEncrypt pf X] → s.trace = [] →
      HandedWell S P DecodeFits n s → ∀ len ∈ devLens (linkerRun S P n s).1.trace, 0 ≤ len) ∧
    ∀ (ν : Type) (S : Session EncEnv (List Byte)) (P : Ports EncEnv ν)
      (s : Linker (List Byte) ν) (n : ℕ), S.mods = [lfdLegacyEncrypt X] → s.trace = [] →
      HandedWell S P (fun _ => LegacyFits X) n s →
        ∀ len ∈ devLens (linkerRun S P n s).1.trace, 0 ≤ len := by
  refine ⟨fun env s f hf => soundDecode_iff env s hf, fun key f _ => soundLegacy_iff X key f,
    ?_, ?_⟩
  · intro ν S P s n hmods htrace hok
    refine linkerRun_devLens (fun e s f hf hfits => ?_) (by rw [htrace]; simp) hok
    rw [hmods, lfdRunUp_single rfl e s hf]
    exact ((soundDecode_iff e s hf).mpr hfits).length
  · intro ν S P s n hmods htrace hok
    refine linkerRun_devLens (fun e s f hf hfits => ?_) (by rw [htrace]; simp) hok
    rw [hmods, lfdRunUp_single rfl e s hf]
    exact ((soundLegacy_iff X s f).mpr hfits).length

/-- A network that brings one frame again and again. -/
def repeatPorts (frame : List Byte) : Ports EncEnv Unit where
  select _ := (.ready true false, ())
  protoRead _ buf := (frame.length, store buf frame, ())
  protoWrite _ _ len := (len, ())
  devRead _ := (.data [], ())
  devWrite _ _ := (.done, ())
  modEnv _ := (calmEnv, ())
  alarm _ := (false, ())
  term _ := none

/-- A session that encrypts with AES-128-CFB. -/
def cfbSession : Session EncEnv (Encryptor shiftSsl) :=
  ⟨[lfdEncrypt .lp64 shiftSsl], 4, Encryptor.sendAPacket,
    fun s => { s with sendAPacket := false }⟩

/-- The linker at the start of such a session. -/
def cfbStart : Linker (Encryptor shiftSsl) Unit :=
  ⟨[], 0, false, allocEncrypt shiftSsl (sampleHost 11) 0 [] false, (), []⟩

/-- A frame with a header, as the peer would make it, around a text. -/
def opening (text : List Byte) : List Byte :=
  mapBlocks (shiftSsl.blkEnc .aes []) 16
    (lit "ivec" ++ List.replicate 16 7 ++ List.replicate 12 0) ++ shiftEnc 7 text

/-- An in-band block. -/
def seqBlock : List Byte := lit "seq#" ++ List.replicate 12 0

/-- A frame with one byte and its padding goes through a linker. -/
theorem decode_lengths_whole :
    SoundDecode calmEnv cfbStart.mods
      ⟨64, opening (seqBlock ++ [1] ++ List.replicate 15 15)⟩ ∧
    SoundLegacy shiftSsl [] ⟨8, 8 :: List.replicate 7 1⟩ ∧
    ∀ len ∈ devLens (linkerRun cfbSession
      (repeatPorts (opening (seqBlock ++ [1] ++ List.replicate 15 15))) 1 cfbStart).1.trace,
      0 ≤ len := by
  obtain ⟨hdec, hlegacy, hrun, -⟩ := decode_lengths .lp64 shiftSsl
  refine ⟨(hdec _ _ _ (by decide)).mpr ?_, (hlegacy _ _ (by decide)).mpr fun _ => by decide,
    hrun _ _ _ _ _ rfl rfl ?_⟩
  · exact fun _ => Or.inr ⟨by decide, fun _ => Or.inr ⟨by decide, fun _ => by decide⟩⟩
  · intro k hk _ t len hhanded _
    obtain rfl : k = 0 := by omega
    cases hhanded
    exact fun _ => Or.inr ⟨by decide, fun _ => Or.inr ⟨by decide, fun _ => by decide⟩⟩

/-- **A frame cut short**: its text is an in-band block and one byte, which is
taken for five bytes of padding; the linker writes minus four bytes to the
device.  The old decryptor does the same with a frame of one byte. -/
theorem decode_negative :
    (decryptBuf calmEnv cfbStart.mods ⟨49, opening (seqBlock ++ [5])⟩).2.len = -4 ∧
    (legacyDecryptBuf shiftSsl [] ⟨1, 6 :: List.replicate 7 1⟩).len = -4 ∧
    devLens (linkerRun cfbSession (repeatPorts (opening (seqBlock ++ [5]))) 1 cfbStart).1.trace =
      [-4] := by
  refine ⟨by decide, by decide, by decide⟩

end Vtun
