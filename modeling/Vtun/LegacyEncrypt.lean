/-
The old encryptor (`lfd_legacy_encrypt.c`).

Frames are padded in front and encrypted block by block; nothing is kept from
one frame to the next.

* `legacy_round_trip` — the decoder returns what the encoder was given, whatever
  lies behind the frame in the buffer.
-/
import Vtun.Encrypt

namespace Vtun

open Blocks

/-- What the encryptors rely on of a block cipher under a key: encryption and
decryption of blocks are inverse to each other. -/
structure BlockCipher (X : OpenSsl) (algo : Algo) (key : List Byte) : Prop where
  encLen : KeepsBlocks (X.blkEnc algo key) algo.blocksize
  decLen : KeepsBlocks (X.blkDec algo key) algo.blocksize
  dec_enc : UndoesBlocks (X.blkDec algo key) (X.blkEnc algo key) algo.blocksize
  enc_dec : UndoesBlocks (X.blkEnc algo key) (X.blkDec algo key) algo.blocksize

theorem blockCipher_shiftSsl (algo : Algo) (key : List Byte) : BlockCipher shiftSsl algo key := by
  have hinv : ∀ b : List Byte, (b.map (· + 1)).map (· - 1) = b := by
    intro b
    rw [List.map_map]
    exact (List.map_congr_left fun x _ => UInt8.add_sub_cancel x 1).trans (List.map_id b)
  have hinv' : ∀ b : List Byte, (b.map (· - 1)).map (· + 1) = b := by
    intro b
    rw [List.map_map]
    exact (List.map_congr_left fun x _ => UInt8.sub_add_cancel x 1).trans (List.map_id b)
  refine ⟨?_, ?_, fun b _ => hinv b, fun b _ => hinv' b⟩
  · intro b hb
    simpa [shiftSsl] using hb
  · intro b hb
    simpa [shiftSsl] using hb

variable {X : OpenSsl} {key : List Byte}

/-- The padding of `legacy_encrypt_buf`: its length, and zeros. -/
def legacyPadding (len : ℕ) : List Byte :=
  UInt8.ofNat (8 - len % 8) :: List.replicate (8 - len % 8 - 1) 0

/-- `legacy_encrypt_buf`: the first block holds the padding and the start of the
frame, the others what is left of it. -/
def legacyEncryptBuf (X : OpenSsl) (key : List Byte) (f : Span) : Span :=
  let frame := f.frame
  let p := frame.length % 8
  let rest := frame.drop p
  ⟨rest.length + 8,
    X.blkEnc .bf key (legacyPadding frame.length ++ frame.take p) ++
      mapBlocks (X.blkEnc .bf key) 8 rest⟩

/-- `legacy_decrypt_buf`: every block that starts within the frame is decrypted
in place. -/
def legacyDecryptBuf (X : OpenSsl) (key : List Byte) (f : Span) : Span :=
  let upto := (f.len.toNat + 7) / 8 * 8
  let mem := mapBlocks (X.blkDec .bf key) 8 (f.mem.take upto) ++ f.mem.drop upto
  let p := (mem.headD 0).toNat
  if p < 1 ∨ 8 < p then ⟨0, mem⟩ else ⟨f.len - p, mem.drop p⟩

/-- `alloc_legacy_encrypt`. -/
def allocLegacyEncrypt (X : OpenSsl) (host : VtunHost) : List Byte := X.md5 host.passwd

/-- The callbacks of the module; its state is the key. -/
def legacyEncode (X : OpenSsl) (_ : EncEnv) (key : List Byte) (f : Span) : List Byte × Span :=
  (key, legacyEncryptBuf X key f)

def legacyDecode (X : OpenSsl) (_ : EncEnv) (key : List Byte) (f : Span) : List Byte × Span :=
  (key, legacyDecryptBuf X key f)

/-- The module structure `lfd_legacy_encrypt`. -/
def lfdLegacyEncrypt (X : OpenSsl) : Mod EncEnv (List Byte) where
  encode := some (legacyEncode X)
  availEncode := none
  decode := some (legacyDecode X)
  availDecode := none

theorem length_legacyPadding (len : ℕ) : (legacyPadding len).length = 8 - len % 8 := by
  have hmod := Nat.mod_lt len (by decide : 0 < 8)
  rw [legacyPadding, List.length_cons, List.length_replicate]
  omega

/-- What the encoder sends is the padded frame, block by block. -/
theorem legacyEncryptBuf_eq (key : List Byte) (m : List Byte) :
    (legacyEncryptBuf X key ⟨m.length, m⟩).mem =
      mapBlocks (X.blkEnc .bf key) 8 (legacyPadding m.length ++ m) ∧
    (legacyEncryptBuf X key ⟨m.length, m⟩).len = (legacyPadding m.length ++ m).length := by
  have hmod := Nat.mod_lt m.length (by decide : 0 < 8)
  have hframe := Span.frame_all m
  have hfirst : (legacyPadding m.length ++ m.take (m.length % 8)).length = 8 := by
    rw [List.length_append, length_legacyPadding, List.length_take]
    omega
  have hsplit : legacyPadding m.length ++ m =
      (legacyPadding m.length ++ m.take (m.length % 8)) ++ m.drop (m.length % 8) := by
    rw [List.append_assoc, List.take_append_drop]
  constructor
  · rw [hsplit, mapBlocks_append (by decide) (by rw [hfirst]), mapBlocks_block (by decide) hfirst]
    simp only [legacyEncryptBuf, hframe]
  · simp only [legacyEncryptBuf, hframe, List.length_append, length_legacyPadding,
      List.length_drop]
    omega

/-- **The old encryptor's round trip**, for any memory behind the frame. -/
theorem legacy_round_trip (hX : BlockCipher X .bf key) (m tail : List Byte) :
    let out := legacyEncryptBuf X key ⟨m.length, m⟩
    let r := legacyDecryptBuf X key ⟨out.len, out.mem ++ tail⟩
    r.len = m.length ∧ r.frame = m := by
  have hmod := Nat.mod_lt m.length (by decide : 0 < 8)
  obtain ⟨hmem, hlen⟩ := legacyEncryptBuf_eq (X := X) key m
  set padded := legacyPadding m.length ++ m with hpadded
  have hplen : padded.length = 8 - m.length % 8 + m.length := by
    rw [hpadded, List.length_append, length_legacyPadding]
  have hdvd : 8 ∣ padded.length := by
    rw [hplen]
    omega
  have htext : (mapBlocks (X.blkEnc .bf key) 8 padded).length = padded.length := by
    exact (length_mapBlocks hX.encLen padded).trans (Nat.div_mul_cancel hdvd)
  have hupto : ((padded.length : ℤ).toNat + 7) / 8 * 8 = padded.length := by
    rw [Int.toNat_natCast]
    omega
  have hdec : mapBlocks (X.blkDec .bf key) 8 (mapBlocks (X.blkEnc .bf key) 8 padded) = padded :=
    mapBlocks_inverse (by decide) hX.encLen hX.dec_enc hdvd
  dsimp only
  rw [hmem, hlen]
  simp only [legacyDecryptBuf, hupto]
  rw [List.take_left' htext, List.drop_left' htext, hdec]
  have hhead : ((padded ++ tail).headD 0).toNat = 8 - m.length % 8 := by
    rw [hpadded, legacyPadding]
    simp only [List.cons_append, List.headD_cons, UInt8.toNat_ofNat']
    omega
  have hdrop : (padded ++ tail).drop (8 - m.length % 8) = m ++ tail := by
    rw [hpadded, List.append_assoc]
    exact List.drop_left' (length_legacyPadding m.length)
  rw [hhead, if_neg (by omega), hdrop]
  have hret : (padded.length : ℤ) - ((8 - m.length % 8 : ℕ) : ℤ) = m.length := by
    rw [hplen]
    omega
  refine ⟨hret, ?_⟩
  rw [Span.frame, hret, Int.toNat_natCast, List.take_left]

end Vtun
