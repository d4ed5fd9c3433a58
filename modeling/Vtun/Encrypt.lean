/-
The encryptor (`lfd_encrypt.c`).

The static variables of the module are the fields of `Encryptor`; `encryptBuf`
and `decryptBuf` are its two callbacks.  What OpenSSL computes is behind
`OpenSsl`: contexts of the chained modes are states of unknown types, while a
context in ECB mode is the partial block it holds.  A context that was never
initialised, or was cleaned up, is `none`; using it leaves junk.

* `allocEncrypt` — a fresh encryptor;
* `encryptBuf` — `send_msg`, `send_ib_mesg`, padding and encryption;
* `decryptBuf` — `recv_msg`, decryption, `recv_ib_mesg` and the padding check.
-/
import Vtun.CString
import Vtun.Linker
import Vtun.Lib.Blocks

namespace Vtun

open Blocks

/-! ### Ciphers -/

/-- The block ciphers. -/
inductive Algo
  | bf
  | aes
  deriving DecidableEq, Repr

/-- The modes of operation. -/
inductive Mode
  | ecb
  | cbc
  | cfb
  | ofb
  deriving DecidableEq, Repr

/-- A cipher of the session: `wide` is a key of 256 bits. -/
structure Cipher where
  algo : Algo
  wide : Bool
  mode : Mode
  deriving DecidableEq, Repr

/-- The cipher of a `VTUN_ENC_` number; Blowfish 128 ECB is the default. -/
def Cipher.ofNumber (cipher : Int32) : Cipher :=
  match cipher.toInt with
  | 2 => ⟨.bf, false, .cbc⟩
  | 3 => ⟨.bf, false, .cfb⟩
  | 4 => ⟨.bf, false, .ofb⟩
  | 5 => ⟨.bf, true, .ecb⟩
  | 6 => ⟨.bf, true, .cbc⟩
  | 7 => ⟨.bf, true, .cfb⟩
  | 8 => ⟨.bf, true, .ofb⟩
  | 9 => ⟨.aes, false, .ecb⟩
  | 10 => ⟨.aes, false, .cbc⟩
  | 11 => ⟨.aes, false, .cfb⟩
  | 12 => ⟨.aes, false, .ofb⟩
  | 13 => ⟨.aes, true, .ecb⟩
  | 14 => ⟨.aes, true, .cbc⟩
  | 15 => ⟨.aes, true, .cfb⟩
  | 16 => ⟨.aes, true, .ofb⟩
  | _ => ⟨.bf, false, .ecb⟩

/-- The block size of a cipher. -/
def Algo.blocksize : Algo → ℕ
  | .bf => 8
  | .aes => 16

/-- `blocksize`. -/
def Cipher.blocksize (c : Cipher) : ℕ := c.algo.blocksize

/-- `keysize`. -/
def Cipher.keysize (c : Cipher) : ℕ := if c.wide then 32 else 16

/-! ### The SSL library -/

/-- The functions of OpenSSL the encryptor uses.  The contexts of the chained
modes are made from a cipher, a key and an initialisation vector. -/
structure OpenSsl where
  md5 : List Byte → List Byte
  Enc : Type
  Dec : Type
  encInit : Cipher → List Byte → List Byte → Enc
  decInit : Cipher → List Byte → List Byte → Dec
  encUpdate : Enc → List Byte → List Byte × Enc
  decUpdate : Dec → List Byte → List Byte × Dec
  /-- one block under a key -/
  blkEnc : Algo → List Byte → List Byte → List Byte
  blkDec : Algo → List Byte → List Byte → List Byte

/-- Adds to every byte the output byte before it. -/
def shiftEnc : Byte → List Byte → List Byte
  | _, [] => []
  | c, b :: input => (b + c) :: shiftEnc (b + c) input

/-- Takes from every byte the input byte before it. -/
def shiftDec : Byte → List Byte → List Byte
  | _, [] => []
  | d, b :: input => (b - d) :: shiftDec b input

/-- A library to compute with: every byte is moved by the one before it, and the
bytes of single blocks by one. -/
def shiftSsl : OpenSsl where
  md5 _ := List.replicate 16 0
  Enc := Byte
  Dec := Byte
  encInit _ _ iv := iv.headD 0
  decInit _ _ iv := iv.headD 0
  encUpdate c input := (shiftEnc c input, (shiftEnc c input).getLastD c)
  decUpdate d input := (shiftDec d input, input.getLastD d)
  blkEnc _ _ b := b.map (· + 1)
  blkDec _ _ b := b.map (· - 1)

/-- `ctx_enc`, while it is initialised. -/
inductive EncCtx (X : OpenSsl)
  | ecb (rest : List Byte)
  | chained (c : X.Enc)

/-- `ctx_dec`, while it is initialised. -/
inductive DecCtx (X : OpenSsl)
  | ecb (rest : List Byte)
  | chained (d : X.Dec)

/-- A call on a cipher context. -/
inductive CtxOp
  | init
  | update
  | cleanup
  deriving DecidableEq, Repr

/-- `n` bytes of an unlimited supply. -/
def draw (source : ℕ → Byte) (n : ℕ) : List Byte := (List.range n).map source

@[simp] theorem length_draw (source : ℕ → Byte) (n : ℕ) : (draw source n).length = n := by
  simp [draw]

/-- What a call of the encryptor reads from the system. -/
structure EncEnv where
  /-- `RAND_bytes` for the initialisation vector, for the rest of its header and
  for a full block of padding -/
  iv : ℕ → Byte
  fill : ℕ → Byte
  pad : ℕ → Byte
  /-- what an update of a dead context leaves in the output buffer -/
  junk : ℕ → Byte
  /-- the bytes in front of `dec_buf`, going backwards -/
  before : ℕ → Byte
  /-- `time(NULL)`, when the first unintelligible frame comes and when the
  threshold is looked at -/
  time₁ : ℤ
  time₂ : ℤ

/-- A system without surprises. -/
def calmEnv : EncEnv := ⟨fun _ => 7, fun _ => 0, fun _ => 0, fun _ => 0, fun _ => 0, 100, 100⟩

/-- A host whose sessions use a cipher. -/
def sampleHost (cipher : Int32) : VtunHost where
  host := lit "lion"
  passwd := lit "ma"
  flags := Flag.tun ||| Flag.tcp ||| Flag.encrypt
  spdIn := 0
  spdOut := 0
  zlevel := 0
  cipher := cipher
  multi := .deny

/-! ### The state -/

/-- `CIPHER_INIT`, `CIPHER_CODE`, `CIPHER_SEQUENCE` and `CIPHER_REQ_INIT`. -/
inductive CipherState
  | init
  | code
  | sequence
  | reqInit
  deriving DecidableEq, Repr

/-- The static variables of the encryptor and the flag `send_a_packet`.  The
calls on the two contexts are recorded. -/
structure Encryptor (X : OpenSsl) where
  cipher : Cipher
  key : List Byte
  encState : CipherState
  decState : CipherState
  ctxEnc : Option (EncCtx X)
  ctxDec : Option (DecCtx X)
  gibberish : ℕ
  gibTimeStart : ℤ
  sequenceNum : UInt32
  decBuf : List Byte
  sendAPacket : Bool
  encOps : List CtxOp
  decOps : List CtxOp

variable {X : OpenSsl}

/-- `blocksize`. -/
def Encryptor.blocksize (s : Encryptor X) : ℕ := s.cipher.blocksize

/-- `MIN_GIBBERISH`. -/
def minGibberish : ℕ := 1

/-- `MAX_GIBBERISH`. -/
def maxGibberish : ℕ := 10

/-- `MAX_GIBBERISH_TIME`. -/
def maxGibberishTime : ℤ := 2

/-- `prep_key`. -/
def prepKey (X : OpenSsl) (size : ℕ) (passwd : List Byte) : List Byte :=
  if size = 32 then
    X.md5 (passwd.take (passwd.length / 2)) ++ X.md5 (passwd.drop (passwd.length / 2))
  else X.md5 passwd

/-- `alloc_encrypt`, in a process whose flag `send_a_packet` is `packet`; the
number, the buffer and its contents come from the system.  Only its low 32 bits
matter of `sequence_num`. -/
def allocEncrypt (X : OpenSsl) (host : VtunHost) (seq : UInt32) (buf : List Byte)
    (packet : Bool) : Encryptor X :=
  let cipher := Cipher.ofNumber host.cipher
  let ecb := cipher.mode = .ecb
  { cipher := cipher
    key := prepKey X cipher.keysize host.passwd
    encState := if ecb then .code else .init
    decState := if ecb then .code else .init
    ctxEnc := if ecb then some (.ecb []) else none
    ctxDec := if ecb then some (.ecb []) else none
    gibberish := 0
    gibTimeStart := 0
    sequenceNum := seq
    decBuf := buf
    sendAPacket := packet
    encOps := if ecb then [.init] else []
    decOps := if ecb then [.init] else [] }

/-- `EVP_CIPHER_CTX_cleanup(&ctx_enc)`. -/
def Encryptor.cleanupEnc (s : Encryptor X) : Encryptor X :=
  { s with ctxEnc := none, encOps := s.encOps ++ [.cleanup] }

/-- `EVP_CIPHER_CTX_cleanup(&ctx_dec)`. -/
def Encryptor.cleanupDec (s : Encryptor X) : Encryptor X :=
  { s with ctxDec := none, decOps := s.decOps ++ [.cleanup] }

/-- `cipher_enc_init`. -/
def Encryptor.cipherEncInit (s : Encryptor X) (iv : List Byte) : Encryptor X :=
  { s with
    ctxEnc := some (.chained (X.encInit s.cipher s.key iv))
    encOps := s.encOps ++ [.init] }

/-- `cipher_dec_init`. -/
def Encryptor.cipherDecInit (s : Encryptor X) (iv : List Byte) : Encryptor X :=
  { s with
    ctxDec := some (.chained (X.decInit s.cipher s.key iv))
    decOps := s.decOps ++ [.init] }

/-- `EVP_EncryptUpdate(&ctx_enc, ..)`: the output, and the state afterwards. -/
def Encryptor.encUpdate (env : EncEnv) (s : Encryptor X) (input : List Byte) :
    List Byte × Encryptor X :=
  let s : Encryptor X := { s with encOps := s.encOps ++ [CtxOp.update] }
  match s.ctxEnc with
  | some (.ecb rest) =>
    let r := feed (X.blkEnc s.cipher.algo s.key) s.blocksize rest input
    (r.1, { s with ctxEnc := some (.ecb r.2) })
  | some (.chained c) =>
    let r := X.encUpdate c input
    (r.1, { s with ctxEnc := some (.chained r.2) })
  | none => (draw env.junk input.length, s)

/-- `EVP_DecryptUpdate(&ctx_dec, ..)` of `len` bytes.  There is no output, and no
change, for a length that is not positive. -/
def Encryptor.decUpdate (env : EncEnv) (s : Encryptor X) (len : ℤ) (mem : List Byte) :
    List Byte × Encryptor X :=
  let s : Encryptor X := { s with decOps := s.decOps ++ [CtxOp.update] }
  if len ≤ 0 then ([], s)
  else
    let input := mem.take len.toNat
    match s.ctxDec with
    | some (.ecb rest) =>
      let r := feed (X.blkDec s.cipher.algo s.key) s.blocksize rest input
      (r.1, { s with ctxDec := some (.ecb r.2) })
    | some (.chained d) =>
      let r := X.decUpdate d input
      (r.1, { s with ctxDec := some (.chained r.2) })
    | none => (draw env.junk input.length, s)

/-! ### Sending -/

/-- `send_msg`: the encrypted header in front of the frame, in `CIPHER_INIT`. -/
def sendMsg (env : EncEnv) (s : Encryptor X) : List Byte × Encryptor X :=
  match s.encState with
  | .init =>
    let iv := draw env.iv s.blocksize
    let header := lit "ivec" ++ iv ++ draw env.fill (s.blocksize - 4)
    (mapBlocks (X.blkEnc s.cipher.algo s.key) s.blocksize header,
      { s.cipherEncInit iv with encState := .sequence })
  | _ => ([], s)

/-- The bytes of `htonl(n)`. -/
def beBytes (n : UInt32) : List Byte :=
  [(n >>> 24).toUInt8, (n >>> 16).toUInt8, (n >>> 8).toUInt8, n.toUInt8]

/-- The bytes an `unsigned long` with the value `htonl(n)` occupies in memory. -/
def longBytes (pf : Platform) (n : UInt32) : List Byte :=
  match pf with
  | .ilp32 => beBytes n
  | .lp64 => beBytes n ++ [0, 0, 0, 0]
  | .lp64be => [0, 0, 0, 0] ++ beBytes n

/-- The in-band block with `tag` in front of a frame.  The number is stored as an
`unsigned long` behind the tag, which may be longer than what is left of the
block. -/
def tagged (pf : Platform) (blocksize : ℕ) (tag : List Byte) (n : UInt32) (frame : List Byte) :
    List Byte :=
  let mem := tag ++ List.replicate (blocksize - tag.length) 0 ++ frame
  (mem.take tag.length ++ longBytes pf n ++
    mem.drop (tag.length + (longBytes pf n).length)).take mem.length

/-- `send_ib_mesg`. -/
def sendIbMesg (pf : Platform) (s : Encryptor X) (frame : List Byte) :
    List Byte × Encryptor X :=
  match s.encState with
  | .sequence => (tagged pf s.blocksize (lit "seq#") s.sequenceNum frame, s)
  | .reqInit =>
    (tagged pf s.blocksize (lit "rsyn") s.sequenceNum frame,
      { s with encState := .sequence, sendAPacket := true })
  | _ => (frame, s)

/-- The padding behind `len` bytes. -/
def padding (env : EncEnv) (blocksize len : ℕ) : List Byte :=
  let pad := blocksize - len % blocksize
  -- a block of nothing but padding is filled with random bytes before the last
  if pad = blocksize then draw env.pad (blocksize - 1) ++ [UInt8.ofNat pad]
  else List.replicate pad (UInt8.ofNat pad)

/-- `encrypt_buf`. -/
def encryptBuf (pf : Platform) (env : EncEnv) (s : Encryptor X) (f : Span) :
    Encryptor X × Span :=
  let (header, s) := sendMsg env s
  let (plain, s) := sendIbMesg pf s f.frame
  -- `len` counts the in-band block here
  if plain.length = 0 then (s, ⟨0, f.mem⟩)
  else
    let (text, s) := s.encUpdate env (plain ++ padding env s.blocksize plain.length)
    ({ s with sequenceNum := s.sequenceNum + 1 },
      ⟨(header ++ text).length, header ++ text⟩)

/-! ### Receiving -/

/-- An encoder that is not in `CIPHER_INIT` is put back there. -/
def Encryptor.dropEncoder (s : Encryptor X) : Encryptor X :=
  if s.encState ≠ .init then { s.cleanupEnc with encState := .init } else s

/-- The branch of `recv_msg` for a frame without an initialisation vector. -/
def countGibberish (env : EncEnv) (s : Encryptor X) : Encryptor X :=
  let count := s.gibberish + 1
  let start := if count = 1 then env.time₁ else s.gibTimeStart
  let s := { s with gibberish := count, gibTimeStart := start }
  -- whatever state the encoder was in, also `CIPHER_INIT`
  let s := if count = minGibberish then { s with encState := .reqInit, sendAPacket := true } else s
  if count ≥ maxGibberish ∨ env.time₂ - start ≥ maxGibberishTime then
    Encryptor.dropEncoder { s with gibberish := 0, gibTimeStart := 0, sendAPacket := true }
  else s

/-- `recv_msg`: the length of what is left of the frame, and the memory there.
The memory of a frame goes on behind its end. -/
def recvMsg (env : EncEnv) (s : Encryptor X) (f : Span) : Span × Encryptor X :=
  match s.decState with
  | .init =>
    let head := mapBlocks (X.blkDec s.cipher.algo s.key) s.blocksize
      (f.mem.take (s.blocksize * 2))
    if head.take 4 = lit "ivec" then
      (⟨f.len - s.blocksize * 2, f.mem.drop (s.blocksize * 2)⟩,
        { s.cipherDecInit ((head.drop 4).take s.blocksize) with
          decState := .sequence
          gibberish := 0
          gibTimeStart := 0 })
    else (⟨0, f.mem⟩, countGibberish env s)
  | _ => (f, s)

/-- `recv_ib_mesg` on `len` decrypted bytes: the length that is left, and how far
the pointer moves. -/
def recvIbMesg (s : Encryptor X) (len : ℤ) : (ℤ × ℕ) × Encryptor X :=
  if s.decState = .sequence then
    if s.decBuf.take 4 = lit "seq#" then ((len - s.blocksize, s.blocksize), s)
    else if s.decBuf.take 4 = lit "rsyn" then
      ((len - s.blocksize, s.blocksize), s.dropEncoder)
    else
      -- out of step: the other end is asked to start anew, unless it has been already
      ((0, 0),
        if s.encState ≠ .reqInit ∧ s.encState ≠ .init then
          { s.cleanupDec with decState := .init, encState := .reqInit }
        else s)
  else ((len, 0), s)

/-- The byte at an offset from the start of `dec_buf`. -/
def decBufAt (env : EncEnv) (s : Encryptor X) (i : ℤ) : Byte :=
  if i < 0 then env.before (-i).toNat else s.decBuf.getD i.toNat 0

/-- The end of `decrypt_buf`: the padding behind `outlen` bytes that start at the
offset `skip` is checked and taken off; `mem` is where the frame was. -/
def takePadding (env : EncEnv) (s : Encryptor X) (mem : List Byte) (outlen : ℤ) (skip : ℕ) : Span :=
  if outlen = 0 then ⟨0, mem⟩
  else
    -- a `char` above 127 is negative and one of the numbers refused either way
    let pad := (decBufAt env s (skip + outlen - 1)).toNat
    if pad < 1 ∨ s.blocksize < pad then ⟨0, mem⟩ else ⟨outlen - pad, s.decBuf.drop skip⟩

/-- `decrypt_buf`. -/
def decryptBuf (env : EncEnv) (s : Encryptor X) (f : Span) : Encryptor X × Span :=
  let (g, s) := recvMsg env s f
  if g.len = 0 then (s, ⟨0, g.mem⟩)
  else
    let (text, s) := s.decUpdate env g.len g.mem
    let s := { s with decBuf := store s.decBuf text }
    let ((outlen, skip), s) := recvIbMesg s text.length
    (s, takePadding env s g.mem outlen skip)

/-- The module structure `lfd_encrypt`. -/
def lfdEncrypt (pf : Platform) (X : OpenSsl) : Mod EncEnv (Encryptor X) where
  encode := some (encryptBuf pf)
  availEncode := none
  decode := some decryptBuf
  availDecode := none

/-! ### Padding -/

theorem Algo.blocksize_pos (algo : Algo) : 0 < algo.blocksize := by
  cases algo <;> decide

theorem Algo.blocksize_le (algo : Algo) : algo.blocksize ≤ 16 := by
  cases algo <;> decide

theorem length_padding (env : EncEnv) {n : ℕ} (hn : 0 < n) (len : ℕ) :
    (padding env n len).length = n - len % n := by
  have hmod := Nat.mod_lt len hn
  unfold padding
  dsimp only
  split
  · rename_i hfull
    rw [List.length_append, length_draw, List.length_singleton]
    omega
  · rw [List.length_replicate]

/-- The last byte of the padding is its length. -/
theorem getLast?_padding (env : EncEnv) {n : ℕ} (hn : 0 < n) (len : ℕ) :
    (padding env n len).getLast? = some (UInt8.ofNat (n - len % n)) := by
  have hmod := Nat.mod_lt len hn
  unfold padding
  dsimp only
  split
  · rw [List.getLast?_concat]
  · rw [List.getLast?_replicate, if_neg (by omega)]

/-- A padded frame is a number of whole blocks. -/
theorem dvd_length_padded (env : EncEnv) {n : ℕ} (hn : 0 < n) (plain : List Byte) :
    n ∣ (plain ++ padding env n plain.length).length := by
  have hmod := Nat.mod_lt plain.length hn
  have hdiv := Nat.div_add_mod plain.length n
  rw [List.length_append, length_padding env hn]
  refine ⟨plain.length / n + 1, ?_⟩
  rw [Nat.mul_add, Nat.mul_one]
  omega

/-- **Padding is taken off again**: what is left of a padded text behind `skip`
bytes of it is the frame. -/
theorem takePadding_padded (env env' : EncEnv) {s : Encryptor X} (mem buf head m : List Byte)
    (hbuf : s.decBuf = store buf (head ++ (m ++ padding env' s.blocksize (head ++ m).length))) :
    let r := takePadding env s mem
      (m ++ padding env' s.blocksize (head ++ m).length).length head.length
    r.len = m.length ∧ r.frame = m := by
  have hn : 0 < s.blocksize := s.cipher.algo.blocksize_pos
  have hn16 : s.blocksize ≤ 16 := s.cipher.algo.blocksize_le
  have hmod := Nat.mod_lt (head ++ m).length hn
  set pad := padding env' s.blocksize (head ++ m).length with hpad
  have hplen : pad.length = s.blocksize - (head ++ m).length % s.blocksize :=
    length_padding env' hn _
  have hlast := getLast?_padding env' hn (head ++ m).length
  rw [← hpad, ← hplen] at hlast
  -- the last byte of the text is the last byte of the padding
  have hat : decBufAt env s (head.length + (m ++ pad).length - 1) = UInt8.ofNat pad.length := by
    have hidx : ((head.length : ℤ) + (m ++ pad).length - 1).toNat =
        (head ++ (m ++ pad)).length - 1 := by
      simp only [List.length_append]
      omega
    have hget : (head ++ (m ++ pad))[(head ++ (m ++ pad)).length - 1]? =
        some (UInt8.ofNat pad.length) := by
      rw [← List.getLast?_eq_getElem?, List.getLast?_append, List.getLast?_append, hlast]
      rfl
    rw [decBufAt, if_neg (by simp only [List.length_append]; omega), hidx, hbuf, store,
      List.getD_eq_getElem?_getD, List.getElem?_append_left (by
        simp only [List.length_append]; omega), hget]
    rfl
  have hval : (UInt8.ofNat pad.length).toNat = pad.length := by
    rw [UInt8.toNat_ofNat', Nat.mod_eq_of_lt (by omega)]
  have hne : ((m ++ pad).length : ℤ) ≠ 0 := by
    rw [List.length_append]
    omega
  have hdrop : s.decBuf.drop head.length = m ++ pad ++ buf.drop (head ++ (m ++ pad)).length := by
    rw [hbuf, store, List.append_assoc, List.drop_left]
  dsimp only
  rw [takePadding, if_neg hne, hat, hval, if_neg (by omega), hdrop]
  have hlen : ((m ++ pad).length : ℤ) - pad.length = m.length := by
    rw [List.length_append]
    omega
  refine ⟨hlen, ?_⟩
  rw [Span.frame, hlen, Int.toNat_natCast, List.append_assoc, List.take_left]

end Vtun
