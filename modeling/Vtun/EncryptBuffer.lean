/-
Where `encrypt_buf` writes (`lfd_encrypt.c`, `linkfd.h`).

The headers go in front of the frame, into the memory that `lfd_alloc` reserves there,
the padding goes behind it, and the text goes to `enc_buf`.  Here the frame has a place
in memory; `encryptBuf` is what is left when the places are forgotten.

* `sendMsgAt_spec`, `sendIbMesgAt_spec`, `padAt_spec` — what each part leaves in memory, and
  where it has stored;
* `encryptBufAt_spec` — the text at `enc_buf` is that of `encryptBuf`, and how far from the
  frame and from `enc_buf` the stores go.
-/
import Vtun.InBandBlock
import Vtun.Lib.Cells

namespace Vtun

open Blocks

variable {X : OpenSsl} {pf : Platform}

/-! ### encrypt_buf, with places -/

/-- `LINKFD_FRAME_RESERV`. -/
def linkfdFrameReserv : ℕ := 128

/-- `LINKFD_FRAME_APPEND`. -/
def linkfdFrameAppend : ℕ := 64

/-- `ENC_BUF_SIZE`. -/
def encBufSize : ℕ := frameSize + 128

/-- The memory of a call: around the frame, which starts at 0, and around `enc_buf`. -/
structure Buffers where
  frame : Cells Byte
  encBuf : Cells Byte

/-- `send_msg`: where `*out` points to, the length of the message, and the memory around the
frame. -/
def sendMsgAt (env : EncEnv) (s : Encryptor X) (mem : Cells Byte) :
    (ℤ × ℕ) × Cells Byte × Encryptor X :=
  match s.encState with
  | .init =>
    let start : ℤ := -(s.blocksize * 2 : ℕ)
    let iv := draw env.iv s.blocksize
    let mem := mem.put start (lit "ivec")
    let mem := mem.put (start + 4) iv
    let inPtr := start + 4 + s.blocksize
    let mem := mem.put inPtr (draw env.fill (-inPtr).toNat)
    -- the message is encrypted in place
    let text := mapBlocks (X.blkEnc s.cipher.algo s.key) s.blocksize
      (mem.get start (s.blocksize * 2))
    ((start, text.length), mem.put start text, { s.cipherEncInit iv with encState := .sequence })
  | _ => ((0, 0), mem, s)

/-- The block with `tag` at `inPtr`, as `send_ib_mesg` stores it. -/
def putTag (pf : Platform) (blocksize : ℕ) (tag : List Byte) (n : UInt32) (inPtr : ℤ)
    (mem : Cells Byte) : Cells Byte :=
  let mem := mem.put inPtr (List.replicate blocksize 0)
  let mem := mem.put inPtr tag
  mem.put (inPtr + 4) (longBytes pf n)

/-- `send_ib_mesg`, on `len` bytes at `inPtr`: `*in`, `*len` and the memory. -/
def sendIbMesgAt (pf : Platform) (s : Encryptor X) (inPtr : ℤ) (len : ℕ) (mem : Cells Byte) :
    (ℤ × ℕ) × Cells Byte × Encryptor X :=
  match s.encState with
  | .sequence =>
    ((inPtr - s.blocksize, len + s.blocksize),
      putTag pf s.blocksize (lit "seq#") s.sequenceNum (inPtr - s.blocksize) mem, s)
  | .reqInit =>
    ((inPtr - s.blocksize, len + s.blocksize),
      putTag pf s.blocksize (lit "rsyn") s.sequenceNum (inPtr - s.blocksize) mem,
      { s with encState := .sequence, sendAPacket := true })
  | _ => ((inPtr, len), mem, s)

/-- The padding of `encrypt_buf`, behind `len` bytes at `inPtr`. -/
def padAt (env : EncEnv) (blocksize : ℕ) (inPtr : ℤ) (len : ℕ) (mem : Cells Byte) :
    Cells Byte :=
  let pad := blocksize - len % blocksize
  let mem := mem.put (inPtr + len) (List.replicate pad (UInt8.ofNat pad))
  if pad = blocksize then mem.put (inPtr + len) (draw env.pad (blocksize - 1)) else mem

/-- `encrypt_buf`: its value and the memory. -/
def encryptBufAt (pf : Platform) (env : EncEnv) (s : Encryptor X) (len : ℕ) (b : Buffers) :
    (Encryptor X × ℕ) × Buffers :=
  let ((start, msgLen), mem, s) := sendMsgAt env s b.frame
  let encBuf := b.encBuf.put 0 (mem.get start msgLen)
  let ((inPtr, len), mem, s) := sendIbMesgAt pf s (start + msgLen) len mem
  if len = 0 then ((s, 0), ⟨mem, encBuf⟩)
  else
    let pad := s.blocksize - len % s.blocksize
    let mem := padAt env s.blocksize inPtr len mem
    let (text, s) := s.encUpdate env (mem.get inPtr (len + pad))
    (({ s with sequenceNum := s.sequenceNum + 1 }, text.length + msgLen),
      ⟨mem, encBuf.put msgLen text⟩)

/-! ### What each part leaves -/

/-- What a part has made of the memory around the frame: its text, where it says it is, and
nothing stored outside the bounds. -/
structure Leaves (mem mem' : Cells Byte) (at' : ℤ × ℕ) (text : List Byte) (lo hi : ℤ) : Prop where
  len : at'.2 = text.length
  text : mem'.get at'.1 at'.2 = text
  stores : Cells.StoresIn lo hi mem mem'

theorem Cipher.le_blocksize (c : Cipher) : 8 ≤ c.blocksize := by
  rw [Cipher.blocksize]
  cases c.algo <;> decide

theorem sendMsgAt_spec {s : Encryptor X}
    (hX : KeepsBlocks (X.blkEnc s.cipher.algo s.key) s.blocksize) (env : EncEnv)
    (mem : Cells Byte) :
    let r := sendMsgAt env s mem
    Leaves mem r.2.1 r.1 (sendMsg env s).1 (-(s.blocksize * 2 : ℕ)) 0 ∧
      r.1.1 + r.1.2 = 0 ∧ r.2.2 = (sendMsg env s).2 := by
  have hbs : 8 ≤ s.blocksize := s.cipher.le_blocksize
  by_cases hs : s.encState = .init
  · rw [sendMsgAt, sendMsg, hs]
    dsimp only
    set start : ℤ := -(s.blocksize * 2 : ℕ) with hstart
    set iv := draw env.iv s.blocksize with hiv
    have hfill : (-(start + 4 + s.blocksize)).toNat = s.blocksize - 4 := by omega
    rw [hfill]
    set fill := draw env.fill (s.blocksize - 4) with hfill'
    -- the three stores follow each other
    have hivec : (mem.put start (lit "ivec")).get start 4 = lit "ivec" := Cells.get_put_self _ _ _
    have h₂ := Cells.get_put_append (q := start + 4) (t := iv) hivec rfl
    have h₃ := Cells.get_put_append (q := start + 4 + s.blocksize) (t := fill) h₂
      (by rw [hiv, length_draw]; omega)
    set mem₃ := ((mem.put start (lit "ivec")).put (start + 4) iv).put (start + 4 + s.blocksize)
      fill with hmem₃
    have hlen : 4 + iv.length + fill.length = s.blocksize * 2 := by
      rw [hiv, hfill', length_draw, length_draw]
      omega
    rw [hlen] at h₃
    rw [h₃]
    set text := mapBlocks (X.blkEnc s.cipher.algo s.key) s.blocksize (lit "ivec" ++ iv ++ fill)
      with htext
    have htextlen : text.length = s.blocksize * 2 := by
      have hsize : (lit "ivec" ++ iv ++ fill).length = s.blocksize * 2 := by
        rw [← h₃, Cells.length_get]
      rw [htext, length_mapBlocks hX, hsize, Nat.mul_div_cancel_left 2 (by omega), Nat.mul_comm]
    refine ⟨⟨rfl, Cells.get_put_self _ _ _, ?_⟩, ?_, rfl⟩
    · have hivlen : (iv.length : ℤ) = s.blocksize := by rw [hiv, length_draw]
      have hfilllen : (fill.length : ℤ) = s.blocksize - 4 := by
        rw [hfill', length_draw]
        omega
      have hfirst : ((lit "ivec").length : ℤ) = 4 := rfl
      refine ((((Cells.StoresIn.refl _ _ _).put ?_ ?_).put ?_ ?_).put ?_ ?_).put ?_ ?_ <;> omega
    · rw [htextlen, hstart]
      omega
  · have hsend : sendMsg env s = ([], s) := by
      cases h : s.encState <;> simp_all [sendMsg]
    have hat : sendMsgAt env s mem = ((0, 0), mem, s) := by
      cases h : s.encState <;> simp_all [sendMsgAt]
    rw [hat, hsend]
    exact ⟨⟨rfl, rfl, Cells.StoresIn.refl _ _ _⟩, rfl, rfl⟩

/-- The tag in front of a frame of `len` bytes. -/
theorem putTag_get (pf : Platform) {blocksize : ℕ} (hbs : 4 ≤ blocksize) {tag : List Byte}
    (htag : tag.length = 4) (n : UInt32) (len : ℕ) (mem : Cells Byte) :
    (putTag pf blocksize tag n (-blocksize) mem).get (-blocksize) (blocksize + len) =
      tagged pf blocksize tag n (mem.get 0 len) := by
  set zeros := List.replicate blocksize (0 : Byte) with hzeros
  have hzlen : zeros.length = blocksize := List.length_replicate
  have h₁ : (mem.put (-blocksize) zeros).get (-blocksize) (blocksize + len) =
      zeros ++ mem.get 0 len := by
    have hself := Cells.get_put_self mem (-blocksize) zeros
    rw [hzlen] at hself
    rw [Cells.get_add, hself, Cells.get_put_after (by omega), Int.add_left_neg]
  have h₂ := Cells.get_put (mem.put (-blocksize) zeros) (-blocksize) tag
    (Nat.zero_le (blocksize + len))
  have hcovered : (zeros ++ mem.get 0 len).drop 4 =
      List.replicate (blocksize - 4) 0 ++ mem.get 0 len := by
    rw [List.drop_append_of_le_length (by omega), hzeros, List.drop_replicate]
  have hsize : (tag ++ List.replicate (blocksize - 4) 0 ++ mem.get 0 len).length =
      blocksize + len := by
    simp only [List.length_append, List.length_replicate, Cells.length_get]
    omega
  rw [h₁, List.take_zero, List.nil_append, Nat.zero_add, htag, hcovered, ← List.append_assoc,
    List.take_of_length_le (Nat.le_of_eq hsize), Nat.cast_zero, Int.add_zero] at h₂
  have h₃ := Cells.get_put ((mem.put (-blocksize) zeros).put (-blocksize) tag) (-blocksize)
    (longBytes pf n) (show 4 ≤ blocksize + len by omega)
  rw [h₂] at h₃
  rw [tagged, htag, hsize]
  exact h₃

theorem length_longBytes_le (pf : Platform) (n : UInt32) : (longBytes pf n).length ≤ 8 := by
  cases pf <;> simp [longBytes, beBytes]

theorem putTag_stores (pf : Platform) {blocksize : ℕ} (hbs : 8 ≤ blocksize) {tag : List Byte}
    (htag : tag.length = 4) (n : UInt32) (mem : Cells Byte) :
    Cells.StoresIn (-blocksize) 4 mem (putTag pf blocksize tag n (-blocksize) mem) := by
  have hlong := length_longBytes_le pf n
  have hzlen : (List.replicate blocksize (0 : Byte)).length = blocksize := List.length_replicate
  refine (((Cells.StoresIn.refl _ _ _).put ?_ ?_).put ?_ ?_).put ?_ ?_ <;> omega

theorem sendIbMesgAt_spec (pf : Platform) (s : Encryptor X) (len : ℕ) (mem : Cells Byte) :
    let r := sendIbMesgAt pf s 0 len mem
    let t := sendIbMesg pf s (mem.get 0 len)
    Leaves mem r.2.1 r.1 t.1 (-s.blocksize) 4 ∧ r.1.1 + r.1.2 = len ∧ r.2.2 = t.2 := by
  have hbs : 8 ≤ s.blocksize := s.cipher.le_blocksize
  have hblock : ∀ tag : List Byte, tag.length = 4 →
      Leaves mem (putTag pf s.blocksize tag s.sequenceNum (-s.blocksize) mem)
        (-s.blocksize, len + s.blocksize) (tagged pf s.blocksize tag s.sequenceNum (mem.get 0 len))
        (-s.blocksize) 4 := by
    intro tag htag
    have hget := putTag_get pf (by omega : 4 ≤ s.blocksize) htag s.sequenceNum len mem
    rw [Nat.add_comm] at hget
    refine ⟨?_, hget, putTag_stores pf hbs htag s.sequenceNum mem⟩
    rw [← hget, Cells.length_get]
  rw [sendIbMesgAt, sendIbMesg]
  cases hs : s.encState with
  | sequence =>
    simp only [Int.zero_sub]
    exact ⟨hblock (lit "seq#") rfl, by omega, trivial⟩
  | reqInit =>
    simp only [Int.zero_sub]
    exact ⟨hblock (lit "rsyn") rfl, by omega, trivial⟩
  | init =>
    refine ⟨⟨?_, rfl, Cells.StoresIn.refl _ _ _⟩, ?_, rfl⟩
    · simp
    · simp
  | code =>
    refine ⟨⟨?_, rfl, Cells.StoresIn.refl _ _ _⟩, ?_, rfl⟩
    · simp
    · simp

/-- The padding behind a text. -/
theorem padAt_spec (env : EncEnv) {blocksize : ℕ} (hbs : 0 < blocksize) {inPtr : ℤ} {len : ℕ}
    {text : List Byte} {mem : Cells Byte} (htext : mem.get inPtr len = text) :
    (padAt env blocksize inPtr len mem).get inPtr (len + (blocksize - len % blocksize)) =
        text ++ padding env blocksize len ∧
      Cells.StoresIn (inPtr + len) (inPtr + len + blocksize) mem
        (padAt env blocksize inPtr len mem) := by
  have hmod := Nat.mod_lt len hbs
  set pad := blocksize - len % blocksize with hpad
  set bytes := List.replicate pad (UInt8.ofNat pad) with hbytes
  have hblen : bytes.length = pad := List.length_replicate
  have h₁ := Cells.get_put_append (q := inPtr + len) (t := bytes) htext rfl
  rw [hblen] at h₁
  have hstores : Cells.StoresIn (inPtr + len) (inPtr + len + blocksize) mem
      (mem.put (inPtr + len) bytes) := (Cells.StoresIn.refl _ _ _).put (by omega) (by omega)
  rw [padAt, padding, ← hpad, ← hbytes]
  by_cases hfull : pad = blocksize
  · rw [if_pos hfull, if_pos hfull]
    -- the last byte stays
    have hdraw : (draw env.pad (blocksize - 1)).length = blocksize - 1 := length_draw _ _
    have h₂ := Cells.get_put (mem.put (inPtr + len) bytes) inPtr (draw env.pad (blocksize - 1))
      (Nat.le_add_right len pad)
    have htlen : text.length = len := by rw [← htext, Cells.length_get]
    have hlast : (text ++ bytes).drop (len + (blocksize - 1)) = [UInt8.ofNat pad] := by
      rw [← htlen, List.drop_length_add_append, hbytes, List.drop_replicate,
        show pad - (blocksize - 1) = 1 by omega, List.replicate_one]
    rw [h₁, hdraw, hlast, List.take_left' htlen, List.append_assoc,
      List.take_of_length_le] at h₂
    · exact ⟨h₂, hstores.put (by omega) (by omega)⟩
    · simp only [List.length_append, hdraw, List.length_singleton, htlen]
      omega
  · rw [if_neg hfull, if_neg hfull]
    exact ⟨h₁, hstores⟩

/-! ### The whole call -/

theorem blocksize_sendMsg (env : EncEnv) (s : Encryptor X) :
    (sendMsg env s).2.blocksize = s.blocksize := by
  rw [sendMsg]
  split <;> rfl

/-- The in-band block is all that `send_ib_mesg` adds. -/
theorem length_sendIbMesg (pf : Platform) (env : EncEnv) (s : Encryptor X) (m : List Byte) :
    (sendIbMesg pf (sendMsg env s).2 m).1.length = m.length + s.blockLength := by
  by_cases hs : s.encState = .code
  · rw [sendIbMesg_code pf env hs, Encryptor.blockLength, if_pos hs, Nat.add_zero]
  · obtain ⟨block, hblock, heq⟩ := sendIbMesg_block pf env hs m
    rw [heq, List.length_append, Encryptor.inside, length_overwritten, hblock,
      Encryptor.blockLength, if_neg hs, Nat.add_comm]

/-- A call has made of the memory `b` what `encryptBuf` says, and has stored nothing further
from the frame of `n` bytes, or from `enc_buf`, than this. -/
structure Wrote (blocksize n : ℕ) (b : Buffers) (r : (Encryptor X × ℕ) × Buffers)
    (t : Encryptor X × Span) : Prop where
  state : r.1.1 = t.1
  len : r.1.2 = t.2.len
  mem : r.2.encBuf.get 0 r.1.2 = t.2.mem
  frame : Cells.StoresIn (-(blocksize * 2 : ℕ)) (n + blocksize) b.frame r.2.frame
  encBuf : Cells.StoresIn 0 r.1.2 b.encBuf r.2.encBuf

/-- **Where `encrypt_buf` writes**, for a frame of `n` bytes: two blocks in front of it, one
behind it, and the text at the start of `enc_buf`. -/
theorem encryptBufAt_spec (pf : Platform) (env : EncEnv) {s : Encryptor X}
    (hX : KeepsBlocks (X.blkEnc s.cipher.algo s.key) s.blocksize) {n : ℕ} (hn : 0 < n)
    (b : Buffers) {f : Span} (hf : f.frame = b.frame.get 0 n) :
    Wrote s.blocksize n b (encryptBufAt pf env s n b) (encryptBuf pf env s f) := by
  have hbs : 8 ≤ s.blocksize := s.cipher.le_blocksize
  have hne : f.frame ≠ [] := by
    intro h0
    have hzero := congrArg List.length (hf.symm.trans h0)
    rw [Cells.length_get, List.length_nil] at hzero
    omega
  rw [encryptBuf_plaintext pf env s hne, Encryptor.plaintext, encryptBufAt]
  obtain ⟨hmsg, hend, hstate⟩ := sendMsgAt_spec hX env b.frame
  rcases h₁ : sendMsgAt env s b.frame with ⟨⟨start, msgLen⟩, mem₁, s₁⟩
  rw [h₁] at hmsg hend hstate
  dsimp only at hmsg hend hstate ⊢
  subst hstate
  -- the frame is where it was
  have hframe : mem₁.get 0 n = f.frame := by
    rw [hf, hmsg.stores.get_eq (Or.inr le_rfl)]
  obtain ⟨hib, hend', hstate'⟩ := sendIbMesgAt_spec pf (sendMsg env s).2 n mem₁
  rw [hend, ← hframe]
  rcases h₂ : sendIbMesgAt pf (sendMsg env s).2 0 n mem₁ with ⟨⟨inPtr, len⟩, mem₂, s₂⟩
  rw [h₂] at hib hend' hstate'
  dsimp only at hib hend' hstate' ⊢
  have hsize : s₂.blocksize = s.blocksize := by rw [hstate', blocksize_sent]
  have hmsgLen : msgLen = _ := hmsg.len
  have hplainLen : len = _ := hib.len
  have hlen : 0 < len := by
    rw [hplainLen, length_sendIbMesg, Cells.length_get]
    omega
  rw [blocksize_sendMsg] at hib
  obtain ⟨hpad, hpadded⟩ := padAt_spec env (by omega : 0 < s₂.blocksize) hib.text
  rw [if_neg (by omega), hpad, ← hplainLen, ← hstate']
  set plain := (sendIbMesg pf (sendMsg env s).2 (mem₁.get 0 n)).1 ++
    padding env s₂.blocksize len with hplain
  set text := (s₂.encUpdate env plain).1 with htext
  constructor
  · rfl
  · dsimp only
    rw [List.length_append, ← hmsgLen, Nat.add_comm]
  · -- the text follows the message
    have hself := Cells.get_put_self b.encBuf 0 (sendMsg env s).1
    rw [← hmsgLen] at hself
    have happend := Cells.get_put_append (q := msgLen) (t := text) hself (by omega)
    dsimp only
    rw [hmsg.text, Nat.add_comm]
    exact happend
  · have hfirst : Cells.StoresIn (-(s.blocksize * 2 : ℕ)) (n + s.blocksize) b.frame mem₁ :=
      hmsg.stores.mono le_rfl (by omega)
    have hsecond : Cells.StoresIn (-(s.blocksize * 2 : ℕ)) (n + s.blocksize) mem₁ mem₂ :=
      hib.stores.mono (by omega) (by omega)
    rw [hend', hsize] at hpadded
    dsimp only
    rw [hsize]
    exact (hfirst.trans hsecond).trans (hpadded.mono (by omega) le_rfl)
  · have hmsglen : (mem₁.get start msgLen).length = msgLen := Cells.length_get _ _ _
    change Cells.StoresIn 0 ((text.length + msgLen : ℕ) : ℤ) _ _
    refine ((Cells.StoresIn.refl _ _ _).put ?_ ?_).put ?_ ?_ <;> omega

end Vtun
