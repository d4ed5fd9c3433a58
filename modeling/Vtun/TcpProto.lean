/-
Frames over TCP (`generic/tcp_proto.c`).

A frame is a 16-bit header in network order followed by its body; the low
twelve bits of the header are the size of the body, the high four are flags.
`tcpWrite` and `tcpRead` are the two drivers.

* `tcpRead_data`, `tcpRead_flags`, `tcpRead_oversize` — what one `tcpRead`
  takes from the stream, by the kind of header it meets;
* `tcp_round_trip` — every sequence of sends is read back as it was sent,
  under any segmentation of the writes and of the reads.
-/
import Vtun.Io
import Mathlib.Data.Nat.Bitwise
import Mathlib.Data.List.Forall2
import Mathlib.Tactic.NormNum

namespace Vtun

/-- `VTUN_FRAME_SIZE`. -/
def frameSize : ℕ := 2048

/-- `VTUN_FRAME_OVERHEAD`. -/
def frameOverhead : ℕ := 100

/-- `VTUN_FSIZE_MASK`. -/
def fsizeMask : ℕ := 0x0fff

/-- `VTUN_CONN_CLOSE`. -/
def connClose : ℕ := 0x1000

/-- `VTUN_ECHO_REQ`. -/
def echoReq : ℕ := 0x2000

/-- `VTUN_ECHO_REP`. -/
def echoRep : ℕ := 0x4000

/-- `VTUN_BAD_FRAME`. -/
def badFrame : ℕ := 0x8000

/-- `len & VTUN_FSIZE_MASK`. -/
def frameLen (len : ℕ) : ℕ := len &&& fsizeMask

/-- `len & ~VTUN_FSIZE_MASK` of a 16-bit header. -/
def frameFlags (len : ℕ) : ℕ := len &&& 0xf000

/-- The flag field holds the multiples of 4096. -/
theorem frameFlags_eq {len : ℕ} (h : len < 65536) : frameFlags len = len / 4096 * 4096 := by
  apply Nat.eq_of_testBit_eq
  intro i
  rw [frameFlags, show 0xf000 = (2 ^ 4 - 1) * 2 ^ 12 from rfl, show 4096 = 2 ^ 12 from rfl,
    Nat.testBit_and, Nat.testBit_mul_two_pow, Nat.testBit_mul_two_pow,
    Nat.testBit_two_pow_sub_one, Nat.testBit_div_two_pow]
  by_cases h12 : 12 ≤ i
  · by_cases h16 : i < 16
    · simp [h12, show i - 12 < 4 by omega]
    -- Above the sixteenth bit both sides are `0`.
    · have hpow : 65536 ≤ 2 ^ i := Nat.pow_le_pow_right (n := 2) (by omega) (by omega : 16 ≤ i)
      have hbit : len.testBit i = false := Nat.testBit_lt_two_pow (lt_of_lt_of_le h hpow)
      simp [h12, hbit]
  · simp [h12]

theorem frameLen_eq (len : ℕ) : frameLen len = len % 4096 :=
  Nat.and_two_pow_sub_one_eq_mod len 12

/-- The two bytes `htons` leaves for the low 16 bits of `len`. -/
def htons (len : ℕ) : List Byte := [UInt8.ofNat (len / 256), UInt8.ofNat len]

/-- `ntohs` of the two bytes at the head of a list. -/
def ntohs (hdr : List Byte) : ℕ := (hdr.getD 0 0).toNat * 256 + (hdr.getD 1 0).toNat

theorem ntohs_htons {len : ℕ} (h : len < 65536) (rest : List Byte) :
    ntohs (htons len ++ rest) = len := by
  simp [ntohs, htons]
  omega

/-- The bytes of a buffer after `bytes` are stored at its start. -/
def store (buf bytes : List Byte) : List Byte := bytes ++ buf.drop bytes.length

@[simp] theorem take_store (buf bytes : List Byte) :
    (store buf bytes).take bytes.length = bytes := by
  simp [store]

/-- `tcp_write`: the header and the body it announces. -/
def tcpWrite (fd : Output) (buf : List Byte) (len : ℕ) : ℤ × Output :=
  writeN fd (htons len ++ buf.take (frameLen len))

/-- The loop of `tcp_read` that drops the body of an oversized frame. -/
def dropFrame (fd : Input) (buf : List Byte) (flen : ℕ) : List Byte × Input :=
  if flen = 0 then (buf, fd)
  else
    let r := readN fd (min flen frameSize)
    if _h : r.1.ret ≤ 0 then (store buf r.1.bytes, r.2)
    else dropFrame r.2 (store buf r.1.bytes) (flen - r.1.ret.toNat)
  termination_by flen
  decreasing_by
    have hpos : 0 < r.1.ret.toNat := Int.lt_toNat.mpr (Int.not_le.mp _h)
    exact Nat.sub_lt (by omega) hpos

/-- `tcp_read`: the value returned, the buffer and the stream afterwards.
`stale` is the second byte of the local `len` before the read, which stays when
the read of the header is cut short. -/
def tcpRead (stale : Byte) (fd : Input) (buf : List Byte) : ℤ × List Byte × Input :=
  let h := readN fd 2
  if h.1.ret ≤ 0 then (h.1.ret, buf, h.2)
  else
    let len := ntohs (h.1.bytes ++ [stale])
    let flen := frameLen len
    if flen > frameSize + frameOverhead then
      let r := dropFrame h.2 buf flen
      (badFrame, r.1, r.2)
    -- a flagged frame: its body, if it has one, is not read
    else if frameFlags len ≠ 0 then (len, buf, h.2)
    else
      let r := readN h.2 flen
      (r.1.ret, store buf r.1.bytes, r.2)

/-! ### One call of `tcp_read` -/

/-- The header is read whole as soon as two bytes are there. -/
theorem readN_header {fd : Input} (hq : fd.Quiet) {len : ℕ} (hlen : len < 65536)
    {rest : List Byte} (hd : fd.data = htons len ++ rest) (stale : Byte) :
    ∃ fd' : Input, fd'.Quiet ∧ fd'.data = rest ∧ (readN fd 2).2 = fd' ∧
      (readN fd 2).1.ret = 2 ∧ ntohs ((readN fd 2).1.bytes ++ [stale]) = len := by
  obtain ⟨fd', hq', hd', heq⟩ := readN_eq hq 2 (by simp [hd, htons])
  -- Both bytes are there, so the stale one is never looked at.
  refine ⟨fd', hq', by simp [hd', hd, htons], by rw [heq], by rw [heq]; rfl, ?_⟩
  have htake : fd.data.take 2 = htons len := by simp [hd, htons]
  rw [heq, htake, ntohs_htons hlen]

/-- An unflagged frame is read with its own body. -/
theorem tcpRead_data {fd : Input} (hq : fd.Quiet) {len : ℕ}
    (hlen : len ≤ frameSize + frameOverhead) (body rest : List Byte) (hbody : body.length = len)
    (hd : fd.data = htons len ++ (body ++ rest)) (stale : Byte) (buf : List Byte) :
    ∃ fd' : Input, fd'.Quiet ∧ fd'.data = rest ∧
      tcpRead stale fd buf = ((len : ℤ), store buf body, fd') := by
  have hsmall : len < 4096 := by simp only [frameSize, frameOverhead] at hlen; omega
  obtain ⟨fd₁, hq₁, hd₁, hfd₁, hret, hhdr⟩ := readN_header hq (by omega) hd stale
  have hflen : frameLen len = len := by rw [frameLen_eq, Nat.mod_eq_of_lt hsmall]
  have hflags : frameFlags len = 0 := by
    rw [frameFlags_eq (by omega), Nat.div_eq_of_lt hsmall, Nat.zero_mul]
  obtain ⟨fd₂, hq₂, hd₂, heq⟩ := readN_eq hq₁ len (by simp [hd₁, hbody])
  refine ⟨fd₂, hq₂, by simp [hd₂, hd₁, ← hbody], ?_⟩
  have htake : fd₁.data.take len = body := by simp [hd₁, ← hbody]
  rw [htake] at heq
  simp [tcpRead, hret, hhdr, hfd₁, hflen, hflags, heq,
    show ¬ frameSize + frameOverhead < len by omega]

/-- A flagged frame of an admissible size leaves its body on the stream. -/
theorem tcpRead_flags {fd : Input} (hq : fd.Quiet) {len : ℕ} (hlen : len < 65536)
    (hsize : frameLen len ≤ frameSize + frameOverhead) (hflags : frameFlags len ≠ 0)
    {rest : List Byte} (hd : fd.data = htons len ++ rest) (stale : Byte) (buf : List Byte) :
    ∃ fd' : Input, fd'.Quiet ∧ fd'.data = rest ∧
      tcpRead stale fd buf = ((len : ℤ), buf, fd') := by
  obtain ⟨fd₁, hq₁, hd₁, hfd₁, hret, hhdr⟩ := readN_header hq hlen hd stale
  refine ⟨fd₁, hq₁, hd₁, ?_⟩
  simp [tcpRead, hret, hhdr, hfd₁, hflags,
    show ¬ frameSize + frameOverhead < frameLen len by omega]

/-- `dropFrame` takes exactly the body off the stream. -/
theorem dropFrame_eq {fd : Input} (hq : fd.Quiet) {flen : ℕ} (body rest : List Byte)
    (hbody : body.length = flen) (hd : fd.data = body ++ rest) (buf : List Byte) :
    ∃ fd' : Input, fd'.Quiet ∧ fd'.data = rest ∧ (dropFrame fd buf flen).2 = fd' := by
  -- On the bytes still to drop: each turn takes a buffer full of them, or all.
  induction flen using Nat.strong_induction_on generalizing fd body buf with
  | _ flen ih =>
    rw [dropFrame]
    by_cases h0 : flen = 0
    · have : body = [] := List.length_eq_zero_iff.mp (by omega)
      exact ⟨fd, hq, by simp [hd, this], by simp [h0]⟩
    · have hpos : 0 < min flen frameSize := by simp only [frameSize]; omega
      obtain ⟨fd₁, hq₁, hd₁, heq⟩ := readN_eq hq (min flen frameSize)
        (by simp only [hd, List.length_append]; omega)
      obtain ⟨fd', hq', hd', hfd'⟩ := ih (flen - min flen frameSize) (by omega) hq₁
        (body.drop (min flen frameSize)) (by rw [List.length_drop]; omega)
        (by rw [hd₁, hd, List.drop_append_of_le_length (by omega)])
        (store buf (fd.data.take (min flen frameSize)))
      refine ⟨fd', hq', hd', ?_⟩
      rw [if_neg h0, heq, dif_neg (by simp only [not_le]; omega)]
      exact hfd'

/-- An oversized frame is reported as `VTUN_BAD_FRAME` and taken off the
stream with its body. -/
theorem tcpRead_oversize {fd : Input} (hq : fd.Quiet) {len : ℕ} (hlen : len < 65536)
    (hsize : frameSize + frameOverhead < frameLen len) {body rest : List Byte}
    (hbody : body.length = frameLen len) (hd : fd.data = htons len ++ (body ++ rest))
    (stale : Byte) (buf : List Byte) :
    ∃ (fd' : Input) (buf' : List Byte), fd'.Quiet ∧ fd'.data = rest ∧
      tcpRead stale fd buf = ((badFrame : ℤ), buf', fd') := by
  obtain ⟨fd₁, hq₁, hd₁, hfd₁, hret, hhdr⟩ := readN_header hq hlen hd stale
  obtain ⟨fd', hq', hd', hfd'⟩ := dropFrame_eq hq₁ body rest hbody hd₁ buf
  refine ⟨fd', (dropFrame fd₁ buf (frameLen len)).1, hq', hd', ?_⟩
  simp [tcpRead, hret, hhdr, hfd₁, hfd', show frameSize + frameOverhead < frameLen len by omega]

/-- At the end of the stream `tcp_read` returns `0`. -/
theorem tcpRead_eof {fd : Input} (hq : fd.Quiet) (hd : fd.data = []) (stale : Byte)
    (buf : List Byte) : (tcpRead stale fd buf).1 = 0 := by
  have hret : (readN fd 2).1.ret = 0 := readN_short hq (by simp [hd])
  simp [tcpRead, hret]

/-! ### Sequences of sends -/

/-- The control values the linker sends. -/
inductive Ctl
  | echoReq
  | echoRep
  | connClose
  deriving DecidableEq, Repr

/-- The header of a control frame. -/
def Ctl.flag : Ctl → ℕ
  | .echoReq => Vtun.echoReq
  | .echoRep => Vtun.echoRep
  | .connClose => Vtun.connClose

/-- One `proto_write` of the linker: a data frame, or a control value sent with
whatever the buffer holds. -/
inductive Send
  | data (frame : List Byte)
  | ctl (c : Ctl) (buf : List Byte)
  deriving Repr

/-- Data frames hold between one byte and a full receive buffer. -/
def Send.Valid : Send → Prop
  | .data frame => 1 ≤ frame.length ∧ frame.length ≤ frameSize + frameOverhead
  | .ctl _ _ => True

/-- The call of `tcp_write` for a send. -/
def Send.write (fd : Output) : Send → ℤ × Output
  | .data frame => tcpWrite fd frame frame.length
  | .ctl c buf => tcpWrite fd buf c.flag

/-- The bytes a send puts on the stream. -/
def Send.wire : Send → List Byte
  | .data frame => htons frame.length ++ frame
  | .ctl c _ => htons c.flag

/-- What `tcp_read` has to return for a send: its length with the frame at the
start of the buffer, or the control value. -/
def Send.ReceivedAs : Send → ℤ × List Byte → Prop
  | .data frame, r => r.1 = frame.length ∧ r.2.take frame.length = frame
  | .ctl c _, r => r.1 = c.flag

/-- Successive `tcp_write` calls. -/
def tcpWrites (fd : Output) : List Send → List ℤ × Output
  | [] => ([], fd)
  | s :: sends =>
    let r := s.write fd
    let t := tcpWrites r.2 sends
    (r.1 :: t.1, t.2)

/-- `n` successive `tcp_read` calls into one buffer. -/
def tcpReads (stale : Byte) : ℕ → Input → List Byte → List (ℤ × List Byte) × Input
  | 0, fd, _ => ([], fd)
  | n + 1, fd, buf =>
    let r := tcpRead stale fd buf
    let t := tcpReads stale n r.2.2 r.2.1
    ((r.1, r.2.1) :: t.1, t.2)

theorem Ctl.flag_lt (c : Ctl) : c.flag < 65536 := by cases c <;> decide

theorem Ctl.frameLen_flag (c : Ctl) : frameLen c.flag = 0 := by cases c <;> decide

theorem Ctl.frameFlags_flag (c : Ctl) : frameFlags c.flag ≠ 0 := by cases c <;> decide

theorem Send.write_eq {fd : Output} (hq : fd.Quiet) {s : Send} (hs : s.Valid) :
    ∃ fd' : Output, fd'.Quiet ∧ fd'.sent = fd.sent ++ s.wire ∧
      s.write fd = ((s.wire.length : ℤ), fd') := by
  cases s with
  | data frame =>
    have hflen : frameLen frame.length = frame.length := by
      rw [frameLen_eq, Nat.mod_eq_of_lt]
      have := hs.2
      simp only [frameSize, frameOverhead] at this
      omega
    obtain ⟨fd', hq', hsent, heq⟩ := writeN_eq hq (htons frame.length ++ frame)
    refine ⟨fd', hq', hsent, ?_⟩
    rw [Send.write, tcpWrite, hflen, List.take_length]
    exact heq
  | ctl c buf =>
    obtain ⟨fd', hq', hsent, heq⟩ := writeN_eq hq (htons c.flag)
    refine ⟨fd', hq', hsent, ?_⟩
    rw [Send.write, tcpWrite, c.frameLen_flag, List.take_zero, List.append_nil]
    exact heq

/-- `tcp_read` returns the send whose bytes come next on the stream. -/
theorem Send.read_eq {fd : Input} (hq : fd.Quiet) {s : Send} (hs : s.Valid)
    {rest : List Byte} (hd : fd.data = s.wire ++ rest) (stale : Byte) (buf : List Byte) :
    ∃ (fd' : Input) (r : ℤ × List Byte), fd'.Quiet ∧ fd'.data = rest ∧ s.ReceivedAs r ∧
      tcpRead stale fd buf = (r.1, r.2, fd') := by
  cases s with
  | data frame =>
    obtain ⟨fd', hq', hd', heq⟩ := tcpRead_data hq hs.2 frame rest rfl
      (by rw [hd, Send.wire, List.append_assoc]) stale buf
    exact ⟨fd', (frame.length, store buf frame), hq', hd', ⟨rfl, take_store buf frame⟩, heq⟩
  | ctl c _ =>
    obtain ⟨fd', hq', hd', heq⟩ := tcpRead_flags hq c.flag_lt
      (by rw [c.frameLen_flag]; exact Nat.zero_le _) c.frameFlags_flag hd stale buf
    exact ⟨fd', (c.flag, buf), hq', hd', rfl, heq⟩

/-- All sends are written, one after the other. -/
theorem tcpWrites_eq {fd : Output} (hq : fd.Quiet) {sends : List Send}
    (hs : ∀ s ∈ sends, s.Valid) :
    ∃ fd' : Output, fd'.Quiet ∧ fd'.sent = fd.sent ++ (sends.map Send.wire).flatten ∧
      tcpWrites fd sends = (sends.map fun s => (s.wire.length : ℤ), fd') := by
  induction sends generalizing fd with
  | nil => exact ⟨fd, hq, by simp, rfl⟩
  | cons s sends ih =>
    obtain ⟨fd₁, hq₁, hsent₁, heq₁⟩ := Send.write_eq hq (hs s (by simp))
    obtain ⟨fd', hq', hsent', heq'⟩ := ih hq₁ fun t ht => hs t (by simp [ht])
    refine ⟨fd', hq', by simp [hsent', hsent₁], ?_⟩
    rw [tcpWrites, heq₁, heq']
    rfl

/-- The bytes of a sequence of sends are read back as these sends. -/
theorem tcpReads_eq {fd : Input} (hq : fd.Quiet) {sends : List Send}
    (hs : ∀ s ∈ sends, s.Valid) (rest : List Byte)
    (hd : fd.data = (sends.map Send.wire).flatten ++ rest) (stale : Byte) (buf : List Byte) :
    ∃ fd' : Input, fd'.Quiet ∧ fd'.data = rest ∧
      (tcpReads stale sends.length fd buf).2 = fd' ∧
      List.Forall₂ Send.ReceivedAs sends (tcpReads stale sends.length fd buf).1 := by
  induction sends generalizing fd buf with
  | nil => exact ⟨fd, hq, by simpa using hd, rfl, .nil⟩
  | cons s sends ih =>
    have hds : fd.data = s.wire ++ ((sends.map Send.wire).flatten ++ rest) := by simpa using hd
    obtain ⟨fd₁, r, hq₁, hd₁, hr, heq⟩ := Send.read_eq hq (hs s (by simp)) hds stale buf
    obtain ⟨fd', hq', hd', hfd', hall⟩ := ih hq₁ (fun t ht => hs t (by simp [ht])) hd₁ r.2
    refine ⟨fd', hq', hd', ?_, ?_⟩
    · simp only [List.length_cons, tcpReads, heq]
      exact hfd'
    · simp only [List.length_cons, tcpReads, heq]
      exact .cons hr hall

theorem Send.ReceivedAs.ne_badFrame {s : Send} (hs : s.Valid) {r : ℤ × List Byte}
    (h : s.ReceivedAs r) : r.1 ≠ badFrame := by
  cases s with
  | data frame =>
    have := hs.2
    rw [h.1]
    simp only [frameSize, frameOverhead, badFrame] at *
    omega
  | ctl c _ =>
    rw [show r.1 = c.flag from h]
    cases c <;> decide

/-- **Framing round trip.**  Sends written with `tcp_write` under any short
writes and read with `tcp_read` under any short reads come out as they went
in: one by one, in order, none reported as a bad frame and nothing after
them. -/
theorem tcp_round_trip (sends : List Send) (hs : ∀ s ∈ sends, s.Valid) (wfd : Output)
    (hw : wfd.Quiet) (hnew : wfd.sent = []) (rfd : Input) (hr : rfd.Quiet)
    (hd : rfd.data = (tcpWrites wfd sends).2.sent) (stale : Byte) (buf : List Byte) :
    List.Forall₂ Send.ReceivedAs sends (tcpReads stale sends.length rfd buf).1 ∧
      (∀ r ∈ (tcpReads stale sends.length rfd buf).1, r.1 ≠ badFrame) ∧
      (tcpReads stale sends.length rfd buf).2.data = [] := by
  obtain ⟨wfd', -, hsent, hweq⟩ := tcpWrites_eq hw hs
  rw [hweq, hsent, hnew, List.nil_append] at hd
  obtain ⟨rfd', -, hd', hrfd', hall⟩ :=
    tcpReads_eq hr hs [] (by simpa using hd) stale buf
  refine ⟨hall, ?_, by rw [hrfd', hd']⟩
  intro r hmem
  obtain ⟨i, hi, rfl⟩ := List.mem_iff_getElem.mp hmem
  have hlen : sends.length = (tcpReads stale sends.length rfd buf).1.length := hall.length_eq
  have hi' : i < sends.length := by omega
  exact (hall.get hi' hi).ne_badFrame (hs _ (List.getElem_mem hi'))

/-- Two data frames around an echo request, over single-byte reads. -/
theorem tcp_round_trip_small :
    let sends : List Send := [.data [1, 2, 3], .ctl .echoReq [7], .data [9]]
    let wfd : Output := ⟨[], [.chunk 0, .again, .chunk 2], false⟩
    let rfd : Input :=
      ⟨(tcpWrites wfd sends).2.sent, [.again, .chunk 0, .chunk 0, .chunk 1, .again], false⟩
    List.Forall₂ Send.ReceivedAs sends (tcpReads 0 3 rfd [5, 5]).1 ∧
      (∀ r ∈ (tcpReads 0 3 rfd [5, 5]).1, r.1 ≠ badFrame) ∧
      (tcpReads 0 3 rfd [5, 5]).2.data = [] :=
  tcp_round_trip [.data [1, 2, 3], .ctl .echoReq [7], .data [9]]
    (by simp [Send.Valid, frameSize, frameOverhead])
    ⟨[], [.chunk 0, .again, .chunk 2], false⟩ ⟨rfl, by decide⟩ rfl
    ⟨_, [.again, .chunk 0, .chunk 0, .chunk 1, .again], false⟩ ⟨rfl, by decide⟩ rfl 0 [5, 5]

end Vtun
