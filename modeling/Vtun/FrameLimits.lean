/-
Encrypted frames on the network (`linkfd.c`, `generic/tcp_proto.c`, `generic/udp_proto.c`).

A device frame has at most `VTUN_FRAME_SIZE` bytes, and the drivers allow for
`VTUN_FRAME_OVERHEAD` more.  Without a compressor the encryptors add less than that, so the
header has no flags and the other end takes the frame, unless a signal comes between
the two bytes of the header.

* `tcpRead_badFrame_iff` — when `tcp_read` takes a frame of an admissible size for a bad one;
* `encrypted_down` — what the modules make of a device frame;
* `encrypted_frames_fit_iff` — buffers, header and the other end.
-/
import Vtun.CodecStack
import Vtun.CutFrame
import Vtun.EncryptLength
import Vtun.UdpProto

namespace Vtun

open Blocks

/-! ### Headers cut in two -/

/-- No read returns more than it was asked for. -/
theorem readN_ret_le (fd : Input) (len : ℕ) : (readN fd len).1.ret ≤ len := by
  by_cases hopen : fd.canceled = false
  · rw [readN_open hopen]
    rcases readLoop_cases fd.sched fd.data len [] with
      ⟨p, sched', -, hp, -, heq⟩ | ⟨-, ⟨sched', -, -, heq⟩ | ⟨hret, -⟩⟩
    · rw [heq]
      simp only [List.length_nil, Nat.zero_add, Nat.cast_le]
      omega
    · rw [heq]
      simp
    · omega
  · rw [readN_canceled (by simpa using hopen)]
    exact Int.natCast_nonneg len

/-- A signal comes between the two bytes of a header, and the first with the byte that was
there makes an oversized frame. -/
structure HeaderCut (stale : Byte) (fd : Input) : Prop where
  opened : fd.canceled = false
  struck : struck fd.sched fd.data.length 2 = some 1
  oversized : frameSize + frameOverhead < frameLen (ntohs (fd.data.take 1 ++ [stale]))

theorem take_front {α : Type} {l a t : List α} {k : ℕ} (h : l <+: a ++ t) (hk : k ≤ l.length)
    (hka : k ≤ a.length) : l.take k = a.take k := by
  obtain ⟨rest, hrest⟩ := h
  have htake : (l ++ rest).take k = l.take k := List.take_append_of_le_length hk
  rw [← htake, hrest, List.take_append_of_le_length hka]

/-- A header without flags makes a bad frame exactly if it is oversized. -/
theorem tcpRead_unflagged {fd fd₁ : Input} {stale : Byte} {bytes : List Byte} {ret : ℤ} {len : ℕ}
    (heq : readN fd 2 = (⟨ret, bytes⟩, fd₁)) (hret : 0 < ret)
    (hlen : ntohs (bytes ++ [stale]) = len) (hsmall : len < 4096) (buf : List Byte) :
    (tcpRead stale fd buf).1 = badFrame ↔ frameSize + frameOverhead < frameLen len := by
  have hflags : frameFlags len = 0 := by
    rw [frameFlags_eq (by omega), Nat.div_eq_of_lt hsmall, Nat.zero_mul]
  rw [tcpRead_header heq hret hlen buf]
  by_cases hover : frameLen len > frameSize + frameOverhead
  · rw [if_pos hover]
    exact ⟨fun _ => hover, fun _ => rfl⟩
  · rw [if_neg hover, if_neg (not_not.mpr hflags)]
    -- the value is the number of bytes read of the body
    have hle := readN_ret_le fd₁ (frameLen len)
    have hbad : (badFrame : ℤ) = 32768 := rfl
    simp only [frameSize, frameOverhead] at hover
    refine ⟨fun h => ?_, fun h => absurd h hover⟩
    dsimp only at h
    omega

/-- **When a frame of an admissible size is taken for a bad one.** -/
theorem tcpRead_badFrame_iff {fd : Input} {len : ℕ} (hlen : len ≤ frameSize + frameOverhead)
    {t : List Byte} (hd : fd.data <+: htons len ++ t) (stale : Byte) (buf : List Byte) :
    (tcpRead stale fd buf).1 = badFrame ↔ HeaderCut stale fd := by
  have hsmall : len ≤ 2148 := hlen
  have hbad : (badFrame : ℤ) = 32768 := rfl
  -- a value that is not positive is not `VTUN_BAD_FRAME`
  have hfail : (readN fd 2).1.ret ≤ 0 → (tcpRead stale fd buf).1 ≠ badFrame := by
    intro hret
    rw [tcpRead, if_pos hret]
    dsimp only
    omega
  by_cases hopen : fd.canceled = false
  swap
  · have hret : (readN fd 2).1.ret ≤ 0 := by
      rw [readN_canceled (by simpa using hopen)]
    exact ⟨fun h => absurd h (hfail hret), fun h => absurd h.opened hopen⟩
  have hread := readN_open hopen 2
  rcases readLoop_cases fd.sched fd.data 2 [] with
    ⟨p, sched', hs, hp, hle, heq⟩ | ⟨hs, ⟨sched', -, hle, heq⟩ | ⟨hret, -⟩⟩
  · rw [heq] at hread
    rcases p with _ | _ | p
    · -- no byte of the header has been read
      have hret : (readN fd 2).1.ret ≤ 0 := by
        rw [hread]
        exact le_rfl
      exact ⟨fun h => absurd h (hfail hret), fun h => absurd (h.struck.symm.trans hs) (by simp)⟩
    · have hfirst : fd.data.take 1 = [UInt8.ofNat (len / 256)] :=
        take_front hd hle (by simp [htons])
      have hcut : ntohs (fd.data.take 1 ++ [stale]) < 4096 := by
        have hstale := stale.toNat_lt
        rw [hfirst, ntohs]
        simp
        omega
      rw [tcpRead_unflagged hread (by decide) rfl hcut buf]
      exact ⟨fun h => ⟨hopen, hs, h⟩, fun h => h.oversized⟩
    · omega
  · -- the whole header
    have hheader : fd.data.take 2 = htons len := take_front hd hle le_rfl
    have hlen' : ntohs (([] : List Byte) ++ fd.data.take 2 ++ [stale]) = len := by
      rw [List.nil_append, hheader, ntohs_htons (by omega)]
    have hmod : frameLen len = len := by rw [frameLen_eq, Nat.mod_eq_of_lt (by omega)]
    rw [heq] at hread
    rw [tcpRead_unflagged hread (by decide) hlen' (by omega) buf, hmod]
    exact ⟨fun h => absurd h (Nat.not_lt.mpr hlen),
      fun h => absurd (h.struck.symm.trans hs) (by simp)⟩
  · rw [← hread] at hret
    exact ⟨fun h => absurd h (hfail hret), fun h => absurd (h.struck.symm.trans hs) (by simp)⟩

/-! ### Device frames -/

section Stack

variable {X : OpenSsl} {pf : Platform} {host : VtunHost} {now : EncEnv → TimeVal}

/-- The modules of a session without a compressor: the encryptor is in a state that some calls
lead to, the old one has its key, and the library keeps the lengths it has to. -/
structure Uncompressed (pf : Platform) (X : OpenSsl) (host : VtunHost)
    (st : ∀ mod, ModuleState X mod) : Prop where
  zlib : hasFlag host.flags Flag.zlib = false
  lzo : hasFlag host.flags Flag.lzo = false
  lengths : LengthsKept X (Cipher.ofNumber host.cipher)
    (prepKey X (Cipher.ofNumber host.cipher).keysize host.passwd)
  legacyLengths : KeepsBlocks (X.blkEnc .bf (allocLegacyEncrypt X host)) 8
  encrypt : ∃ seq buf packet es,
    Run.exec (cryptStep pf) (allocEncrypt X host seq buf packet) es = some (st .encrypt)
  legacy : st .legacyEncrypt = allocLegacyEncrypt X host

theorem Uncompressed.sized {st : ∀ mod, ModuleState X mod} (h : Uncompressed pf X host st) :
    Sized (Cipher.ofNumber host.cipher)
      (prepKey X (Cipher.ofNumber host.cipher).keysize host.passwd) (st .encrypt) := by
  obtain ⟨seq, buf, packet, es, hrun⟩ := h.encrypt
  exact sized_exec h.lengths hrun

/-- What the modules make of a frame. -/
def madeOf (pf : Platform) (X : OpenSsl) (host : VtunHost) (now : EncEnv → TimeVal)
    (st : ∀ mod, ModuleState X mod) (e : EncEnv) (f : Span) : Span :=
  (lfdRunDown e (stack (daemonMods pf X now) (selected host)) ⟨st, []⟩ f).2

theorem stack_append {ι ε : Type} [DecidableEq ι] {τ : ι → Type} (m : ∀ i, Mod ε (τ i))
    (l l' : List ι) : stack m (l ++ l') = stack m l ++ stack m l' := List.map_append

/-- The shaper passes frames on. -/
theorem shaper_down (shape : Bool) (e : EncEnv) (s : Stack (ModuleState X)) (f : Span) :
    (lfdRunDown e (stack (daemonMods pf X now) (if shape then [.shaper] else [])) s f).2 = f := by
  cases shape with
  | false => rfl
  | true =>
    by_cases hlen : f.len ≤ 0
    · rw [lfdRunDown_of_le e _ s hlen]
    · have hone := run_one_down (daemonMods pf X now) (i := Module.shaper) (s := s) (e := e)
        (f := f) (by omega)
      exact congrArg Prod.snd hone

/-- The length of what the modules make of a device frame of `n` bytes. -/
def madeLength (host : VtunHost) (st : ∀ mod, ModuleState X mod) (n : ℕ) : ℕ :=
  if hasFlag host.flags Flag.encrypt = true then
    if host.cipher = legacyEncrypt then 8 * (n / 8 + 1)
    else Encryptor.packetLength (st .encrypt) n
  else n

theorem madeLength_le (host : VtunHost) (st : ∀ mod, ModuleState X mod) (n : ℕ) :
    n ≤ madeLength host st n ∧ madeLength host st n ≤ n + 64 := by
  have hpacket := Encryptor.packetLength_le (st .encrypt) n
  have hbs : (st .encrypt).blocksize ≤ 16 := (st .encrypt).cipher.algo.blocksize_le
  rw [madeLength]
  split
  · split
    · omega
    · omega
  · omega

/-- **What the modules make of a device frame.** -/
theorem encrypted_down {st : ∀ mod, ModuleState X mod} (h : Uncompressed pf X host st)
    (now : EncEnv → TimeVal) (e : EncEnv) {f : Span} {m : List Byte} (hf : f.Holds m)
    (hm : m ≠ []) :
    let out := madeOf pf X host now st e f
    out.len = madeLength host st m.length ∧ madeLength host st m.length ≤ out.mem.length := by
  have hlen : 0 < m.length := List.length_pos_iff.mpr hm
  have hpos : 0 < f.len := hf.pos hm
  rw [madeOf, selected, h.zlib, h.lzo, madeLength]
  simp only [Bool.false_eq_true, if_false, List.nil_append]
  rw [stack_append, lfdRunDown_append, shaper_down]
  by_cases henc : hasFlag host.flags Flag.encrypt = true
  · rw [if_pos henc, if_pos henc]
    by_cases hold : host.cipher = legacyEncrypt
    · rw [if_pos hold, if_pos hold, run_one_down _ hpos]
      have hkept := h.legacyLengths
      rw [← h.legacy] at hkept
      obtain ⟨hlen', hmem⟩ := legacyEncryptBuf_sized hkept f
      rw [hf.2] at hlen' hmem
      exact ⟨hlen', Nat.le_of_eq hmem.symm⟩
    · rw [if_neg hold, if_neg hold, run_one_down _ hpos]
      obtain ⟨hlen', hmem⟩ := h.sized.encryptBuf h.lengths pf e (by rw [hf.2]; exact hm)
      rw [hf.2] at hlen' hmem
      exact ⟨hlen', Nat.le_of_eq hmem.symm⟩
  · rw [if_neg henc, if_neg henc]
    have htake := congrArg List.length hf.2
    rw [Span.frame, hf.1, Int.toNat_natCast, List.length_take] at htake
    change f.len = _ ∧ _ ≤ f.mem.length
    exact ⟨hf.1, by omega⟩

/-! ### The limits -/

/-- What `encrypt_buf` returns for a frame of `n` bytes, and where it stores. -/
structure WithinBuffers (pf : Platform) (env : EncEnv) (s : Encryptor X) (n : ℕ) (b : Buffers) :
    Prop where
  length : (encryptBufAt pf env s n b).1.2 =
    s.headerLength + s.blocksize * ((n + s.blockLength) / s.blocksize + 1)
  growth : (encryptBufAt pf env s n b).1.2 ≤ n + 4 * s.blocksize
  frame : Cells.StoresIn (-linkfdFrameReserv) (n + linkfdFrameAppend) b.frame
    (encryptBufAt pf env s n b).2.frame
  encBuf : n ≤ frameSize →
    Cells.StoresIn 0 encBufSize b.encBuf (encryptBufAt pf env s n b).2.encBuf

/-- **`encrypt_buf` stays within its buffers.** -/
theorem Sized.withinBuffers {c : Cipher} {key : List Byte} {s : Encryptor X}
    (h : Sized c key s) (hX : LengthsKept X c key) (env : EncEnv) {n : ℕ} (hn : 0 < n)
    (b : Buffers) : WithinBuffers pf env s n b := by
  have hblocks : KeepsBlocks (X.blkEnc s.cipher.algo s.key) s.blocksize := by
    rw [h.blocksize, h.cipher, h.key]
    exact hX.blocks
  have hsize : (b.frame.get 0 n).length = n := Cells.length_get _ _ _
  set f : Span := ⟨n, b.frame.get 0 n⟩ with hf
  have hframe : f.frame = b.frame.get 0 n := by
    rw [hf, Span.frame, Int.toNat_natCast]
    exact List.take_of_length_le (Nat.le_of_eq hsize)
  have hne : f.frame ≠ [] := by
    intro h0
    rw [hframe] at h0
    rw [h0, List.length_nil] at hsize
    omega
  obtain ⟨hlen, -⟩ := h.encryptBuf hX pf env hne
  have hwrote := encryptBufAt_spec pf env hblocks hn b hframe
  rw [hframe, hsize, ← hwrote.len] at hlen
  have hlen' : (encryptBufAt pf env s n b).1.2 = s.packetLength n := by exact_mod_cast hlen
  obtain ⟨-, hle⟩ := s.packetLength_le n
  have hbs : s.blocksize ≤ 16 := s.cipher.algo.blocksize_le
  constructor
  · rw [hlen', Encryptor.packetLength]
  · rwa [hlen']
  · refine hwrote.frame.mono ?_ ?_
    · rw [linkfdFrameReserv]
      omega
    · rw [linkfdFrameAppend]
      omega
  · intro hn'
    refine hwrote.encBuf.mono le_rfl ?_
    rw [encBufSize]
    omega

/-- What `tcp_write` and `udp_write` hand to `write` for a span. -/
def Span.wire (out : Span) : List Byte :=
  htons out.len.toNat ++ out.mem.take (frameLen out.len.toNat)

/-- The stream at the other end, from this frame on: what `tcp_write` has put there and, if that
is all of it, what comes behind.  It may end anywhere. -/
def Follows (w : Output) (out : Span) (fd : Input) : Prop :=
  ∃ sent rest, (tcpWrite w out.mem out.len.toNat).2.sent = w.sent ++ sent ∧
    (rest ≠ [] → sent = out.wire) ∧ fd.data <+: sent ++ rest

/-- Encrypted frames stay within the limits: of the buffers for every frame, and for the device
frame in `f` of the drivers at both ends, where `fd` is the stream at the other. -/
structure FitsLimits (pf : Platform) (X : OpenSsl) (host : VtunHost) (now : EncEnv → TimeVal)
    (st : ∀ mod, ModuleState X mod) (e : EncEnv) (f : Span) (stale : Byte) (fd : Input)
    (buf : List Byte) : Prop where
  buffers : ∀ env n b, 0 < n → WithinBuffers (X := X) pf env (st .encrypt) n b
  header : frameFlags (ntohs (madeOf pf X host now st e f).wire) = 0
  tcp : (tcpRead stale fd buf).1 ≠ badFrame
  udp : ∀ connected (w : UdpOutput) dgram,
    (udpWrite connected w (madeOf pf X host now st e f).mem
      (madeOf pf X host now st e f).len.toNat).2.sent = w.sent ++ [dgram] →
    ∀ (rfd : UdpInput) queue r, rfd.queue = dgram :: queue → udpRead rfd buf = some r →
      r.1 ≠ badFrame

/-- The other end finds the header and the body, as far as the stream goes. -/
theorem Follows.data {w : Output} {out : Span} {fd : Input} (h : Follows w out fd) :
    ∃ tail, fd.data <+: out.wire ++ tail := by
  obtain ⟨sent, rest, hsent, hwhole, hdata⟩ := h
  by_cases hrest : rest = []
  · -- nothing comes behind: the bytes of this call, or the start of them
    have hfront : sent <+: out.wire := by
      rw [tcpWrite, writeN] at hsent
      split at hsent
      · have hnil : sent = [] := List.self_eq_append_right.mp hsent
        rw [hnil]
        exact List.nil_prefix
      · obtain ⟨front, hfront, heq⟩ := writeLoop_front w.sched w.sent out.wire 0
        have hsame : w.sent ++ front = w.sent ++ sent := heq.symm.trans hsent
        rwa [List.append_cancel_left hsame] at hfront
    rw [hrest, List.append_nil] at hdata
    refine ⟨[], ?_⟩
    rw [List.append_nil]
    exact hdata.trans hfront
  · rw [hwhole hrest] at hdata
    exact ⟨rest, hdata⟩

/-- **Encrypted frames stay within the limits**, and the other end takes them, exactly if no
signal cuts their header in two there. -/
theorem encrypted_frames_fit_iff {st : ∀ mod, ModuleState X mod}
    (h : Uncompressed pf X host st) (now : EncEnv → TimeVal) (e : EncEnv) {f : Span}
    {m : List Byte} (hf : f.Holds m) (hpos : 1 ≤ m.length) (hle : m.length ≤ frameSize)
    {w : Output} {fd : Input} (hfd : Follows w (madeOf pf X host now st e f) fd) (stale : Byte)
    (buf : List Byte) :
    FitsLimits pf X host now st e f stale fd buf ↔ ¬ HeaderCut stale fd := by
  have hm : m ≠ [] := List.length_pos_iff.mp hpos
  obtain ⟨hlen, hmem⟩ := encrypted_down h now e hf hm
  obtain ⟨-, hgrown⟩ := madeLength_le host st m.length
  rw [frameSize] at hle
  set n := madeLength host st m.length with hn
  set out := madeOf pf X host now st e f with hout
  have hfits : n ≤ frameSize + frameOverhead := by
    rw [frameSize, frameOverhead]
    omega
  have hnat : out.len.toNat = n := by rw [hlen, Int.toNat_natCast]
  have hflen : frameLen n = n := by rw [frameLen_eq, Nat.mod_eq_of_lt (by omega)]
  have hwire : out.wire = htons n ++ out.mem.take n := by rw [Span.wire, hnat, hflen]
  have hbody : (out.mem.take n).length = n := by
    rw [List.length_take]
    exact Nat.min_eq_left hmem
  obtain ⟨tail, htail⟩ := hfd.data
  rw [hwire, List.append_assoc] at htail
  have hread := tcpRead_badFrame_iff hfits htail stale buf
  constructor
  · intro hfit hcut
    exact hfit.tcp (hread.mpr hcut)
  · intro hcut
    constructor
    · intro env n b hn
      exact h.sized.withinBuffers h.lengths env hn b
    · rw [hwire, ntohs_htons (by omega), frameFlags_eq (by omega), Nat.div_eq_of_lt (by omega),
        Nat.zero_mul]
    · exact fun hbad => hcut (hread.mp hbad)
    · intro connected w dgram hsent rfd queue r hqueue hr
      have hdgram : dgram = out.wire := by
        rcases udpWrite_sent connected w out.mem out.len.toNat with heq | heq
        · rw [heq] at hsent
          exact absurd (List.self_eq_append_right.mp hsent) (by simp)
        · rw [heq] at hsent
          exact (List.singleton_inj.mp (List.append_cancel_left hsent)).symm
      rw [hdgram, hwire] at hqueue
      have hbad : (badFrame : ℤ) = 32768 := rfl
      rcases udpRead_wire hfits hbody hqueue hr with hret | ⟨hret, -⟩
      · omega
      · omega

end Stack

/-- `VTUN_FRAME_SIZE` bytes. -/
def fullBody : List Byte := List.replicate frameSize 0

theorem length_fullBody : fullBody.length = frameSize := List.length_replicate

/-- A frame of them. -/
def fullFrame : Span := ⟨fullBody.length, fullBody⟩

theorem fullFrame_holds : fullFrame.Holds fullBody := ⟨rfl, Span.frame_all _⟩

theorem fullBody_pos : 1 ≤ fullBody.length := by
  rw [length_fullBody, frameSize]
  omega

/-- What the modules make of it as the first frame of a session with AES. -/
def fullPacket : Span :=
  madeOf .lp64 shiftSsl shapedAes (fun env => ⟨env.time₁, 0⟩) shapedStart calmEnv fullFrame

theorem shapedStart_uncompressed : Uncompressed .lp64 shiftSsl shapedAes shapedStart :=
  ⟨by decide, by decide, (chainedCipher_shiftSsl _ _).lengthsKept,
    (blockCipher_shiftSsl _ _).encLen, ⟨0, [], false, [], rfl⟩, rfl⟩

/-- A stream with all that was written. -/
theorem follows_written (out : Span) (sched : List IoEvent) :
    Follows ⟨[], [], false⟩ out ⟨out.wire, sched, false⟩ := by
  have hquiet : Output.Quiet ⟨[], [], false⟩ := ⟨rfl, quiet_nil⟩
  obtain ⟨fd', -, hsent, heq⟩ := writeN_eq hquiet out.wire
  refine ⟨out.wire, [], ?_, fun h => absurd rfl h, List.prefix_append _ _⟩
  have hwrite : tcpWrite ⟨[], [], false⟩ out.mem out.len.toNat = _ := heq
  rw [hwrite]
  exact hsent

theorem encrypted_frames_fit_full :
    FitsLimits .lp64 shiftSsl shapedAes (fun env => ⟨env.time₁, 0⟩) shapedStart calmEnv fullFrame
      255 ⟨fullPacket.wire, [.again], false⟩ [] := by
  refine (encrypted_frames_fit_iff shapedStart_uncompressed _ calmEnv fullFrame_holds fullBody_pos
    (Nat.le_of_eq length_fullBody) (follows_written fullPacket [.again]) 255 []).mpr ?_
  -- the header is read whole
  exact fun hcut => absurd hcut.struck (by simp [struck])

theorem fullPacket_wire :
    fullPacket.wire = htons 2112 ++ fullPacket.mem.take (frameLen 2112) := by
  obtain ⟨hlen, -⟩ := encrypted_down shapedStart_uncompressed (fun env => ⟨env.time₁, 0⟩) calmEnv
    fullFrame_holds (List.length_pos_iff.mp fullBody_pos)
  have hnat : fullPacket.len.toNat = 2112 := by
    rw [fullPacket, hlen, length_fullBody, Int.toNat_natCast]
    decide
  rw [Span.wire, hnat]

/-- A signal between the two bytes of its header, and 0x0840 becomes 0x08ff. -/
theorem encrypted_frame_refused :
    ¬ ∀ (pf : Platform) (X : OpenSsl) (host : VtunHost) (st : ∀ mod, ModuleState X mod)
        (now : EncEnv → TimeVal) (e : EncEnv) (f : Span) (m : List Byte) (w : Output) (fd : Input)
        (stale : Byte) (buf : List Byte),
      Uncompressed pf X host st → f.Holds m → 1 ≤ m.length → m.length ≤ frameSize →
      Follows w (madeOf pf X host now st e f) fd →
      FitsLimits pf X host now st e f stale fd buf := by
  intro hall
  have hfit := hall .lp64 shiftSsl shapedAes shapedStart (fun env => ⟨env.time₁, 0⟩) calmEnv
    fullFrame fullBody ⟨[], [], false⟩ ⟨fullPacket.wire, [.chunk 0, .cancel], false⟩
    255 [] shapedStart_uncompressed fullFrame_holds fullBody_pos (Nat.le_of_eq length_fullBody)
    (follows_written fullPacket _)
  have hcut : HeaderCut 255 ⟨fullPacket.wire, [.chunk 0, .cancel], false⟩ := by
    rw [fullPacket_wire]
    exact ⟨rfl, by simp [struck, htons], by decide⟩
  refine hfit.tcp ((tcpRead_badFrame_iff (by decide : 2112 ≤ frameSize + frameOverhead)
    (t := fullPacket.mem.take (frameLen 2112)) ?_ 255 []).mpr hcut)
  dsimp only
  rw [fullPacket_wire]

end Vtun
