/-
Frames cut short by a signal (`linkfd.c`, `lib.h`, `generic/tcp_proto.c`).

A signal makes `read_n` return the bytes it has so far, and `tcp_read` takes their
number for the length of the frame.  `NoCut` says where the signal must not come.

* `tcpRead_whole` — one frame off the stream, cut short or not;
* `plain_read_iff` — for an unflagged frame the condition is exact;
* `frames_whole` — over whole runs, only bodies of frames reach the modules.
-/
import Vtun.Signals

namespace Vtun

/-! ### One read -/

/-- What the linker hands to the modules of a frame with the header `len`. -/
def handedOf (buf : List Byte) (len : ℕ) : Option (List Byte) :=
  if frameFlags len = badFrame ∨ frameFlags len = echoReq ∨ frameFlags len = echoRep ∨
      frameFlags len = connClose then none
  else some (buf.take (frameLen len))

/-- What the linker hands to the modules after a `proto_read`. -/
def handedRead (r : ℤ × List Byte × Input) : Option (List Byte) :=
  if r.1 ≤ 0 then none else handedOf r.2.1 r.1.toNat

/-- The header of a frame that is not too long, with several flags at once. -/
def Several (len : ℕ) : Prop :=
  frameFlags len ≠ 0 ∧ frameLen len ≤ frameSize + frameOverhead ∧
    ¬ (frameFlags len = badFrame ∨ frameFlags len = echoReq ∨ frameFlags len = echoRep ∨
      frameFlags len = connClose)

/-- No signal strikes inside the body of an unflagged frame when some of it has been
read; nor between the bytes of a header whose first byte may be taken for one
with several flags. -/
structure NoCut (fd : Input) : Prop where
  header : struck fd.sched fd.data.length 2 = some 1 →
    ∀ stale, ¬ Several (ntohs (fd.data.take 1 ++ [stale]))
  body : struck fd.sched fd.data.length 2 = none → frameFlags (ntohs fd.data) = 0 →
    frameLen (ntohs fd.data) ≤ frameSize + frameOverhead →
    ∀ p, struck (readN fd 2).2.sched (readN fd 2).2.data.length (frameLen (ntohs fd.data)) =
      some p → p = 0

/-- After a signal nothing more is read. -/
theorem readN_canceled {fd : Input} (h : fd.canceled = true) (len : ℕ) :
    readN fd len = (⟨0, []⟩, fd) := by
  rw [readN, if_pos h]

theorem readN_open {fd : Input} (h : fd.canceled = false) (len : ℕ) :
    readN fd len = readLoop fd.sched fd.data len [] := by
  rw [readN, if_neg (by rw [h]; simp)]

theorem dropFrame_canceled {fd : Input} (h : fd.canceled = true) (buf : List Byte) (flen : ℕ) :
    (dropFrame fd buf flen).2 = fd := by
  rw [dropFrame]
  split
  · rfl
  · rw [readN_canceled h]
    rfl

theorem tcpRead_canceled {fd : Input} (h : fd.canceled = true) (stale : Byte) (buf : List Byte) :
    tcpRead stale fd buf = (0, buf, fd) := by
  rw [tcpRead, readN_canceled h]
  rfl

/-- Dropping a body leaves the stream behind it, as far as it goes, unless a signal
has come. -/
theorem dropFrame_rest {fd : Input} (hopen : fd.canceled = false) (hfail : NoFail fd.sched)
    {flen m : ℕ} {body rest : List Byte} (hbody : body.length = flen)
    (hd : fd.data = (body ++ rest).take m) (buf : List Byte) :
    (dropFrame fd buf flen).2.canceled = true ∨
      NoFail (dropFrame fd buf flen).2.sched ∧
        ∃ k, (dropFrame fd buf flen).2.data = rest.take k := by
  induction flen using Nat.strong_induction_on generalizing fd body m buf with
  | _ flen ih =>
    rw [dropFrame]
    by_cases h0 : flen = 0
    · rw [if_pos h0]
      have hnil : body = [] := List.length_eq_zero_iff.mp (by omega)
      exact Or.inr ⟨hfail, m, by rw [hd, hnil, List.nil_append]⟩
    rw [if_neg h0, readN_open hopen]
    dsimp only
    have hstep : 0 < min flen frameSize := by simp only [frameSize]; omega
    rcases readLoop_end hfail fd.data (min flen frameSize) [] with
      ⟨p, sched', hs, hp, hle, heq⟩ | ⟨sched', hs, hle, hf, heq⟩ | ⟨sched', bytes, hs, hlt, hf, heq⟩
    · -- a signal: the next read returns 0
      left
      rw [heq]
      split
      · rfl
      · rw [dropFrame_canceled rfl]
    · rw [heq]
      dsimp only
      rw [dif_neg (by simp only [List.length_nil, not_le]; omega)]
      have hm : min flen frameSize ≤ m := by
        rw [hd, List.length_take] at hle
        omega
      have hret : ((([] : List Byte).length + min flen frameSize : ℕ) : ℤ).toNat =
          min flen frameSize := by
        rw [List.length_nil, Nat.zero_add, Int.toNat_natCast]
      have hleft : fd.data.drop (min flen frameSize) =
          (body.drop (min flen frameSize) ++ rest).take (m - min flen frameSize) := by
        rw [hd, List.drop_take, List.drop_append_of_le_length (by omega)]
      have hlen : (body.drop (min flen frameSize)).length = flen - min flen frameSize := by
        rw [List.length_drop, hbody]
      rw [hret]
      exact ih _ (by omega) rfl hf hlen hleft _
    · -- the stream is over
      right
      rw [heq, dif_pos le_rfl]
      exact ⟨hf, 0, by rw [List.take_zero]⟩

/-- Where the stream stands behind a frame: at the next one. -/
def Rest (fs : List Frame) (fd : Input) : Prop :=
  NoFail fd.sched ∧ Benign fs ∧ ∃ m, fd.data = (wires fs).take m

/-- What a `tcp_read` of the frame `f` may come to: the modules get its body or
nothing, and afterwards the stream stands at the next frame, unless a signal has
come or the loop is left. -/
structure ReadWhole (f : Frame) (fs : List Frame) (r : ℤ × List Byte × Input) : Prop where
  handed : ∀ up, handedRead r = some up → frameFlags f.hdr = 0 ∧ up = f.body
  rest : r.2.2.canceled = true ∨ r.1 ≤ 0 ∨ frameFlags r.1.toNat = connClose ∨ Rest fs r.2.2

theorem ReadWhole.of_ret {f : Frame} {fs : List Frame} {r : ℤ × List Byte × Input} (h : r.1 ≤ 0) :
    ReadWhole f fs r :=
  ⟨fun up hup => by rw [handedRead, if_pos h] at hup; exact absurd hup (by simp),
    Or.inr (Or.inl h)⟩

theorem handedRead_badFrame (buf : List Byte) (fd : Input) :
    handedRead ((badFrame : ℤ), buf, fd) = none := by
  have hpos : ¬ (badFrame : ℤ) ≤ 0 := by decide
  have hfl : frameFlags badFrame = badFrame := by decide
  rw [handedRead, if_neg hpos, Int.toNat_natCast, handedOf, if_pos (Or.inl hfl)]

/-- `tcp_read` behind its first read, with the header `len`. -/
theorem tcpRead_header {fd fd₁ : Input} {stale : Byte} {bytes : List Byte} {ret : ℤ} {len : ℕ}
    (heq : readN fd 2 = (⟨ret, bytes⟩, fd₁)) (hret : 0 < ret)
    (hlen : ntohs (bytes ++ [stale]) = len) (buf : List Byte) :
    tcpRead stale fd buf =
      if frameLen len > frameSize + frameOverhead then
        ((badFrame : ℤ), (dropFrame fd₁ buf (frameLen len)).1, (dropFrame fd₁ buf (frameLen len)).2)
      else if frameFlags len ≠ 0 then ((len : ℤ), buf, fd₁)
      else
        ((readN fd₁ (frameLen len)).1.ret, store buf (readN fd₁ (frameLen len)).1.bytes,
          (readN fd₁ (frameLen len)).2) := by
  subst hlen
  rw [tcpRead, heq]
  dsimp only
  rw [if_neg (by omega)]

/-- A header cut short by a signal. -/
theorem tcpRead_cutHeader {fd fd₁ : Input} {stale : Byte} {hdr : List Byte} {len : ℕ}
    (heq : readN fd 2 = (⟨1, hdr⟩, fd₁)) (hcancel : fd₁.canceled = true)
    (hlen : ntohs (hdr ++ [stale]) = len) (hsev : ¬ Several len) (buf : List Byte) :
    handedRead (tcpRead stale fd buf) = none ∧ (tcpRead stale fd buf).2.2.canceled = true := by
  rw [tcpRead_header heq (by decide) hlen buf]
  by_cases hover : frameLen len > frameSize + frameOverhead
  · rw [if_pos hover, dropFrame_canceled hcancel]
    exact ⟨handedRead_badFrame _ _, hcancel⟩
  rw [if_neg hover]
  by_cases hfl : frameFlags len = 0
  · -- an unflagged frame: nothing of its body is read
    rw [if_neg (not_not.mpr hfl), readN_canceled hcancel]
    exact ⟨rfl, hcancel⟩
  · rw [if_pos hfl]
    have hknown : frameFlags len = badFrame ∨ frameFlags len = echoReq ∨
        frameFlags len = echoRep ∨ frameFlags len = connClose := by
      by_contra hunknown
      exact hsev ⟨hfl, Nat.not_lt.mp hover, hunknown⟩
    refine ⟨?_, hcancel⟩
    rw [handedRead]
    split
    · rfl
    · rw [Int.toNat_natCast, handedOf, if_pos hknown]

/-- The header of a frame, where the stream goes on at least so far. -/
theorem header_of_wire {f : Frame} {rest : List Byte} {fd : Input} {m : ℕ}
    (hd : fd.data = (f.wire ++ rest).take m) (hlen : 2 ≤ fd.data.length) :
    fd.data.take 2 = htons f.hdr ∧ fd.data.drop 2 = (f.body ++ rest).take (m - 2) ∧
      ntohs fd.data = f.hdr := by
  have hm : 2 ≤ m := by
    rw [hd, List.length_take] at hlen
    omega
  have hsplit : fd.data = htons f.hdr ++ (f.body ++ rest).take (m - 2) := by
    rw [hd, Frame.wire, List.append_assoc, List.take_append]
    have htake : (htons f.hdr).take m = htons f.hdr := List.take_of_length_le hm
    rw [htake]
    rfl
  refine ⟨?_, ?_, ?_⟩
  · rw [hsplit]
    rfl
  · rw [hsplit]
    rfl
  · rw [hsplit, ntohs_htons f.hdr_lt]

/-- A frame with one of the known flags is not handed to the modules. -/
theorem handedRead_known {len : ℕ} {buf : List Byte} {fd : Input}
    (h : frameFlags len = badFrame ∨ frameFlags len = echoReq ∨ frameFlags len = echoRep ∨
      frameFlags len = connClose) (up : List Byte) :
    handedRead ((len : ℤ), buf, fd) ≠ some up := by
  rw [handedRead]
  split
  · simp
  · rw [Int.toNat_natCast, handedOf, if_pos h]
    simp

/-- The second read of an unflagged frame. -/
theorem plain_whole {f : Frame} {fs : List Frame} (hfl : frameFlags f.hdr = 0)
    (hb : f.body = [] ∨ Benign fs) {sched : List IoEvent} {m : ℕ} (hf : NoFail sched)
    (hcut : ∀ p, struck sched ((f.body ++ wires fs).take m).length f.body.length = some p → p = 0)
    {buf : List Byte} :
    let r := readN ⟨(f.body ++ wires fs).take m, sched, false⟩ f.body.length
    ReadWhole f fs (r.1.ret, store buf r.1.bytes, r.2) := by
  dsimp only
  rw [readN_open rfl]
  dsimp only
  rcases readLoop_end hf ((f.body ++ wires fs).take m) f.body.length [] with
    ⟨p, sched', hs, hp, hle, heq⟩ | ⟨sched', hs, hle, hf', heq⟩ | ⟨sched', bytes, hs, hlt, hf', heq⟩
  · -- a signal before the first byte
    obtain rfl := hcut p hs
    rw [heq]
    exact ReadWhole.of_ret le_rfl
  · rw [heq]
    by_cases hnil : f.body = []
    · rw [hnil]
      exact ReadWhole.of_ret le_rfl
    have hm : f.body.length ≤ m := by
      rw [List.length_take] at hle
      omega
    have hbytes : ((f.body ++ wires fs).take m).take f.body.length = f.body := by
      rw [List.take_take, min_eq_left hm, List.take_left]
    have hrest : ((f.body ++ wires fs).take m).drop f.body.length =
        (wires fs).take (m - f.body.length) := by
      rw [List.drop_take, List.drop_left]
    rw [List.nil_append, hbytes, hrest, List.length_nil, Nat.zero_add]
    refine ⟨fun up hup => ⟨hfl, ?_⟩,
      Or.inr (Or.inr (Or.inr ⟨hf', hb.resolve_left hnil, _, rfl⟩))⟩
    have hhdr := hdr_eq_of_flags hfl
    rw [handedRead] at hup
    split at hup
    · exact absurd hup (by simp)
    · rw [Int.toNat_natCast, ← hhdr, handedOf, hfl, if_neg (by decide), ← f.body_length,
        take_store] at hup
      exact (Option.some.inj hup).symm
  · rw [heq]
    exact ReadWhole.of_ret le_rfl

/-- **One frame of a benign stream**, cut short or not: the modules get its body
whole, or nothing. -/
theorem tcpRead_whole {f : Frame} {fs : List Frame} (hb : Benign (f :: fs)) {fd : Input} {m : ℕ}
    (hopen : fd.canceled = false) (hfail : NoFail fd.sched)
    (hd : fd.data = (wires (f :: fs)).take m) (hcut : NoCut fd) (stale : Byte) (buf : List Byte) :
    ReadWhole f fs (tcpRead stale fd buf) := by
  rw [wires_cons] at hd
  have hread₁ := readN_open hopen 2
  rcases readLoop_end hfail fd.data 2 [] with
    ⟨p, sched', hs, hp, hle, heq⟩ | ⟨sched', hs, hle, hf, heq⟩ | ⟨sched', bytes, hs, hlt, hf, heq⟩
  · -- a signal in the header
    rw [heq] at hread₁
    rcases Nat.eq_zero_or_pos p with rfl | hpos
    · refine ReadWhole.of_ret ?_
      rw [tcpRead, hread₁]
      exact le_rfl
    · obtain rfl : p = 1 := by omega
      obtain ⟨hnone, hcancel⟩ := tcpRead_cutHeader hread₁ rfl rfl (hcut.header hs stale) buf
      exact ⟨fun up hup => by rw [hnone] at hup; exact absurd hup (by simp), Or.inl hcancel⟩
  · -- the whole header
    obtain ⟨htake, hdrop, hhdr⟩ := header_of_wire hd hle
    rw [heq, htake, hdrop] at hread₁
    rw [tcpRead_header hread₁ (by decide) (ntohs_htons f.hdr_lt [stale]) buf]
    rw [Benign] at hb
    by_cases hover : f.Oversize
    · rw [if_pos hover] at hb
      rw [if_pos (show frameLen f.hdr > frameSize + frameOverhead from hover)]
      refine ⟨fun up hup => absurd ((handedRead_badFrame _ _).symm.trans hup) (by simp), ?_⟩
      have hopen₁ : (⟨(f.body ++ wires fs).take (m - 2), sched', false⟩ : Input).canceled = false :=
        rfl
      rcases dropFrame_rest hopen₁ hf f.body_length rfl buf with hcancel | ⟨hf', k, hk⟩
      · exact Or.inl hcancel
      · exact Or.inr (Or.inr (Or.inr ⟨hf', hb, k, hk⟩))
    rw [if_neg hover] at hb
    rw [if_neg (show ¬ frameLen f.hdr > frameSize + frameOverhead from hover)]
    by_cases hfl : frameFlags f.hdr = 0
    · have hbody := hcut.body hs (by rw [hhdr]; exact hfl) (by rw [hhdr]; exact Nat.not_lt.mp hover)
      rw [hhdr, hread₁, ← f.body_length] at hbody
      rw [if_pos hfl] at hb
      rw [if_neg (not_not.mpr hfl), ← f.body_length]
      exact plain_whole hfl hb hf hbody
    · rw [if_neg hfl] at hb
      rw [if_pos hfl]
      by_cases hclose : frameFlags f.hdr = connClose
      · exact ⟨fun up hup => absurd hup (handedRead_known (by simp [hclose]) up),
          Or.inr (Or.inr (Or.inl hclose))⟩
      · rw [if_neg hclose] at hb
        obtain ⟨hknown, hnil, hfs⟩ := hb
        refine ⟨fun up hup => absurd hup (handedRead_known (by tauto) up), ?_⟩
        exact Or.inr (Or.inr (Or.inr ⟨hf, hfs, m - 2, by rw [hnil, List.nil_append]⟩))
  · -- the stream is over in the header
    refine ReadWhole.of_ret ?_
    rw [heq] at hread₁
    rw [tcpRead, hread₁]
    exact le_rfl

/-- The size of an unflagged frame that is not too long, and what is less, has no flags. -/
theorem frameFlags_small {len : ℕ} (h : len < 4096) : frameFlags len = 0 := by
  rw [frameFlags_eq (by omega)]
  omega

/-- The first byte of the header of an unflagged frame is that of a number below 4096. -/
theorem header_not_several {f : Frame} {fs : List Frame} (hfl : frameFlags f.hdr = 0)
    {fd : Input} {m : ℕ} (hd : fd.data = (wires (f :: fs)).take m)
    (hs : struck fd.sched fd.data.length 2 = some 1) (stale : Byte) :
    ¬ Several (ntohs (fd.data.take 1 ++ [stale])) := by
  intro hsev
  refine hsev.1 (frameFlags_small ?_)
  have hlt : f.hdr < 4096 := by
    have := frameFlags_eq f.hdr_lt
    omega
  obtain ⟨k, rfl⟩ : ∃ k, m = k + 1 := by
    have hpos := (struck_le hs).2
    rw [hd, List.length_take] at hpos
    exact ⟨m - 1, by omega⟩
  have hhead : fd.data.take 1 = [UInt8.ofNat (f.hdr / 256)] := by
    rw [hd]
    rfl
  rw [hhead]
  have hstale := stale.toNat_lt
  simp only [ntohs, List.singleton_append, List.getD_cons_zero, List.getD_cons_succ,
    UInt8.toNat_ofNat']
  omega

/-- A body in which a signal comes behind `p` bytes is handed on as these. -/
theorem handedRead_cut {f : Frame} (hover : ¬ f.Oversize) (hfl : frameFlags f.hdr = 0)
    {fd : Input} {sched' : List IoEvent} {rest : List Byte}
    (hread : readN fd 2 = (⟨2, htons f.hdr⟩, ⟨rest, sched', false⟩)) {p : ℕ} (hp0 : p ≠ 0)
    (hp : struck sched' rest.length f.body.length = some p) :
    handedRead (tcpRead 0 fd []) = some (rest.take p) ∧ (rest.take p).length = p := by
  have htcp := tcpRead_header hread (by decide) (ntohs_htons f.hdr_lt [0]) []
  rw [if_neg (show ¬ frameLen f.hdr > frameSize + frameOverhead from hover),
    if_neg (not_not.mpr hfl), ← f.body_length, readN_open rfl] at htcp
  have hlt : p < f.body.length := (struck_le hp).1
  have hle : p ≤ rest.length := (struck_le hp).2
  obtain ⟨sched'', hgot⟩ := readLoop_struck hp []
  dsimp only at htcp
  rw [hgot] at htcp
  have hmax : f.body.length ≤ frameSize + frameOverhead := by
    rw [f.body_length]
    exact Nat.not_lt.mp hover
  have hsmall : p < 4096 := by
    simp only [frameSize, frameOverhead] at hmax
    omega
  have hlen : (rest.take p).length = p := by
    rw [List.length_take]
    omega
  have hfrom := take_store [] (rest.take p)
  rw [hlen] at hfrom
  refine ⟨?_, hlen⟩
  rw [htcp, List.nil_append, List.length_nil, Nat.zero_add, handedRead,
    if_neg (by simp only [not_le]; omega), Int.toNat_natCast, handedOf,
    frameFlags_small hsmall, if_neg (by decide), frameLen_eq, Nat.mod_eq_of_lt hsmall, hfrom]

/-- For an unflagged frame the condition is exact. -/
theorem plain_read_iff {f : Frame} {fs : List Frame} (hb : Benign (f :: fs)) (hover : ¬ f.Oversize)
    (hfl : frameFlags f.hdr = 0) {fd : Input} {m : ℕ} (hopen : fd.canceled = false)
    (hfail : NoFail fd.sched) (hd : fd.data = (wires (f :: fs)).take m) :
    (∀ stale buf up, handedRead (tcpRead stale fd buf) = some up → up = f.body) ↔ NoCut fd := by
  refine ⟨fun h => ⟨header_not_several hfl hd, ?_⟩, fun hcut stale buf up hup =>
    ((tcpRead_whole hb hopen hfail hd hcut stale buf).handed up hup).2⟩
  intro hs _ _ p hp
  by_contra hp0
  have hread₁ := readN_open hopen 2
  rcases readLoop_end hfail fd.data 2 [] with
    ⟨p', _, hs', _, _, _⟩ | ⟨sched', -, hle, hf, heq⟩ | ⟨sched', bytes, -, hlt, hf, heq⟩
  · rw [hs] at hs'
    exact absurd hs' (by simp)
  · rw [wires_cons] at hd
    obtain ⟨htake, hdrop, hhdr⟩ := header_of_wire hd hle
    rw [heq, htake, hdrop] at hread₁
    rw [hread₁, hhdr, ← f.body_length] at hp
    -- the bytes before the signal are handed on, and they are fewer
    obtain ⟨hhand, hlen⟩ := handedRead_cut hover hfl hread₁ hp0 hp
    have hbody := congrArg List.length (h 0 [] _ hhand)
    have hlt := (struck_le hp).1
    omega
  · rw [heq] at hread₁
    rw [hread₁] at hp
    exact hp0 (Nat.le_zero.mp (struck_le hp).2)

/-! ### The linker -/

section Linker

variable {ε σ ν : Type} (S : Session ε σ) (P : Ports ε ν)

theorem deliverUp_nets (s : Linker σ ν) (len : ℕ) :
    nets (deliverUp S P s len).1.trace = nets s.trace ++ [some (s.buf.take len)] := by
  unfold deliverUp
  dsimp only
  repeat' split
  all_goals simp

/-- What is handed to the modules is what `handedOf` says. -/
theorem handleFlags_nets (s : Linker σ ν) (len : ℕ) :
    nets (handleFlags S P s len).1.trace = nets s.trace ++ [handedOf s.buf len] := by
  rw [handedOf]
  unfold handleFlags putProto
  dsimp only
  by_cases hbad : frameFlags len = badFrame
  · rw [if_pos hbad, if_pos (Or.inl hbad)]
    simp
  by_cases hreq : frameFlags len = echoReq
  · rw [if_neg hbad, if_pos hreq, if_pos (Or.inr (Or.inl hreq))]
    split
    all_goals simp
  by_cases hrep : frameFlags len = echoRep
  · rw [if_neg hbad, if_neg hreq, if_pos hrep, if_pos (Or.inr (Or.inr (Or.inl hrep)))]
    simp
  by_cases hclose : frameFlags len = connClose
  · rw [if_neg hbad, if_neg hreq, if_neg hrep, if_pos hclose,
      if_pos (Or.inr (Or.inr (Or.inr hclose)))]
    simp
  · rw [if_neg hbad, if_neg hreq, if_neg hrep, if_neg hclose,
      if_neg (by simp only [not_or]; exact ⟨hbad, hreq, hrep, hclose⟩)]
    exact deliverUp_nets S P s _

/-- A close leaves the loop. -/
theorem handleFlags_stop {s : Linker σ ν} {len : ℕ} (hfl : frameFlags len = connClose) :
    (handleFlags S P s len).2 = .stop := by
  unfold handleFlags
  rw [hfl, if_neg (by decide), if_neg (by decide), if_neg (by decide), if_pos rfl]

/-- The world in which the network part calls `proto_read`, if it does. -/
def netReads (s : Linker σ ν) : Option ν :=
  let e := P.modEnv s.io
  if (lfdCheckUp e.1 S.mods.reverse s.mods 1).2 = 0 then none else some e.2

/-- The same for a whole turn of the loop. -/
def readsAt (s : Linker σ ν) : Option ν :=
  let r := P.select s.io
  match r.1 with
  | .ready true _ =>
    let q := seqFlow (keepAlive S P { s with io := r.2 }) (sendPacket S P)
    if q.2 = .fall then netReads S P q.1 else none
  | _ => none

/-- The linker behind a `proto_read`. -/
def behindRead (s : Linker σ ν) (r : ℤ × List Byte × ν) (mods : σ) : Linker σ ν :=
  { s with idle := 0, kaNeedVerify := false, buf := r.2.1, io := r.2.2, mods := mods }

/-- The network part reads nothing, or one frame. -/
theorem netFrame_read (ready : Bool) (s : Linker σ ν) :
    (netFrame S P ready s).2 = .fall ∧ (netFrame S P ready s).1.trace = s.trace ∧
        ((netFrame S P ready s).1.io = s.io ∨
          (netFrame S P ready s).1.io = (P.modEnv s.io).2) ∨
      ready = true ∧ ∃ w mods, netReads S P s = some w ∧ w = (P.modEnv s.io).2 ∧
        netFrame S P ready s =
          let r := P.protoRead w s.buf
          let s' := behindRead s r mods
          if r.1 ≤ 0 then ({ s' with trace := s'.trace ++ [.net none] }, .stop)
          else handleFlags S P s' r.1.toNat := by
  rw [netFrame]
  split
  · rename_i hready
    dsimp only
    split
    · exact Or.inl ⟨rfl, rfl, Or.inr rfl⟩
    · rename_i hup
      refine Or.inr ⟨hready, (P.modEnv s.io).2, _, ?_, rfl, rfl⟩
      rw [netReads, if_neg hup]
  · exact Or.inl ⟨rfl, rfl, Or.inl rfl⟩

end Linker

section Tcp

variable {ε σ δ : Type} {S : Session ε σ} {P : Ports ε δ} {stale : δ → Byte} {which : δ → Sig}

theorem afterIo_canceled (w : TcpWorld δ) (c : Bool) :
    (w.afterIo which c).canceled = (c || w.canceled) := by
  rw [TcpWorld.afterIo]
  by_cases h : (c && !w.canceled) = true
  · rw [if_pos h]
    rw [Bool.and_eq_true] at h
    rw [h.1]
    rfl
  · rw [if_neg h]
    rcases c
    · rfl
    · simpa using h

theorem afterIo_net (w : TcpWorld δ) (c : Bool) : (w.afterIo which c).net = w.net := by
  rw [TcpWorld.afterIo]
  split
  · rfl
  · rfl

/-- Between two reads the stream stays where it is, and a signal that has come has
come. -/
theorem tcpLink_spares (fd : Input) (c : Bool) : (tcpLink stale which P).Spares fun w =>
    w.net = fd ∧ (c = true → w.canceled = true) := by
  have hafter : ∀ (w : TcpWorld δ) (d : δ), w.net = fd ∧ (c = true → w.canceled = true) →
      (w.after P d).net = fd ∧ (c = true → (w.after P d).canceled = true) := by
    intro w d hw
    rw [TcpWorld.after]
    split
    · exact hw
    · exact ⟨hw.1, fun _ => rfl⟩
  exact
    { select := fun w hw => hafter w _ hw
      protoWrite := fun w buf len hw => by
        refine ⟨(afterIo_net _ _).trans hw.1, fun hc => ?_⟩
        refine (afterIo_canceled _ _).trans ?_
        show (_ || w.canceled) = true
        rw [hw.2 hc, Bool.or_true]
      devRead := fun w hw => hafter w _ hw
      devWrite := fun w out hw => hafter w _ hw
      modEnv := fun w hw => hafter w _ hw
      alarm := fun w hw => hafter w _ hw }

/-- The linker has handed on bodies of frames only, and it stands at the next frame
or has been told to stop. -/
structure Track (fs : List Frame) (r : Linker σ (TcpWorld δ) × Flow) : Prop where
  handed : ∀ (i : ℕ) (up : List Byte), (nets r.1.trace)[i]? = some (some up) →
    ∃ f, fs[i]? = some f ∧ frameFlags f.hdr = 0 ∧ up = f.body
  stands : r.2 ≠ .stop → r.1.io.canceled = true ∨
    Rest (fs.drop (nets r.1.trace).length) r.1.io.net

/-- What the link spares stays on track. -/
theorem Track.spared {fs : List Frame} {s : Linker σ (TcpWorld δ)}
    {r : Linker σ (TcpWorld δ) × Flow} (h : Track fs (s, .fall))
    (hio : r.1.io.net = s.io.net ∧ (s.io.canceled = true → r.1.io.canceled = true))
    (htr : nets r.1.trace = nets s.trace) : Track fs r := by
  refine ⟨by rw [htr]; exact h.handed, fun _ => ?_⟩
  rw [htr, hio.1]
  exact (h.stands (by simp)).imp_left hio.2

/-- At the end of the stream nothing is read. -/
theorem tcpRead_nil {fd : Input} (hopen : fd.canceled = false) (hfail : NoFail fd.sched)
    (hd : fd.data = []) (stale : Byte) (buf : List Byte) : (tcpRead stale fd buf).1 = 0 := by
  have hread := readN_open hopen 2
  rw [hd] at hread
  rcases readLoop_end hfail [] 2 [] with
    ⟨p, sched', hs, hp, hle, heq⟩ | ⟨sched', hs, hle, hf, heq⟩ | ⟨sched', bytes, hs, hlt, hf, heq⟩
  · obtain rfl : p = 0 := Nat.le_zero.mp hle
    rw [heq] at hread
    rw [tcpRead, hread]
    rfl
  · exact absurd hle (by decide)
  · rw [heq] at hread
    rw [tcpRead, hread]
    rfl

/-- The read that a linker on track makes. -/
theorem Track.read {fs : List Frame} {s : Linker σ (TcpWorld δ)} (h : Track fs (s, .fall))
    {w : TcpWorld δ} (hnet : w.net = s.io.net) (hmono : s.io.canceled = true → w.canceled = true)
    (hcut : w.canceled = false → NoCut w.input) (stale : Byte)
    (buf : List Byte) :
    let r := tcpRead stale w.input buf
    (∀ up, handedRead r = some up →
      ∃ f, fs[(nets s.trace).length]? = some f ∧ frameFlags f.hdr = 0 ∧ up = f.body) ∧
    (r.2.2.canceled = true ∨ r.1 ≤ 0 ∨ frameFlags r.1.toNat = connClose ∨
      Rest (fs.drop ((nets s.trace).length + 1)) r.2.2) := by
  dsimp only
  have hnothing : ∀ r : ℤ × List Byte × Input, r.1 ≤ 0 → ∀ up, handedRead r = some up →
      ∃ f, fs[(nets s.trace).length]? = some f ∧ frameFlags f.hdr = 0 ∧ up = f.body := by
    intro r hr up hup
    rw [handedRead, if_pos hr] at hup
    exact absurd hup (by simp)
  by_cases hc : w.canceled = true
  · rw [tcpRead_canceled hc]
    exact ⟨hnothing _ le_rfl, Or.inl hc⟩
  have hc : w.canceled = false := by simpa using hc
  obtain ⟨hfail, hb, m, hd⟩ := (h.stands (by simp)).resolve_left fun hs => by
    rw [hmono hs] at hc
    exact absurd hc (by simp)
  dsimp only at hfail hb hd
  rw [← hnet] at hfail hd
  rcases hfs : fs.drop (nets s.trace).length with _ | ⟨f, fs'⟩
  · rw [hfs] at hd
    have hopen : w.input.canceled = false := hc
    have hret := tcpRead_nil hopen hfail (hd.trans List.take_nil) stale buf
    exact ⟨hnothing _ (le_of_eq hret), Or.inr (Or.inl (le_of_eq hret))⟩
  · rw [hfs] at hb hd
    have hget : fs[(nets s.trace).length]? = some f := by
      rw [← List.head?_drop, hfs]
      rfl
    have hdrop : fs.drop ((nets s.trace).length + 1) = fs' := by
      rw [← List.drop_drop, hfs]
      rfl
    have hopen : w.input.canceled = false := hc
    have hwhole := tcpRead_whole hb hopen hfail hd (hcut hc) stale buf
    rw [hdrop]
    exact ⟨fun up hup => ⟨f, hget, hwhole.handed up hup⟩, hwhole.rest⟩

theorem Track.netFrame {fs : List Frame} {s : Linker σ (TcpWorld δ)} (h : Track fs (s, .fall))
    (ready : Bool) (hcut : ready = true → ∀ w, netReads S (tcpLink stale which P) s = some w →
      w.canceled = false → NoCut w.input) :
    Track fs (netFrame S (tcpLink stale which P) ready s) := by
  have henv := (tcpLink_spares s.io.net s.io.canceled).modEnv (P := tcpLink stale which P) s.io
    ⟨rfl, id⟩
  rcases netFrame_read S (tcpLink stale which P) ready s with
    ⟨-, htr, hio⟩ | ⟨hready, w, mods, hw, hmod, heq⟩
  · refine h.spared ?_ (by rw [htr])
    rcases hio with hio | hio
    · rw [hio]
      exact ⟨rfl, id⟩
    · rw [hio]
      exact henv
  · rw [← hmod] at henv
    obtain ⟨hhand, hrest⟩ := h.read henv.1 henv.2 (hcut hready w hw) (stale w.dev) s.buf
    set r := tcpRead (stale w.dev) w.input s.buf with hr
    set s' := behindRead s ((tcpLink stale which P).protoRead w s.buf) mods with hs'
    have hnet : s'.io.net = r.2.2 := afterIo_net _ _
    have hcancel : r.2.2.canceled = true → s'.io.canceled = true := fun hc => by
      refine (afterIo_canceled _ _).trans ?_
      show (r.2.2.canceled || _) = true
      rw [hc, Bool.true_or]
    have heq : Vtun.netFrame S (tcpLink stale which P) ready s =
        if r.1 ≤ 0 then ({ s' with trace := s'.trace ++ [.net none] }, .stop)
        else handleFlags S (tcpLink stale which P) s' r.1.toNat := heq
    rw [heq]
    by_cases hret : r.1 ≤ 0
    · rw [if_pos hret]
      refine ⟨fun i up hi => ?_, fun hne => absurd rfl hne⟩
      rw [nets_append] at hi
      exact handed_append h.handed (fun up hup => absurd hup (by simp)) i up hi
    rw [if_neg hret]
    have hnets := handleFlags_nets S (tcpLink stale which P) s' r.1.toNat
    have hkept := (tcpLink_spares s'.io.net s'.io.canceled).handleFlags
      (S := S) (P := tcpLink stale which P) (s := s') ⟨rfl, id⟩ r.1.toNat
    have hread : handedOf s'.buf r.1.toNat = handedRead r := by
      rw [handedRead, if_neg hret]
      rfl
    rw [hread] at hnets
    refine ⟨fun i up hi => ?_, fun hne => ?_⟩
    · rw [hnets] at hi
      exact handed_append h.handed hhand i up hi
    · rw [hnets, hkept.1, hnet, List.length_append]
      rcases hrest with hc | hle | hclose | hrest
      · exact Or.inl (hkept.2 (hcancel hc))
      · exact absurd hle hret
      · exact absurd (handleFlags_stop S _ hclose) hne
      · exact Or.inr hrest

theorem Track.seq {fs : List Frame} {r : Linker σ (TcpWorld δ) × Flow}
    {g : Linker σ (TcpWorld δ) → Linker σ (TcpWorld δ) × Flow} (h : Track fs r)
    (hg : r.2 = .fall → Track fs (r.1, .fall) → Track fs (g r.1)) : Track fs (seqFlow r g) := by
  obtain ⟨s, flow⟩ := r
  cases flow with
  | fall => exact hg rfl h
  | next => exact h
  | stop => exact h

/-- One turn of the loop. -/
theorem Track.linkerPass {fs : List Frame} {s : Linker σ (TcpWorld δ)} (h : Track fs (s, .fall))
    (hcut : ∀ w, readsAt S (tcpLink stale which P) s = some w →
      w.canceled = false → NoCut w.input) :
    Track fs (linkerPass S (tcpLink stale which P) s) := by
  rw [readsAt] at hcut
  rw [Vtun.linkerPass]
  dsimp only at hcut ⊢
  have hspares : ∀ s : Linker σ (TcpWorld δ), (tcpLink stale which P).Spares fun w =>
      w.net = s.io.net ∧ (s.io.canceled = true → w.canceled = true) := fun s =>
    tcpLink_spares _ _
  have hsel : Track fs ({ s with io := ((tcpLink stale which P).select s.io).2 }, Flow.fall) :=
    h.spared ((hspares s).select _ ⟨rfl, id⟩) rfl
  rcases hready : ((tcpLink stale which P).select s.io).1 with again | ⟨net, dev⟩
  · cases again with
    | false => exact ⟨hsel.handed, fun _ => hsel.stands (by simp)⟩
    | true => exact ⟨hsel.handed, fun _ => hsel.stands (by simp)⟩
  · rw [hready] at hcut
    dsimp only
    refine Track.seq (Track.seq (Track.seq ?_ fun _ hs => ?_) fun hfall hs => ?_) fun _ hs => ?_
    · exact hsel.spared ((hspares _).keepAlive ⟨rfl, id⟩) ((keepAlive_sends S _).nets _)
    · exact hs.spared ((hspares _).sendPacket ⟨rfl, id⟩) ((sendPacket_sends S _).nets _)
    · refine hs.netFrame net fun hnet w hw hc => ?_
      subst hnet
      exact hcut w (by dsimp only; rw [if_pos hfall]; exact hw) hc
    · exact hs.spared ((hspares _).devFrame ⟨rfl, id⟩ dev) ((devFrame_sends S _ dev).nets _)

/-- Wherever the run reads a frame, no signal cuts it short. -/
def NeverCut (S : Session ε σ) (P : Ports ε (TcpWorld δ)) (n : ℕ) (s : Linker σ (TcpWorld δ)) :
    Prop :=
  ∀ k < n, (linkerRun S P k s).2 = true → ∀ w, readsAt S P (linkerRun S P k s).1 = some w →
    w.canceled = false → NoCut w.input

/-- **A whole run.**  The induction is on the turns; the condition is asked of the
state each of them starts in. -/
theorem Track.linkerRun {fs : List Frame} {n : ℕ} {s : Linker σ (TcpWorld δ)}
    (h : Track fs (s, .fall)) (hcut : NeverCut S (tcpLink stale which P) n s) (i : ℕ)
    (up : List Byte)
    (hi : (nets (linkerRun S (tcpLink stale which P) n s).1.trace)[i]? = some (some up)) :
    ∃ f, fs[i]? = some f ∧ frameFlags f.hdr = 0 ∧ up = f.body := by
  induction n generalizing s with
  | zero => exact h.handed i up hi
  | succ n ih =>
    rw [Vtun.linkerRun] at hi
    by_cases hterm : ((tcpLink stale which P).term s.io).isSome = true
    · rw [if_pos hterm] at hi
      exact h.handed i up hi
    have hrunning : (Vtun.linkerRun S (tcpLink stale which P) 0 s).2 = true := by
      rw [Vtun.linkerRun]
      simpa using hterm
    have hpass := h.linkerPass (hcut 0 (Nat.succ_pos n) hrunning)
    rw [if_neg hterm] at hi
    dsimp only at hi
    by_cases hstop : (Vtun.linkerPass S (tcpLink stale which P) s).2 = .stop
    · rw [if_pos hstop] at hi
      exact hpass.handed i up hi
    · rw [if_neg hstop] at hi
      refine ih ⟨hpass.handed, fun _ => hpass.stands hstop⟩ (fun k hk hrun => ?_) hi
      have hnext : Vtun.linkerRun S (tcpLink stale which P) (k + 1) s =
          Vtun.linkerRun S (tcpLink stale which P) k
            (Vtun.linkerPass S (tcpLink stale which P) s).1 := by
        rw [Vtun.linkerRun, if_neg hterm]
        dsimp only
        rw [if_neg hstop]
      have hturn := hcut (k + 1) (Nat.succ_lt_succ hk)
      rw [hnext] at hturn
      exact hturn hrun

end Tcp

/-- **Only whole frames are handed on.**  One read of an unflagged frame hands on its
body or nothing if and only if no signal cuts it short; and a linker whose reads
are never cut short hands on, of the frames that the peer has sent, bodies only,
however much of them arrives. -/
theorem frames_whole {ε σ δ : Type} (S : Session ε σ) (P : Ports ε δ) (stale : δ → Byte)
    (which : δ → Sig) (sent : List Frame) (m n : ℕ) (s : Linker σ (TcpWorld δ)) :
    (∀ (f : Frame) (fs : List Frame) (fd : Input) (m : ℕ), Benign (f :: fs) → ¬ f.Oversize →
      frameFlags f.hdr = 0 → fd.canceled = false → NoFail fd.sched →
      fd.data = (wires (f :: fs)).take m →
      ((∀ stale buf up, handedRead (tcpRead stale fd buf) = some up → up = f.body) ↔ NoCut fd)) ∧
    (Benign sent → NoFail s.io.net.sched → s.io.net.data = (wires sent).take m → s.trace = [] →
      NeverCut S (tcpLink stale which P) n s → ∀ (i : ℕ) (up : List Byte),
        (nets (linkerRun S (tcpLink stale which P) n s).1.trace)[i]? = some (some up) →
        ∃ f, sent[i]? = some f ∧ frameFlags f.hdr = 0 ∧ up = f.body) := by
  refine ⟨fun f fs fd m hb hover hfl hopen hfail hd =>
    plain_read_iff hb hover hfl hopen hfail hd, ?_⟩
  intro hb hfail hd htr hcut
  refine Track.linkerRun ⟨?_, fun _ => Or.inr ?_⟩ hcut
  · simp [htr]
  · simpa [htr, Rest] using ⟨hfail, hb, m, hd⟩

/-- A frame of four bytes. -/
def fourBytes : Frame := ⟨4, [1, 2, 3, 4], by decide, by decide⟩

/-- A linker before it, with the coming reads. -/
def cutStart (sched : List IoEvent) : Linker Unit (TcpWorld Unit) :=
  ⟨[], 0, false, (), ⟨⟨wires [fourBytes], sched, false⟩, ⟨[], [], false⟩, false, none, ()⟩, []⟩

/-- The linker over TCP in a world without a device. -/
def cutLink : Ports Unit (TcpWorld Unit) := tcpLink (fun _ => 0) (fun _ => .term) idlePorts

/-- A signal that comes in front of the next header. -/
def lateStart : Linker Unit (TcpWorld Unit) := cutStart [.chunk 1, .again, .chunk 3, .cancel]

/-- It does no harm. -/
theorem frames_whole_late :
    nets (linkerRun bareSession cutLink 2 lateStart).1.trace = [some fourBytes.body, none] ∧
      ∃ f, [fourBytes][0]? = some f ∧ frameFlags f.hdr = 0 ∧ fourBytes.body = f.body := by
  have hfail : NoFail lateStart.io.net.sched := by
    simp [NoFail, lateStart, cutStart]
  refine ⟨by decide, (frames_whole bareSession idlePorts (fun _ => 0) (fun _ => .term)
    [fourBytes] 6 2 lateStart).2 (by decide) hfail rfl rfl ?_ 0 fourBytes.body (by decide)⟩
  intro k hk _ w hw _
  rcases k with _ | _ | k
  · -- the whole frame
    obtain rfl : lateStart.io = w := Option.some.inj hw
    refine ⟨fun hs => absurd hs (by decide), fun _ _ _ p hp => ?_⟩
    have hnone : struck (readN lateStart.io.input 2).2.sched
        (readN lateStart.io.input 2).2.data.length (frameLen (ntohs lateStart.io.input.data)) =
          none := by decide
    rw [hnone] at hp
    exact absurd hp (by simp)
  · -- the signal in front of the next header
    obtain rfl : (linkerRun bareSession cutLink 1 lateStart).1.io = w := Option.some.inj hw
    exact ⟨fun hs => absurd hs (by decide), fun hs => absurd hs (by decide)⟩
  · omega

/-- One in a body does: two bytes of the four are written to the device. -/
theorem frames_cut : (linkerRun bareSession cutLink 1
    (cutStart [.chunk 1, .chunk 1, .cancel])).1.trace =
      [.net (some [1, 2]), .dev ⟨2, [1, 2]⟩] ∧ fourBytes.body = [1, 2, 3, 4] := by
  decide

end Vtun
