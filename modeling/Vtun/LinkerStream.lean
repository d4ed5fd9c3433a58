/-
The linker on a TCP stream (`linkfd.c` over `generic/tcp_proto.c`).

The stream is a concatenation of frames; the linker takes them off it with
`tcpRead`, one per pass.  `Aligned` says that the linker has stayed on the frame
boundaries: what it handed to `lfd_run_up` were bodies of unflagged frames, and
the bytes left on the stream begin with the next header.

* `netFrame_cases` — what one pass takes off the stream;
* `aligned_of_benign` — a benign stream keeps every linker aligned;
* `not_aligned_of_not_benign` — every other stream misleads some linker;
* `framesAligned_iff` — the two together.
-/
import Vtun.Linker

namespace Vtun

/-- A frame as it stands on the stream: any header, and as many bytes as its
size field says. -/
structure Frame where
  hdr : ℕ
  body : List Byte
  hdr_lt : hdr < 65536
  body_length : body.length = frameLen hdr

/-- The bytes of a frame. -/
def Frame.wire (f : Frame) : List Byte := htons f.hdr ++ f.body

/-- The bytes of a sequence of frames. -/
def wires (fs : List Frame) : List Byte := (fs.map Frame.wire).flatten

@[simp] theorem wires_nil : wires [] = [] := rfl

@[simp] theorem wires_cons (f : Frame) (fs : List Frame) :
    wires (f :: fs) = f.wire ++ wires fs := rfl

/-- The frame is longer than the receive buffer. -/
def Frame.Oversize (f : Frame) : Prop := frameSize + frameOverhead < frameLen f.hdr

instance (f : Frame) : Decidable f.Oversize :=
  inferInstanceAs (Decidable (frameSize + frameOverhead < frameLen f.hdr))

/-- The streams the linker reads as they are meant: up to the frame that ends
the session, a frame with flags is oversized, or it carries exactly one flag and
no body. -/
def Benign : List Frame → Prop
  | [] => True
  | f :: fs =>
    if f.Oversize then Benign fs
    else if frameFlags f.hdr = 0 then f.body = [] ∨ Benign fs
    else if frameFlags f.hdr = connClose then True
    else (frameFlags f.hdr = badFrame ∨ frameFlags f.hdr = echoReq ∨
      frameFlags f.hdr = echoRep) ∧ f.body = [] ∧ Benign fs

instance decidableBenign : ∀ fs, Decidable (Benign fs)
  | [] => inferInstanceAs (Decidable True)
  | f :: fs => by
    have := decidableBenign fs
    unfold Benign
    infer_instance

/-- A linker whose network descriptor is a TCP stream. -/
def tcpPorts {ε δ : Type} (stale : Byte) (P : Ports ε δ) : Ports ε (Input × δ) where
  select w := let r := P.select w.2; (r.1, (w.1, r.2))
  protoRead w buf := let r := tcpRead stale w.1 buf; (r.1, r.2.1, (r.2.2, w.2))
  protoWrite w buf len := let r := P.protoWrite w.2 buf len; (r.1, (w.1, r.2))
  devRead w := let r := P.devRead w.2; (r.1, (w.1, r.2))
  devWrite w out := let r := P.devWrite w.2 out; (r.1, (w.1, r.2))
  modEnv w := let r := P.modEnv w.2; (r.1, (w.1, r.2))
  alarm w := let r := P.alarm w.2; (r.1, (w.1, r.2))
  term w := P.term w.2

section Ports

variable {ε δ : Type} {stale : Byte} {P : Ports ε δ} {w : Input × δ}

@[simp] theorem tcpPorts_select : ((tcpPorts stale P).select w).2.1 = w.1 := rfl

@[simp] theorem tcpPorts_protoWrite {buf : List Byte} {len : ℕ} :
    ((tcpPorts stale P).protoWrite w buf len).2.1 = w.1 := rfl

@[simp] theorem tcpPorts_devRead : ((tcpPorts stale P).devRead w).2.1 = w.1 := rfl

@[simp] theorem tcpPorts_devWrite {out : Span} :
    ((tcpPorts stale P).devWrite w out).2.1 = w.1 := rfl

@[simp] theorem tcpPorts_modEnv : ((tcpPorts stale P).modEnv w).2.1 = w.1 := rfl

@[simp] theorem tcpPorts_alarm : ((tcpPorts stale P).alarm w).2.1 = w.1 := rfl

end Ports

/-- The frames taken from the network, each with what `lfd_run_up` got of it. -/
def nets (tr : List LinkEv) : List (Option (List Byte)) :=
  tr.filterMap fun
    | .net up => some up
    | _ => none

@[simp] theorem nets_append (tr tr' : List LinkEv) : nets (tr ++ tr') = nets tr ++ nets tr' :=
  List.filterMap_append

@[simp] theorem nets_nil : nets [] = [] := rfl

@[simp] theorem nets_net (up : Option (List Byte)) (tr : List LinkEv) :
    nets (.net up :: tr) = up :: nets tr := rfl

@[simp] theorem nets_down (frame : List Byte) (tr : List LinkEv) :
    nets (.down frame :: tr) = nets tr := rfl

@[simp] theorem nets_proto (buf : List Byte) (len : ℕ) (tr : List LinkEv) :
    nets (.proto buf len :: tr) = nets tr := rfl

@[simp] theorem nets_dev (out : Span) (tr : List LinkEv) :
    nets (.dev out :: tr) = nets tr := rfl

/-- What is sent is not read. -/
theorem OnlySends.nets {σ ν : Type} {f : Linker σ ν → Linker σ ν × Flow} (h : OnlySends f)
    (s : Linker σ ν) : nets (f s).1.trace = nets s.trace := by
  obtain ⟨out, htr, hout⟩ := h s
  have hnil : Vtun.nets out = [] := by
    refine List.filterMap_eq_nil_iff.mpr fun e he => ?_
    have hsent := hout e he
    cases e with
    | net => cases hsent
    | _ => rfl
  rw [htr, nets_append, hnil, List.append_nil]

/-- The linker has stayed on the frame boundaries of the stream `fs`. -/
structure Aligned {σ δ : Type} (fs : List Frame) (s : Linker σ (Input × δ)) (running : Bool) :
    Prop where
  /-- a frame handed to the modules is the body of the frame read, which has no flags -/
  handed : ∀ (i : ℕ) (up : List Byte), (nets s.trace)[i]? = some (some up) →
    ∃ f, fs[i]? = some f ∧ frameFlags f.hdr = 0 ∧ up = f.body
  /-- the next header is the one after the frames read so far -/
  rest : running = true → s.io.1.data = wires (fs.drop (nets s.trace).length)

/-- Every linker that reads the stream stays aligned, whatever its modules,
its device, the other end and the segmentation do. -/
def FramesAligned (fs : List Frame) : Prop :=
  ∀ (ε σ δ : Type) (S : Session ε σ) (P : Ports ε δ) (stale : Byte) (s : Linker σ (Input × δ)),
    s.io.1.Quiet → s.io.1.data = wires fs → s.trace = [] → ∀ n,
      let r := linkerRun S (tcpPorts stale P) n s
      Aligned fs r.1 r.2

section Pass

variable {ε σ δ : Type} (S : Session ε σ) (P : Ports ε δ) (stale : Byte)

/-- A part of the loop body that leaves the stream alone. -/
def KeepsNet (f : Linker σ (Input × δ) → Linker σ (Input × δ) × Flow) : Prop :=
  ∀ s, (f s).1.io.1 = s.io.1 ∧ nets (f s).1.trace = nets s.trace

/-- Only `proto_read` moves on in the stream. -/
theorem tcpPorts_spares (fd : Input) : (tcpPorts stale P).Spares fun w => w.1 = fd where
  select := fun _ h => h
  protoWrite := fun _ _ _ h => h
  devRead := fun _ h => h
  devWrite := fun _ _ h => h
  modEnv := fun _ h => h
  alarm := fun _ h => h

theorem keepAlive_keepsNet : KeepsNet (keepAlive S (tcpPorts stale P)) := fun s =>
  ⟨(tcpPorts_spares P stale s.io.1).keepAlive rfl, (keepAlive_sends S _).nets s⟩

theorem sendPacket_keepsNet : KeepsNet (sendPacket S (tcpPorts stale P)) := fun s =>
  ⟨(tcpPorts_spares P stale s.io.1).sendPacket rfl, (sendPacket_sends S _).nets s⟩

theorem devFrame_keepsNet (ready : Bool) : KeepsNet (devFrame S (tcpPorts stale P) ready) :=
  fun s => ⟨(tcpPorts_spares P stale s.io.1).devFrame rfl ready,
    (devFrame_sends S _ ready).nets s⟩

/-- The bytes to come are `data`, and no call on the stream fails. -/
def Reads (data : List Byte) (s : Linker σ (Input × δ)) : Prop :=
  s.io.1.Quiet ∧ s.io.1.data = data

/-- A pass that has taken a frame off the stream: what the modules got of it,
and where the stream stands unless the loop is left. -/
structure Took (data : List Byte) (s : Linker σ (Input × δ)) (r : Linker σ (Input × δ) × Flow)
    (up : Option (List Byte)) : Prop where
  trace : nets r.1.trace = nets s.trace ++ [up]
  rest : r.2 ≠ .stop → Reads data r.1

theorem Took.of_trace {data : List Byte} {s s' : Linker σ (Input × δ)}
    {r : Linker σ (Input × δ) × Flow} {up : Option (List Byte)} (h : Took data s' r up)
    (htr : s'.trace = s.trace) : Took data s r up :=
  ⟨by rw [h.trace, htr], h.rest⟩

theorem deliverUp_took {data : List Byte} {s : Linker σ (Input × δ)} (h : Reads data s) (len : ℕ) :
    Took data s (deliverUp S (tcpPorts stale P) s len) (some (s.buf.take len)) := by
  unfold deliverUp
  dsimp only
  repeat' split
  all_goals exact ⟨by simp, fun _ => h⟩

/-- A frame whose flags are one of the known ones is not handed to the modules. -/
theorem handleFlags_known {data : List Byte} {s : Linker σ (Input × δ)} (h : Reads data s) (len : ℕ)
    (hfl : frameFlags len = badFrame ∨ frameFlags len = echoReq ∨ frameFlags len = echoRep) :
    Took data s (handleFlags S (tcpPorts stale P) s len) none := by
  unfold handleFlags
  rcases hfl with hfl | hfl | hfl
  · rw [hfl, if_pos rfl]
    exact ⟨by simp, fun _ => h⟩
  · rw [hfl, if_neg (by decide), if_pos rfl]
    dsimp only [putProto]
    split
    · exact ⟨by simp, fun hne => absurd rfl hne⟩
    · exact ⟨by simp, fun _ => h⟩
  · rw [hfl, if_neg (by decide), if_neg (by decide), if_pos rfl]
    exact ⟨by simp, fun _ => h⟩

theorem handleFlags_close (data : List Byte) (s : Linker σ (Input × δ)) {len : ℕ}
    (hfl : frameFlags len = connClose) :
    Took data s (handleFlags S (tcpPorts stale P) s len) none ∧
      (handleFlags S (tcpPorts stale P) s len).2 = .stop := by
  unfold handleFlags
  rw [hfl, if_neg (by decide), if_neg (by decide), if_neg (by decide), if_pos rfl]
  exact ⟨⟨by simp, fun hne => absurd rfl hne⟩, rfl⟩

/-- Any other frame is handed to the modules, with as many bytes of the buffer
as its size field says. -/
theorem handleFlags_other {data : List Byte} {s : Linker σ (Input × δ)} (h : Reads data s) (len : ℕ)
    (hbad : frameFlags len ≠ badFrame) (hreq : frameFlags len ≠ echoReq)
    (hrep : frameFlags len ≠ echoRep) (hclose : frameFlags len ≠ connClose) :
    Took data s (handleFlags S (tcpPorts stale P) s len) (some (s.buf.take (frameLen len))) := by
  unfold handleFlags
  rw [if_neg hbad, if_neg hreq, if_neg hrep, if_neg hclose]
  exact deliverUp_took S P stale h _

/-- The linker after a successful `proto_read`, before the flags are looked at. -/
def afterRead (s : Linker σ (Input × δ)) (r : ℤ × List Byte × Input) (mods : σ) (d : δ) :
    Linker σ (Input × δ) :=
  { s with idle := 0, kaNeedVerify := false, buf := r.2.1, io := (r.2.2, d), mods := mods }

/-- One frame is read and dealt with; `mods` and `d` are the modules and the rest
of the world after `lfd_check_up`. -/
def takeFrame (mods : σ) (d : δ) (s : Linker σ (Input × δ)) : Linker σ (Input × δ) × Flow :=
  let r := tcpRead stale s.io.1 s.buf
  let s' := afterRead s r mods d
  if r.1 ≤ 0 then ({ s' with trace := s'.trace ++ [.net none] }, .stop)
  else handleFlags S (tcpPorts stale P) s' r.1.toNat

/-- The network part of a pass leaves the stream alone or reads one frame. -/
theorem netFrame_cases (ready : Bool) (s : Linker σ (Input × δ)) :
    (netFrame S (tcpPorts stale P) ready s).2 = .fall ∧
        (netFrame S (tcpPorts stale P) ready s).1.io.1 = s.io.1 ∧
        (netFrame S (tcpPorts stale P) ready s).1.trace = s.trace ∨
      ∃ mods d, netFrame S (tcpPorts stale P) ready s = takeFrame S P stale mods d s := by
  unfold netFrame
  split
  · dsimp only [tcpPorts]
    split
    · exact .inl ⟨rfl, rfl, rfl⟩
    · exact .inr ⟨_, _, rfl⟩
  · exact .inl ⟨rfl, rfl, rfl⟩

/-! ### One frame -/

variable (mods : σ) (d : δ) {s : Linker σ (Input × δ)} {f : Frame}
  {data : List Byte}

theorem takeFrame_pos {len : ℕ} {buf : List Byte} {fd : Input}
    (heq : tcpRead stale s.io.1 s.buf = ((len : ℤ), buf, fd)) (hpos : 0 < len) :
    takeFrame S P stale mods d s =
      handleFlags S (tcpPorts stale P) (afterRead s (len, buf, fd) mods d) len := by
  rw [takeFrame, heq]
  dsimp only
  rw [if_neg (by omega), Int.toNat_natCast]

theorem takeFrame_eof (data : List Byte) (h : Reads [] s) :
    Took data s (takeFrame S P stale mods d s) none ∧
      (takeFrame S P stale mods d s).2 = .stop := by
  have hret := tcpRead_eof h.1 h.2 stale s.buf
  simp only [takeFrame, hret]
  exact ⟨⟨by simp [afterRead], fun hne => absurd rfl hne⟩, rfl⟩

/-- Reading an oversized frame takes it off the stream as a bad frame. -/
theorem takeFrame_oversize (h : Reads (f.wire ++ data) s) (hf : f.Oversize) :
    ∃ s' : Linker σ (Input × δ), Reads data s' ∧ s'.trace = s.trace ∧
      takeFrame S P stale mods d s = handleFlags S (tcpPorts stale P) s' badFrame := by
  obtain ⟨fd', buf', hq, hd, heq⟩ := tcpRead_oversize h.1 f.hdr_lt hf f.body_length
    (by rw [h.2, Frame.wire, List.append_assoc]) stale s.buf
  exact ⟨afterRead s (badFrame, buf', fd') mods d, ⟨hq, hd⟩, rfl,
    takeFrame_pos S P stale mods d heq (by decide)⟩

/-- Reading a flagged frame of an admissible size leaves its body on the stream. -/
theorem takeFrame_flags (h : Reads (f.wire ++ data) s) (hf : ¬ f.Oversize)
    (hfl : frameFlags f.hdr ≠ 0) :
    ∃ s' : Linker σ (Input × δ), Reads (f.body ++ data) s' ∧ s'.trace = s.trace ∧
      takeFrame S P stale mods d s = handleFlags S (tcpPorts stale P) s' f.hdr := by
  obtain ⟨fd', hq, hd, heq⟩ := tcpRead_flags h.1 f.hdr_lt (Nat.not_lt.mp hf) hfl
    (by rw [h.2, Frame.wire, List.append_assoc]) stale s.buf
  refine ⟨afterRead s (f.hdr, s.buf, fd') mods d, ⟨hq, hd⟩, rfl, ?_⟩
  have hpos : f.hdr ≠ 0 := fun h0 => hfl (by rw [h0]; rfl)
  exact takeFrame_pos S P stale mods d heq (Nat.pos_of_ne_zero hpos)

theorem hdr_eq_of_flags (hfl : frameFlags f.hdr = 0) : f.hdr = f.body.length := by
  rw [frameFlags_eq f.hdr_lt] at hfl
  rw [f.body_length, frameLen_eq]
  omega

/-- Reading an unflagged frame with a body stores it in the buffer. -/
theorem takeFrame_plain (h : Reads (f.wire ++ data) s) (hf : ¬ f.Oversize)
    (hfl : frameFlags f.hdr = 0) (hbody : f.body ≠ []) :
    ∃ s' : Linker σ (Input × δ), Reads data s' ∧ s'.trace = s.trace ∧
      s'.buf.take (frameLen f.hdr) = f.body ∧
      takeFrame S P stale mods d s = handleFlags S (tcpPorts stale P) s' f.hdr := by
  have hhdr := hdr_eq_of_flags hfl
  have hlen : f.hdr ≤ frameSize + frameOverhead := by
    rw [hhdr, f.body_length]; exact Nat.not_lt.mp hf
  obtain ⟨fd', hq, hd, heq⟩ := tcpRead_data h.1 hlen f.body data hhdr.symm
    (by rw [h.2, Frame.wire, List.append_assoc]) stale s.buf
  refine ⟨afterRead s (f.hdr, store s.buf f.body, fd') mods d, ⟨hq, hd⟩, rfl, ?_, ?_⟩
  · rw [← f.body_length]
    exact take_store s.buf f.body
  · exact takeFrame_pos S P stale mods d heq (by rw [hhdr]; exact List.length_pos_iff.mpr hbody)

/-- An empty unflagged frame ends the session. -/
theorem takeFrame_empty (h : Reads (f.wire ++ data) s) (hfl : frameFlags f.hdr = 0)
    (hbody : f.body = []) :
    Took data s (takeFrame S P stale mods d s) none ∧
      (takeFrame S P stale mods d s).2 = .stop := by
  have hhdr := hdr_eq_of_flags hfl
  have hin : s.io.1.data = htons 0 ++ ([] ++ data) := by
    rw [h.2, Frame.wire, hbody, hhdr, hbody]
    rfl
  obtain ⟨fd', hq, hd, heq⟩ := tcpRead_data h.1 (Nat.zero_le _) [] data rfl hin stale s.buf
  simp only [takeFrame, heq, Nat.cast_zero]
  exact ⟨⟨by simp [afterRead], fun hne => absurd rfl hne⟩, rfl⟩

/-- **One frame of a benign stream**: it is taken whole, what the modules get
of it is its unflagged body, and a benign stream is left. -/
theorem takeFrame_benign {fs : List Frame} (hb : Benign (f :: fs))
    (h : Reads (wires (f :: fs)) s) :
    ∃ up, Took (wires fs) s (takeFrame S P stale mods d s) up ∧
      (∀ bytes, up = some bytes → frameFlags f.hdr = 0 ∧ bytes = f.body) ∧
      ((takeFrame S P stale mods d s).2 ≠ .stop → Benign fs) := by
  rw [wires_cons] at h
  rw [Benign] at hb
  -- The cases are those of `tcp_read`: too long, without flags, with flags.
  by_cases hover : f.Oversize
  · rw [if_pos hover] at hb
    obtain ⟨s', hs', htr, heq⟩ := takeFrame_oversize S P stale mods d h hover
    have htook := handleFlags_known S P stale hs' badFrame (.inl (by decide))
    exact ⟨none, by rw [heq]; exact htook.of_trace htr, by simp, fun _ => hb⟩
  rw [if_neg hover] at hb
  by_cases hfl : frameFlags f.hdr = 0
  · rw [if_pos hfl] at hb
    by_cases hbody : f.body = []
    · obtain ⟨htook, hstop⟩ := takeFrame_empty S P stale mods d h hfl hbody
      exact ⟨none, htook, by simp, fun hne => absurd hstop hne⟩
    · obtain ⟨s', hs', htr, hbuf, heq⟩ := takeFrame_plain S P stale mods d h hover hfl hbody
      have htook := handleFlags_other S P stale hs' f.hdr (by rw [hfl]; decide)
        (by rw [hfl]; decide) (by rw [hfl]; decide) (by rw [hfl]; decide)
      rw [hbuf] at htook
      refine ⟨some f.body, by rw [heq]; exact htook.of_trace htr, ?_,
        fun _ => hb.resolve_left hbody⟩
      rintro bytes ⟨⟩
      exact ⟨hfl, rfl⟩
  · rw [if_neg hfl] at hb
    obtain ⟨s', hs', htr, heq⟩ := takeFrame_flags S P stale mods d h hover hfl
    rw [heq]
    by_cases hclose : frameFlags f.hdr = connClose
    -- The loop is left, so it does not matter what the body is taken for.
    · obtain ⟨htook, hstop⟩ := handleFlags_close S P stale (wires fs) s' hclose
      exact ⟨none, htook.of_trace htr, by simp, fun hne => absurd hstop hne⟩
    · rw [if_neg hclose] at hb
      obtain ⟨hknown, hbody, hfs⟩ := hb
      -- A benign frame with a flag has no body that could be left behind.
      rw [hbody, List.nil_append] at hs'
      have htook := handleFlags_known S P stale hs' _ hknown
      exact ⟨none, htook.of_trace htr, by simp, fun _ => hfs⟩

/-! ### A benign stream -/

/-- The linker state after a part of a pass on the benign stream `fs`. -/
structure OnTrack (fs : List Frame) (r : Linker σ (Input × δ) × Flow) : Prop where
  handed : ∀ (i : ℕ) (up : List Byte), (nets r.1.trace)[i]? = some (some up) →
    ∃ f, fs[i]? = some f ∧ frameFlags f.hdr = 0 ∧ up = f.body
  reads : r.2 ≠ .stop → Reads (wires (fs.drop (nets r.1.trace).length)) r.1
  benign : r.2 ≠ .stop → Benign (fs.drop (nets r.1.trace).length)

theorem OnTrack.seq {fs : List Frame} {r : Linker σ (Input × δ) × Flow}
    {g : Linker σ (Input × δ) → Linker σ (Input × δ) × Flow} (h : OnTrack fs r)
    (hg : ∀ s, OnTrack fs (s, .fall) → OnTrack fs (g s)) : OnTrack fs (seqFlow r g) := by
  obtain ⟨s, flow⟩ := r
  cases flow with
  | fall => exact hg s h
  | next => exact h
  | stop => exact h

theorem OnTrack.of_keepsNet {fs : List Frame} {r : Linker σ (Input × δ) × Flow}
    (h : OnTrack fs (s, .fall)) (hio : r.1.io.1 = s.io.1) (htr : nets r.1.trace = nets s.trace) :
    OnTrack fs r := by
  have hreads := h.reads (by simp)
  refine ⟨by rw [htr]; exact h.handed, fun _ => ?_, fun _ => ?_⟩
  · rw [Reads, hio, htr]; exact hreads
  · rw [htr]; exact h.benign (by simp)

/-- One more entry behind those on track. -/
theorem handed_append {fs : List Frame} {tr : List (Option (List Byte))}
    (h : ∀ (i : ℕ) (up : List Byte), tr[i]? = some (some up) →
      ∃ f, fs[i]? = some f ∧ frameFlags f.hdr = 0 ∧ up = f.body) {new : Option (List Byte)}
    (hnew : ∀ up, new = some up →
      ∃ f, fs[tr.length]? = some f ∧ frameFlags f.hdr = 0 ∧ up = f.body) (i : ℕ) (up : List Byte)
    (hi : (tr ++ [new])[i]? = some (some up)) :
    ∃ f, fs[i]? = some f ∧ frameFlags f.hdr = 0 ∧ up = f.body := by
  rcases Nat.lt_or_ge i tr.length with hlt | hge
  · rw [List.getElem?_append_left hlt] at hi
    exact h i up hi
  · rw [List.getElem?_append_right hge, List.getElem?_singleton] at hi
    split_ifs at hi with h0
    obtain rfl : i = tr.length := by omega
    exact hnew up (Option.some.inj hi)

/-- The network part keeps to the frames: it reads the next one or, at the end
of the stream, stops. -/
theorem OnTrack.netFrame {fs : List Frame} (h : OnTrack fs (s, .fall)) (ready : Bool) :
    OnTrack fs (netFrame S (tcpPorts stale P) ready s) := by
  rcases netFrame_cases S P stale ready s with ⟨-, hio, htr⟩ | ⟨mods, d, heq⟩
  · exact h.of_keepsNet hio (by rw [htr])
  rw [heq]
  have hreads := h.reads (by simp)
  have hbenign := h.benign (by simp)
  set k := (nets s.trace).length with hk
  have hlen : ∀ up, (nets s.trace ++ [up]).length = k + 1 := by simp [hk]
  cases hfs : fs.drop k with
  | nil =>
    rw [hfs] at hreads
    obtain ⟨htook, hstop⟩ := takeFrame_eof S P stale mods d [] hreads
    refine ⟨?_, fun hne => absurd hstop hne, fun hne => absurd hstop hne⟩
    rw [htook.trace]
    exact handed_append h.handed fun up hup => absurd hup (by simp)
  | cons f fs' =>
    have hget : fs[k]? = some f := by
      rw [← List.head?_drop, hfs]; rfl
    have hdrop : fs.drop (k + 1) = fs' := by
      rw [← List.drop_drop, hfs]; rfl
    rw [hfs] at hreads hbenign
    obtain ⟨up, htook, hup, hrest⟩ := takeFrame_benign S P stale mods d hbenign hreads
    refine ⟨?_, fun hne => ?_, fun hne => ?_⟩
    · rw [htook.trace]
      exact handed_append h.handed fun bytes hb => ⟨f, hget, hup bytes hb⟩
    · rw [htook.trace, hlen, hdrop]; exact htook.rest hne
    · rw [htook.trace, hlen, hdrop]; exact hrest hne

theorem OnTrack.linkerPass {fs : List Frame} (h : OnTrack fs (s, .fall)) :
    OnTrack fs (linkerPass S (tcpPorts stale P) s) := by
  unfold Vtun.linkerPass
  dsimp only
  have hsel : OnTrack fs ({ s with io := ((tcpPorts stale P).select s.io).2 }, Flow.fall) :=
    h.of_keepsNet rfl rfl
  split
  · exact hsel.of_keepsNet rfl rfl
  · exact hsel.of_keepsNet rfl rfl
  · refine OnTrack.seq (OnTrack.seq (OnTrack.seq ?_ ?_) ?_) ?_
    · exact hsel.of_keepsNet (keepAlive_keepsNet S P stale _).1 (keepAlive_keepsNet S P stale _).2
    · intro s hs
      exact hs.of_keepsNet (sendPacket_keepsNet S P stale s).1 (sendPacket_keepsNet S P stale s).2
    · intro s hs
      exact hs.netFrame S P stale _
    · intro s hs
      exact hs.of_keepsNet (devFrame_keepsNet S P stale _ s).1 (devFrame_keepsNet S P stale _ s).2

theorem OnTrack.aligned {fs : List Frame} {r : Linker σ (Input × δ) × Flow} (h : OnTrack fs r)
    {running : Bool} (hrun : running = true → r.2 ≠ .stop) : Aligned fs r.1 running :=
  ⟨h.handed, fun hr => (h.reads (hrun hr)).2⟩

theorem OnTrack.linkerRun {fs : List Frame} (n : ℕ) (h : OnTrack fs (s, .fall)) :
    Aligned fs (linkerRun S (tcpPorts stale P) n s).1 (linkerRun S (tcpPorts stale P) n s).2 := by
  -- On the turns: `OnTrack` is what one turn hands to the next.
  induction n generalizing s with
  | zero => exact h.aligned (by simp)
  | succ n ih =>
    rw [Vtun.linkerRun]
    split
    · exact h.aligned (by simp)
    · dsimp only
      have hpass := h.linkerPass S P stale
      split
      · exact hpass.aligned (by simp)
      · rename_i hne
        exact ih ⟨hpass.handed, fun _ => hpass.reads hne, fun _ => hpass.benign hne⟩

end Pass

/-- **A benign stream keeps every linker aligned.** -/
theorem aligned_of_benign {fs : List Frame} (hb : Benign fs) : FramesAligned fs := by
  intro ε σ δ S P stale s hq hd htr n
  refine OnTrack.linkerRun S P stale n ⟨?_, fun _ => ?_, fun _ => ?_⟩
  · simp [htr]
  · simpa [htr] using ⟨hq, hd⟩
  · simpa [htr] using hb

/-! ### The other streams -/

/-- A world in which the network is always ready, the device never, and every
write succeeds. -/
def idlePorts : Ports Unit Unit where
  select w := (.ready true false, w)
  protoRead w buf := (0, buf, w)
  protoWrite w _ _ := (0, w)
  devRead w := (.failed true, w)
  devWrite w _ := (.done, w)
  modEnv w := ((), w)
  alarm w := (false, w)
  term _ := none

/-- A session without modules. -/
def bareSession : Session Unit Unit where
  mods := []
  kaMaxfail := 0
  sendAPacket _ := false
  packetSent := id

section Bare

variable {s : Linker Unit (Input × Unit)}

theorem bare_pass (hka : s.kaNeedVerify = false) :
    linkerPass bareSession (tcpPorts 0 idlePorts) s =
      takeFrame bareSession idlePorts 0 () () s := by
  obtain ⟨buf, idle, ka, mods, io, trace⟩ := s
  obtain rfl : ka = false := hka
  have hpass : linkerPass bareSession (tcpPorts 0 idlePorts) ⟨buf, idle, false, mods, io, trace⟩ =
      seqFlow (takeFrame bareSession idlePorts 0 () () ⟨buf, idle, false, mods, io, trace⟩)
        (devFrame bareSession (tcpPorts 0 idlePorts) false) := rfl
  rw [hpass]
  rcases takeFrame bareSession idlePorts 0 () () ⟨buf, idle, false, mods, io, trace⟩ with ⟨t, flow⟩
  cases flow <;> rfl

theorem bare_run (hka : s.kaNeedVerify = false) (n : ℕ) :
    linkerRun bareSession (tcpPorts 0 idlePorts) (n + 1) s =
      let r := takeFrame bareSession idlePorts 0 () () s
      if r.2 = .stop then (r.1, false)
      else linkerRun bareSession (tcpPorts 0 idlePorts) n r.1 := by
  rw [linkerRun, bare_pass hka]
  rfl

/-- Without failures only a close stops the linker. -/
theorem bare_handleFlags (len : ℕ) (hclose : frameFlags len ≠ connClose) :
    (handleFlags bareSession (tcpPorts 0 idlePorts) s len).2 ≠ .stop := by
  unfold handleFlags
  dsimp only
  split
  · simp
  split
  · simp [putProto, tcpPorts, idlePorts]
  split
  · simp
  · rw [deliverUp]
    simp only [bareSession, List.reverse_nil, lfdRunUp, tcpPorts, idlePorts]
    rw [if_neg (by omega)]
    split <;> simp

theorem bare_handleFlags_ka (len : ℕ) (hka : s.kaNeedVerify = false) :
    (handleFlags bareSession (tcpPorts 0 idlePorts) s len).1.kaNeedVerify = false := by
  unfold handleFlags deliverUp putProto
  dsimp only
  repeat' split
  all_goals exact hka

theorem bare_takeFrame : (takeFrame bareSession idlePorts 0 () () s).1.kaNeedVerify = false := by
  unfold takeFrame
  dsimp only
  split
  · rfl
  · exact bare_handleFlags_ka _ rfl

theorem bare_one (hka : s.kaNeedVerify = false)
    (hne : (takeFrame bareSession idlePorts 0 () () s).2 ≠ .stop) :
    linkerRun bareSession (tcpPorts 0 idlePorts) 1 s =
      ((takeFrame bareSession idlePorts 0 () () s).1, true) := by
  rw [bare_run hka]
  simp only [if_neg hne]
  rfl

/-- Behind a flag the next header is looked for in the body left on the stream. -/
theorem bare_misled_body {fs rest : List Frame} {body : List Byte} (hka : s.kaNeedVerify = false)
    (hdrop : fs.drop ((nets s.trace).length + 1) = rest)
    (htook : Took (body ++ wires rest) s (takeFrame bareSession idlePorts 0 () () s) none)
    (hne : (takeFrame bareSession idlePorts 0 () () s).2 ≠ .stop) (hbody : body ≠ []) :
    ¬ Aligned fs (linkerRun bareSession (tcpPorts 0 idlePorts) 1 s).1
      (linkerRun bareSession (tcpPorts 0 idlePorts) 1 s).2 := by
  intro hal
  rw [bare_one hka hne] at hal
  have hdata := hal.rest rfl
  rw [htook.trace, List.length_append, List.length_singleton, hdrop, (htook.rest hne).2] at hdata
  -- The stream would have to be as long with the body in front as without.
  have hlen := congrArg List.length hdata
  rw [List.length_append] at hlen
  exact hbody (List.length_eq_zero_iff.mp (by omega))

/-- A frame handed to the modules with its flags is not one of the stream's. -/
theorem bare_misled_flags {fs : List Frame} {f : Frame} {rest up : List Byte}
    (hka : s.kaNeedVerify = false) (hget : fs[(nets s.trace).length]? = some f)
    (htook : Took rest s (takeFrame bareSession idlePorts 0 () () s) (some up))
    (hne : (takeFrame bareSession idlePorts 0 () () s).2 ≠ .stop) (hfl : frameFlags f.hdr ≠ 0) :
    ¬ Aligned fs (linkerRun bareSession (tcpPorts 0 idlePorts) 1 s).1
      (linkerRun bareSession (tcpPorts 0 idlePorts) 1 s).2 := by
  intro hal
  rw [bare_one hka hne] at hal
  obtain ⟨g, hg, hgfl, -⟩ := hal.handed (nets s.trace).length up (by rw [htook.trace]; simp)
  rw [hget] at hg
  obtain rfl : f = g := by simpa using hg
  exact hfl hgfl

/-- **A stream that is not benign misleads the bare linker.** -/
theorem bare_misled {fs rest : List Frame} (hrest : fs.drop (nets s.trace).length = rest)
    (hb : ¬ Benign rest) (h : Reads (wires rest) s) (hka : s.kaNeedVerify = false) :
    ∃ n, ¬ Aligned fs (linkerRun bareSession (tcpPorts 0 idlePorts) n s).1
      (linkerRun bareSession (tcpPorts 0 idlePorts) n s).2 := by
  -- On the frames to come, up to the first one that is not benign.
  induction rest generalizing s with
  | nil => exact absurd trivial hb
  | cons f rest ih =>
    set r := takeFrame bareSession idlePorts 0 () () s with hr
    have hget : fs[(nets s.trace).length]? = some f := by
      rw [← List.head?_drop, hrest]; rfl
    have hdrop : fs.drop ((nets s.trace).length + 1) = rest := by
      rw [← List.drop_drop, hrest]; rfl
    -- A frame after which the linker is still on a boundary leaves it to the rest.
    have hgo : ∀ up, Took (wires rest) s r up → r.2 ≠ .stop → ¬ Benign rest →
        ∃ n, ¬ Aligned fs (linkerRun bareSession (tcpPorts 0 idlePorts) n s).1
          (linkerRun bareSession (tcpPorts 0 idlePorts) n s).2 := by
      intro up htook hne hb'
      obtain ⟨n, hn⟩ := ih (s := r.1) (by rw [htook.trace]; simpa using hdrop) hb'
        (htook.rest hne) bare_takeFrame
      refine ⟨n + 1, ?_⟩
      rw [bare_run hka, ← hr, if_neg hne]
      exact hn
    rw [Benign] at hb
    rw [wires_cons] at h
    by_cases hover : f.Oversize
    · rw [if_pos hover] at hb
      obtain ⟨s', hs', htr, heq⟩ := takeFrame_oversize bareSession idlePorts 0 () () h hover
      have htook := handleFlags_known bareSession idlePorts 0 hs' badFrame (.inl (by decide))
      refine hgo none (by rw [hr, heq]; exact htook.of_trace htr) ?_ hb
      rw [hr, heq]
      exact bare_handleFlags _ (by decide)
    rw [if_neg hover] at hb
    by_cases hfl : frameFlags f.hdr = 0
    · rw [if_pos hfl] at hb
      have hbody : f.body ≠ [] := fun h0 => hb (.inl h0)
      obtain ⟨s', hs', htr, hbuf, heq⟩ := takeFrame_plain bareSession idlePorts 0 () () h hover hfl
        hbody
      have htook := handleFlags_other bareSession idlePorts 0 hs' f.hdr
        (by rw [hfl]; decide) (by rw [hfl]; decide) (by rw [hfl]; decide) (by rw [hfl]; decide)
      refine hgo _ (by rw [hr, heq]; exact htook.of_trace htr) ?_ fun hr => hb (.inr hr)
      rw [hr, heq]
      exact bare_handleFlags _ (by rw [hfl]; decide)
    rw [if_neg hfl] at hb
    obtain ⟨s', hs', htr, heq⟩ := takeFrame_flags bareSession idlePorts 0 () () h hover hfl
    by_cases hclose : frameFlags f.hdr = connClose
    · exact absurd (by rw [if_pos hclose]; trivial) hb
    rw [if_neg hclose] at hb
    have hne : r.2 ≠ .stop := by
      rw [hr, heq]; exact bare_handleFlags _ hclose
    by_cases hknown : frameFlags f.hdr = badFrame ∨ frameFlags f.hdr = echoReq ∨
        frameFlags f.hdr = echoRep
    · have htook := (handleFlags_known bareSession idlePorts 0 hs' _ hknown).of_trace htr
      rw [← heq, ← hr] at htook
      by_cases hbody : f.body = []
      -- An ordinary echo or bad frame: the fault lies further on.
      · rw [hbody, List.nil_append] at htook
        exact hgo none htook hne fun hr => hb ⟨hknown, hbody, hr⟩
      · exact ⟨1, bare_misled_body hka hdrop htook hne hbody⟩
    -- Several flags are none of those the linker tests for.
    · have htook := (handleFlags_other bareSession idlePorts 0 hs' f.hdr
        (fun h0 => hknown (.inl h0)) (fun h0 => hknown (.inr (.inl h0)))
        (fun h0 => hknown (.inr (.inr h0))) hclose).of_trace htr
      rw [← heq, ← hr] at htook
      exact ⟨1, bare_misled_flags hka hget htook hne hfl⟩

end Bare

theorem not_aligned_of_not_benign {fs : List Frame} (hb : ¬ Benign fs) : ¬ FramesAligned fs := by
  intro hall
  have hdrop : fs.drop (nets ([] : List LinkEv)).length = fs := rfl
  obtain ⟨n, hn⟩ := bare_misled (s := ⟨[], 0, false, (), (⟨wires fs, [], false⟩, ()), []⟩)
    hdrop hb ⟨⟨rfl, quiet_nil⟩, rfl⟩ rfl
  exact hn (hall Unit Unit Unit bareSession idlePorts 0 _ ⟨rfl, quiet_nil⟩ rfl rfl n)

/-- **Frame boundaries on a TCP stream.**  Every linker that reads a stream
stays on its frame boundaries, whatever its modules, its device and the
segmentation do, iff the stream is benign. -/
theorem framesAligned_iff (fs : List Frame) : FramesAligned fs ↔ Benign fs :=
  ⟨fun h => by_contra fun hb => not_aligned_of_not_benign hb h, aligned_of_benign⟩

/-- An `ECHO_REQ` header that announces a body: the header of the next frame is
read from it. -/
def echoWithBody : Frame := ⟨0x2001, [0], by decide, by decide⟩

theorem echoWithBody_misleads : ¬ ∀ fs, FramesAligned fs := by
  intro hall
  have hb : ¬ Benign [echoWithBody] := by decide
  exact not_aligned_of_not_benign hb (hall [echoWithBody])

end Vtun
