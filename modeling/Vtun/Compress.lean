/-
Packets of the compressors (`lfd_zlib.c`, `lfd_lzo.c`).

The libraries are not part of the program.  A stream of zlib that is flushed behind each frame
has given out all there is of it, and the stream at the other end gives it back if it has had
all packets before; LZO compresses each frame by itself.  What the program adds are the buffers:
`zlib_comp` and `zlib_decomp` share one, and a frame is complete in one call when it leaves some
room there.

* `ZContract`, `LzoContract` — what is known of the libraries;
* `zlibFlate_one` — a call that leaves room is the only one for its frame;
* `zlib_relays`, `lzo_relays` — the modules keep a relation between the two ends.
-/
import Vtun.Relay
import Vtun.Zlib
import Vtun.Lib.Flush

namespace Vtun

variable {ε δ ι σ : Type}

/-! ### What is known of zlib -/

/-- What has gone into an engine and what has come out of it. -/
structure FlateLog (F : Flate σ) where
  fed : σ → List Byte
  made : σ → List Byte
  call_fed : ∀ s inp room c, F.call s inp room = some c →
    fed c.state = fed s ++ inp.take c.taken
  call_made : ∀ s inp room c, F.call s inp room = some c → made c.state = made s ++ c.written

/-- What an engine has not yet written is what it holds back. -/
def FlateLog.log {F : Flate σ} (l : FlateLog F) : Flush.Log σ Byte Byte :=
  ⟨l.fed, l.made, F.pending⟩

/-- The two engines undo each other: where `deflate` is flushed, `inflate` can give back all it
was fed.  A call that has input and room goes well, flushing writes something, and a frame gets
at most `extra` bytes longer. -/
structure ZContract (E : ZEngine δ ι) (extra : ℕ) where
  deflate : FlateLog E.deflate
  inflate : FlateLog E.inflate
  deflateInit : ∀ level d, E.deflateInit level = some d → deflate.fed d = [] ∧ deflate.made d = []
  inflateInit : ∀ i, E.inflateInit = some i → inflate.fed i = [] ∧ inflate.made i = []
  restores : Flush.Restores deflate.log inflate.log
  deflates : ∀ d inp room, inp ≠ [] → 0 < room → (E.deflate.call d inp room).isSome = true
  inflates : ∀ i inp room d, inp ≠ [] → 0 < room → inflate.fed i ++ inp <+: deflate.made d →
    (E.inflate.call i inp room).isSome = true
  flushes : ∀ d inp room c, E.deflate.call d inp room = some c → inp ≠ [] → 0 < room →
    c.written ≠ []
  expands : ∀ d inp room c, E.deflate.call d inp room = some c → E.deflate.pending d = [] →
    inp.length ≤ frameSize + frameOverhead → c.written.length ≤ inp.length + extra

/-! ### The module of zlib -/

/-- What `zlib_comp` and `zlib_decomp` hand on; where they fail, `out` is still the input. -/
def ZRet.span (r : ZRet σ) (f : Span) : Span :=
  if r.ret < 0 then ⟨r.ret, f.mem⟩ else ⟨r.ret, r.buf.zbuf.getD []⟩

/-- `lfd_zlib`; the memory is what the allocator finds in a call. -/
def lfdZlib (E : ZEngine δ ι) (mem : ε → Memory) : Mod ε (ZMod δ ι) where
  encode := some fun e m f =>
    ((zlibComp E (mem e) m f.frame).map fun r => (r.2, r.1.span f)).getD (m, ⟨-1, f.mem⟩)
  availEncode := none
  decode := some fun e m f =>
    ((zlibDecomp E (mem e) m f.frame).map fun r => (r.2, r.1.span f)).getD (m, ⟨-1, f.mem⟩)
  availDecode := none

/-- A buffer of at least `size` bytes. -/
structure ZBuf.Holds (b : ZBuf) (size : ℕ) : Prop where
  sound : b.Sound
  size : size ≤ b.zbufSize

section Call

variable {F : Flate σ} {s : σ} {x : List Byte} {b : ZBuf} {c : ZCall σ}

/-- A call that leaves room has taken all there is and holds nothing back. -/
theorem Flate.leaves_room {room : ℕ} (hcall : F.call s x room = some c)
    (hroom : c.written.length < room) : x.take c.taken = x ∧ F.pending c.state = [] := by
  constructor
  · have htook := (F.stops _ _ _ _ hcall).resolve_right hroom.ne
    rw [htook, List.take_length]
  · by_contra hheld
    exact hroom.ne (F.holds _ _ _ _ hcall hheld)

/-- **One call for a frame**: what it has written is at the start of the buffer. -/
theorem zlibFlate_one {size : ℕ} (hb : b.Holds size) (hcall : F.call s x b.zbufSize = some c)
    (hroom : c.written.length < b.zbufSize) (mem : Memory) (f : Span) :
    ∃ r, zlibFlate F mem s x b = some r ∧ r.zs.state = c.state ∧ (r.span f).Holds c.written ∧
      r.buf.Holds size := by
  have hle := F.written_le _ _ _ _ hcall
  have hfilled := (filled_start hb.sound s x).after hle
  obtain ⟨htake, -⟩ := Flate.leaves_room hcall hroom
  have hall : x.drop c.taken = [] := by
    have hsplit := List.take_append_drop c.taken x
    rw [htake] at hsplit
    exact List.append_right_eq_self.mp hsplit
  set b' : ZBuf := { b with zbuf := b.zbuf.map fun buf => writeAt buf 0 c.written } with hb'
  have hlen : (0 : ℤ) + (b.zbufSize - (b.zbufSize - c.written.length) : ℕ) = c.written.length := by
    rw [Nat.sub_sub_self hle, zero_add]
  refine ⟨⟨c.written.length, ZStream.after ⟨s, x, 0, b.zbufSize⟩ c, b'⟩, ?_, rfl, ?_, ?_⟩
  · rw [zlibFlate, zlibLoop, hcall]
    dsimp only [ZStream.after]
    rw [if_pos hall, hlen]
  · have hret : ¬ (c.written.length : ℤ) < 0 := by omega
    rw [ZRet.span, if_neg hret]
    exact ⟨rfl, hfilled.out⟩
  · exact ⟨hfilled.sound, hb.size⟩

end Call

section Zlib

variable {E : ZEngine δ ι} {extra : ℕ} (C : ZContract E extra) (limit : ℕ)

/-- The packets of zlib: what `deflate` has made for the frames since the other end was in step
with it. -/
structure ZlibOnTheWay (s r : ZMod δ ι) (flight ms : List (List Byte)) : Prop where
  way : ∃ d, Flush.InStep C.deflate.log C.inflate.log d r.zi ∧
    Flush.Between C.deflate.log d flight ms s.zd
  packets : ∀ y ∈ flight, y ≠ []
  frames : ∀ x ∈ ms, x ≠ [] ∧ x.length ≤ limit
  sender : s.buf.Holds (limit + extra + 1)
  receiver : r.buf.Holds (limit + extra + 1)

variable {C limit}

/-- What was flushed last still is. -/
theorem between_flushed {d d' : δ} {flight ms : List (List Byte)}
    (h : Flush.Between C.deflate.log d flight ms d') (hd : E.deflate.pending d = []) :
    E.deflate.pending d' = [] := by
  induction h with
  | nil d => exact hd
  | cons hone _ ih => exact ih hone.held

/-- `zlib_comp` on a frame that fits. -/
theorem zlibComp_one {m : ZMod δ ι} {x : List Byte} (hx : x ≠ []) (hlen : x.length ≤ limit)
    (hlimit : limit ≤ frameSize + frameOverhead) (hbuf : m.buf.Holds (limit + extra + 1))
    (hclear : E.deflate.pending m.zd = []) (mem : Memory) (f : Span) :
    ∃ r d y, zlibComp E mem m x = some (r, { m with zd := d, buf := r.buf }) ∧
      (r.span f).Holds y ∧ y ≠ [] ∧ y.length ≤ x.length + extra ∧
      Flush.Flushes C.deflate.log m.zd x y d ∧ r.buf.Holds (limit + extra + 1) := by
  have hpos : 0 < m.buf.zbufSize := Nat.lt_of_lt_of_le (Nat.succ_pos _) hbuf.size
  obtain ⟨c, hcall⟩ := Option.isSome_iff_exists.mp (C.deflates m.zd x m.buf.zbufSize hx hpos)
  have hshort := C.expands _ _ _ _ hcall hclear (hlen.trans hlimit)
  have hsize := hbuf.size
  have hroom : c.written.length < m.buf.zbufSize := by omega
  obtain ⟨htake, hheld⟩ := Flate.leaves_room hcall hroom
  obtain ⟨r, hrun, hstate, hspan, hbuf'⟩ := zlibFlate_one hbuf hcall hroom mem f
  refine ⟨r, c.state, c.written, ?_, hspan, C.flushes _ _ _ _ hcall hx hpos, hshort,
    ⟨?_, ?_, hheld⟩, hbuf'⟩
  · rw [zlibComp, hrun, ← hstate]
    rfl
  · have hfed := C.deflate.call_fed _ _ _ _ hcall
    rw [htake] at hfed
    exact hfed
  · exact C.deflate.call_made _ _ _ _ hcall

/-- `zlib_decomp` on the oldest packet. -/
theorem zlibDecomp_one {m : ZMod δ ι} {d d₁ : δ} {x y : List Byte} (hy : y ≠ [])
    (hlen : x.length ≤ limit) (hbuf : m.buf.Holds (limit + extra + 1))
    (hstep : Flush.InStep C.deflate.log C.inflate.log d m.zi)
    (hone : Flush.Flushes C.deflate.log d x y d₁) (mem : Memory) (f : Span) :
    ∃ r i, zlibDecomp E mem m y = some (r, { m with zi := i, buf := r.buf }) ∧
      (r.span f).Holds x ∧ Flush.InStep C.deflate.log C.inflate.log d₁ i ∧
      r.buf.Holds (limit + extra + 1) := by
  have hpos : 0 < m.buf.zbufSize := Nat.lt_of_lt_of_le (Nat.succ_pos _) hbuf.size
  have hfed : C.inflate.fed m.zi ++ y = C.deflate.made d₁ :=
    (congrArg (· ++ y) hstep.fed).trans hone.made.symm
  obtain ⟨c, hcall⟩ := Option.isSome_iff_exists.mp
    (C.inflates m.zi y m.buf.zbufSize d₁ hy hpos (hfed ▸ List.prefix_rfl))
  -- what is written is a part of the frame, so there is room left
  have hpart : c.written ++ E.inflate.pending c.state <+: x :=
    hstep.partial_le C.restores hone (List.take_prefix c.taken y)
      (C.inflate.call_fed _ _ _ _ hcall) (C.inflate.call_made _ _ _ _ hcall)
  have hle := hpart.length_le
  rw [List.length_append] at hle
  have hsize := hbuf.size
  have hroom : c.written.length < m.buf.zbufSize := by omega
  obtain ⟨htake, hheld⟩ := Flate.leaves_room hcall hroom
  have htook := C.inflate.call_fed _ _ _ _ hcall
  rw [htake] at htook
  obtain ⟨hwritten, hstep'⟩ := hstep.receive C.restores hone htook
    (C.inflate.call_made _ _ _ _ hcall) hheld
  obtain ⟨r, hrun, hstate, hspan, hbuf'⟩ := zlibFlate_one hbuf hcall hroom mem f
  rw [hwritten] at hspan
  refine ⟨r, c.state, ?_, hspan, hstep', hbuf'⟩
  rw [zlibDecomp, hrun, ← hstate]
  rfl

/-- **The module of zlib.** -/
theorem zlib_relays (hlimit : limit ≤ frameSize + frameOverhead) (mem : ε → Memory) :
    (lfdZlib E mem).Relays (ZlibOnTheWay C limit) limit extra where
  down := by
    intro s r flight ms back ns e f x hout hin hf hx hlen
    obtain ⟨d, hstep, hbetween⟩ := hout.way
    obtain ⟨out, d', y, hrun, hspan, hy, hshort, hone, hbuf⟩ := zlibComp_one (C := C) hx hlen hlimit
      hout.sender (between_flushed hbetween hstep.flushed) (mem e) f
    have hcall : (lfdZlib E mem).encode.getD passOn e s f =
        ({ s with zd := d', buf := out.buf }, out.span f) := by
      change ((zlibComp E (mem e) s f.frame).map _).getD _ = _
      rw [hf.2, hrun]
      rfl
    dsimp only
    rw [hcall]
    dsimp only
    rw [hspan.2]
    refine ⟨⟨by rwa [hspan.2], by rwa [hspan.2]⟩, hshort, ⟨⟨d, hstep, hbetween.snoc hone⟩, ?_, ?_,
      hbuf, hout.receiver⟩, ⟨hin.way, hin.packets, hin.frames, hout.receiver, hbuf⟩⟩
    · rw [List.forall_mem_append, List.forall_mem_singleton]
      exact ⟨hout.packets, hy⟩
    · rw [List.forall_mem_append, List.forall_mem_singleton]
      exact ⟨hout.frames, hx, hlen⟩
  up := by
    intro s r y flight ms back ns e g hout hin hg
    obtain ⟨d, hstep, hbetween⟩ := hout.way
    obtain ⟨hy, hpackets⟩ := List.forall_mem_cons.mp hout.packets
    cases hbetween with
    | @cons _ d₁ _ x _ _ ms' hone hrest =>
      obtain ⟨⟨hx, hlen⟩, hframes⟩ := List.forall_mem_cons.mp hout.frames
      obtain ⟨out, i, hrun, hspan, hstep', hbuf⟩ :=
        zlibDecomp_one hy hlen hout.receiver hstep hone (mem e) g
      have hcall : (lfdZlib E mem).decode.getD passOn e r g =
          ({ r with zi := i, buf := out.buf }, out.span g) := by
        change ((zlibDecomp E (mem e) r g.frame).map _).getD _ = _
        rw [hg.2, hrun]
        rfl
      dsimp only
      rw [hcall]
      exact ⟨x, ms', rfl, hx, hspan, ⟨⟨d₁, hstep', hrest⟩, hpackets, hframes, hout.sender, hbuf⟩,
        ⟨hin.way, hin.packets, hin.frames, hbuf, hout.sender⟩⟩
  availEncode := fun _ h => absurd h (by simp [lfdZlib])
  availDecode := fun _ h => absurd h (by simp [lfdZlib])
  length := by
    intro s r flight ms h
    obtain ⟨d, -, hbetween⟩ := h.way
    exact hbetween.length_eq

/-- What `zlib_alloc` has initialised. -/
theorem zlibAlloc_eq {mem : Memory} {host : VtunHost} {size : ℕ} {m : ZMod δ ι}
    (h : zlibAlloc E mem host size = some m) :
    (∃ level, E.deflateInit level = some m.zd) ∧ E.inflateInit = some m.zi ∧
      m.buf.zbufSize = size := by
  obtain ⟨zd, hzd, hrest⟩ := Option.bind_eq_some_iff.mp h
  obtain ⟨zi, hzi, hrest⟩ := Option.bind_eq_some_iff.mp hrest
  obtain ⟨block, -, hm⟩ := Option.bind_eq_some_iff.mp hrest
  obtain rfl := Option.some.inj hm
  exact ⟨⟨_, hzd⟩, hzi, rfl⟩

/-- Two ends that have allocated the module. -/
theorem zlib_start {mem mem' : Memory} {host host' : VtunHost} {size size' : ℕ}
    (hsize : limit + extra < size) (hsize' : limit + extra < size') {s r : ZMod δ ι}
    (hs : zlibAlloc E mem host size = some s) (hr : zlibAlloc E mem' host' size' = some r) :
    ZlibOnTheWay C limit s r [] [] := by
  have hclear := zlibAlloc_clear hs
  have hclear' := zlibAlloc_clear hr
  obtain ⟨⟨level, hzd⟩, -, rfl⟩ := zlibAlloc_eq hs
  obtain ⟨-, hzi, rfl⟩ := zlibAlloc_eq hr
  have hempty : C.inflate.fed r.zi = C.deflate.made s.zd := by
    rw [(C.inflateInit _ hzi).1, (C.deflateInit _ _ hzd).2]
  exact ⟨⟨s.zd, ⟨hclear.zd, hempty, hclear'.zi⟩, .nil _⟩, List.forall_mem_nil _,
    List.forall_mem_nil _, ⟨hclear.buf, hsize⟩, ⟨hclear'.buf, hsize'⟩⟩

end Zlib

/-! ### LZO -/

/-- The library: what it makes of a block, if it returns `LZO_E_OK`. -/
structure Lzo where
  init : Bool
  lzo1x_1_15_compress : List Byte → Option (List Byte)
  lzo1x_999_compress : List Byte → Option (List Byte)
  lzo1x_decompress : List Byte → Option (List Byte)

/-- The function `lzo1x_compress` points to, for the level 9 and the others. -/
def Lzo.lzo1xCompress (L : Lzo) (nine : Bool) : List Byte → Option (List Byte) :=
  if nine then L.lzo1x_999_compress else L.lzo1x_1_15_compress

/-- What is known of the library: every block can be compressed and gives itself back, and its
packet is not much longer. -/
def LzoContract (L : Lzo) : Prop :=
  ∀ nine x, x ≠ [] → ∃ y, L.lzo1xCompress nine x = some y ∧ y ≠ [] ∧
    y.length ≤ x.length + x.length / 16 + 64 + 3 ∧ L.lzo1x_decompress y = some x

/-- The static data of the module. -/
structure LzoMod where
  /-- `lzo1x_compress` is `lzo1x_999_compress` -/
  nine : Bool
  zbuf : List Byte

/-- `zbuf_size`. -/
def lzoBufSize : ℕ := frameSize * frameSize / 64 + 16 + 3

/-- `alloc_lzo`, where it succeeds; `wmem` tells whether `lzo_malloc` does. -/
def allocLzo (L : Lzo) (mem : Memory) (wmem : Bool) (host : VtunHost) : Option LzoMod :=
  let zlevel := if host.zlevel ≠ 0 then host.zlevel else 1
  if !L.init then none
  else (mem lzoBufSize).bind fun block => if wmem then some ⟨zlevel = 9, block.val⟩ else none

/-- The frame a function of the library has written into `zbuf`, or -1. -/
def LzoMod.pass (m : LzoMod) (made : Option (List Byte)) (f : Span) : LzoMod × Span :=
  match made with
  | none => (m, ⟨-1, f.mem⟩)
  | some out => ({ m with zbuf := store m.zbuf out }, ⟨out.length, store m.zbuf out⟩)

/-- `comp_lzo`. -/
def compLzo (L : Lzo) (m : LzoMod) (f : Span) : LzoMod × Span :=
  m.pass (L.lzo1xCompress m.nine f.frame) f

/-- `decomp_lzo`. -/
def decompLzo (L : Lzo) (m : LzoMod) (f : Span) : LzoMod × Span :=
  m.pass (L.lzo1x_decompress f.frame) f

/-- `lfd_lzo`. -/
def lfdLzo (L : Lzo) : Mod ε LzoMod where
  encode := some fun _ m f => compLzo L m f
  availEncode := none
  decode := some fun _ m f => decompLzo L m f
  availDecode := none

section LzoModule

variable {L : Lzo} {limit room : ℕ}

/-- The packets of LZO: each gives back its frame.  The buffers have kept their size, so nothing
was written behind them. -/
structure LzoOnTheWay (L : Lzo) (limit : ℕ) (s r : LzoMod) (flight ms : List (List Byte)) :
    Prop where
  packets : List.Forall₂ (fun y x => y ≠ [] ∧ x ≠ [] ∧ x.length ≤ limit ∧
    L.lzo1x_decompress y = some x) flight ms
  sender : s.zbuf.length = lzoBufSize
  receiver : r.zbuf.length = lzoBufSize

/-- What fits the buffer is all that is written. -/
theorem LzoMod.pass_some {m : LzoMod} {out : List Byte} (hbuf : m.zbuf.length = lzoBufSize)
    (hout : out.length ≤ lzoBufSize) (f : Span) :
    (m.pass (some out) f).2.Holds out ∧ (m.pass (some out) f).1.zbuf.length = lzoBufSize ∧
      (m.pass (some out) f).1.nine = m.nine := by
  refine ⟨⟨rfl, ?_⟩, ?_, rfl⟩
  · change (store m.zbuf out).take (out.length : ℤ).toNat = out
    rw [Int.toNat_natCast, take_store]
  · change (store m.zbuf out).length = lzoBufSize
    rw [store, List.length_append, List.length_drop, hbuf]
    omega

/-- **The module of LZO.** -/
theorem lzo_relays (hL : LzoContract L) (hlimit : limit ≤ frameSize + frameOverhead)
    (hroom : limit / 16 + 64 + 3 ≤ room) :
    (lfdLzo L : Mod ε LzoMod).Relays (LzoOnTheWay L limit) limit room where
  down := by
    intro s r flight ms back ns e f x hout hin hf hx hlen
    obtain ⟨y, hmade, hy, hshort, hback⟩ := hL s.nine x hx
    have hcall : (lfdLzo L : Mod ε LzoMod).encode.getD passOn e s f = s.pass (some y) f := by
      change s.pass (L.lzo1xCompress s.nine f.frame) f = _
      rw [hf.2, hmade]
    have hdiv := Nat.div_le_div_right (c := 16) hlen
    have hfits : y.length ≤ lzoBufSize := by
      simp only [frameSize, frameOverhead, lzoBufSize] at hlimit ⊢
      omega
    obtain ⟨hspan, hbuf, -⟩ := LzoMod.pass_some hout.sender hfits f
    dsimp only
    rw [hcall, hspan.2]
    refine ⟨⟨by rwa [hspan.2], by rwa [hspan.2]⟩, by omega, ⟨?_, hbuf, hout.receiver⟩,
      ⟨hin.packets, hout.receiver, hbuf⟩⟩
    exact List.rel_append hout.packets (.cons ⟨hy, hx, hlen, hback⟩ .nil)
  up := by
    intro s r y flight ms back ns e g hout hin hg
    obtain ⟨hpackets, hsender, hreceiver⟩ := hout
    cases hpackets with
    | @cons _ x _ ms' hone hrest =>
      obtain ⟨-, hx, hlen, hback⟩ := hone
      have hcall : (lfdLzo L : Mod ε LzoMod).decode.getD passOn e r g = r.pass (some x) g := by
        change r.pass (L.lzo1x_decompress g.frame) g = _
        rw [hg.2, hback]
      have hfits : x.length ≤ lzoBufSize := by
        simp only [frameSize, frameOverhead, lzoBufSize] at hlimit ⊢
        omega
      obtain ⟨hspan, hbuf, -⟩ := LzoMod.pass_some hreceiver hfits g
      dsimp only
      rw [hcall]
      exact ⟨x, ms', rfl, hx, hspan, ⟨hrest, hsender, hbuf⟩, ⟨hin.packets, hbuf, hsender⟩⟩
  availEncode := fun _ h => absurd h (by simp [lfdLzo])
  availDecode := fun _ h => absurd h (by simp [lfdLzo])
  length := fun h => h.packets.length_eq

theorem allocLzo_zbuf {mem : Memory} {wmem : Bool} {host : VtunHost} {m : LzoMod}
    (h : allocLzo L mem wmem host = some m) : m.zbuf.length = lzoBufSize := by
  rw [allocLzo] at h
  split at h
  · cases h
  · obtain ⟨block, -, hm⟩ := Option.bind_eq_some_iff.mp h
    obtain ⟨-, hm⟩ := Option.ite_none_right_eq_some.mp hm
    rw [← Option.some.inj hm]
    exact block.property

end LzoModule

end Vtun
