/-
Frames through a whole stack of modules (`linkfd.c`).

Every module keeps its own state.  `recorded` lets a module work on its part of
the states of all modules, and notes its calls; a stack is the modules of a list,
each of them once.

* `lfdRunUp_append`, `lfdRunDown_append` — a stack on top of another;
* `stack_step` — one frame down at one end and up at the other;
* `codec_stack_transparent` — all frames come back, and a module that keeps a
  frame or fails is the last one called;
* `shaper_inverts`, `legacy_inverts`, `encrypt_inverts` — modules of the daemon
  that invert what they do.
-/
import Vtun.InBandBlock
import Vtun.ModStack
import Vtun.Shaper

namespace Vtun

variable {ε σ ι : Type} {τ : ι → Type}

/-! ### One module -/

/-- The span is the frame `m`, whatever lies behind it. -/
def Span.Holds (s : Span) (m : List Byte) : Prop := s.len = m.length ∧ s.frame = m

theorem Span.Holds.pos {s : Span} {m : List Byte} (h : s.Holds m) (hm : m ≠ []) : 0 < s.len := by
  have hlen : m.length ≠ 0 := fun h0 => hm (List.length_eq_zero_iff.mp h0)
  have heq := h.1
  omega

theorem Span.Holds.eq {s : Span} {m : List Byte} (h : s.Holds m) :
    s = ⟨m.length, m ++ s.mem.drop m.length⟩ := by
  obtain ⟨hlen, hframe⟩ := h
  have htake : s.mem.take m.length = m := by
    rwa [Span.frame, hlen, Int.toNat_natCast] at hframe
  have hmem : s.mem = m ++ s.mem.drop m.length := by
    conv_lhs => rw [← List.take_append_drop m.length s.mem, htake]
  rw [← hmem, ← hlen]

/-- A frame to send: its environment and the span that holds it. -/
def Sends (a : ε × Span) (m : List Byte) : Prop := a.2.Holds m ∧ m ≠ []

/-- What the network hands over for a span that was sent. -/
def Arrives (g : ε × Span) (out : Span) : Prop := g.2.Holds out.frame

/-- A span with a frame of at least one byte. -/
def Span.Sound (out : Span) : Prop := out.Holds out.frame ∧ out.frame ≠ []

/-- A callback on calls that come with their environment. -/
def callback (f : ε → σ → Span → σ × Span) (s : σ) (a : ε × Span) : Span × σ :=
  ((f a.1 s a.2).2, (f a.1 s a.2).1)

/-- In the states `c` and `d`, `decode` gives back what `encode` is given, in
order, and what `encode` makes is never empty. -/
def InvertsInOrder (encode decode : ε → σ → Span → σ × Span) (c d : σ) : Prop :=
  Codec.Undoes (callback encode) (callback decode) Sends Arrives Span.Holds Span.Sound c d

/-- What the linker does with a frame where a module has no callback. -/
def passOn (_ : ε) (s : σ) (f : Span) : σ × Span := (s, f)

/-- A module whose decoder in the state `d` undoes its encoder in the state `c`;
without a decoder, the encoder leaves frames alone. -/
def Mod.Inverts (m : Mod ε σ) (c d : σ) : Prop :=
  match m.decode with
  | some decode => InvertsInOrder (m.encode.getD passOn) decode c d
  | none => ∀ e s f, (m.encode.getD passOn e s f).2 = f

/-- One frame through a module and back. -/
theorem Mod.Inverts.pass {m : Mod ε σ} {c d : σ} (h : m.Inverts c d) (e : ε) {f : Span}
    {x : List Byte} (hf : f.Holds x) (hx : x ≠ []) :
    let r := m.encode.getD passOn e c f
    r.2.Sound ∧ ∀ e' g, g.Holds r.2.frame →
      let u := m.decode.getD passOn e' d g
      u.2.Holds x ∧ m.Inverts r.1 u.1 := by
  unfold Mod.Inverts at h ⊢
  cases hdec : m.decode with
  | none =>
    rw [hdec] at h
    dsimp only at h ⊢
    rw [h e c f, hf.2]
    exact ⟨⟨by rwa [hf.2], by rwa [hf.2]⟩, fun e' g hg => ⟨hg, h⟩⟩
  | some decode =>
    rw [hdec] at h
    have hsends : Sends (e, f) x := ⟨hf, hx⟩
    refine ⟨Codec.Undoes.made h hsends, fun e' g hg => ?_⟩
    have harrives : Arrives (e', g) (callback (m.encode.getD passOn) c (e, f)).1 := hg
    exact ⟨Codec.Undoes.back h hsends harrives, Codec.Undoes.step h hsends harrives⟩

/-! ### The stack -/

/-- The states of all modules, and the modules called so far. -/
structure Stack (τ : ι → Type) where
  st : ∀ i, τ i
  calls : List ι

variable [DecidableEq ι]

/-- A callback of the module `i`, on the states of all modules. -/
def recorded (i : ι) (f : ε → τ i → Span → τ i × Span) (e : ε) (s : Stack τ) (x : Span) :
    Stack τ × Span :=
  let r := f e (s.st i) x
  (⟨Function.update s.st i r.1, s.calls ++ [i]⟩, r.2)

/-- The module `i` in a stack. -/
def Mod.at (i : ι) (m : Mod ε (τ i)) : Mod ε (Stack τ) where
  encode := m.encode.map (recorded i)
  availEncode := none
  decode := m.decode.map (recorded i)
  availDecode := none

/-- The modules of a list. -/
def stack (m : ∀ i, Mod ε (τ i)) (l : List ι) : List (Mod ε (Stack τ)) :=
  l.map fun i => (m i).at i

/-- One call of `lfd_run_down`: the result, and the modules called. -/
def downCall (m : ∀ i, Mod ε (τ i)) (l : List ι) (s : ∀ i, τ i) (a : ε × Span) :
    (Span × List ι) × (∀ i, τ i) :=
  let r := lfdRunDown a.1 (stack m l) ⟨s, []⟩ a.2
  ((r.2, r.1.calls), r.1.st)

/-- One call of `lfd_run_up`. -/
def upCall (m : ∀ i, Mod ε (τ i)) (l : List ι) (s : ∀ i, τ i) (a : ε × Span) :
    (Span × List ι) × (∀ i, τ i) :=
  let r := lfdRunUp a.1 (stack m l).reverse ⟨s, []⟩ a.2
  ((r.2, r.1.calls), r.1.st)

/-- The modules of a list that encode, from head to tail. -/
def encoders (m : ∀ i, Mod ε (τ i)) (l : List ι) : List ι := l.filter fun i => (m i).encode.isSome

/-- The modules of a list that decode, from head to tail. -/
def decoders (m : ∀ i, Mod ε (τ i)) (l : List ι) : List ι := l.filter fun i => (m i).decode.isSome

/-! ### Runs of the stack -/

theorem lfdRunDown_of_le (e : ε) (mods : List (Mod ε σ)) (s : σ) {f : Span} (hlen : f.len ≤ 0) :
    lfdRunDown e mods s f = (s, f) := by
  cases mods with
  | nil => rfl
  | cons mod mods => rw [lfdRunDown, if_pos hlen]

theorem lfdRunUp_of_le (e : ε) (mods : List (Mod ε σ)) (s : σ) {f : Span} (hlen : f.len ≤ 0) :
    lfdRunUp e mods s f = (s, f) := by
  cases mods with
  | nil => rfl
  | cons mod mods => rw [lfdRunUp, if_pos hlen]

theorem lfdRunDown_append (e : ε) (mods mods' : List (Mod ε σ)) (s : σ) (f : Span) :
    lfdRunDown e (mods ++ mods') s f =
      lfdRunDown e mods' (lfdRunDown e mods s f).1 (lfdRunDown e mods s f).2 := by
  induction mods generalizing s f with
  | nil => rfl
  | cons mod mods ih =>
    by_cases hlen : f.len ≤ 0
    · rw [lfdRunDown_of_le e _ s hlen, lfdRunDown_of_le e _ s hlen, lfdRunDown_of_le e _ s hlen]
    · rw [List.cons_append, lfdRunDown, lfdRunDown, if_neg hlen, if_neg hlen]
      cases mod.encode with
      | none => exact ih s f
      | some encode => exact ih _ _

theorem lfdRunUp_append (e : ε) (mods mods' : List (Mod ε σ)) (s : σ) (f : Span) :
    lfdRunUp e (mods ++ mods') s f =
      lfdRunUp e mods' (lfdRunUp e mods s f).1 (lfdRunUp e mods s f).2 := by
  induction mods generalizing s f with
  | nil => rfl
  | cons mod mods ih =>
    by_cases hlen : f.len ≤ 0
    · rw [lfdRunUp_of_le e _ s hlen, lfdRunUp_of_le e _ s hlen, lfdRunUp_of_le e _ s hlen]
    · rw [List.cons_append, lfdRunUp, lfdRunUp, if_neg hlen, if_neg hlen]
      cases mod.decode with
      | none => exact ih s f
      | some decode => exact ih _ _

section Step

variable (m : ∀ i, Mod ε (τ i)) {i : ι} {l : List ι} {s d : Stack τ} {e : ε} {f : Span}

/-- One frame `x` through the modules `l`, from the states `s` at one end and `d`
at the other: what `lfd_run_down` makes of the span `f`, and what `lfd_run_up`
makes of that. -/
structure PassesBack (l : List ι) (s d : Stack τ) (e : ε) (f : Span) (x : List Byte) : Prop where
  sound : (lfdRunDown e (stack m l) s f).2.Sound
  calls : (lfdRunDown e (stack m l) s f).1.calls = s.calls ++ encoders m l
  frame : ∀ i ∉ l, (lfdRunDown e (stack m l) s f).1.st i = s.st i
  back : ∀ e' g, g.Holds (lfdRunDown e (stack m l) s f).2.frame →
    let u := lfdRunUp e' (stack m l).reverse d g
    u.2.Holds x ∧ u.1.calls = d.calls ++ (decoders m l).reverse ∧
      (∀ i ∉ l, u.1.st i = d.st i) ∧
      ∀ i ∈ l, (m i).Inverts ((lfdRunDown e (stack m l) s f).1.st i) (u.1.st i)

theorem run_one_down (hlen : 0 < f.len) :
    lfdRunDown e (stack m [i]) s f =
      (⟨Function.update s.st i ((m i).encode.getD passOn e (s.st i) f).1,
          s.calls ++ encoders m [i]⟩,
        ((m i).encode.getD passOn e (s.st i) f).2) := by
  have hneg : ¬ f.len ≤ 0 := by omega
  cases he : (m i).encode with
  | none => simp [stack, lfdRunDown, Mod.at, hneg, he, passOn, encoders]
  | some encode => simp [stack, lfdRunDown, Mod.at, hneg, he, recorded, encoders]

theorem run_one_up (hlen : 0 < f.len) :
    lfdRunUp e (stack m [i]).reverse s f =
      (⟨Function.update s.st i ((m i).decode.getD passOn e (s.st i) f).1,
          s.calls ++ decoders m [i]⟩,
        ((m i).decode.getD passOn e (s.st i) f).2) := by
  have hneg : ¬ f.len ≤ 0 := by omega
  cases hd : (m i).decode with
  | none => simp [stack, lfdRunUp, Mod.at, hneg, hd, passOn, decoders]
  | some decode => simp [stack, lfdRunUp, Mod.at, hneg, hd, recorded, decoders]

variable {m} {x : List Byte}

theorem passesBack_one (h : (m i).Inverts (s.st i) (d.st i)) (e : ε) (hf : f.Holds x)
    (hx : x ≠ []) : PassesBack m [i] s d e f x := by
  obtain ⟨hsound, hback⟩ := h.pass e hf hx
  have hdown := run_one_down m (i := i) (s := s) (e := e) (hf.pos hx)
  constructor
  · rwa [hdown]
  · rw [hdown]
  · intro j hj
    rw [hdown]
    exact Function.update_of_ne (by simpa using hj) _ _
  · intro e' g hg
    rw [hdown] at hg ⊢
    obtain ⟨hres, hinv⟩ := hback e' g hg
    dsimp only at hg ⊢
    rw [run_one_up m (hg.pos hsound.2)]
    refine ⟨hres, ?_, fun j hj => Function.update_of_ne (by simpa using hj) _ _, ?_⟩
    · cases hdec : (m i).decode <;> simp [decoders, hdec]
    · intro j hj
      obtain rfl : j = i := by simpa using hj
      simpa using hinv

/-- **One frame through the stack and back.**  The induction is on the list: at one
end the first module is the first one called, at the other the last. -/
theorem passesBack (hl : l.Nodup) (h : ∀ i ∈ l, (m i).Inverts (s.st i) (d.st i)) (e : ε)
    (hf : f.Holds x) (hx : x ≠ []) : PassesBack m l s d e f x := by
  induction l generalizing s d f x with
  | nil =>
    refine ⟨?_, (List.append_nil _).symm, fun i _ => rfl, fun e' g hg => ?_⟩
    · change f.Sound
      exact ⟨by rwa [hf.2], by rwa [hf.2]⟩
    · exact ⟨hf.2 ▸ hg, (List.append_nil _).symm, fun i _ => rfl, by simp⟩
  | cons i l ih =>
    obtain ⟨hi, hl'⟩ := List.nodup_cons.mp hl
    have hone := passesBack_one (s := s) (d := d) (h i (by simp)) e hf hx
    have hdown : lfdRunDown e (stack m (i :: l)) s f =
        lfdRunDown e (stack m l) (lfdRunDown e (stack m [i]) s f).1
          (lfdRunDown e (stack m [i]) s f).2 := lfdRunDown_append e (stack m [i]) (stack m l) s f
    set r := lfdRunDown e (stack m [i]) s f with hr
    -- the first module has not touched the states of the others
    have hothers : ∀ j ∈ l, (m j).Inverts (r.1.st j) (d.st j) := by
      intro j hj
      have hne : j ∉ [i] := by
        rintro hmem
        exact hi (List.mem_singleton.mp hmem ▸ hj)
      rw [hone.frame j hne]
      exact h j (by simp [hj])
    have hrest := ih hl' hothers hone.sound.1 hone.sound.2
    constructor
    · rw [hdown]
      exact hrest.sound
    · rw [hdown, hrest.calls, hone.calls, List.append_assoc, encoders, encoders, encoders,
        ← List.filter_append]
      rfl
    · intro j hj
      rw [List.mem_cons, not_or] at hj
      rw [hdown, hrest.frame j hj.2, hone.frame j (by simpa using hj.1)]
    · intro e' g hg
      rw [hdown] at hg ⊢
      obtain ⟨hres, hcalls, hframe, hinv⟩ := hrest.back e' g hg
      have hup : lfdRunUp e' (stack m (i :: l)).reverse d g =
          lfdRunUp e' (stack m [i]).reverse (lfdRunUp e' (stack m l).reverse d g).1
            (lfdRunUp e' (stack m l).reverse d g).2 := by
        rw [← lfdRunUp_append, ← List.reverse_append]
        rfl
      set u := lfdRunUp e' (stack m l).reverse d g with hu
      -- and at the other end the others have not touched the state of the first
      have hfirst : (m i).Inverts (s.st i) (u.1.st i) := by
        rw [hframe i hi]
        exact h i (by simp)
      obtain ⟨hres', hcalls', hframe', hinv'⟩ := (passesBack_one hfirst e hf hx).back e' u.2 hres
      dsimp only
      rw [hup]
      refine ⟨hres', ?_, ?_, ?_⟩
      · rw [hcalls', hcalls, List.append_assoc, decoders, decoders, decoders,
          ← List.reverse_append, ← List.filter_append]
        rfl
      · intro j hj
        rw [List.mem_cons, not_or] at hj
        rw [hframe' j (by simpa using hj.1), hframe j hj.2]
      · intro j hj
        rw [List.mem_cons] at hj
        by_cases hji : j = i
        · subst hji
          rw [hrest.frame j hi]
          exact hinv' j (by simp)
        · rw [hframe' j (by simpa using hji)]
          exact hinv j (hj.resolve_left hji)

end Step

/-! ### Modules that keep a frame -/

/-- Below a module that fails or keeps the frame nothing is called. -/
theorem stack_stops_down (m : ∀ i, Mod ε (τ i)) (pre post : List ι) (i : ι)
    {encode : ε → τ i → Span → τ i × Span} (hi : (m i).encode = some encode) (e : ε)
    (s : Stack τ) (f : Span) :
    let r := lfdRunDown e (stack m pre) s f
    let t := encode e (r.1.st i) r.2
    0 < r.2.len → t.2.len ≤ 0 →
      lfdRunDown e (stack m (pre ++ i :: post)) s f =
        (⟨Function.update r.1.st i t.1, r.1.calls ++ [i]⟩, t.2) := by
  dsimp only
  intro hlen hstop
  have hone : lfdRunDown e (stack m [i]) (lfdRunDown e (stack m pre) s f).1
      (lfdRunDown e (stack m pre) s f).2 = _ := run_one_down m hlen
  have hsplit : stack m (pre ++ i :: post) = stack m pre ++ (stack m [i] ++ stack m post) := by
    simp [stack]
  rw [hsplit, lfdRunDown_append, lfdRunDown_append, hone, hi]
  dsimp only [Option.getD_some]
  rw [lfdRunDown_of_le e _ _ hstop]
  simp [encoders, hi]

/-- And nothing above it on the way up. -/
theorem stack_stops_up (m : ∀ i, Mod ε (τ i)) (pre post : List ι) (i : ι)
    {decode : ε → τ i → Span → τ i × Span} (hi : (m i).decode = some decode) (e : ε)
    (s : Stack τ) (f : Span) :
    let r := lfdRunUp e (stack m post).reverse s f
    let t := decode e (r.1.st i) r.2
    0 < r.2.len → t.2.len ≤ 0 →
      lfdRunUp e (stack m (pre ++ i :: post)).reverse s f =
        (⟨Function.update r.1.st i t.1, r.1.calls ++ [i]⟩, t.2) := by
  dsimp only
  intro hlen hstop
  have hone : lfdRunUp e (stack m [i]).reverse (lfdRunUp e (stack m post).reverse s f).1
      (lfdRunUp e (stack m post).reverse s f).2 = _ := run_one_up m hlen
  have hsplit : (stack m (pre ++ i :: post)).reverse =
      (stack m post).reverse ++ ((stack m [i]).reverse ++ (stack m pre).reverse) := by
    simp [stack]
  rw [hsplit, lfdRunUp_append, lfdRunUp_append, hone, hi]
  dsimp only [Option.getD_some]
  rw [lfdRunUp_of_le e _ _ hstop]
  simp [decoders, hi]

/-! ### All frames -/

/-- **The stack is transparent.**  Where every module inverts what it does, every
span made is a frame, made by the encoders from head to tail, and the frames that
come out at the other end are the ones that went in, each by one call of every
decoder from tail to head.  And in any stack, a module that fails or keeps the
frame is the last one called, and its value is returned. -/
theorem codec_stack_transparent (m : ∀ i, Mod ε (τ i)) (l : List ι) :
    (l.Nodup → ∀ c d : ∀ i, τ i, (∀ i ∈ l, (m i).Inverts (c i) (d i)) →
      ∀ (sent : List (ε × Span)) (frames : List (List Byte)), List.Forall₂ Sends sent frames →
      let made := (Codec.runAll (downCall m l) c sent).1
      (∀ o ∈ made, o.1.Sound ∧ o.2 = encoders m l) ∧
      ∀ received : List (ε × Span), List.Forall₂ (fun g o => Arrives g o.1) received made →
        List.Forall₂ (fun o x => o.1.Holds x ∧ o.2 = (decoders m l).reverse)
          (Codec.runAll (upCall m l) d received).1 frames) ∧
    ∀ pre i post, l = pre ++ i :: post → ∀ (e : ε) (s : Stack τ) (f : Span),
      (∀ encode, (m i).encode = some encode →
        let r := lfdRunDown e (stack m pre) s f
        let t := encode e (r.1.st i) r.2
        0 < r.2.len → t.2.len ≤ 0 →
          lfdRunDown e (stack m l) s f =
            (⟨Function.update r.1.st i t.1, r.1.calls ++ [i]⟩, t.2)) ∧
      ∀ decode, (m i).decode = some decode →
        let r := lfdRunUp e (stack m post).reverse s f
        let t := decode e (r.1.st i) r.2
        0 < r.2.len → t.2.len ≤ 0 →
          lfdRunUp e (stack m l).reverse s f =
            (⟨Function.update r.1.st i t.1, r.1.calls ++ [i]⟩, t.2) := by
  constructor
  · intro hl c d hinv
    have hstack : Codec.Undoes (downCall m l) (upCall m l) Sends
        (fun (g : ε × Span) (o : Span × List ι) => Arrives g o.1)
        (fun (o : Span × List ι) x => o.1.Holds x ∧ o.2 = (decoders m l).reverse)
        (fun (o : Span × List ι) => o.1.Sound ∧ o.2 = encoders m l) c d := by
      refine Codec.undoes_of_invariant (I := fun c d => ∀ i ∈ l, (m i).Inverts (c i) (d i))
        (fun a o ho => ⟨(a.1, o.1), ho.1.1⟩) ?_ hinv
      intro c d a x hcd ha
      have hpass := passesBack (s := ⟨c, []⟩) (d := ⟨d, []⟩) hl hcd a.1 ha.1 ha.2
      refine ⟨⟨hpass.sound, hpass.calls⟩, fun g hg => ?_⟩
      obtain ⟨hres, hcalls, -, hinv'⟩ := hpass.back g.1 g.2 hg
      exact ⟨⟨hres, hcalls⟩, hinv'⟩
    exact hstack
  · rintro pre i post rfl e s f
    exact ⟨fun encode hi => stack_stops_down m pre post i hi e s f,
      fun decode hi => stack_stops_up m pre post i hi e s f⟩

/-! ### Modules of the daemon -/

section Modules

variable {X : OpenSsl} {pf : Platform} {c : Cipher} {key : List Byte}

theorem shaper_inverts (pf : Platform) (now : EncEnv → TimeVal) (s d : Shaper) :
    (lfdShaper pf now).Inverts s d :=
  fun _ _ _ => rfl

theorem legacy_inverts (hX : BlockCipher X .bf key) : (lfdLegacyEncrypt X).Inverts key key := by
  refine Codec.undoes_of_invariant (I := fun c d => c = key ∧ d = key)
    (fun a out hout => ⟨(a.1, out), hout.1⟩) ?_ ⟨rfl, rfl⟩
  rintro k key ⟨e, f⟩ x ⟨rfl, rfl⟩ ⟨⟨-, hx⟩, hne⟩
  -- only the bytes of the frame count
  have hspan : legacyEncryptBuf X key f = legacyEncryptBuf X key ⟨x.length, x⟩ := by
    rw [legacyEncryptBuf, legacyEncryptBuf, hx, Span.frame_all]
  obtain ⟨hmem, hlen⟩ := legacyEncryptBuf_eq (X := X) key x
  set out := legacyEncryptBuf X key ⟨x.length, x⟩ with hout
  have hmod := Nat.mod_lt x.length (by decide : 0 < 8)
  have hplen : (legacyPadding x.length ++ x).length = 8 - x.length % 8 + x.length := by
    rw [List.length_append, length_legacyPadding]
  have hmemlen : out.mem.length = (legacyPadding x.length ++ x).length := by
    rw [hmem]
    refine (Blocks.length_mapBlocks hX.encLen _).trans (Nat.div_mul_cancel ?_)
    change 8 ∣ _
    rw [hplen]
    omega
  have hwhole : out = ⟨out.mem.length, out.mem⟩ := by rw [hmemlen, ← hlen]
  have hframe : out.frame = out.mem := by
    rw [hwhole]
    exact Span.frame_all _
  have hsound : out.Sound := by
    refine ⟨⟨by rw [hframe, hmemlen, hlen], rfl⟩, fun h0 => ?_⟩
    have hzero := congrArg List.length h0
    rw [hframe, hmemlen, hplen, List.length_nil] at hzero
    omega
  have hcall : (callback ((lfdLegacyEncrypt X).encode.getD passOn) key (e, f)).1 = out := hspan
  rw [hcall]
  refine ⟨hsound, fun g hg => ⟨?_, rfl, rfl⟩⟩
  have hg' : g.2.Holds out.mem := hframe ▸ hg
  have hback := legacy_round_trip hX x (g.2.mem.drop out.mem.length)
  dsimp only at hback
  rw [← hout, hlen, ← hmemlen] at hback
  change (legacyDecryptBuf X key g.2).Holds x
  rw [hg'.eq]
  exact hback

theorem decryptBuf_empty (env : EncEnv) (s : Encryptor X) :
    (decryptBuf env s ⟨0, []⟩).2.len = 0 := by
  have hrecv : (recvMsg env s ⟨0, []⟩).1.len = 0 := by
    rw [recvMsg]
    split
    · have hhead : (Blocks.mapBlocks (X.blkDec s.cipher.algo s.key) s.blocksize
          (([] : List Byte).take (s.blocksize * 2))).take 4 ≠ lit "ivec" := by
        rw [List.take_nil, Blocks.mapBlocks, List.length_nil, Nat.zero_div, Blocks.mapBlocksAux]
        decide
      rw [if_neg hhead]
    · rfl
  rw [decryptBuf]
  simp only [hrecv, if_true]

/-- **Encryptors in step.**  What an end without losses keeps is also what makes
the encryptor a module that inverts what it does. -/
theorem encrypt_inverts (hX : ChainedCipher X c key) (hfit : HeaderFits pf c)
    {packet packet' : Bool} {s r : Encryptor X} (h : Direction c key s r [] [])
    (hs : Calm c key packet s) (hr : Calm c key packet' r) : (lfdEncrypt pf X).Inverts s r := by
  refine Codec.undoes_of_invariant
    (I := fun s r => Direction c key s r [] [] ∧ Calm c key packet s ∧ Calm c key packet' r)
    (fun a out hout => ⟨(a.1, out), hout.1⟩) ?_ ⟨h, hs, hr⟩
  rintro s r ⟨env, f⟩ x ⟨hdir, hs, hr⟩ ⟨⟨-, hx⟩, hne⟩
  obtain ⟨hdir', hs', -, -⟩ := hdir.encrypt hs hfit env f
  rw [hx, List.nil_append, List.nil_append] at hdir'
  have hspan := encryptBuf_plaintext pf env s (f := f) (by rwa [hx])
  set out := encryptBuf pf env s f with hout
  have hholds : out.2.Holds out.2.frame := by
    refine ⟨?_, rfl⟩
    rw [hspan]
    dsimp only
    rw [Span.frame_all]
  have hsound : out.2.Sound := by
    refine ⟨hholds, fun hnil => ?_⟩
    -- nothing decrypts to nothing
    obtain ⟨m, ms, hm, hret, -⟩ := hdir'.deliver hX hr calmEnv []
    obtain rfl : x = m := (List.cons.inj hm).1
    have hzero := hret.1
    rw [hnil, List.append_nil, List.length_nil, Nat.cast_zero, decryptBuf_empty] at hzero
    exact hne (List.length_eq_zero_iff.mp (by exact_mod_cast hzero.symm))
  refine ⟨hsound, fun g hg => ?_⟩
  obtain ⟨m, ms, hm, hret, hdir'', hr', -⟩ :=
    hdir'.deliver hX hr g.1 (g.2.mem.drop out.2.frame.length)
  obtain ⟨rfl, rfl⟩ := List.cons.inj hm
  have hg' : g.2 = _ := Span.Holds.eq hg
  change Returned (decryptBuf g.1 r g.2).2 x ∧
    Direction c key out.1 (decryptBuf g.1 r g.2).1 [] [] ∧ Calm c key packet out.1 ∧
    Calm c key packet' (decryptBuf g.1 r g.2).1
  rw [hg']
  exact ⟨hret, hdir'', hs', hr'⟩

/-- The states of the modules. -/
def ModuleState (X : OpenSsl) : Module → Type
  | .zlib => Unit
  | .lzo => Unit
  | .encrypt => Encryptor X
  | .legacyEncrypt => List Byte
  | .shaper => Shaper

/-- The modules of a daemon that is built without the compression libraries: these
leave their callbacks out. -/
def daemonMods (pf : Platform) (X : OpenSsl) (now : EncEnv → TimeVal) :
    ∀ mod, Mod EncEnv (ModuleState X mod)
  | .zlib => ⟨none, none, none, none⟩
  | .lzo => ⟨none, none, none, none⟩
  | .encrypt => lfdEncrypt pf X
  | .legacyEncrypt => lfdLegacyEncrypt X
  | .shaper => lfdShaper pf now

/-- The modules allocated for a host, in a process whose statics are `last` and
`packet`. -/
def daemonStart (pf : Platform) (X : OpenSsl) (host : VtunHost) (seq : UInt32) (buf : List Byte)
    (packet : Bool) (last : Shaper) : ∀ mod, ModuleState X mod
  | .zlib => ()
  | .lzo => ()
  | .encrypt => allocEncrypt X host seq buf packet
  | .legacyEncrypt => allocLegacyEncrypt X host
  | .shaper => shaperInit pf host last

/-- Two ends with the same cipher and password invert what they do, with a chained
AES cipher and with the old encryptor. -/
theorem daemon_inverts (host : Side → VtunHost)
    (hcipher : (host .server).cipher = (host .client).cipher)
    (hpasswd : (host .server).passwd = (host .client).passwd)
    (haes : (host .client).cipher ≠ legacyEncrypt →
      (Cipher.ofNumber (host .client).cipher).algo = .aes ∧
        (Cipher.ofNumber (host .client).cipher).mode ≠ .ecb ∧
        ChainedCipher X (Cipher.ofNumber (host .client).cipher)
          (prepKey X (Cipher.ofNumber (host .client).cipher).keysize (host .client).passwd))
    (hlegacy : BlockCipher X .bf (allocLegacyEncrypt X (host .client)))
    (now : EncEnv → TimeVal) (seq : Side → UInt32) (buf : Side → List Byte) (packet : Side → Bool)
    (last : Side → Shaper) (mod : Module) (hmod : mod ∈ selected (host .client)) :
    (daemonMods pf X now mod).Inverts
      (daemonStart pf X (host .client) (seq .client) (buf .client) (packet .client)
        (last .client) mod)
      (daemonStart pf X (host .server) (seq .server) (buf .server) (packet .server)
        (last .server) mod) := by
  cases mod with
  | zlib => exact fun _ _ _ => rfl
  | lzo => exact fun _ _ _ => rfl
  | shaper => exact shaper_inverts pf now _ _
  | legacyEncrypt =>
    have hkey : allocLegacyEncrypt X (host .server) = allocLegacyEncrypt X (host .client) := by
      rw [allocLegacyEncrypt, allocLegacyEncrypt, hpasswd]
    change (lfdLegacyEncrypt X).Inverts (allocLegacyEncrypt X (host .client))
      (allocLegacyEncrypt X (host .server))
    rw [hkey]
    exact legacy_inverts hlegacy
  | encrypt =>
    have hne : (host .client).cipher ≠ legacyEncrypt := by
      intro h
      revert hmod
      unfold selected
      cases hasFlag (host .client).flags Flag.zlib <;>
        cases hasFlag (host .client).flags Flag.lzo <;>
        cases hasFlag (host .client).flags Flag.encrypt <;>
        cases hasFlag (host .client).flags Flag.shape <;> simp [h]
    obtain ⟨halgo, hmode, hX⟩ := haes hne
    have hsame := fun b => same_key (X := X) hcipher hpasswd
      (Cipher.ofNumber (host .client).cipher).keysize b
    have hstart := transparent_start (X := X) (fun b => (hsame b).1) hmode (fun b => (hsame b).2)
      seq buf packet
    obtain ⟨done, ms, hsent, hgot, hdir⟩ := hstart.delivered .client
    obtain ⟨rfl, rfl⟩ : done = [] ∧ ms = [] := List.append_eq_nil_iff.mp hsent.symm
    exact encrypt_inverts hX (headerFits_aes pf halgo) hdir (hstart.calm .client)
      (hstart.calm .server)

end Modules

/-- A session with AES in CBC mode and a shaper. -/
def shapedAes : VtunHost :=
  { sampleHost 10 with flags := Flag.tun ||| Flag.tcp ||| Flag.encrypt ||| Flag.shape }

/-- Its modules at both ends. -/
def shapedStart : ∀ mod, ModuleState shiftSsl mod :=
  daemonStart .lp64 shiftSsl shapedAes 0 [] false ⟨0, 0, ⟨0, 0⟩⟩

theorem codec_stack_transparent_shaped :
    let m := daemonMods .lp64 shiftSsl fun env => ⟨env.time₁, 0⟩
    let l := selected shapedAes
    let made := (Codec.runAll (downCall m l) shapedStart [(calmEnv, ⟨2, [5, 6]⟩)]).1
    (∀ o ∈ made, o.1.Sound ∧ o.2 = encoders m l) ∧
    (∀ received, List.Forall₂ (fun g o => Arrives g o.1) received made →
      List.Forall₂ (fun o x => o.1.Holds x ∧ o.2 = (decoders m l).reverse)
        (Codec.runAll (upCall m l) shapedStart received).1 [[5, 6]]) ∧
    (lfdRunUp calmEnv (stack m l).reverse ⟨shapedStart, []⟩ ⟨1, [0]⟩).1.calls = [.encrypt] := by
  have h := codec_stack_transparent (daemonMods .lp64 shiftSsl fun env => ⟨env.time₁, 0⟩)
    (selected shapedAes)
  have hback := h.1 (selected_nodup _) shapedStart shapedStart
    (fun mod hmod => daemon_inverts (fun _ => shapedAes) rfl rfl
      (fun _ => ⟨rfl, by decide, chainedCipher_shiftSsl _ _⟩) (blockCipher_shiftSsl _ _) _
      (fun _ => 0) (fun _ => []) (fun _ => false) (fun _ => ⟨0, 0, ⟨0, 0⟩⟩) mod hmod)
    [(calmEnv, ⟨2, [5, 6]⟩)] [[5, 6]] (.cons ⟨⟨rfl, rfl⟩, by decide⟩ .nil)
  have hstop := (h.2 [] .encrypt [.shaper] rfl calmEnv ⟨shapedStart, []⟩ ⟨1, [0]⟩).2 decryptBuf rfl
    (by decide) (by decide)
  refine ⟨hback.1, hback.2, ?_⟩
  rw [hstop]
  rfl

end Vtun
