/-
What the negotiated parameters depend on (`auth.c`, `client.c`).

The record `cf2bf` works on has been through earlier negotiations, and a failed one
leaves behind what it has read.  `Alike` says that two records differ only where
the flags hide it.

* `cf2bfLoop_alike` — two records that are alike stay so, whatever the message is;
* `cf2bf_mask` — the flags that belong to the client stay as they are;
* `negotiation_alike` — what is negotiated depends on the message alone.
-/
import Vtun.FlagsGrammar

namespace Vtun

/-- Two records with the same flags and speed, which differ at most in a level or a
cipher that their flags do not ask for. -/
structure Alike (a b : VtunHost) : Prop where
  flags : a.flags = b.flags
  spdOut : a.spdOut = b.spdOut
  zlevel : hasFlag a.flags Flag.zlib = true ∨ hasFlag a.flags Flag.lzo = true →
    a.zlevel = b.zlevel
  cipher : hasFlag a.flags Flag.encrypt = true → a.cipher = b.cipher

/-- The letters without a number set none of these flags: those of the client, the
compressors and the encryption. -/
def silentMask : BitVec 32 := Flag.clntMask ||| Flag.zlib ||| Flag.lzo ||| Flag.encrypt

/-- An effect that hides nothing it does not write. -/
def FlagEffect.Open : FlagEffect → Prop
  | .set bits => bits &&& silentMask = 0
  | .prot bit => bit &&& silentMask = 0
  | .compress bit _ => bit = Flag.zlib ∨ bit = Flag.lzo
  | .encrypt _ => True
  | .speed _ => True

/-- The effects of the decoder are of this kind. -/
theorem open_effectOf (pf : Platform) (k : Byte × Option ℤ) : (effectOf pf k).Open := by
  unfold effectOf
  dsimp only
  split
  case h_8 => exact Or.inl rfl
  case h_9 => exact Or.inr rfl
  all_goals first | exact trivial | rfl

theorem open_of_turn {pf : Platform} {b : Byte} {ptr p : List Byte} {e : FlagEffect}
    (h : cf2bfTurn pf b ptr = .go e p) : e.Open := by
  obtain ⟨i, -, -, rfl, -⟩ := cf2bfTurn_go h
  exact open_effectOf pf i.said

/-- Bits that are not set by `x` were there before. -/
theorem hasFlag_of_or {f x m : BitVec 32} (h : hasFlag (f ||| x) m = true) (hx : x &&& m = 0) :
    hasFlag f m = true := by
  rw [hasFlag_or, Bool.or_eq_true] at h
  rcases h with h | h
  · exact h
  · rw [hasFlag, hx] at h
    cases h

theorem hasFlag_of_and {f x m : BitVec 32} (h : hasFlag (f &&& x) m = true) :
    hasFlag f m = true := by
  rw [hasFlag, bne_iff_ne] at h ⊢
  intro hzero
  refine h ?_
  rw [BitVec.and_assoc, BitVec.and_comm x m, ← BitVec.and_assoc, hzero]
  exact BitVec.zero_and

/-- A part of a mask is as clear as the mask. -/
theorem and_part_eq_zero {x mask m : BitVec 32} (h : x &&& mask = 0) (hm : mask &&& m = m) :
    x &&& m = 0 := by
  rw [← hm, ← BitVec.and_assoc, h]
  exact BitVec.zero_and

/-- The masks of the fields that flags can hide are silent. -/
theorem silentMask_parts : silentMask &&& Flag.zlib = Flag.zlib ∧
    silentMask &&& Flag.lzo = Flag.lzo ∧ silentMask &&& Flag.encrypt = Flag.encrypt ∧
    silentMask &&& Flag.clntMask = Flag.clntMask := by decide

variable {a b : VtunHost}

/-- Flags that change without the silent ones change nothing else. -/
theorem Alike.withFlags (h : Alike a b) (keep : BitVec 32) {x : BitVec 32}
    (hx : x &&& silentMask = 0) :
    Alike { a with flags := a.flags &&& keep ||| x }
      { b with flags := b.flags &&& keep ||| x } := by
  obtain ⟨hz, hl, he, -⟩ := silentMask_parts
  refine ⟨by rw [h.flags], h.spdOut, fun hf => h.zlevel ?_, fun hf => h.cipher ?_⟩
  · rcases hf with hf | hf
    · exact Or.inl (hasFlag_of_and (hasFlag_of_or hf (and_part_eq_zero hx hz)))
    · exact Or.inr (hasFlag_of_and (hasFlag_of_or hf (and_part_eq_zero hx hl)))
  · exact hasFlag_of_and (hasFlag_of_or hf (and_part_eq_zero hx he))

/-- **An item leaves two records alike that were alike**: it writes what the flags it
sets ask for. -/
theorem Alike.run (h : Alike a b) {e : FlagEffect} (he : e.Open) :
    Alike (e.run a) (e.run b) := by
  cases e with
  | set bits =>
    have hall := h.withFlags (BitVec.allOnes 32) he
    rw [BitVec.and_allOnes, BitVec.and_allOnes] at hall
    exact hall
  | prot bit => exact h.withFlags (~~~Flag.protMask) he
  | compress bit level =>
    refine ⟨congrArg (· ||| bit) h.flags, h.spdOut, fun _ => rfl, fun hf => h.cipher ?_⟩
    rcases he with rfl | rfl
    · exact hasFlag_of_or hf (by decide)
    · exact hasFlag_of_or hf (by decide)
  | encrypt cipher =>
    refine ⟨congrArg (· ||| Flag.encrypt) h.flags, h.spdOut, fun hf => h.zlevel ?_, fun _ => rfl⟩
    rcases hf with hf | hf
    · exact Or.inl (hasFlag_of_or hf (by decide))
    · exact Or.inr (hasFlag_of_or hf (by decide))
  | speed spd =>
    rw [FlagEffect.run, FlagEffect.run]
    split
    · refine ⟨congrArg (· ||| Flag.shape) h.flags, rfl, fun hf => h.zlevel ?_,
        fun hf => h.cipher ?_⟩
      · rcases hf with hf | hf
        · exact Or.inl (hasFlag_of_or hf (by decide))
        · exact Or.inr (hasFlag_of_or hf (by decide))
      · exact hasFlag_of_or hf (by decide)
    · exact h

/-- **Two runs of the loop** on records that are alike.  The induction is on the
turns; what a turn reads does not depend on the record. -/
theorem cf2bfLoop_alike (pf : Platform) (n : ℕ) (s : List Byte) (h : Alike a b) :
    (cf2bfLoop pf n s a).1 = (cf2bfLoop pf n s b).1 ∧
      Alike (cf2bfLoop pf n s a).2 (cf2bfLoop pf n s b).2 := by
  induction n generalizing s a b with
  | zero => exact ⟨rfl, h⟩
  | succ n ih =>
    cases s with
    | nil => exact ⟨rfl, h⟩
    | cons byte ptr =>
      rw [cf2bfLoop_turn, cf2bfLoop_turn]
      cases hturn : cf2bfTurn pf byte ptr with
      | ret ok => exact ⟨rfl, h⟩
      | go e p => exact ih p (h.run (open_of_turn hturn))

/-- An item leaves the flags of the client alone. -/
theorem run_mask {e : FlagEffect} (he : e.Open) (host : VtunHost) :
    (e.run host).flags &&& Flag.clntMask = host.flags &&& Flag.clntMask := by
  obtain ⟨-, -, -, hclnt⟩ := silentMask_parts
  have hor : ∀ {f x : BitVec 32}, x &&& Flag.clntMask = 0 →
      (f ||| x) &&& Flag.clntMask = f &&& Flag.clntMask := by
    intro f x hx
    rw [BitVec.and_or_distrib_right, hx]
    exact BitVec.or_zero
  cases e with
  | set bits => exact hor (and_part_eq_zero he hclnt)
  | prot bit =>
    have hkeep : ~~~Flag.protMask &&& Flag.clntMask = Flag.clntMask := by decide
    refine (hor (and_part_eq_zero he hclnt)).trans ?_
    rw [BitVec.and_assoc, hkeep]
  | compress bit level =>
    rcases he with rfl | rfl
    · exact hor (by decide)
    · exact hor (by decide)
  | encrypt cipher => exact hor (by decide)
  | speed spd =>
    rw [FlagEffect.run]
    split
    · exact hor (by decide)
    · rfl

theorem cf2bfLoop_mask (pf : Platform) (n : ℕ) (s : List Byte) (host : VtunHost) :
    (cf2bfLoop pf n s host).2.flags &&& Flag.clntMask = host.flags &&& Flag.clntMask := by
  induction n generalizing s host with
  | zero => rfl
  | succ n ih =>
    cases s with
    | nil => rfl
    | cons byte ptr =>
      rw [cf2bfLoop_turn]
      cases hturn : cf2bfTurn pf byte ptr with
      | ret ok => rfl
      | go e p => exact (ih p _).trans (run_mask (open_of_turn hturn) host)

/-- **The server cannot switch the flags of the client.** -/
theorem cf2bf_mask (pf : Platform) (str : List Byte) (host : VtunHost) :
    (cf2bf pf str host).2.flags &&& Flag.clntMask = host.flags &&& Flag.clntMask := by
  rw [cf2bf]
  split
  · rfl
  · exact cf2bfLoop_mask pf _ _ host

/-- After the clearing in `client` only the flags of the client are left. -/
theorem alike_clientClear (hmask : a.flags &&& Flag.clntMask = b.flags &&& Flag.clntMask) :
    Alike (clientClear a) (clientClear b) := by
  have hclear : ∀ {f m : BitVec 32}, Flag.clntMask &&& m = 0 →
      hasFlag (f &&& Flag.clntMask) m = true → False := by
    intro f m hm hf
    rw [hasFlag, BitVec.and_assoc, hm] at hf
    simp at hf
  refine ⟨hmask, rfl, fun hf => ?_, fun hf => ?_⟩
  · rcases hf with hf | hf
    · exact (hclear (by decide) hf).elim
    · exact (hclear (by decide) hf).elim
  · exact (hclear (by decide) hf).elim

/-- **What is negotiated depends on the message alone**: whatever earlier negotiations
have left in two records, the decoder returns the same on both, the records agree in
all that the flags ask for, and the flags of the client are as they were. -/
theorem negotiation_alike (pf : Platform) (str : List Byte)
    (hmask : a.flags &&& Flag.clntMask = b.flags &&& Flag.clntMask) :
    let r := cf2bf pf str (clientClear a)
    let r' := cf2bf pf str (clientClear b)
    r.1 = r'.1 ∧
      (r.1 = true → r.2.flags = r'.2.flags ∧ r.2.spdOut = r'.2.spdOut ∧
        (hasFlag r.2.flags Flag.zlib = true ∨ hasFlag r.2.flags Flag.lzo = true →
          r.2.zlevel = r'.2.zlevel) ∧
        (hasFlag r.2.flags Flag.encrypt = true → r.2.cipher = r'.2.cipher)) ∧
      r.2.flags &&& Flag.clntMask = a.flags &&& Flag.clntMask ∧
      r'.2.flags &&& Flag.clntMask = b.flags &&& Flag.clntMask := by
  have hstart := alike_clientClear hmask
  have hruns : (cf2bf pf str (clientClear a)).1 = (cf2bf pf str (clientClear b)).1 ∧
      Alike (cf2bf pf str (clientClear a)).2 (cf2bf pf str (clientClear b)).2 := by
    rw [cf2bf, cf2bf]
    split
    · exact ⟨rfl, hstart⟩
    · exact cf2bfLoop_alike pf _ _ hstart
  have hkept : ∀ host : VtunHost, (clientClear host).flags &&& Flag.clntMask =
      host.flags &&& Flag.clntMask := by
    intro host
    show host.flags &&& Flag.clntMask &&& Flag.clntMask = _
    rw [BitVec.and_assoc, BitVec.and_self]
  obtain ⟨hret, halike⟩ := hruns
  refine ⟨hret, fun _ => ⟨halike.flags, halike.spdOut, halike.zlevel, halike.cipher⟩, ?_, ?_⟩
  · rw [cf2bf_mask, hkept]
  · rw [cf2bf_mask, hkept]

/-- The record of a client whose last negotiation has failed behind `E7C3`. -/
def failedHost : VtunHost :=
  { clientHost with flags := 0x1000 ||| Flag.encrypt ||| Flag.zlib, zlevel := 3, cipher := 7 }

/-- The level is that of the message. -/
theorem negotiation_alike_failed :
    (cf2bf .lp64 (lit "<TuC9>") (clientClear clientHost)).2.zlevel =
      (cf2bf .lp64 (lit "<TuC9>") (clientClear failedHost)).2.zlevel := by
  have hmask : clientHost.flags &&& Flag.clntMask = failedHost.flags &&& Flag.clntMask := by
    decide
  obtain ⟨-, hsame, -⟩ := negotiation_alike .lp64 (lit "<TuC9>") hmask
  exact (hsame (by decide)).2.2.1 (by decide)

end Vtun
