/-
Stateful encoders and decoders in step.

An encoder and a decoder each carry a state from one call to the next.  They are
in step when whatever the encoder makes from here on, the decoder, given all of
it in order, turns back.

* `InStep.decode`, `InStep.step` — the next message comes back, and the two stay
  in step;
* `runAll_snoc` — one more message behind those in flight;
* `KeepsSize.one`, `KeepsSize.step` — sizes that the encoder keeps;
* `Undoes`, `undoes_of_invariant` — the same where messages only stand for what
  is sent, so that one may come back in another shape.
-/
import Mathlib.Tactic.Common
import Mathlib.Data.List.Forall2

namespace Codec

variable {κ δ α β : Type*}

/-- The messages of a sequence of calls, and the state after them. -/
def runAll (f : κ → α → β × κ) : κ → List α → List β × κ
  | s, [] => ([], s)
  | s, a :: as => ((f s a).1 :: (runAll f (f s a).2 as).1, (runAll f (f s a).2 as).2)

variable (enc : κ → α → β × κ) (dec : δ → β → α × δ) (ok : α → Prop)
variable (size : α → ℕ) (size' : β → ℕ)

/-- From the states `c` and `d` on, everything admissible comes back. -/
def InStep (c : κ) (d : δ) : Prop :=
  ∀ as, (∀ a ∈ as, ok a) → (runAll dec d (runAll enc c as).1).1 = as

/-- From the state `c` on, everything admissible keeps its size. -/
def KeepsSize (c : κ) : Prop :=
  ∀ as, (∀ a ∈ as, ok a) → (runAll enc c as).1.map size' = as.map size

variable {enc dec ok size size'} {c : κ} {d : δ} {a : α}

theorem runAll_snoc (as : List α) (a : α) :
    runAll enc c (as ++ [a]) =
      ((runAll enc c as).1 ++ [(enc (runAll enc c as).2 a).1],
        (enc (runAll enc c as).2 a).2) := by
  induction as generalizing c with
  | nil => rfl
  | cons b as ih => rw [List.cons_append, runAll, ih, runAll, List.cons_append]

theorem InStep.decode (h : InStep enc dec ok c d) (ha : ok a) : (dec d (enc c a).1).1 = a := by
  have hone := h [a] (by simpa using ha)
  simpa [runAll] using hone

/-- **The two stay in step.** -/
theorem InStep.step (h : InStep enc dec ok c d) (ha : ok a) :
    InStep enc dec ok (enc c a).2 (dec d (enc c a).1).2 := by
  intro as has
  have hcons := h (a :: as) (by simpa [ha] using has)
  rw [runAll, runAll] at hcons
  exact (List.cons.inj hcons).2

theorem KeepsSize.one (h : KeepsSize enc ok size size' c) (ha : ok a) :
    size' (enc c a).1 = size a := by
  have hone := h [a] (by simpa using ha)
  simpa [runAll] using hone

theorem KeepsSize.step (h : KeepsSize enc ok size size' c) (ha : ok a) :
    KeepsSize enc ok size size' (enc c a).2 := by
  intro as has
  have hcons := h (a :: as) (by simpa [ha] using has)
  rw [runAll, List.map_cons, List.map_cons] at hcons
  exact (List.cons.inj hcons).2

/-! ### Messages that stand for something -/

section Undoes

variable {γ ζ ω : Type*} (encode : κ → α → β × κ) (decode : δ → γ → ζ × δ)
variable (source : α → ω → Prop) (wire : γ → β → Prop) (result : ζ → ω → Prop) (good : β → Prop)

/-- From the states `c` and `d` on, everything made is good, and the decoder,
given messages `wire` relates to those made, in order, returns results that stand
for what the encoder was given. -/
def Undoes (c : κ) (d : δ) : Prop :=
  ∀ as ws, List.Forall₂ source as ws → (∀ b ∈ (runAll encode c as).1, good b) ∧
    ∀ gs, List.Forall₂ wire gs (runAll encode c as).1 →
      List.Forall₂ result (runAll decode d gs).1 ws

variable {encode decode source wire result good} {w : ω}

theorem Undoes.made (h : Undoes encode decode source wire result good c d) (ha : source a w) :
    good (encode c a).1 :=
  (h [a] [w] (.cons ha .nil)).1 _ (by simp [runAll])

theorem Undoes.back (h : Undoes encode decode source wire result good c d) (ha : source a w)
    {g : γ} (hg : wire g (encode c a).1) : result (decode d g).1 w := by
  have hone := (h [a] [w] (.cons ha .nil)).2 [g] (.cons hg .nil)
  exact (List.forall₂_cons.mp hone).1

theorem Undoes.step (h : Undoes encode decode source wire result good c d) (ha : source a w)
    {g : γ} (hg : wire g (encode c a).1) :
    Undoes encode decode source wire result good (encode c a).2 (decode d g).2 := by
  intro as ws hws
  obtain ⟨hgood, hback⟩ := h (a :: as) (w :: ws) (.cons ha hws)
  refine ⟨fun b hb => hgood b (List.mem_cons_of_mem _ hb), fun gs hgs => ?_⟩
  exact (List.forall₂_cons.mp (hback (g :: gs) (.cons hg hgs))).2

/-- **A relation between the states that every message keeps.**  The induction is
on the messages; the decoder is a message behind. -/
theorem undoes_of_invariant {I : κ → δ → Prop} (hwire : ∀ (_ : α) b, good b → ∃ g, wire g b)
    (hstep : ∀ c d a w, I c d → source a w → good (encode c a).1 ∧
      ∀ g, wire g (encode c a).1 → result (decode d g).1 w ∧ I (encode c a).2 (decode d g).2)
    (h : I c d) : Undoes encode decode source wire result good c d := by
  intro as ws hws
  induction hws generalizing c d with
  | nil =>
    refine ⟨by simp [runAll], fun gs hgs => ?_⟩
    obtain rfl : gs = [] := List.forall₂_nil_right_iff.mp hgs
    exact .nil
  | @cons a w as ws ha hws ih =>
    obtain ⟨hgood, hback⟩ := hstep c d a w h ha
    -- some message of those that can arrive takes the decoder along
    obtain ⟨g₀, hg₀⟩ := hwire a _ hgood
    refine ⟨?_, ?_⟩
    · intro b hb
      rw [runAll, List.mem_cons] at hb
      rcases hb with rfl | hb
      · exact hgood
      · exact (ih (hback g₀ hg₀).2).1 b hb
    · intro gs hgs
      rw [runAll] at hgs
      obtain ⟨g, gs, hg, hgs', rfl⟩ := List.forall₂_cons_right_iff.mp hgs
      exact .cons (hback g hg).1 ((ih (hback g hg).2).2 gs hgs')

end Undoes

end Codec
