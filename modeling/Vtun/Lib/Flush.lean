/-
Streams that are flushed between messages.

An encoder and a decoder of a stream remember what has gone into them, what has come out of
them, and hold back a part of what is still to come out.  At a point where the encoder holds
nothing back, a message and its code end together.

* `Restores` — a decoder gives back what the encoder was fed;
* `Between.snoc` — one more message behind those on their way;
* `InStep.receive` — the code of the oldest message gives it back, and the decoder is in step
  with the encoder at its end.
-/
import Mathlib.Data.List.Basic
import Mathlib.Tactic.Common

namespace Flush

variable {δ ι α β : Type*}

/-- What has gone into a stream, what has come out of it and what it holds back. -/
structure Log (σ α β : Type*) where
  fed : σ → List α
  made : σ → List β
  held : σ → List β

variable (E : Log δ α β) (D : Log ι β α)

/-- A decoder that is fed a part of what the encoder has made has a part of what this was fed;
with all of it, if the encoder holds nothing back, it has all. -/
structure Restores : Prop where
  part : ∀ d i, D.fed i <+: E.made d → D.made i ++ D.held i <+: E.fed d
  whole : ∀ d i, E.held d = [] → D.fed i = E.made d → D.made i ++ D.held i = E.fed d

/-- From `d` to `d'` the encoder takes the message `x`, makes the code `y` and holds nothing
back. -/
structure Flushes (d : δ) (x : List α) (y : List β) (d' : δ) : Prop where
  fed : E.fed d' = E.fed d ++ x
  made : E.made d' = E.made d ++ y
  held : E.held d' = []

/-- From `d` to `d'` the encoder makes codes of messages. -/
inductive Between : δ → List (List β) → List (List α) → δ → Prop
  | nil (d : δ) : Between d [] [] d
  | cons {d d₁ d' : δ} {x : List α} {y : List β} {ys : List (List β)} {xs : List (List α)}
    (hone : Flushes E d x y d₁) (hrest : Between d₁ ys xs d') : Between d (y :: ys) (x :: xs) d'

/-- The decoder has had all that the encoder had made at `d`, and holds nothing back. -/
structure InStep (d : δ) (i : ι) : Prop where
  flushed : E.held d = []
  fed : D.fed i = E.made d
  held : D.held i = []

variable {E D} {d d₁ d' : δ} {i i' : ι} {x : List α} {y z : List β} {w : List α}
  {ys : List (List β)} {xs : List (List α)}

/-- **One more message** behind those on their way. -/
theorem Between.snoc (h : Between E d ys xs d') {d'' : δ} (hone : Flushes E d' x y d'') :
    Between E d (ys ++ [y]) (xs ++ [x]) d'' := by
  induction h with
  | nil d => exact .cons hone (.nil _)
  | cons hfirst _ ih => exact .cons hfirst (ih hone)

theorem Between.length_eq (h : Between E d ys xs d') : ys.length = xs.length := by
  induction h with
  | nil d => rfl
  | cons _ _ ih => exact congrArg Nat.succ ih

theorem InStep.made (h : InStep E D d i) (hD : Restores E D) : D.made i = E.fed d := by
  have hall := hD.whole d i h.flushed h.fed
  rwa [h.held, List.append_nil] at hall

/-- With a part of a code the decoder has a part of its message. -/
theorem InStep.partial_le (h : InStep E D d i) (hD : Restores E D) (hone : Flushes E d x y d₁)
    (hz : z <+: y) (hfed : D.fed i' = D.fed i ++ z) (hmade : D.made i' = D.made i ++ w) :
    w ++ D.held i' <+: x := by
  have hprefix : D.fed i' <+: E.made d₁ := by
    rw [hfed, h.fed, hone.made]
    exact (List.prefix_append_right_inj _).mpr hz
  have hpart := hD.part d₁ i' hprefix
  rw [hmade, h.made hD, hone.fed, List.append_assoc] at hpart
  exact (List.prefix_append_right_inj _).mp hpart

/-- **The code of a message gives it back.** -/
theorem InStep.receive (h : InStep E D d i) (hD : Restores E D) (hone : Flushes E d x y d₁)
    (hfed : D.fed i' = D.fed i ++ y) (hmade : D.made i' = D.made i ++ w)
    (hheld : D.held i' = []) : w = x ∧ InStep E D d₁ i' := by
  have hall : D.fed i' = E.made d₁ := by rw [hfed, h.fed, hone.made]
  have hwhole := hD.whole d₁ i' hone.held hall
  rw [hmade, h.made hD, hone.fed, hheld, List.append_nil] at hwhole
  exact ⟨List.append_cancel_left hwhole, hone.held, hall, hheld⟩

end Flush
