/-
Channels that lose messages.

A message in flight carries an item or none.  `Tracks` says that the items that
came out and those still in flight are, in this order, a part of the items that
were handed in.

* `Tracks.send`, `Tracks.lose`, `Tracks.deliver` — what can happen to a message;
* `Tracks.sublist` — what came out is a part of what was handed in, in order.
-/
import Mathlib.Data.List.Forall2
import Mathlib.Data.List.ReduceOption

namespace Lossy

variable {α β : Type*} (R : β → Option α → Prop)

/-- What came out, and what is in flight, of the items handed in; `R` tells what
a message carries. -/
def Tracks (handed out : List α) (flight : List β) : Prop :=
  ∃ os, List.Forall₂ R flight os ∧ (out ++ os.reduceOption).Sublist handed

variable {R} {handed out : List α} {flight : List β} {b : β}

theorem Tracks.nil : Tracks R ([] : List α) [] [] :=
  ⟨[], .nil, List.Sublist.refl _⟩

/-- A message with the last item handed in, or without one. -/
theorem Tracks.send (h : Tracks R handed out flight) {o : Option α} (hb : R b o) :
    Tracks R (handed ++ o.toList) out (flight ++ [b]) := by
  obtain ⟨os, hos, hsub⟩ := h
  refine ⟨os ++ [o], List.rel_append hos (.cons hb .nil), ?_⟩
  have hlast : [o].reduceOption = o.toList := by cases o <;> rfl
  rw [List.reduceOption_append, ← List.append_assoc, hlast]
  exact hsub.append (List.Sublist.refl _)

/-- The oldest message gets lost. -/
theorem Tracks.lose (h : Tracks R handed out (b :: flight)) : Tracks R handed out flight := by
  obtain ⟨os, hos, hsub⟩ := h
  cases hos with
  | @cons _ o _ os' hb hos' =>
    -- Without its item, if it has one, the rest is still a part of what was handed in.
    refine ⟨os', hos', List.Sublist.trans ?_ hsub⟩
    refine (List.Sublist.refl _).append ?_
    cases o with
    | none => exact List.Sublist.refl _
    | some a => exact List.sublist_cons_self a _

/-- **The oldest message arrives**: its item, if it has one, may come out. -/
theorem Tracks.deliver (h : Tracks R handed out (b :: flight)) :
    ∃ o, R b o ∧ Tracks R handed out flight ∧
      ∀ a, o = some a → Tracks R handed (out ++ [a]) flight := by
  have hlose := h.lose
  obtain ⟨os, hos, hsub⟩ := h
  cases hos with
  | @cons _ o _ os' hb hos' =>
    refine ⟨o, hb, hlose, ?_⟩
    rintro a rfl
    refine ⟨os', hos', ?_⟩
    rw [List.append_assoc]
    exact hsub

theorem Tracks.sublist (h : Tracks R handed out flight) : out.Sublist handed := by
  obtain ⟨os, -, hsub⟩ := h
  exact (List.sublist_append_left _ _).trans hsub

end Lossy
