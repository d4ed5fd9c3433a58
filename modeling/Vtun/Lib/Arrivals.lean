/-
Messages that arrive in any order, or not at all, or more than once.

The `i`-th message that was sent carries the `i`-th of some items, or none; the numbers of
the messages that have arrived say what has arrived of them.

* `mem_of_mem_arrived` — only what was sent arrives;
* `arrived_sublist` — messages that come in order and once each leave the order of the items;
* `arrived_append` — what is sent later changes nothing of what has arrived.
-/
import Mathlib.Data.List.ReduceOption
import Mathlib.Data.List.Sort

namespace Arrivals

variable {α : Type*} {items more : List (Option α)} {nums : List ℕ}

/-- The items of the messages that have arrived. -/
def arrived (items : List (Option α)) (nums : List ℕ) : List α :=
  nums.filterMap fun i => items[i]?.join

theorem arrived_snoc (items : List (Option α)) (nums : List ℕ) (i : ℕ) :
    arrived items (nums ++ [i]) = arrived items nums ++ (items[i]?.join).toList := by
  rw [arrived, List.filterMap_append, List.filterMap_cons, List.filterMap_nil, arrived]
  cases items[i]?.join with
  | none => rfl
  | some a => rfl

theorem mem_of_mem_arrived {a : α} (h : a ∈ arrived items nums) : a ∈ items.reduceOption := by
  obtain ⟨i, -, hi⟩ := List.mem_filterMap.mp h
  have hget : items[i]? = some (some a) := Option.join_eq_some_iff.mp hi
  exact List.reduceOption_mem_iff.mpr (List.mem_of_getElem? hget)

/-- All messages, in the order in which they were sent. -/
theorem arrived_range (items : List (Option α)) :
    arrived items (List.range items.length) = items.reduceOption := by
  have hall : (List.range items.length).map (fun i => items[i]?.join) = items := by
    refine List.ext_getElem (by simp) fun i hi hi' => ?_
    rw [List.getElem_map, List.getElem_range, List.getElem?_eq_getElem hi']
    rfl
  conv_rhs => rw [← hall]
  rw [arrived, List.reduceOption, List.filterMap_map]
  rfl

/-- **Messages in order and once each.** -/
theorem arrived_sublist (hin : ∀ i ∈ nums, i < items.length) (h : nums.Pairwise (· < ·)) :
    (arrived items nums).Sublist items.reduceOption := by
  have hnodup : nums.Nodup := h.imp fun hlt => ne_of_lt hlt
  have hsub : nums.Subperm (List.range items.length) :=
    List.subperm_of_subset hnodup fun i hi => List.mem_range.mpr (hin i hi)
  have hnums : nums.Sublist (List.range items.length) :=
    List.sublist_of_subperm_of_pairwise hsub h List.pairwise_lt_range
  rw [← arrived_range]
  exact hnums.filterMap _

theorem arrived_append (hin : ∀ i ∈ nums, i < items.length) :
    arrived (items ++ more) nums = arrived items nums := by
  refine List.filterMap_congr fun i hi => ?_
  rw [List.getElem?_append_left (hin i hi)]

end Arrivals
