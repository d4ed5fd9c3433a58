/-
Linked lists made of pointers.

A field of a record type is a function `next : α → Option α` from nodes to the
node it points at; `Follows next p l` says that the list followed from `p`
through `next` is `l` and ends there.  `Linked` is the two-way version, with
the backward list the exact reverse of the forward one.

* `Follows.unique` — a pointer structure has at most one list;
* `Follows.nodup` — a list that ends meets no node twice;
* `walk_card` — following as many steps as there are nodes decides whether the
  list ends;
* `Follows.append_node` — rewriting one node as the last and hanging it behind
  another never makes a list run in a circle.
-/
import Mathlib.Data.Fintype.Card
import Mathlib.Data.List.Nodup
import Mathlib.Logic.Function.Basic

namespace Chain

variable {α : Type*} {next prev : α → Option α}

/-- The list followed from `p` through `next` is `l` and ends. -/
def Follows (next : α → Option α) : Option α → List α → Prop
  | p, [] => p = none
  | p, a :: l => p = some a ∧ Follows next (next a) l

@[simp] theorem follows_nil {p : Option α} : Follows next p [] ↔ p = none := Iff.rfl

@[simp] theorem follows_cons {p : Option α} {a : α} {l : List α} :
    Follows next p (a :: l) ↔ p = some a ∧ Follows next (next a) l := Iff.rfl

instance decidableFollows [DecidableEq α] (next : α → Option α) :
    ∀ p l, Decidable (Follows next p l)
  | p, [] => inferInstanceAs (Decidable (p = none))
  | p, a :: l =>
    have := decidableFollows next (next a) l
    inferInstanceAs (Decidable (p = some a ∧ Follows next (next a) l))

theorem Follows.unique {p : Option α} {l l' : List α} (h : Follows next p l)
    (h' : Follows next p l') : l = l' := by
  induction l generalizing p l' with
  | nil =>
    cases l' with
    | nil => rfl
    | cons a l' => exact absurd (h.symm.trans h'.1) (by simp)
  | cons a l ih =>
    cases l' with
    | nil => exact absurd (h.1.symm.trans h') (by simp)
    | cons b l' =>
      obtain ⟨rfl, h⟩ := h
      obtain ⟨hab, h'⟩ := h'
      obtain rfl : a = b := by simpa using hab
      rw [ih h h']

/-- Every tail of a followed list is followed from some node. -/
theorem Follows.of_append {p : Option α} {l l' : List α} (h : Follows next p (l ++ l')) :
    ∃ q, Follows next q l' := by
  induction l generalizing p with
  | nil => exact ⟨p, h⟩
  | cons a l ih => exact ih h.2

theorem Follows.nodup {p : Option α} {l : List α} (h : Follows next p l) : l.Nodup := by
  induction l generalizing p with
  | nil => exact List.nodup_nil
  | cons a l ih =>
    refine List.nodup_cons.mpr ⟨fun hmem => ?_, ih h.2⟩
    -- A second visit of `a` would be followed by `l` itself and by a shorter list.
    obtain ⟨u, v, rfl⟩ := List.append_of_mem hmem
    obtain ⟨q, hq⟩ := h.2.of_append
    have heq := hq.2.unique h.2
    have := congrArg List.length heq
    simp only [List.length_append, List.length_cons] at this
    omega

/-- A list that is followed depends on the pointers of its own nodes only. -/
theorem Follows.congr {next' : α → Option α} {p : Option α} {l : List α}
    (h : Follows next p l) (heq : ∀ a ∈ l, next' a = next a) : Follows next' p l := by
  induction l generalizing p with
  | nil => exact h
  | cons a l ih =>
    refine ⟨h.1, ?_⟩
    rw [heq a (by simp)]
    exact ih h.2 fun b hb => heq b (by simp [hb])

/-- The last node of a followed list points nowhere. -/
theorem Follows.next_last {p : Option α} {l : List α} {a : α}
    (h : Follows next p (l ++ [a])) : next a = none := by
  induction l generalizing p with
  | nil => exact h.2
  | cons b l ih => exact ih h.2

/-- The nodes met from `p`, unless the list has not ended after `n` of them. -/
def walk (next : α → Option α) : ℕ → Option α → Option (List α)
  | _, none => some []
  | 0, some _ => none
  | n + 1, some a => (walk next n (next a)).map (a :: ·)

theorem walk_eq_some {n : ℕ} {p : Option α} {l : List α} :
    walk next n p = some l ↔ Follows next p l ∧ l.length ≤ n := by
  induction n generalizing p l with
  | zero =>
    cases p <;> cases l <;> simp [walk]
  | succ n ih =>
    cases p with
    | none => cases l <;> simp [walk]
    | some a =>
      cases l with
      | nil => simp [walk]
      | cons b l =>
        simp only [walk, Option.map_eq_some_iff, List.cons.injEq, follows_cons,
          Option.some.injEq, List.length_cons, Nat.add_le_add_iff_right]
        constructor
        · rintro ⟨l', hl', rfl, rfl⟩
          exact ⟨⟨rfl, (ih.mp hl').1⟩, (ih.mp hl').2⟩
        · rintro ⟨⟨rfl, h⟩, hlen⟩
          exact ⟨l, ih.mpr ⟨h, hlen⟩, rfl, rfl⟩

/-- **As many steps as there are nodes suffice to walk any list that ends.** -/
theorem walk_card [Fintype α] {p : Option α} {l : List α} :
    walk next (Fintype.card α) p = some l ↔ Follows next p l :=
  walk_eq_some.trans ⟨And.left, fun h => ⟨h, h.nodup.length_le_card⟩⟩

/-- Making `m` point nowhere and `t` point at `m` keeps every list finite. -/
theorem Follows.append_node [DecidableEq α] {p : Option α} {l : List α}
    (h : Follows next p l) (t m : α) :
    ∃ l', Follows (Function.update (Function.update next t (some m)) m none) p l' := by
  induction l generalizing p with
  | nil => exact ⟨[], h⟩
  | cons a l ih =>
    obtain ⟨rfl, hl⟩ := h
    by_cases ham : a = m
    · exact ⟨[a], rfl, by simp [ham]⟩
    -- The list now goes from `t` to `m` and ends there.
    · by_cases hat : a = t
      · subst hat
        exact ⟨[a, m], rfl, by simp [ham]⟩
      · obtain ⟨l', hl'⟩ := ih hl
        exact ⟨a :: l', rfl, by simpa [ham, hat] using hl'⟩

/-- The forward list from `head` is `l` and the backward list from `tail` is
its reverse. -/
structure Linked (next prev : α → Option α) (head tail : Option α) (l : List α) : Prop where
  forward : Follows next head l
  backward : Follows prev tail l.reverse

/-- A node hung behind a followed list becomes its last node. -/
theorem Follows.snoc [DecidableEq α] {p : Option α} {l : List α} {t m : α}
    (h : Follows next p (l ++ [t])) (hm : m ∉ l ++ [t]) :
    Follows (Function.update (Function.update next t (some m)) m none) p (l ++ [t] ++ [m]) := by
  induction l generalizing p with
  | nil =>
    obtain ⟨rfl, -⟩ := h
    have hmt : t ≠ m := by simpa [eq_comm] using hm
    simp [hmt]
  | cons a l ih =>
    obtain ⟨rfl, h⟩ := h
    have hma : a ≠ m := fun he => hm (by simp [he])
    have hat : a ≠ t := fun he => by
      have hnd := (show Follows next (some a) (a :: l ++ [t]) from ⟨rfl, h⟩).nodup
      simp [he] at hnd
    refine ⟨rfl, ?_⟩
    rw [Function.update_of_ne hma, Function.update_of_ne hat]
    exact ih h fun hmem => hm (List.mem_cons_of_mem _ hmem)

/-- **A fresh node hung behind the tail extends a doubly linked list.** -/
theorem Linked.snoc [DecidableEq α] {head tail : Option α} {l : List α} {t m : α}
    (h : Linked next prev head tail (l ++ [t])) (hm : m ∉ l ++ [t]) :
    Linked (Function.update (Function.update next t (some m)) m none)
      (Function.update prev m (some t)) head (some m) (l ++ [t] ++ [m]) := by
  refine ⟨h.forward.snoc hm, ?_⟩
  have hback := h.backward
  simp only [List.reverse_append, List.reverse_cons, List.reverse_nil, List.nil_append,
    List.cons_append, follows_cons] at hback ⊢
  refine ⟨trivial, by simp, ?_⟩
  have hmt : t ≠ m := fun he => hm (by simp [he])
  rw [Function.update_of_ne hmt]
  refine hback.2.congr fun a ha => Function.update_of_ne ?_ _ _
  rintro rfl
  exact hm (by simpa using Or.inl ha)

end Chain
