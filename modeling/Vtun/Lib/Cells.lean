/-
Memory around a place.

The cells are numbered by integers, so that a buffer can be reached in front of its
start.  `put` stores a list and notes the range, `get` loads one.

* `get_put_before`, `get_put_after` — a load that a store does not reach;
* `get_put_append` — a store right behind what is loaded;
* `get_put` — a load that starts in front of a store, or with it;
* `StoresIn` — all stores between two points of time lie within bounds, and nothing
  else has changed.
-/
import Mathlib.Tactic.Common
import Mathlib.Data.Int.Notation
import Mathlib.Data.List.Basic

/-- The cells, and the ranges that were stored to: where they start, and how long they
are. -/
structure Cells (α : Type*) where
  cell : ℤ → α
  stores : List (ℤ × ℕ)

namespace Cells

variable {α : Type*}

/-- The `n` cells from `p` on. -/
def get (m : Cells α) (p : ℤ) (n : ℕ) : List α :=
  (List.range n).map fun i : ℕ => m.cell (p + i)

/-- The memory after a list is stored from `p` on. -/
def put (m : Cells α) (p : ℤ) (l : List α) : Cells α where
  cell i := if p ≤ i then l.getD (i - p).toNat (m.cell i) else m.cell i
  stores := m.stores ++ [(p, l.length)]

variable {m m' m'' : Cells α} {p q : ℤ} {l : List α} {n k : ℕ}

/-! ### Cells -/

theorem cell_put_before {i : ℤ} (h : i < p) : (m.put p l).cell i = m.cell i :=
  if_neg (Int.not_le.mpr h)

theorem cell_put_after {i : ℤ} (h : p + l.length ≤ i) : (m.put p l).cell i = m.cell i := by
  have hle : p ≤ i := by omega
  have hout : l[(i - p).toNat]? = none := List.getElem?_eq_none (by omega)
  rw [put]
  dsimp only
  rw [if_pos hle, List.getD_eq_getElem?_getD, hout, Option.getD_none]

theorem cell_put_inside {i : ℕ} (h : i < l.length) : (m.put p l).cell (p + i) = l[i] := by
  have hle : p ≤ p + i := by omega
  have hidx : (p + i - p).toNat = i := by omega
  rw [put]
  dsimp only
  rw [if_pos hle, hidx, List.getD_eq_getElem?_getD, List.getElem?_eq_getElem h,
    Option.getD_some]

/-! ### Loads -/

@[simp] theorem length_get (m : Cells α) (p : ℤ) (n : ℕ) : (m.get p n).length = n := by
  simp [get]

@[simp] theorem get_zero (m : Cells α) (p : ℤ) : m.get p 0 = [] := rfl

theorem get_congr (h : ∀ i : ℤ, p ≤ i → i < p + n → m.cell i = m'.cell i) :
    m.get p n = m'.get p n := by
  refine List.map_congr_left fun i hi => h _ (by omega) ?_
  have hlt := List.mem_range.mp hi
  omega

/-- A load in two pieces. -/
theorem get_add (m : Cells α) (p : ℤ) (n k : ℕ) :
    m.get p (n + k) = m.get p n ++ m.get (p + n) k := by
  rw [get, List.range_add, List.map_append, List.map_map]
  refine congrArg (m.get p n ++ ·) (List.map_congr_left fun i _ => ?_)
  rw [Function.comp_apply, Int.natCast_add, ← Int.add_assoc]

theorem get_put_before (h : q + n ≤ p) : (m.put p l).get q n = m.get q n :=
  get_congr fun _ _ hi => cell_put_before (by omega)

theorem get_put_after (h : p + l.length ≤ q) : (m.put p l).get q n = m.get q n :=
  get_congr fun _ hi _ => cell_put_after (by omega)

/-- What was stored is loaded. -/
theorem get_put_self (m : Cells α) (p : ℤ) (l : List α) : (m.put p l).get p l.length = l := by
  refine List.ext_getElem (length_get _ _ _) fun i _ hi => ?_
  simp only [get, List.getElem_map, List.getElem_range, cell_put_inside hi]

theorem get_put_take (m : Cells α) (p : ℤ) (h : n ≤ l.length) :
    (m.put p l).get p n = l.take n := by
  obtain ⟨k, hk⟩ := Nat.exists_eq_add_of_le h
  have hself := get_put_self m p l
  rw [hk, get_add] at hself
  have htake := congrArg (List.take n) hself
  rwa [List.take_left' (length_get _ _ _)] at htake

/-- A store right behind what is loaded. -/
theorem get_put_append {t : List α} (h : m.get p n = l) (hq : q = p + n) :
    (m.put q t).get p (n + t.length) = l ++ t := by
  subst hq
  rw [get_add, get_put_before (Int.le_refl _), get_put_self, h]

/-- **A load around a store**: what lies in front of it, the list, as far as the load
goes, and what lies behind. -/
theorem get_put (m : Cells α) (p : ℤ) (l : List α) (h : k ≤ n) :
    (m.put (p + k) l).get p n =
      ((m.get p n).take k ++ l ++ (m.get p n).drop (k + l.length)).take n := by
  obtain ⟨j, rfl⟩ := Nat.exists_eq_add_of_le h
  have hfront : (m.put (p + k) l).get p (k + j) = m.get p k ++ (m.put (p + k) l).get (p + k) j := by
    rw [get_add, get_put_before (Int.le_refl _)]
  have htake : (m.get p (k + j)).take k = m.get p k := by
    rw [get_add, List.take_left' (length_get _ _ _)]
  rw [hfront, htake, List.append_assoc, List.take_append, length_get, Nat.add_sub_cancel_left,
    List.take_of_length_le (by rw [length_get]; omega)]
  refine congrArg (m.get p k ++ ·) ?_
  by_cases hj : j ≤ l.length
  · -- the load ends within the list
    rw [get_put_take m (p + k) hj, List.take_append_of_le_length hj]
  · obtain ⟨r, rfl⟩ := Nat.exists_eq_add_of_le (Nat.le_of_not_le hj)
    have hrest : (m.get p (k + (l.length + r))).drop (k + l.length) =
        m.get (p + k + l.length) r := by
      rw [← Nat.add_assoc, get_add, List.drop_left' (length_get _ _ _),
        Int.natCast_add, Int.add_assoc]
    rw [get_add, get_put_self, get_put_after (Int.le_refl _), hrest]
    exact (List.take_of_length_le (by simp)).symm

/-! ### Bounds -/

/-- Between `m` and `m'`, stores went to the cells from `lo` up to `hi` only. -/
structure StoresIn (lo hi : ℤ) (m m' : Cells α) : Prop where
  stores : ∃ new, m'.stores = m.stores ++ new ∧ ∀ r ∈ new, lo ≤ r.1 ∧ r.1 + r.2 ≤ hi
  frame : ∀ i, i < lo ∨ hi ≤ i → m'.cell i = m.cell i

namespace StoresIn

variable {lo hi lo' hi' : ℤ}

theorem refl (lo hi : ℤ) (m : Cells α) : StoresIn lo hi m m :=
  ⟨⟨[], by simp, by simp⟩, fun _ _ => rfl⟩

theorem put (h : StoresIn lo hi m m') (hlo : lo ≤ p) (hhi : p + l.length ≤ hi) :
    StoresIn lo hi m (m'.put p l) := by
  obtain ⟨new, hnew, hin⟩ := h.stores
  constructor
  · refine ⟨new ++ [(p, l.length)], ?_, ?_⟩
    · rw [Cells.put, hnew, List.append_assoc]
    · intro r hr
      rcases List.mem_append.mp hr with hr | hr
      · exact hin r hr
      · obtain rfl := List.mem_singleton.mp hr
        exact ⟨hlo, hhi⟩
  · intro i hi
    rw [← h.frame i hi]
    rcases hi with hi | hi
    · exact cell_put_before (by omega)
    · exact cell_put_after (by omega)

theorem mono (h : StoresIn lo hi m m') (hlo : lo' ≤ lo) (hhi : hi ≤ hi') :
    StoresIn lo' hi' m m' := by
  obtain ⟨new, hnew, hin⟩ := h.stores
  refine ⟨⟨new, hnew, fun r hr => ?_⟩, fun i hi => h.frame i (by omega)⟩
  have hr := hin r hr
  omega

theorem trans (h : StoresIn lo hi m m') (h' : StoresIn lo hi m' m'') : StoresIn lo hi m m'' := by
  obtain ⟨new, hnew, hin⟩ := h.stores
  obtain ⟨new', hnew', hin'⟩ := h'.stores
  refine ⟨⟨new ++ new', by rw [hnew', hnew, List.append_assoc], ?_⟩, ?_⟩
  · intro r hr
    exact (List.mem_append.mp hr).elim (hin r) (hin' r)
  · intro i hi
    rw [h'.frame i hi, h.frame i hi]

/-- A load outside the bounds finds what was there. -/
theorem get_eq (h : StoresIn lo hi m m') (hout : q + n ≤ lo ∨ hi ≤ q) :
    m'.get q n = m.get q n := by
  refine get_congr fun i hi hi' => h.frame i ?_
  rcases hout with hout | hout
  · exact Or.inl (by omega)
  · exact Or.inr (by omega)

end StoresIn

end Cells
