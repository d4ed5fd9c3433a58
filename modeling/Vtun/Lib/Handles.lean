/-
Tables of open handles.

What is opened gets a number that is not in use, and the number is in use until it is closed.  A
program that has closed a number may still remember it, and may close it once more: that hits
nothing, or whatever has got the number since.  Every handle carries the count of the opens
before it, which tells things with the same number apart.

* `Table.Holds.opens`, `Table.Holds.closeAll` — what opens and closes do to what is open;
* `Table.Clean` — every close has hit what it was meant for, or nothing.
-/
import Mathlib.Data.List.Perm.Basic
import Mathlib.Data.List.Nodup
import Mathlib.Data.Int.Notation
import Mathlib.Data.Nat.Notation
import Mathlib.Tactic.Common

namespace Handles

/-- A number, and the count of the opens before it was opened. -/
structure Handle where
  num : ℤ
  id : ℕ
  deriving DecidableEq, Repr

/-- What is open, the count of the opens, and for each close what it was meant for and what it
has hit. -/
structure Table where
  live : List Handle
  opened : ℕ
  closes : List (ℕ × Option ℕ)
  deriving DecidableEq, Repr

namespace Table

/-- Something is opened and gets the number `n`, which is not in use. -/
def openAt (t : Table) (n : ℕ) : Option (Handle × Table) :=
  if ∃ h ∈ t.live, h.num = n then none
  else
    let h : Handle := ⟨n, t.opened⟩
    some (h, { t with live := h :: t.live, opened := t.opened + 1 })

/-- What the number of a handle stands for is closed. -/
def close (t : Table) (h : Handle) : Table where
  live := t.live.filter fun x => x.num ≠ h.num
  opened := t.opened
  closes := t.closes ++ [(h.id, (t.live.find? fun x => x.num = h.num).map Handle.id)]

/-- Every close has hit what it was meant for, or nothing. -/
def Clean (t : Table) : Prop := ∀ c ∈ t.closes, c.2 = none ∨ c.2 = some c.1

end Table

/-- The number of a handle stands for nothing. -/
def Gone (S : List Handle) (x : Handle) : Prop := ∀ h ∈ S, h.num ≠ x.num

/-- The handles `S` are what is open, in some order. -/
structure Table.Holds (t : Table) (S : List Handle) : Prop where
  perm : t.live.Perm S
  distinct : (S.map Handle.num).Nodup
  nonneg : ∀ h ∈ S, 0 ≤ h.num
  clean : t.Clean

variable {t t' : Table} {S S' T L ys : List Handle} {x y : Handle} {n : ℕ}

theorem Gone.mono (h : Gone S x) (hsub : ∀ y ∈ S', y ∈ S) : Gone S' x := fun y hy => h y (hsub y hy)

theorem Gone.not_mem (h : Gone S x) : x ∉ S := fun hx => h x hx rfl

/-- No number is negative. -/
theorem Table.Holds.gone_of_neg (h : t.Holds S) (hx : x.num < 0) : Gone S x := by
  intro y hy heq
  have hy0 := h.nonneg y hy
  omega

theorem Table.Holds.of_perm (h : t.Holds S) (hperm : S.Perm S') : t.Holds S' where
  perm := h.perm.trans hperm
  distinct := (hperm.map Handle.num).nodup_iff.mp h.distinct
  nonneg := fun y hy => h.nonneg y (hperm.mem_iff.mpr hy)
  clean := h.clean

theorem holds_empty (opened : ℕ) : (⟨[], opened, []⟩ : Table).Holds [] :=
  ⟨.refl [], List.nodup_nil, List.forall_mem_nil _, List.forall_mem_nil _⟩

/-- **What is opened is new.** -/
theorem Table.Holds.opens (h : t.Holds S) (hopen : t.openAt n = some (x, t')) :
    t'.Holds (x :: S) ∧ x.num = n ∧ Gone S x := by
  rw [Table.openAt, Option.ite_none_left_eq_some] at hopen
  obtain ⟨hfree, hopen⟩ := hopen
  obtain ⟨rfl, rfl⟩ := Prod.mk.inj (Option.some.inj hopen)
  have hgone : Gone S ⟨n, t.opened⟩ := by
    intro y hy heq
    exact hfree ⟨y, h.perm.mem_iff.mpr hy, heq⟩
  refine ⟨⟨h.perm.cons _, ?_, ?_, h.clean⟩, rfl, hgone⟩
  · rw [List.map_cons, List.nodup_cons]
    refine ⟨fun hmem => ?_, h.distinct⟩
    obtain ⟨y, hy, heq⟩ := List.mem_map.mp hmem
    exact hgone y hy heq
  · rw [List.forall_mem_cons]
    exact ⟨Int.natCast_nonneg n, h.nonneg⟩

/-- What a close of something open hits. -/
theorem Table.Holds.find (h : t.Holds S) (hx : x ∈ S) :
    t.live.find? (fun y => y.num = x.num) = some x := by
  have hlive := h.perm.mem_iff.mpr hx
  have hdistinct : (t.live.map Handle.num).Nodup := (h.perm.map Handle.num).nodup_iff.mpr h.distinct
  have hsome : (t.live.find? fun y => y.num = x.num).isSome = true :=
    List.find?_isSome.mpr ⟨x, hlive, by simp⟩
  obtain ⟨y, hy⟩ := Option.isSome_iff_exists.mp hsome
  have hnum : y.num = x.num := by simpa using List.find?_some hy
  rw [hy, List.inj_on_of_nodup_map hdistinct (List.mem_of_find?_eq_some hy) hlive hnum]

/-- Closing what is open. -/
theorem Table.Holds.closes (h : t.Holds (x :: S)) : (t.close x).Holds S ∧ Gone S x := by
  obtain ⟨hnew, hdistinct⟩ := List.nodup_cons.mp h.distinct
  have hgone : Gone S x := fun y hy heq => hnew (heq ▸ List.mem_map_of_mem hy)
  refine ⟨⟨?_, hdistinct, fun y hy => h.nonneg y (List.mem_cons_of_mem x hy), ?_⟩, hgone⟩
  · have hfilter := h.perm.filter fun y => y.num ≠ x.num
    rw [List.filter_cons_of_neg (by simp),
      List.filter_eq_self.mpr fun y hy => decide_eq_true (hgone y hy)] at hfilter
    exact hfilter
  · intro c hc
    rcases List.mem_append.mp hc with hc | hc
    · exact h.clean c hc
    · obtain rfl := List.mem_singleton.mp hc
      rw [h.find List.mem_cons_self]
      exact .inr rfl

/-- Closing what is not there any more. -/
theorem Table.Holds.stale (h : t.Holds S) (hx : Gone S x) : (t.close x).Holds S := by
  have hlive : Gone t.live x := hx.mono fun y hy => h.perm.mem_iff.mp hy
  refine ⟨?_, h.distinct, h.nonneg, ?_⟩
  · rw [Table.close, List.filter_eq_self.mpr fun y hy => decide_eq_true (hlive y hy)]
    exact h.perm
  · intro c hc
    rcases List.mem_append.mp hc with hc | hc
    · exact h.clean c hc
    · obtain rfl := List.mem_singleton.mp hc
      have hnone : t.live.find? (fun y => y.num = x.num) = none :=
        List.find?_eq_none.mpr fun y hy hdec => hlive y hy (of_decide_eq_true hdec)
      rw [hnone]
      exact .inl rfl

/-- **A row of closes** that names all of `T`, some of it more than once, and nothing else that
is open, leaves the rest. -/
theorem Table.Holds.closeAll (h : t.Holds (T ++ L)) (hall : ∀ y ∈ T, y ∈ ys)
    (honly : ∀ y ∈ ys, y ∈ T ∨ Gone (T ++ L) y) : (ys.foldl Table.close t).Holds L := by
  induction ys generalizing t T with
  | nil =>
    obtain rfl : T = [] := List.eq_nil_iff_forall_not_mem.mpr fun y hy => by simpa using hall y hy
    exact h
  | cons y ys ih =>
    rw [List.foldl_cons]
    by_cases hy : y ∈ T
    · have hperm : (T ++ L).Perm (y :: (T.erase y ++ L)) :=
        (List.perm_cons_erase hy).append_right L
      have hopen := h.of_perm hperm
      obtain ⟨hclosed, hgone⟩ := hopen.closes
      refine ih hclosed (fun z hz => ?_) (fun z hz => ?_)
      · -- what is left was not `y`, which has gone
        have hne : z ≠ y := by
          rintro rfl
          exact hgone.not_mem (List.mem_append_left L hz)
        exact (List.mem_cons.mp (hall z (List.mem_of_mem_erase hz))).resolve_left hne
      · by_cases hzy : z = y
        · exact .inr (hzy ▸ hgone)
        · refine (honly z (List.mem_cons_of_mem y hz)).imp (fun hmem => ?_) fun hz => ?_
          · exact (List.mem_erase_of_ne hzy).mpr hmem
          · exact hz.mono fun w hw => hperm.mem_iff.mpr (List.mem_cons_of_mem y hw)
    · have hgone := (honly y List.mem_cons_self).resolve_left hy
      refine ih (h.stale hgone) (fun z hz => ?_) fun z hz => honly z (List.mem_cons_of_mem y hz)
      exact (List.mem_cons.mp (hall z hz)).resolve_left fun heq => hy (heq ▸ hz)

end Handles
