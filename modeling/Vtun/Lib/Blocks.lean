/-
Block by block transformation of lists.

`mapBlocks f n l` applies `f` to every whole block of length `n` of `l`.  `feed`
is the same over a sequence of inputs: what is left of one input behind its last
whole block is put in front of the next.

* `mapBlocks_inverse` — inverse functions on blocks are inverse block by block;
* `feed_aligned` — with nothing left over, whole blocks go straight through;
* `length_feedAll` — what is left over after a sequence of inputs is what their
  total length leaves over.
-/
import Mathlib.Tactic.Common
import Mathlib.Algebra.BigOperators.Group.List.Basic
import Mathlib.Algebra.GroupWithZero.Nat

namespace Blocks

variable {α : Type*}

/-- `k` blocks, transformed one by one. -/
def mapBlocksAux (f : List α → List α) (n : ℕ) : ℕ → List α → List α
  | 0, _ => []
  | k + 1, l => f (l.take n) ++ mapBlocksAux f n k (l.drop n)

/-- The whole blocks of a list, transformed one by one. -/
def mapBlocks (f : List α → List α) (n : ℕ) (l : List α) : List α :=
  mapBlocksAux f n (l.length / n) l

/-- The blocks of what was left over and of the input, and what is left over
then. -/
def feed (f : List α → List α) (n : ℕ) (rest input : List α) : List α × List α :=
  (mapBlocks f n (rest ++ input), (rest ++ input).drop ((rest ++ input).length / n * n))

/-- `f` keeps the length of blocks. -/
def KeepsBlocks (f : List α → List α) (n : ℕ) : Prop := ∀ b, b.length = n → (f b).length = n

/-- `g` takes back what `f` does to blocks. -/
def UndoesBlocks (g f : List α → List α) (n : ℕ) : Prop := ∀ b, b.length = n → g (f b) = b

variable {f g : List α → List α} {n : ℕ}

theorem length_mapBlocksAux (hf : KeepsBlocks f n) {k : ℕ} {l : List α} (hl : k * n ≤ l.length) :
    (mapBlocksAux f n k l).length = k * n := by
  induction k generalizing l with
  | zero => simp [mapBlocksAux]
  | succ k ih =>
    have hsucc : (k + 1) * n = n + k * n := by rw [Nat.succ_mul, Nat.add_comm]
    have htake : (l.take n).length = n := by rw [List.length_take]; omega
    have hdrop : k * n ≤ (l.drop n).length := by rw [List.length_drop]; omega
    rw [mapBlocksAux, List.length_append, hf _ htake, ih hdrop, hsucc]

theorem length_mapBlocks (hf : KeepsBlocks f n) (l : List α) :
    (mapBlocks f n l).length = l.length / n * n :=
  length_mapBlocksAux hf (Nat.div_mul_le_self _ _)

theorem mapBlocksAux_append {k : ℕ} {a : List α} (ha : a.length = k * n) (j : ℕ) (b : List α) :
    mapBlocksAux f n (k + j) (a ++ b) = mapBlocksAux f n k a ++ mapBlocksAux f n j b := by
  induction k generalizing a with
  | zero =>
    have hnil : a = [] := List.length_eq_zero_iff.mp (by omega)
    simp [hnil, mapBlocksAux]
  | succ k ih =>
    have hsucc : (k + 1) * n = n + k * n := by rw [Nat.succ_mul, Nat.add_comm]
    have hle : n ≤ a.length := by omega
    have hdrop : (a.drop n).length = k * n := by rw [List.length_drop]; omega
    rw [Nat.add_right_comm, mapBlocksAux, mapBlocksAux, List.take_append_of_le_length hle,
      List.drop_append_of_le_length hle, ih hdrop, List.append_assoc]

/-- A list that ends on a block boundary is transformed on its own. -/
theorem mapBlocks_append (hn : 0 < n) {a : List α} (ha : n ∣ a.length) (b : List α) :
    mapBlocks f n (a ++ b) = mapBlocks f n a ++ mapBlocks f n b := by
  obtain ⟨k, hk⟩ := ha
  rw [Nat.mul_comm] at hk
  have hdiv : (a ++ b).length / n = k + b.length / n := by
    rw [List.length_append, hk, Nat.add_comm, Nat.add_mul_div_right _ _ hn, Nat.add_comm]
  have hka : a.length / n = k := by rw [hk, Nat.mul_div_cancel _ hn]
  rw [mapBlocks, mapBlocks, mapBlocks, hdiv, hka]
  exact mapBlocksAux_append hk _ b

theorem mapBlocks_block (hn : 0 < n) {b : List α} (hb : b.length = n) : mapBlocks f n b = f b := by
  rw [mapBlocks, hb, Nat.div_self hn, mapBlocksAux, mapBlocksAux, List.append_nil,
    List.take_of_length_le (Nat.le_of_eq hb)]

theorem mapBlocks_cons (hn : 0 < n) {b : List α} (hb : b.length = n) (l : List α) :
    mapBlocks f n (b ++ l) = f b ++ mapBlocks f n l := by
  rw [mapBlocks_append hn (by rw [hb]), mapBlocks_block hn hb]

theorem mapBlocksAux_inverse (hf : KeepsBlocks f n) (hgf : UndoesBlocks g f n) {k : ℕ}
    {l : List α} (hl : l.length = k * n) :
    mapBlocksAux g n k (mapBlocksAux f n k l) = l := by
  induction k generalizing l with
  | zero =>
    have hnil : l = [] := List.length_eq_zero_iff.mp (by omega)
    simp [hnil, mapBlocksAux]
  | succ k ih =>
    have hsucc : (k + 1) * n = n + k * n := by rw [Nat.succ_mul, Nat.add_comm]
    have htake : (l.take n).length = n := by rw [List.length_take]; omega
    have hdrop : (l.drop n).length = k * n := by rw [List.length_drop]; omega
    have hblock := hf _ htake
    rw [mapBlocksAux, mapBlocksAux, List.take_left' hblock, List.drop_left' hblock, hgf _ htake,
      ih hdrop, List.take_append_drop]

/-- **Inverse functions on blocks are inverse block by block.** -/
theorem mapBlocks_inverse (hn : 0 < n) (hf : KeepsBlocks f n) (hgf : UndoesBlocks g f n)
    {l : List α} (hl : n ∣ l.length) : mapBlocks g n (mapBlocks f n l) = l := by
  obtain ⟨k, hk⟩ := hl
  rw [Nat.mul_comm] at hk
  have hlen : (mapBlocks f n l).length = k * n := by
    rw [length_mapBlocks hf, hk, Nat.mul_div_cancel _ hn]
  rw [mapBlocks, hlen, Nat.mul_div_cancel _ hn, mapBlocks, hk, Nat.mul_div_cancel _ hn]
  exact mapBlocksAux_inverse hf hgf hk

/-- With nothing left over, whole blocks go straight through. -/
theorem feed_aligned {input : List α} (h : n ∣ input.length) :
    feed f n [] input = (mapBlocks f n input, []) := by
  rw [feed, List.nil_append, Nat.div_mul_cancel h, List.drop_length]

theorem length_feed_rest (rest input : List α) :
    (feed f n rest input).2.length = (rest.length + input.length) % n := by
  rw [feed, List.length_drop, List.length_append, Nat.mod_def, Nat.mul_comm]

/-- What is left over after a sequence of inputs. -/
def feedAll (f : List α → List α) (n : ℕ) (rest : List α) (inputs : List (List α)) : List α :=
  inputs.foldl (fun rest input => (feed f n rest input).2) rest

/-- **What is left over is what the total length leaves over.** -/
theorem length_feedAll {rest : List α} (hrest : rest.length < n) (inputs : List (List α)) :
    (feedAll f n rest inputs).length = (rest.length + (inputs.map List.length).sum) % n := by
  induction inputs generalizing rest with
  | nil => simp [feedAll, Nat.mod_eq_of_lt hrest]
  | cons input inputs ih =>
    have hn : 0 < n := by omega
    have hlen := length_feed_rest (f := f) (n := n) rest input
    have hlt : (feed f n rest input).2.length < n := by rw [hlen]; exact Nat.mod_lt _ hn
    have htail := ih hlt
    rw [feedAll, List.foldl_cons, ← feedAll, htail, hlen, List.map_cons, List.sum_cons,
      Nat.mod_add_mod, Nat.add_assoc]

end Blocks
