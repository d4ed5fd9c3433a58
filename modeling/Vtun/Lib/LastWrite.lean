/-
Variables written one after another.

A variable that some of a list of actions set holds what the last of them wrote.
A word whose fields are cleared and written by masks holds, in each field, what was
written to it from the last action on that cleared it.

* `foldl_last` — the value of the last mention;
* `foldl_masked` — the words written to a field since it was cleared;
* `orAll_eq_bit` — when these words amount to a single bit.
-/
import Mathlib.Tactic.Common
import Mathlib.Data.List.Induction

namespace LastWrite

variable {α β σ : Type*}

/-! ### The last mention -/

/-- The last value that is mentioned. -/
def last (mention : α → Option β) (as : List α) : Option β := (as.filterMap mention).getLast?

theorem last_append (mention : α → Option β) (as bs : List α) :
    last mention (as ++ bs) = (last mention bs).or (last mention as) := by
  rw [last, List.filterMap_append, List.getLast?_append]
  rfl

theorem last_snoc (mention : α → Option β) (as : List α) (a : α) :
    last mention (as ++ [a]) = (mention a).or (last mention as) := by
  rw [last_append, last, List.filterMap_cons, List.filterMap_nil]
  cases mention a <;> rfl

theorem last_eq_none {mention : α → Option β} {as : List α} :
    last mention as = none ↔ ∀ a ∈ as, mention a = none := by
  rw [last, List.getLast?_eq_none_iff, List.filterMap_eq_nil_iff]

/-- **The value of the last mention**: the variable `get` holds it behind all the
actions, and without a mention what it held before them. -/
theorem foldl_last {step : σ → α → σ} {get : σ → β} {mention : α → Option β}
    (h : ∀ s a, get (step s a) = (mention a).getD (get s)) (s : σ) (as : List α) :
    get (as.foldl step s) = (last mention as).getD (get s) := by
  induction as using List.reverseRecOn with
  | nil => rfl
  | append_singleton as a ih =>
    rw [List.foldl_append, List.foldl_cons, List.foldl_nil, h, ih, last_snoc]
    cases mention a <;> rfl

/-- The same for a variable that may hold nothing. -/
theorem foldl_last_or {step : σ → α → σ} {get : σ → Option β} {mention : α → Option β}
    (h : ∀ s a, get (step s a) = (mention a).or (get s)) (s : σ) (as : List α) :
    get (as.foldl step s) = (last mention as).or (get s) := by
  induction as using List.reverseRecOn with
  | nil => rfl
  | append_singleton as a ih =>
    rw [List.foldl_append, List.foldl_cons, List.foldl_nil, h, ih, last_snoc, Option.or_assoc]

/-! ### The actions since a field was cleared -/

/-- The actions from the last one on that satisfies a test. -/
def since (p : α → Bool) : List α → Option (List α)
  | [] => none
  | a :: as => (since p as).or (if p a then some (a :: as) else none)

theorem since_snoc (p : α → Bool) (as : List α) (a : α) :
    since p (as ++ [a]) = if p a then some [a] else (since p as).map (· ++ [a]) := by
  induction as with
  | nil => simp [since]
  | cons b as ih =>
    rw [List.cons_append, since, ih, since]
    by_cases ha : p a
    · simp [ha]
    · cases since p as <;> simp [ha]

/-- The words written to a field since it was cleared, or what was in it at the
beginning and all that was written. -/
def words (clears : α → Bool) (word : α → β) (first : β) (as : List α) : List β :=
  match since clears as with
  | some bs => bs.map word
  | none => first :: as.map word

theorem words_snoc (clears : α → Bool) (word : α → β) (first : β) (as : List α) (a : α) :
    words clears word first (as ++ [a]) =
      if clears a then [word a] else words clears word first as ++ [word a] := by
  rw [words, words, since_snoc]
  by_cases ha : clears a
  · simp [ha]
  · cases since clears as <;> simp [ha]

variable {w : ℕ}

/-- All the bits of a list of words. -/
def orAll (ws : List (BitVec w)) : BitVec w := ws.foldl (· ||| ·) 0

theorem orAll_snoc (ws : List (BitVec w)) (x : BitVec w) : orAll (ws ++ [x]) = orAll ws ||| x := by
  rw [orAll, List.foldl_append]
  rfl

theorem or_and_eq (x y m : BitVec w) : (x ||| y) &&& m = x &&& m ||| y &&& m := by
  rw [BitVec.and_comm, BitVec.and_or_distrib_left, BitVec.and_comm m x, BitVec.and_comm m y]

/-- **A field holds the words written to it since it was cleared.** -/
theorem foldl_masked {step : BitVec w → α → BitVec w} {mask : BitVec w} {clears : α → Bool}
    {word : α → BitVec w} (hclear : ∀ f a, clears a = true → step f a &&& mask = word a &&& mask)
    (hkeep : ∀ f a, clears a = false → step f a &&& mask = (f ||| word a) &&& mask)
    (f : BitVec w) (as : List α) :
    as.foldl step f &&& mask = orAll (words clears word f as) &&& mask := by
  induction as using List.reverseRecOn with
  | nil => simp [words, since, orAll]
  | append_singleton as a ih =>
    rw [List.foldl_append, List.foldl_cons, List.foldl_nil, words_snoc]
    cases ha : clears a with
    | true => simp [hclear _ _ ha, orAll]
    | false =>
      rw [hkeep _ _ ha, or_and_eq, ih]
      simp [orAll_snoc, or_and_eq]

/-! ### Single bits -/

theorem and_orAll {ws : List (BitVec w)} {x : BitVec w} (hx : x ∈ ws) : x &&& orAll ws = x := by
  induction ws using List.reverseRecOn with
  | nil => cases hx
  | append_singleton ws y ih =>
    rw [orAll_snoc, BitVec.and_or_distrib_left]
    rcases List.mem_append.mp hx with hx | hx
    · rw [ih hx]
      ext i hi
      simp only [BitVec.getElem_or, BitVec.getElem_and]
      cases x[i] <;> rfl
    · obtain rfl := List.mem_singleton.mp hx
      ext i hi
      simp only [BitVec.getElem_or, BitVec.getElem_and]
      cases x[i] <;> cases (orAll ws)[i] <;> rfl

theorem orAll_and_eq_zero {ws : List (BitVec w)} {mask : BitVec w} :
    orAll ws &&& mask = 0 ↔ ∀ x ∈ ws, x &&& mask = 0 := by
  constructor
  · intro hzero x hx
    have hall : x &&& orAll ws &&& mask = x &&& mask := by rw [and_orAll hx]
    rw [BitVec.and_assoc, hzero] at hall
    rw [← hall]
    exact BitVec.and_zero
  · intro hall
    induction ws using List.reverseRecOn with
    | nil => exact BitVec.zero_and
    | append_singleton ws y ih =>
      rw [orAll_snoc, or_and_eq, ih fun x hx => hall x (List.mem_append_left _ hx),
        hall y (List.mem_append_right _ (List.mem_singleton.mpr rfl))]
      exact BitVec.or_self

/-- The words amount to the bit `b` of the mask: one of them has it, and none has
another. -/
def Amount (mask b : BitVec w) (ws : List (BitVec w)) : Prop :=
  (∃ x ∈ ws, x &&& mask = b) ∧ ∀ x ∈ ws, x &&& mask = 0 ∨ x &&& mask = b

instance (mask b : BitVec w) (ws : List (BitVec w)) : Decidable (Amount mask b ws) :=
  decidable_of_iff (ws.any (fun x => x &&& mask = b) = true ∧
      ws.all (fun x => x &&& mask = 0 ∨ x &&& mask = b) = true)
    (by simp [Amount, List.any_eq_true, List.all_eq_true])

/-- **When words amount to a single bit.** -/
theorem orAll_eq_bit {ws : List (BitVec w)} {mask : BitVec w} {i : ℕ} (hi : i < w) :
    orAll ws &&& mask = BitVec.twoPow w i ↔ Amount mask (BitVec.twoPow w i) ws := by
  have hne : BitVec.twoPow w i ≠ 0 := by
    intro h
    have hbit : (BitVec.twoPow w i).getLsbD i = true := by simp [hi]
    rw [h] at hbit
    simp at hbit
  constructor
  · intro hor
    have hbits : ∀ x ∈ ws, x &&& mask = 0 ∨ x &&& mask = BitVec.twoPow w i := by
      intro x hx
      -- the word lies within the single bit
      have hin : x &&& BitVec.twoPow w i = x &&& mask := by
        rw [← hor, ← BitVec.and_assoc, and_orAll hx]
      rw [BitVec.and_twoPow] at hin
      split at hin
      · exact .inr hin.symm
      · exact .inl hin.symm
    refine ⟨?_, hbits⟩
    by_contra hnone
    refine hne (hor.symm.trans (orAll_and_eq_zero.mpr fun x hx => ?_))
    rcases hbits x hx with hzero | hbit
    · exact hzero
    · exact absurd ⟨x, hx, hbit⟩ hnone
  · rintro ⟨⟨x, hx, hbit⟩, hbits⟩
    have hcases : orAll ws &&& mask = 0 ∨ orAll ws &&& mask = BitVec.twoPow w i := by
      clear hx hbit
      induction ws using List.reverseRecOn with
      | nil => exact .inl BitVec.zero_and
      | append_singleton ws y ih =>
        rw [orAll_snoc, or_and_eq]
        have hy := hbits y (List.mem_append_right _ (List.mem_singleton.mpr rfl))
        rcases ih fun x hx => hbits x (List.mem_append_left _ hx) with h | h <;>
          rcases hy with hy | hy <;> simp [h, hy]
    rcases hcases with hzero | hone
    · exact absurd (hbit.symm.trans (orAll_and_eq_zero.mp hzero x hx)) hne
    · exact hone

end LastWrite
