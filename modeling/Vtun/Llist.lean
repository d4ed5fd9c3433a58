/-
Linked lists on the heap (`llist.c`).

A list has a pointer to its first element and one to its last.  `llist_free` hands
every element to a callback, which decides whether the element is kept or freed.

* `llistAdd_spec` — an element is hung behind the last one;
* `llistFree_spec` — every element is handed to the callback once, in order; the
  last one that is kept is returned, and the others are freed.
-/
import Vtun.Lib.Chain

namespace Vtun

open Chain

/-- An address on the heap. -/
abbrev Addr := ℕ

/-- What stands on the heap, of one kind; from some address on there is nothing. -/
structure Heap (C : Type) where
  get : Addr → Option C
  bound : ℕ
  room : ∀ a, bound ≤ a → get a = none

/-- The heap with other contents at an address. -/
def Heap.set {C : Type} (heap : Heap C) (i : Addr) (c : Option C) : Heap C where
  get := Function.update heap.get i c
  bound := max heap.bound (i + 1)
  room a ha := by
    have hroom : heap.bound ≤ a := (Nat.le_max_left _ _).trans ha
    have hne : a ≠ i := Nat.ne_of_gt ((Nat.le_max_right _ _).trans ha)
    rw [Function.update_of_ne hne, heap.room a hroom]

@[simp] theorem Heap.get_set_self {C : Type} (heap : Heap C) (i : Addr) (c : Option C) :
    (heap.set i c).get i = c := by
  show Function.update heap.get i c i = c
  exact Function.update_self _ _ _

theorem Heap.get_set_of_ne {C : Type} (heap : Heap C) {a i : Addr} (h : a ≠ i) (c : Option C) :
    (heap.set i c).get a = heap.get a := by
  show Function.update heap.get i c a = heap.get a
  exact Function.update_of_ne h _ _

/-- A heap with nothing on it. -/
def Heap.empty {C : Type} : Heap C := ⟨fun _ => none, 0, fun _ _ => rfl⟩

/-- `struct llist_element`. -/
structure LlistElm (D : Type) where
  next : Option Addr
  data : D

/-- `llist`. -/
structure Llist where
  head : Option Addr
  tail : Option Addr
  deriving DecidableEq, Repr

variable {D S : Type}

/-! ### The functions -/

/-- `llist_init`. -/
def llistInit : Llist := ⟨none, none⟩

/-- `llist_empty`. -/
def llistEmpty (l : Llist) : Bool := l.tail = none

/-- `llist_add`, with what `malloc` returns.  A pointer to nothing has no value. -/
def llistAdd (heap : Heap (LlistElm D)) (l : Llist) (d : D) (malloc : Option Addr) :
    Option (ℤ × Heap (LlistElm D) × Llist) :=
  match malloc with
  | none => some (-1, heap, l)
  | some e =>
    match l.head with
    | none => some (0, heap.set e (some ⟨none, d⟩), ⟨some e, some e⟩)
    | some head => do
      let t ← l.tail
      let last ← heap.get t
      let heap := heap.set t (some { last with next := some e })
      some (0, heap.set e (some ⟨none, d⟩), ⟨some head, some e⟩)

/-- The loop of `llist_free` in at most `n` turns; `f` is the callback with its
second argument, which works on a state of its own. -/
def llistFreeLoop (f : S → D → Option (Bool × S)) :
    ℕ → Heap (LlistElm D) → S → Option Addr → Option D →
      Option (Option D × Heap (LlistElm D) × S)
  | _, heap, s, none, ff => some (ff, heap, s)
  | 0, _, _, some _, _ => none
  | n + 1, heap, s, some i, ff =>
    match heap.get i with
    | none => none
    | some elm =>
      match f s elm.data with
      | none => none
      | some (true, s) => llistFreeLoop f n heap s elm.next (some elm.data)
      | some (false, s) => llistFreeLoop f n (heap.set i none) s elm.next ff

/-- `llist_free`. -/
def llistFree (f : S → D → Option (Bool × S)) (n : ℕ) (heap : Heap (LlistElm D)) (s : S)
    (l : Llist) : Option (Option D × Heap (LlistElm D) × S × Llist) :=
  (llistFreeLoop f n heap s l.head none).map fun r => (r.1, r.2.1, r.2.2, ⟨none, none⟩)

/-! ### Lists -/

/-- `i->next`. -/
def nextOf (heap : Heap (LlistElm D)) (i : Addr) : Option Addr :=
  (heap.get i).bind LlistElm.next

/-- The elements from `p` on, with the data they hold. -/
structure IsChain (heap : Heap (LlistElm D)) (p : Option Addr) (elms : List (Addr × D)) :
    Prop where
  follows : Follows (nextOf heap) p (elms.map Prod.fst)
  cells : ∀ x ∈ elms, (heap.get x.1).map LlistElm.data = some x.2

/-- The list `l` has the elements `elms`, and its tail is the last of them. -/
structure IsLlist (heap : Heap (LlistElm D)) (l : Llist) (elms : List (Addr × D)) : Prop where
  chain : IsChain heap l.head elms
  tail : l.tail = (elms.map Prod.fst).getLast?

theorem isLlist_init (heap : Heap (LlistElm D)) : IsLlist heap llistInit [] :=
  ⟨⟨rfl, by simp⟩, rfl⟩

theorem IsLlist.empty_iff {heap : Heap (LlistElm D)} {l : Llist} {elms : List (Addr × D)}
    (h : IsLlist heap l elms) : llistEmpty l = true ↔ elms = [] := by
  rw [llistEmpty, decide_eq_true_iff, h.tail, List.getLast?_eq_none_iff, List.map_eq_nil_iff]

/-- Every element of a chain stands on the heap with its data. -/
theorem IsChain.cell {heap : Heap (LlistElm D)} {p : Option Addr} {elms : List (Addr × D)}
    (h : IsChain heap p elms) {a : Addr} {d : D} (hmem : (a, d) ∈ elms) :
    ∃ next, heap.get a = some ⟨next, d⟩ := by
  obtain ⟨⟨next, data⟩, hget, hdata⟩ := Option.map_eq_some_iff.mp (h.cells (a, d) hmem)
  obtain rfl : data = d := hdata
  exact ⟨next, hget⟩

/-- Where nothing stands there is no element. -/
theorem IsChain.not_mem {heap : Heap (LlistElm D)} {p : Option Addr} {elms : List (Addr × D)}
    (h : IsChain heap p elms) {e : Addr} (he : heap.get e = none) : e ∉ elms.map Prod.fst := by
  intro hmem
  obtain ⟨⟨a, d⟩, hx, rfl⟩ := List.mem_map.mp hmem
  obtain ⟨next, hcell⟩ := h.cell hx
  rw [he] at hcell
  cases hcell

/-- What is written changes the pointer that stands there, and no other. -/
theorem nextOf_set (heap : Heap (LlistElm D)) (i : Addr) (c : Option (LlistElm D)) :
    nextOf (heap.set i c) = Function.update (nextOf heap) i (c.bind LlistElm.next) := by
  funext a
  by_cases hai : a = i
  · rw [hai, nextOf, Heap.get_set_self, Function.update_self]
  · rw [nextOf, Heap.get_set_of_ne _ hai, Function.update_of_ne hai, nextOf]

/-- What is written elsewhere leaves a chain as it is. -/
theorem IsChain.set {heap : Heap (LlistElm D)} {p : Option Addr} {elms : List (Addr × D)}
    (h : IsChain heap p elms) {i : Addr} (hi : i ∉ elms.map Prod.fst)
    (c : Option (LlistElm D)) : IsChain (heap.set i c) p elms := by
  have hne : ∀ a ∈ elms.map Prod.fst, a ≠ i := by
    rintro a ha rfl
    exact hi ha
  refine ⟨h.follows.congr fun a ha => ?_, fun x hx => ?_⟩
  · rw [nextOf_set, Function.update_of_ne (hne a ha)]
  · rw [heap.get_set_of_ne (hne x.1 (List.mem_map_of_mem hx))]
    exact h.cells x hx

/-- The first element of a chain, and the chain behind it. -/
theorem IsChain.cons {heap : Heap (LlistElm D)} {p : Option Addr} {a : Addr} {d : D}
    {elms : List (Addr × D)} (h : IsChain heap p ((a, d) :: elms)) :
    p = some a ∧ ∃ next, heap.get a = some ⟨next, d⟩ ∧ IsChain heap next elms := by
  obtain ⟨hp, hrest⟩ := h.follows
  obtain ⟨next, hcell⟩ := h.cell List.mem_cons_self
  refine ⟨hp, next, hcell, ?_, fun x hx => h.cells x (List.mem_cons_of_mem _ hx)⟩
  rwa [nextOf, hcell] at hrest

/-- The cells of a chain after a pointer of one element has been written. -/
theorem IsChain.cells_set {heap : Heap (LlistElm D)} {p : Option Addr} {elms : List (Addr × D)}
    (h : IsChain heap p elms) {t : Addr} {d : D} {old : Option Addr}
    (hcell : heap.get t = some ⟨old, d⟩) (next : Option Addr) :
    ∀ x ∈ elms, ((heap.set t (some ⟨next, d⟩)).get x.1).map LlistElm.data = some x.2 := by
  intro x hx
  have hold := h.cells x hx
  by_cases hxt : x.1 = t
  · rw [hxt, Heap.get_set_self]
    rw [hxt, hcell] at hold
    exact hold
  · rwa [Heap.get_set_of_ne _ hxt]

/-- **An element is hung behind the last one.** -/
theorem llistAdd_spec {heap : Heap (LlistElm D)} {l : Llist} {elms : List (Addr × D)}
    (h : IsLlist heap l elms) {e : Addr} (he : heap.get e = none) (d : D) :
    ∃ heap' l', llistAdd heap l d (some e) = some (0, heap', l') ∧
      IsLlist heap' l' (elms ++ [(e, d)]) := by
  have hout := h.chain.not_mem he
  have htail := h.tail
  have hfollows := h.chain.follows
  induction elms using List.reverseRecOn with
  | nil =>
    have hhead : l.head = none := hfollows
    refine ⟨heap.set e (some ⟨none, d⟩), ⟨some e, some e⟩, ?_, ⟨⟨rfl, ?_⟩, ?_⟩, rfl⟩
    · rw [llistAdd, hhead]
    · rw [nextOf, Heap.get_set_self]
      rfl
    · intro x hx
      obtain rfl := List.mem_singleton.mp hx
      rw [Heap.get_set_self]
      rfl
  | append_singleton elms last _ =>
    obtain ⟨t, dt⟩ := last
    have hsnoc : (elms ++ [(t, dt)]).map Prod.fst = elms.map Prod.fst ++ [t] := by
      rw [List.map_append, List.map_singleton]
    obtain ⟨head, hhead⟩ : ∃ head, l.head = some head := by
      obtain ⟨x, rest, hrest⟩ := List.exists_cons_of_ne_nil (List.concat_ne_nil (t, dt) elms)
      have hchain := h.chain
      rw [hrest] at hchain
      exact ⟨x.1, hchain.cons.1⟩
    obtain ⟨next, hcell⟩ :=
      h.chain.cell (List.mem_append_right elms (List.mem_singleton_self (t, dt)))
    have hcells := h.chain.cells_set hcell (some e)
    rw [hsnoc, List.getLast?_concat] at htail
    refine ⟨(heap.set t (some ⟨some e, dt⟩)).set e (some ⟨none, d⟩), ⟨some head, some e⟩, ?_,
      ⟨⟨?_, ?_⟩, ?_⟩⟩
    · rw [llistAdd]
      simp only [hhead, htail, hcell, Option.bind_eq_bind, Option.bind_some]
    · rw [hsnoc] at hfollows hout
      rw [List.map_append, hsnoc, nextOf_set, nextOf_set, ← hhead]
      exact hfollows.snoc hout
    · intro x hx
      rcases List.mem_append.mp hx with hx | hx
      · have hxe : x.1 ≠ e := fun heq => hout (heq ▸ List.mem_map_of_mem hx)
        rw [Heap.get_set_of_ne _ hxe]
        exact hcells x hx
      · obtain rfl := List.mem_singleton.mp hx
        rw [Heap.get_set_self]
        rfl
    · rw [List.map_append, List.map_singleton, List.getLast?_concat]

/-! ### The traversal that frees -/

/-- The last element that is kept. -/
theorem getLast?_filter_cons (keep : D → Bool) (d : D) (ds : List D) (ff : Option D) :
    (((d :: ds).filter keep).getLast?).or ff =
      ((ds.filter keep).getLast?).or (if keep d then some d else ff) := by
  by_cases hd : keep d
  · rw [List.filter_cons_of_pos hd, List.getLast?_cons, if_pos hd]
    cases (ds.filter keep).getLast? <;> rfl
  · rw [List.filter_cons_of_neg hd, if_neg hd]

/-- **The loop of `llist_free`** over a chain.  The callback, in the state the earlier
elements have left, keeps the elements that satisfy `keep`; the induction is on the
chain. -/
theorem llistFreeLoop_spec {f : S → D → Option (Bool × S)} {keep : D → Bool} {step : S → D → S}
    {elms : List (Addr × D)} {n : ℕ} (hn : elms.length ≤ n) {heap : Heap (LlistElm D)}
    {p : Option Addr} (h : IsChain heap p elms) {s : S}
    (hf : ∀ before d behind, elms.map Prod.snd = before ++ d :: behind →
      f (before.foldl step s) d = some (keep d, step (before.foldl step s) d))
    (ff : Option D) :
    ∃ heap', llistFreeLoop f n heap s p ff =
        some ((((elms.map Prod.snd).filter keep).getLast?).or ff, heap',
          (elms.map Prod.snd).foldl step s) ∧
      (∀ x ∈ elms, heap'.get x.1 = if keep x.2 then heap.get x.1 else none) ∧
      ∀ a ∉ elms.map Prod.fst, heap'.get a = heap.get a := by
  induction elms generalizing n heap p s ff with
  | nil =>
    obtain rfl : p = none := h.follows
    refine ⟨heap, ?_, by simp, fun a _ => rfl⟩
    cases n <;> rfl
  | cons x elms ih =>
    obtain ⟨a, d⟩ := x
    obtain ⟨n, rfl⟩ : ∃ m, n = m + 1 :=
      Nat.exists_eq_succ_of_ne_zero (by rw [List.length_cons] at hn; omega)
    have hn' : elms.length ≤ n := Nat.le_of_succ_le_succ hn
    have hout : a ∉ elms.map Prod.fst := (List.nodup_cons.mp h.follows.nodup).1
    obtain ⟨rfl, next, hcell, hrest⟩ := h.cons
    have hfirst : f s d = some (keep d, step s d) := hf [] d _ rfl
    have hf' : ∀ before d' behind, elms.map Prod.snd = before ++ d' :: behind →
        f (before.foldl step (step s d)) d' =
          some (keep d', step (before.foldl step (step s d)) d') := by
      intro before d' behind heq
      exact hf (d :: before) d' behind (by rw [List.map_cons, heq, List.cons_append])
    rw [llistFreeLoop, hcell]
    dsimp only
    rw [hfirst]
    rw [List.map_cons, getLast?_filter_cons, List.foldl_cons]
    cases hkeep : keep d with
    | true =>
      obtain ⟨heap', hloop, hin, hother⟩ := ih hn' hrest hf' (some d)
      refine ⟨heap', ?_, fun x hx => ?_, fun b hb => ?_⟩
      · rw [if_pos rfl]
        exact hloop
      · rcases List.mem_cons.mp hx with rfl | hx
        · rw [hkeep, if_pos rfl]
          exact hother a hout
        · exact hin x hx
      · rw [List.map_cons, List.mem_cons, not_or] at hb
        exact hother b hb.2
    | false =>
      obtain ⟨heap', hloop, hin, hother⟩ := ih hn' (hrest.set hout none) hf' ff
      refine ⟨heap', ?_, fun x hx => ?_, fun b hb => ?_⟩
      · rw [if_neg (by decide)]
        exact hloop
      · rcases List.mem_cons.mp hx with rfl | hx
        · rw [hkeep, if_neg (by decide)]
          dsimp only
          rw [hother a hout, Heap.get_set_self]
        · have hxa : x.1 ≠ a := fun heq => hout (heq ▸ List.mem_map_of_mem hx)
          rw [hin x hx, Heap.get_set_of_ne _ hxa]
      · rw [List.map_cons, List.mem_cons, not_or] at hb
        rw [hother b hb.2, Heap.get_set_of_ne _ hb.1]

/-- **`llist_free`**: the list is empty afterwards. -/
theorem llistFree_spec {f : S → D → Option (Bool × S)} {keep : D → Bool} {step : S → D → S}
    {elms : List (Addr × D)} {n : ℕ} (hn : elms.length ≤ n) {heap : Heap (LlistElm D)}
    {l : Llist} (h : IsLlist heap l elms) {s : S}
    (hf : ∀ before d behind, elms.map Prod.snd = before ++ d :: behind →
      f (before.foldl step s) d = some (keep d, step (before.foldl step s) d)) :
    ∃ heap', llistFree f n heap s l =
        some (((elms.map Prod.snd).filter keep).getLast?, heap',
          (elms.map Prod.snd).foldl step s, llistInit) ∧
      (∀ x ∈ elms, heap'.get x.1 = if keep x.2 then heap.get x.1 else none) ∧
      ∀ a ∉ elms.map Prod.fst, heap'.get a = heap.get a := by
  obtain ⟨heap', hloop, hin, hother⟩ := llistFreeLoop_spec hn h.chain hf none
  refine ⟨heap', ?_, hin, hother⟩
  rw [llistFree, hloop, Option.or_none]
  rfl

end Vtun
