/-
The C library functions on strings that the daemon uses.

A C string is the list of the bytes before its terminating NUL.  Functions that
return a pointer into their argument return the rest of the string from there,
so comparing two such pointers is comparing the rests.

* `strtol_digits` — `strtol` reads back what `%d` wrote, and stops behind it.
-/
import Vtun.Io
import Mathlib.Data.List.TakeWhile
import Mathlib.Tactic.Linarith

namespace Vtun

/-- The platforms told apart by the width of `long` and the byte order. -/
inductive Platform
  | ilp32
  | lp64
  | lp64be
  deriving DecidableEq, Repr

/-- `LONG_MAX`. -/
def Platform.longMax : Platform → ℤ
  | .ilp32 => 2 ^ 31 - 1
  | .lp64 => 2 ^ 63 - 1
  | .lp64be => 2 ^ 63 - 1

/-- The bytes of a string literal. -/
def lit (s : String) : List Byte := s.toList.map Char.toUInt8

/-- The C string at the start of a buffer. -/
def cstr (buf : List Byte) : List Byte := buf.takeWhile (· ≠ 0)

/-- What a check of the whole list says about its bytes. -/
theorem forall_mem_of_all {p : Byte → Prop} [DecidablePred p] {l : List Byte}
    (h : l.all (fun b => decide (p b)) = true) : ∀ b ∈ l, p b := by
  simpa using h

/-- `strchr`. -/
def strchr (s : List Byte) (c : Byte) : Option (List Byte) :=
  match s.dropWhile (· ≠ c) with
  | [] => none
  | b :: t => some (b :: t)

/-- `strtok`: the token, and the rest of the string behind the delimiter that
ended it. -/
def strtok (delims s : List Byte) : Option (List Byte × List Byte) :=
  match s.dropWhile (· ∈ delims) with
  | [] => none
  | b :: t => some ((b :: t).takeWhile (· ∉ delims), ((b :: t).dropWhile (· ∉ delims)).drop 1)

/-- The string at its argument after a call of `strtok`: leading delimiters stay,
and the token ends in the NUL put behind it. -/
def strtokCut (delims s : List Byte) : List Byte :=
  s.takeWhile (· ∈ delims) ++ (s.dropWhile (· ∈ delims)).takeWhile (· ∉ delims)

/-! ### Numerals -/

/-- `isdigit`. -/
def isDigit (b : Byte) : Bool := (Char.ofUInt8 b).isDigit

/-- `isspace` in the C locale. -/
def isSpace (b : Byte) : Bool := b = 32 || (9 ≤ b && b ≤ 13)

/-- The number a list of digits stands for. -/
def digitsVal (ds : List Byte) : ℕ := Nat.ofDigitChars 10 (ds.map Char.ofUInt8) 0

/-- `strtol(s, &p, 10)`: the value, saturated at the range of `long`, and the
string at `p`, which is `s` itself when there is no numeral. -/
def strtol (pf : Platform) (s : List Byte) : ℤ × List Byte :=
  let t := s.dropWhile isSpace
  let neg := t.head? = some '-'.toUInt8
  let u := if t.head? = some '-'.toUInt8 ∨ t.head? = some '+'.toUInt8 then t.drop 1 else t
  let ds := u.takeWhile isDigit
  -- spaces and a sign alone are no numeral, and `p` goes back to the start
  if ds = [] then (0, s)
  else
    let v : ℤ := digitsVal ds
    (if neg then max (-v) (-pf.longMax - 1) else min v pf.longMax, u.dropWhile isDigit)

/-- `%d` of a number that is not negative. -/
def digits (n : ℕ) : List Byte := (Nat.toDigits 10 n).map Char.toUInt8

/-- `%d`. -/
def decimal (x : Int32) : List Byte :=
  if x.toInt < 0 then '-'.toUInt8 :: digits x.toInt.natAbs else digits x.toInt.natAbs

theorem val_ofUInt8 (b : Byte) : (Char.ofUInt8 b).val = b.toUInt32 := rfl

/-- A digit survives the conversion to a byte. -/
theorem ofUInt8_toUInt8 {c : Char} (h : c.isDigit = true) : Char.ofUInt8 c.toUInt8 = c := by
  have hle : c.val ≤ 57 := by
    simp only [Char.isDigit, Bool.and_eq_true, decide_eq_true_eq] at h
    exact h.2
  have hval : c.val.toNat ≤ 57 := UInt32.le_iff_toNat_le.mp hle
  refine Char.ext (UInt32.toNat_inj.mp ?_)
  simp only [val_ofUInt8, Char.toUInt8, UInt8.toNat_toUInt32, UInt32.toNat_toUInt8]
  omega

theorem digits_isDigit {n : ℕ} {b : Byte} (h : b ∈ digits n) : isDigit b = true := by
  obtain ⟨c, hc, rfl⟩ := List.mem_map.mp h
  have hd := Nat.isDigit_of_mem_toDigits (b := 10) (by decide) (by decide) hc
  rw [isDigit, ofUInt8_toUInt8 hd, hd]

theorem digits_ne_nil (n : ℕ) : digits n ≠ [] := by
  simp [digits, Nat.toDigits_ne_nil]

theorem digitsVal_digits (n : ℕ) : digitsVal (digits n) = n := by
  have hmap : (digits n).map Char.ofUInt8 = Nat.toDigits 10 n := by
    rw [digits, List.map_map]
    conv_rhs => rw [← List.map_id (Nat.toDigits 10 n)]
    refine List.map_congr_left fun c hc => ?_
    exact ofUInt8_toUInt8 (Nat.isDigit_of_mem_toDigits (b := 10) (by decide) (by decide) hc)
  rw [digitsVal, hmap, Nat.ofDigitChars_ten_toDigits]

/-- The string does not go on with a digit. -/
def NoDigit (s : List Byte) : Prop := ∀ b ∈ s.head?, isDigit b = false

/-- A digit is neither a space nor a sign. -/
theorem not_isSpace_of_isDigit {b : Byte} (h : isDigit b = true) :
    isSpace b = false ∧ b ≠ '-'.toUInt8 ∧ b ≠ '+'.toUInt8 := by
  have hb : 48 ≤ b.toNat ∧ b.toNat ≤ 57 := by
    simpa [isDigit, Char.isDigit, val_ofUInt8, UInt32.le_iff_toNat_le] using h
  refine ⟨?_, ?_, ?_⟩
  · rw [isSpace, Bool.or_eq_false_iff, Bool.and_eq_false_iff]
    simp only [decide_eq_false_iff_not, UInt8.le_iff_toNat_le]
    refine ⟨?_, Or.inr (by simp; omega)⟩
    rintro rfl
    simp at hb
  · rintro rfl
    exact absurd hb (by decide)
  · rintro rfl
    exact absurd hb (by decide)

theorem takeWhile_digits {n : ℕ} {rest : List Byte} (h : NoDigit rest) :
    (digits n ++ rest).takeWhile isDigit = digits n := by
  rw [List.takeWhile_append_of_pos fun b hb => digits_isDigit hb]
  cases rest with
  | nil => simp
  | cons b t => simp [h b rfl]

theorem dropWhile_digits {n : ℕ} {rest : List Byte} (h : NoDigit rest) :
    (digits n ++ rest).dropWhile isDigit = rest := by
  rw [List.dropWhile_append_of_pos fun b hb => digits_isDigit hb]
  cases rest with
  | nil => simp
  | cons b t => simp [h b rfl]

/-- **`strtol` reads back a decimal numeral**, and stops behind it. -/
theorem strtol_digits (pf : Platform) {n : ℕ} (hn : (n : ℤ) ≤ pf.longMax) {rest : List Byte}
    (h : NoDigit rest) : strtol pf (digits n ++ rest) = ((n : ℤ), rest) := by
  obtain ⟨b, t, hb⟩ := List.exists_cons_of_ne_nil (digits_ne_nil n)
  have hmem : b ∈ digits n := by simp [hb]
  obtain ⟨hsp, hmin, hplus⟩ := not_isSpace_of_isDigit (digits_isDigit hmem)
  have hdrop : (digits n ++ rest).dropWhile isSpace = digits n ++ rest := by
    simp [hb, hsp]
  have hhead : (digits n ++ rest).head? = some b := by simp [hb]
  simp only [strtol, hdrop, hhead, Option.some.injEq, hmin, hplus, or_self, if_false,
    takeWhile_digits h, dropWhile_digits h, digits_ne_nil, digitsVal_digits,
    Prod.mk.injEq, and_true]
  exact min_eq_left hn

/-- Without a numeral `strtol` returns 0 and its own argument. -/
theorem strtol_noDigit (pf : Platform) {b : Byte} {t : List Byte} (hsp : isSpace b = false)
    (hmin : b ≠ '-'.toUInt8) (hplus : b ≠ '+'.toUInt8) (hd : isDigit b = false) :
    strtol pf (b :: t) = (0, b :: t) := by
  simp [strtol, hsp, hmin, hplus, hd]

/-- A numeral has no NUL. -/
theorem nul_notMem_decimal (x : Int32) : (0 : Byte) ∉ decimal x := by
  have hdig : ∀ n, (0 : Byte) ∉ digits n := fun n h => absurd (digits_isDigit h) (by decide)
  rw [decimal]
  split
  · exact List.not_mem_cons_of_ne_of_not_mem (by decide) (hdig _)
  · exact hdig _

/-- The C string of a buffer ends in front of its NUL. -/
theorem cstr_nul {s : List Byte} (h : (0 : Byte) ∉ s) (t : List Byte) :
    cstr (s ++ 0 :: t) = s := by
  have hpos : ∀ b ∈ s, decide (b ≠ 0) = true := fun b hb => by
    simpa using ne_of_mem_of_not_mem hb h
  rw [cstr, List.takeWhile_append_of_pos hpos, List.takeWhile_cons_of_neg (by simp),
    List.append_nil]

/-- The C string of a buffer that holds a string and NULs behind it. -/
theorem cstr_append {s : List Byte} (h : (0 : Byte) ∉ s) (n : ℕ) :
    cstr (s ++ List.replicate n 0) = s := by
  have hpos : ∀ b ∈ s, decide (b ≠ 0) = true := fun b hb => by
    simpa using fun h0 : b = 0 => h (h0 ▸ hb)
  rw [cstr, List.takeWhile_append_of_pos hpos]
  cases n <;> simp [List.replicate_succ]

theorem decimal_of_nonneg {x : Int32} (h : 0 ≤ x.toInt) :
    decimal x = digits x.toInt.natAbs := by
  rw [decimal, if_neg (by omega)]

/-! ### Words -/

section Words

variable {delims a : List Byte}

theorem takeWhile_word (h : ∀ b ∈ a, b ∉ delims) {d : Byte} (hd : d ∈ delims) (t : List Byte) :
    (a ++ d :: t).takeWhile (· ∉ delims) = a := by
  rw [List.takeWhile_append_of_pos (by simpa using h),
    List.takeWhile_cons_of_neg (by simpa using hd), List.append_nil]

theorem dropWhile_word (h : ∀ b ∈ a, b ∉ delims) {d : Byte} (hd : d ∈ delims) (t : List Byte) :
    (a ++ d :: t).dropWhile (· ∉ delims) = d :: t := by
  rw [List.dropWhile_append_of_pos (by simpa using h),
    List.dropWhile_cons_of_neg (by simpa using hd)]

/-- A word that starts the string is not skipped. -/
theorem dropWhile_start (h : ∀ b ∈ a, b ∉ delims) (hne : a ≠ []) (t : List Byte) :
    (a ++ t).dropWhile (· ∈ delims) = a ++ t := by
  obtain ⟨b, a, rfl⟩ := List.exists_cons_of_ne_nil hne
  have hb : b ∉ delims := h b (by simp)
  rw [List.cons_append, List.dropWhile_cons_of_neg (by simpa using hb)]

/-- A word is the token up to the delimiter behind it. -/
theorem strtok_word (h : ∀ b ∈ a, b ∉ delims) (hne : a ≠ []) {d : Byte} (hd : d ∈ delims)
    (t : List Byte) : strtok delims (a ++ d :: t) = some (a, t) := by
  have hskip := dropWhile_start h hne (d :: t)
  obtain ⟨b, s, hs⟩ : ∃ b s, a ++ d :: t = b :: s :=
    List.exists_cons_of_ne_nil (by simp)
  have htake := takeWhile_word h hd t
  have hdrop := dropWhile_word h hd t
  rw [hs] at htake hdrop hskip ⊢
  rw [strtok, hskip]
  dsimp only
  rw [htake, hdrop]
  rfl

/-- The last word of a string. -/
theorem strtok_last (h : ∀ b ∈ a, b ∉ delims) (hne : a ≠ []) : strtok delims a = some (a, []) := by
  have hskip := dropWhile_start h hne []
  rw [List.append_nil] at hskip
  have htake : a.takeWhile (· ∉ delims) = a :=
    List.takeWhile_eq_self_iff.mpr (by simpa using h)
  have hdrop : a.dropWhile (· ∉ delims) = [] :=
    List.dropWhile_eq_nil_iff.mpr (by simpa using h)
  obtain ⟨b, s, rfl⟩ := List.exists_cons_of_ne_nil hne
  rw [strtok, hskip]
  dsimp only
  rw [htake, hdrop]
  rfl

/-- A delimiter in front of a token is skipped. -/
theorem strtok_skip {d : Byte} (hd : d ∈ delims) (t : List Byte) :
    strtok delims (d :: t) = strtok delims t := by
  rw [strtok, strtok, List.dropWhile_cons_of_pos (by simpa using hd)]

theorem strtokCut_word (h : ∀ b ∈ a, b ∉ delims) (hne : a ≠ []) {d : Byte} (hd : d ∈ delims)
    (t : List Byte) : strtokCut delims (a ++ d :: t) = a := by
  have hskip := dropWhile_start h hne (d :: t)
  have hnone : (a ++ d :: t).takeWhile (· ∈ delims) = [] := by
    obtain ⟨b, a, rfl⟩ := List.exists_cons_of_ne_nil hne
    have hb : b ∉ delims := h b (by simp)
    rw [List.cons_append, List.takeWhile_cons_of_neg (by simpa using hb)]
  rw [strtokCut, hnone, hskip, takeWhile_word h hd, List.nil_append]

theorem strtokCut_last (h : ∀ b ∈ a, b ∉ delims) : strtokCut delims a = a := by
  have htake : (a.dropWhile (· ∈ delims)).takeWhile (· ∉ delims) = a.dropWhile (· ∈ delims) :=
    List.takeWhile_eq_self_iff.mpr fun b hb => by
      simpa using h b (List.dropWhile_subset _ hb)
  rw [strtokCut, htake, List.takeWhile_append_dropWhile]

end Words

end Vtun
