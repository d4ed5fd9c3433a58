/-
The room for the flag string (`auth.c`, `cfg_file.y`).

`bf2cf` appends up to four numbers to a buffer of 20 bytes, whatever the
configuration file has set them to.

* `length_decimal` — how many characters `%d` writes;
* `bf2cf_fits_iff` — the string, with the NUL behind it, fits if and only if the
  widths of the letters and numbers of the session add up to at most 17.
-/
import Vtun.CfgHost
import Vtun.Flags
import Mathlib.Data.Nat.Log

namespace Vtun

/-- The number of decimal digits of `n`. -/
def digitCount (n : ℕ) : ℕ := Nat.log 10 n + 1

/-- The number of characters of an `int` in decimal. -/
def numWidth (x : Int32) : ℕ := (if x.toInt < 0 then 1 else 0) + digitCount x.toInt.natAbs

theorem length_digits (n : ℕ) : (digits n).length = digitCount n := by
  rw [digits, List.length_map, digitCount]
  induction n using Nat.strong_induction_on with
  | _ n ih =>
    rcases Nat.lt_or_ge n 10 with hlt | hge
    · rw [Nat.toDigits_of_lt_base hlt, Nat.log_of_lt hlt]
      rfl
    · have hdiv : n / 10 < n := Nat.div_lt_self (by omega) (by decide)
      rw [Nat.toDigits_of_base_le (by decide) hge, List.length_append, ih _ hdiv,
        Nat.log_of_one_lt_of_le (by decide) hge]
      rfl

theorem length_decimal (x : Int32) : (decimal x).length = numWidth x := by
  rw [decimal, numWidth]
  split
  · rw [List.length_cons, length_digits, Nat.add_comm]
  · rw [length_digits, Nat.zero_add]

/-! ### Sessions -/

/-- `h` is the record of the session `c` of the configuration file. -/
structure RecordOf (c : ConfHost) (h : VtunHost) : Prop where
  host : h.host = c.host
  passwd : some h.passwd = c.passwd
  flags : h.flags = c.flags
  spdIn : h.spdIn = c.spdIn
  spdOut : h.spdOut = c.spdOut
  zlevel : h.zlevel = c.zlevel
  cipher : h.cipher = c.cipher

/-- At most one protocol bit and at most one tunnel type bit. -/
structure AtMostOneOfEach (flags : BitVec 32) : Prop where
  prot : flags &&& Flag.protMask = 0 ∨ flags &&& Flag.protMask = Flag.tcp ∨
    flags &&& Flag.protMask = Flag.udp
  type : flags &&& Flag.typeMask = 0 ∨ flags &&& Flag.typeMask = Flag.tty ∨
    flags &&& Flag.typeMask = Flag.pipe ∨ flags &&& Flag.typeMask = Flag.ether ∨
    flags &&& Flag.typeMask = Flag.tun

/-- The width of an option: its letter and its number, if it is set. -/
def optWidth (flags bit : BitVec 32) (number : ℕ) : ℕ :=
  if hasFlag flags bit then 1 + number else 0

/-- The width of what a session has between the brackets. -/
def sessionWidth (c : ConfHost) : ℕ :=
  optWidth c.flags Flag.protMask 0 + optWidth c.flags Flag.typeMask 0 +
  optWidth c.flags Flag.shape (numWidth c.spdIn) +
  optWidth c.flags Flag.zlib (numWidth c.zlevel) +
  optWidth c.flags Flag.lzo (numWidth c.zlevel) +
  optWidth c.flags Flag.keepAlive 0 +
  optWidth c.flags Flag.encrypt (if c.cipher = legacyEncrypt then 0 else numWidth c.cipher)

theorem length_protLetter {flags : BitVec 32} (h : AtMostOneOfEach flags) :
    (protLetter flags).length = optWidth flags Flag.protMask 0 := by
  rw [protLetter, optWidth, hasFlag]
  rcases h.prot with hp | hp | hp
  all_goals
    rw [hp]
    rfl

theorem length_typeLetter {flags : BitVec 32} (h : AtMostOneOfEach flags) :
    (typeLetter flags).length = optWidth flags Flag.typeMask 0 := by
  rw [typeLetter, optWidth, hasFlag]
  rcases h.type with ht | ht | ht | ht | ht
  all_goals
    rw [ht]
    rfl

/-- An option takes its width. -/
theorem length_option (flags bit : BitVec 32) {text : List Byte} {n : ℕ}
    (h : text.length = 1 + n) :
    (if hasFlag flags bit then text else []).length = optWidth flags bit n := by
  rw [optWidth]
  split
  · exact h
  · rfl

theorem length_numbered {letter : List Byte} (h : letter.length = 1) (x : Int32) :
    (letter ++ decimal x).length = 1 + numWidth x := by
  rw [List.length_append, h, length_decimal]

/-- The string is as long as its letters, its numbers and the brackets. -/
theorem length_bf2cf {c : ConfHost} {h : VtunHost} (hc : RecordOf c h)
    (hone : AtMostOneOfEach c.flags) : (bf2cf h).length = sessionWidth c + 2 := by
  have hcipher : (if c.cipher = legacyEncrypt then lit "E" else lit "E" ++ decimal c.cipher).length
      = 1 + if c.cipher = legacyEncrypt then 0 else numWidth c.cipher := by
    split
    · rfl
    · exact length_numbered rfl _
  rw [bf2cf, hc.flags, hc.spdIn, hc.zlevel, hc.cipher]
  simp only [List.length_append]
  rw [length_protLetter hone, length_typeLetter hone,
    length_option _ _ (length_numbered rfl c.spdIn),
    length_option _ _ (length_numbered rfl c.zlevel),
    length_option _ _ (length_numbered rfl c.zlevel),
    length_option _ _ (n := 0) rfl, length_option _ _ hcipher]
  simp only [sessionWidth, show (lit "<").length = 1 from rfl, show (lit ">").length = 1 from rfl]
  omega

/-- **The flag string fits** into its buffer, with the NUL behind it, if and only if
the options of the session are narrow enough. -/
theorem bf2cf_fits_iff {c : ConfHost} {h : VtunHost} (hc : RecordOf c h)
    (hone : AtMostOneOfEach c.flags) :
    (bf2cf h).length + 1 ≤ bf2cfSize ↔ sessionWidth c ≤ 17 := by
  rw [length_bf2cf hc hone, bf2cfSize]
  omega

/-- A file with one session, shaped at `speed`. -/
def shapedFile (speed : String) : List Byte :=
  lit "lion \x7b\n passwd x; type tun; proto udp; speed " ++ lit speed ++
    lit "; compress zlib:9;\n keepalive yes; encrypt aes256cbc;\n\x7d\n"

/-- The session of that file. -/
def shapedConf (speed : Int32) : ConfHost :=
  { defaultHost with
    host := lit "lion"
    passwd := some (lit "x")
    flags := Flag.tun ||| Flag.udp ||| Flag.shape ||| Flag.zlib ||| Flag.keepAlive ||| Flag.encrypt
    spdIn := speed
    spdOut := speed
    zlevel := 9
    cipher := 14 }

/-- Its record. -/
def shapedRecord (speed : Int32) : VtunHost :=
  ⟨lit "lion", lit "x", (shapedConf speed).flags, speed, speed, 9, 14, .allow⟩

theorem recordOf_shaped (speed : Int32) : RecordOf (shapedConf speed) (shapedRecord speed) :=
  ⟨rfl, rfl, rfl, rfl, rfl, rfl, rfl⟩

theorem atMostOne_shaped (speed : Int32) : AtMostOneOfEach (shapedConf speed).flags := by
  have hflags : (shapedConf speed).flags = (shapedConf 0).flags := rfl
  rw [hflags]
  exact ⟨by decide, by decide⟩

/-- A speed of eight digits fits. -/
theorem bf2cf_fits_eight : (bf2cf (shapedRecord 10000000)).length + 1 ≤ bf2cfSize :=
  (bf2cf_fits_iff (recordOf_shaped _) (atMostOne_shaped _)).mpr (by decide)

/-- **A speed of nine digits does not fit**: the NUL is written behind the buffer. -/
theorem bf2cf_overrun : ∃ s c,
    readConfig .lp64 (Conf.init (mainOpts (-1))) ⟨some (shapedFile "100000000"), 0, false⟩ =
        some s ∧
      c ∈ s.hosts ∧ AtMostOneOfEach c.flags ∧
      ∃ h, RecordOf c h ∧ (bf2cf h).length + 1 = bf2cfSize + 1 := by
  have hloaded : (readConfig .lp64 (Conf.init (mainOpts (-1)))
      ⟨some (shapedFile "100000000"), 0, false⟩).map Conf.hosts = some [shapedConf 100000000] := by
    set_option maxRecDepth 1000 in
    decide
  obtain ⟨s, hs, hhosts⟩ := Option.map_eq_some_iff.mp hloaded
  refine ⟨s, shapedConf 100000000, hs, by rw [hhosts]; simp, atMostOne_shaped _,
    shapedRecord 100000000, recordOf_shaped _, by decide⟩

end Vtun
