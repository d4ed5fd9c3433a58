/-
The language of the flag string (`auth.c`).

A turn of the loop of `cf2bf` either returns or reads one item.  The grammar is
stated apart from the code: items are letters, some with a decimal numeral behind
them, which may have white space and a sign in front.

* `cf2bfLoop_turn` — the loop, turn by turn;
* `cf2bf_accepts` — what the loop accepts, and what it leaves in the record;
* `cf2bf_grammar_iff` — the strings on which the decoder accepts what the grammar
  does and stores the numbers written.
-/
import Vtun.Flags
import Vtun.Lib.LastWrite

namespace Vtun

/-! ### Turns -/

/-- What an item does to the record. -/
inductive FlagEffect
  | set (bits : BitVec 32)
  | prot (bit : BitVec 32)
  | compress (bit : BitVec 32) (level : Int32)
  | encrypt (cipher : Int32)
  | speed (spd : Int32)

def FlagEffect.run (host : VtunHost) : FlagEffect → VtunHost
  | .set bits => { host with flags := host.flags ||| bits }
  | .prot bit => { host with flags := host.flags &&& ~~~Flag.protMask ||| bit }
  | .compress bit level => { host with flags := host.flags ||| bit, zlevel := level }
  | .encrypt cipher =>
    { host with
      flags := host.flags ||| Flag.encrypt
      cipher := if cipher = 0 then legacyEncrypt else cipher }
  | .speed spd =>
    if spd ≠ 0 then { host with flags := host.flags ||| Flag.shape, spdOut := spd } else host

/-- How a turn of the loop ends. -/
inductive FlagTurn
  | ret (ok : Bool)
  | go (e : FlagEffect) (ptr : List Byte)

/-- A letter with a number behind it, which may be missing behind some. -/
def numberTurn (pf : Platform) (needed : Bool) (effect : Int32 → FlagEffect) (ptr : List Byte) :
    FlagTurn :=
  let (s, p) := readInt pf ptr
  if s = erange ∨ needed = true ∧ ptr = p then .ret false else .go (effect s) p

/-- A turn of the loop that starts with the byte `b`. -/
def cf2bfTurn (pf : Platform) (b : Byte) (ptr : List Byte) : FlagTurn :=
  match Char.ofUInt8 b with
  | 't' => .go (.set Flag.tty) ptr
  | 'p' => .go (.set Flag.pipe) ptr
  | 'e' => .go (.set Flag.ether) ptr
  | 'u' => .go (.set Flag.tun) ptr
  | 'U' => .go (.prot Flag.udp) ptr
  | 'T' => .go (.prot Flag.tcp) ptr
  | 'K' => .go (.set Flag.keepAlive) ptr
  | 'C' => numberTurn pf true (.compress Flag.zlib) ptr
  | 'L' => numberTurn pf true (.compress Flag.lzo) ptr
  | 'E' => numberTurn pf false .encrypt ptr
  | 'S' => numberTurn pf true .speed ptr
  | 'F' => .go (.set 0) ptr
  | '>' => .ret true
  | _ => .ret false

/-- What the loop does with the outcome of a turn. -/
def FlagTurn.then (host : VtunHost) (next : List Byte → VtunHost → Bool × VtunHost) :
    FlagTurn → Bool × VtunHost
  | .ret ok => (ok, host)
  | .go e p => next p (e.run host)

theorem numberTurn_then (pf : Platform) (needed : Bool) (effect : Int32 → FlagEffect)
    (ptr : List Byte) (host : VtunHost) (next : List Byte → VtunHost → Bool × VtunHost) :
    (numberTurn pf needed effect ptr).then host next =
      if (readInt pf ptr).1 = erange ∨ needed = true ∧ ptr = (readInt pf ptr).2 then (false, host)
      else next (readInt pf ptr).2 ((effect (readInt pf ptr).1).run host) := by
  unfold numberTurn
  dsimp only
  split
  · rfl
  · rfl

/-- **The loop, turn by turn.** -/
theorem cf2bfLoop_turn (pf : Platform) (n : ℕ) (b : Byte) (ptr : List Byte) (host : VtunHost) :
    cf2bfLoop pf (n + 1) (b :: ptr) host = (cf2bfTurn pf b ptr).then host (cf2bfLoop pf n) := by
  rw [cf2bfLoop]
  unfold cf2bfTurn
  generalize Char.ofUInt8 b = c
  have hkeep : (FlagEffect.set 0).run host = host := by simp [FlagEffect.run]
  split
  all_goals try rfl
  all_goals try
    simp only [numberTurn_then, true_and, false_and, or_false, Bool.false_eq_true]
    rfl
  · simp only [FlagTurn.then, hkeep]

/-! ### Numerals -/

/-- A decimal numeral, with white space and a sign in front of it as `strtol` allows. -/
structure Numeral where
  space : List Byte
  sign : List Byte
  digits : List Byte
  space_ok : ∀ b ∈ space, isSpace b = true
  sign_ok : sign = [] ∨ sign = lit "-" ∨ sign = lit "+"
  digits_ne : digits ≠ []
  digits_ok : ∀ b ∈ digits, isDigit b = true

/-- The bytes of a numeral. -/
def Numeral.text (n : Numeral) : List Byte := n.space ++ (n.sign ++ n.digits)

/-- The number a numeral stands for. -/
def Numeral.value (n : Numeral) : ℤ :=
  if n.sign = lit "-" then -(digitsVal n.digits : ℤ) else digitsVal n.digits

/-- A number in the range of `long`. -/
def Platform.clamp (pf : Platform) (v : ℤ) : ℤ := max (min v pf.longMax) (-pf.longMax - 1)

theorem Platform.longMax_nonneg (pf : Platform) : 0 ≤ pf.longMax := by cases pf <;> decide

theorem isDigit_sign : isDigit '-'.toUInt8 = false ∧ isDigit '+'.toUInt8 = false ∧
    isSpace '-'.toUInt8 = false ∧ isSpace '+'.toUInt8 = false := by decide

/-- The sign and the digits are what `strtol` finds behind the white space. -/
theorem Numeral.signed (n : Numeral) (x : List Byte) :
    (n.text ++ x).dropWhile isSpace = n.sign ++ (n.digits ++ x) ∧
      ((n.sign ++ (n.digits ++ x)).head? = some '-'.toUInt8 ↔ n.sign = lit "-") ∧
      (if (n.sign ++ (n.digits ++ x)).head? = some '-'.toUInt8 ∨
          (n.sign ++ (n.digits ++ x)).head? = some '+'.toUInt8 then
        (n.sign ++ (n.digits ++ x)).drop 1 else n.sign ++ (n.digits ++ x)) = n.digits ++ x := by
  obtain ⟨d, ds, hd⟩ := List.exists_cons_of_ne_nil n.digits_ne
  have hdig : isDigit d = true := n.digits_ok d (by simp [hd])
  obtain ⟨hsp, hmin, hplus⟩ := not_isSpace_of_isDigit hdig
  obtain ⟨-, -, hspm, hspp⟩ := isDigit_sign
  have hspace : ∀ t, (n.text ++ t).dropWhile isSpace =
      (n.sign ++ (n.digits ++ t)).dropWhile isSpace := by
    intro t
    rw [Numeral.text, List.append_assoc, List.append_assoc,
      List.dropWhile_append_of_pos n.space_ok]
  rw [hspace, hd]
  rcases n.sign_ok with hs | hs | hs
  · rw [hs]
    refine ⟨by simp [hsp], ?_, ?_⟩
    · simp [hmin, lit]
    · simp [hmin, hplus]
  · rw [hs]
    exact ⟨by simp [lit, hspm], by simp [lit], by simp [lit]⟩
  · rw [hs]
    exact ⟨by simp [lit, hspp], by simp [lit], by simp [lit]⟩

/-- **`strtol` reads a numeral**, as far as a `long` holds its value. -/
theorem strtol_numeral (pf : Platform) (n : Numeral) {x : List Byte} (hx : NoDigit x) :
    strtol pf (n.text ++ x) = (pf.clamp n.value, x) := by
  obtain ⟨hdrop, hneg, hrest⟩ := n.signed x
  have htake : (n.digits ++ x).takeWhile isDigit = n.digits := by
    rw [List.takeWhile_append_of_pos n.digits_ok]
    cases x with
    | nil => simp
    | cons b x => simp [hx b (by simp)]
  have hskip : (n.digits ++ x).dropWhile isDigit = x := by
    rw [List.dropWhile_append_of_pos n.digits_ok]
    cases x with
    | nil => simp
    | cons b x => simp [hx b (by simp)]
  have hmax := pf.longMax_nonneg
  rw [strtol]
  simp only [hdrop, hrest, htake, hskip, if_neg n.digits_ne, Prod.mk.injEq, and_true]
  rw [Platform.clamp, Numeral.value]
  by_cases hs : n.sign = lit "-"
  · rw [if_pos (hneg.mpr hs), if_pos hs]
    omega
  · rw [if_neg (fun h => hs (hneg.mp h)), if_neg hs]
    omega

/-- The sign `strtol` looks for. -/
theorem sign_cases (t : List Byte) : ∃ sign : List Byte,
    t = sign ++ (if t.head? = some '-'.toUInt8 ∨ t.head? = some '+'.toUInt8 then t.drop 1 else t) ∧
      (sign = [] ∨ sign = lit "-" ∨ sign = lit "+") := by
  cases t with
  | nil => exact ⟨[], by simp, Or.inl rfl⟩
  | cons b t =>
    by_cases hmin : b = '-'.toUInt8
    · subst hmin
      exact ⟨lit "-", rfl, Or.inr (Or.inl rfl)⟩
    · by_cases hplus : b = '+'.toUInt8
      · subst hplus
        exact ⟨lit "+", rfl, Or.inr (Or.inr rfl)⟩
      · exact ⟨[], by simp [hmin, hplus], Or.inl rfl⟩

theorem noDigit_dropWhile (u : List Byte) : NoDigit (u.dropWhile isDigit) := by
  intro b hb
  have hhead := List.head?_dropWhile_not isDigit u
  rw [Option.mem_def.mp hb] at hhead
  simpa using hhead

/-- `strtol` finds no number, or there is a numeral. -/
theorem strtol_cases (pf : Platform) (s : List Byte) :
    strtol pf s = (0, s) ∨ ∃ (n : Numeral) (x : List Byte), s = n.text ++ x ∧ NoDigit x := by
  set t := s.dropWhile isSpace with ht
  set u := if t.head? = some '-'.toUInt8 ∨ t.head? = some '+'.toUInt8 then t.drop 1 else t with hu
  by_cases hds : u.takeWhile isDigit = []
  · left
    rw [strtol]
    simp only [← ht, ← hu, if_pos hds]
  · right
    obtain ⟨sign, hsplit, hsign⟩ := sign_cases t
    rw [← hu] at hsplit
    refine ⟨⟨s.takeWhile isSpace, sign, u.takeWhile isDigit, fun b hb => List.mem_takeWhile_imp hb,
      hsign, hds, fun b hb => List.mem_takeWhile_imp hb⟩, u.dropWhile isDigit, ?_,
      noDigit_dropWhile u⟩
    rw [Numeral.text, List.append_assoc, List.append_assoc, List.takeWhile_append_dropWhile,
      ← hsplit, ht, List.takeWhile_append_dropWhile]

/-- A numeral can be read in one way only. -/
theorem Numeral.unique {n m : Numeral} {x y : List Byte} (h : n.text ++ x = m.text ++ y)
    (hx : NoDigit x) (hy : NoDigit y) : n.value = m.value ∧ x = y := by
  have hxy : x = y := by
    have hn := congrArg Prod.snd (strtol_numeral .lp64 n hx)
    rw [h, strtol_numeral .lp64 m hy] at hn
    exact hn.symm
  subst hxy
  obtain ⟨hdrop, hneg, hrest⟩ := n.signed x
  obtain ⟨hdrop', hneg', hrest'⟩ := m.signed x
  have hsigned : n.sign ++ (n.digits ++ x) = m.sign ++ (m.digits ++ x) := by
    rw [← hdrop, ← hdrop', h]
  have hdigits : n.digits = m.digits := by
    have hall : n.digits ++ x = m.digits ++ x := by rw [← hrest, ← hrest', hsigned]
    exact List.append_cancel_right hall
  have hsign : n.sign = lit "-" ↔ m.sign = lit "-" := by
    rw [← hneg, ← hneg', hsigned]
  refine ⟨?_, rfl⟩
  rw [Numeral.value, Numeral.value, hdigits]
  exact if_congr hsign rfl rfl

/-! ### The grammar -/

/-- An item: one of the letters without a number, a letter with a number, or `E` with
or without one. -/
structure FlagItem where
  letter : Byte
  num : Option Numeral
  ok : letter ∈ lit "tpeuUTKF" ∧ num = none ∨ letter ∈ lit "CLS" ∧ num.isSome = true ∨
    letter = 'E'.toUInt8

/-- The bytes behind the letter of an item. -/
def FlagItem.numText (i : FlagItem) : List Byte := i.num.elim [] Numeral.text

/-- What an item says: its letter, and the number written. -/
def FlagItem.said (i : FlagItem) : Byte × Option ℤ := (i.letter, i.num.map Numeral.value)

/-- The text of a sequence of items. -/
def flagsText (items : List FlagItem) : List Byte :=
  items.flatMap fun i => i.letter :: i.numText

/-- `str` contains a `<`, followed by items that say `said` and a `>`. -/
def Lists (str : List Byte) (said : List (Byte × Option ℤ)) : Prop :=
  ∃ (pre rest : List Byte) (items : List FlagItem), '<'.toUInt8 ∉ pre ∧
    str = pre ++ '<'.toUInt8 :: (flagsText items ++ '>'.toUInt8 :: rest) ∧
    said = items.map FlagItem.said

theorem flagsText_cons (i : FlagItem) (items : List FlagItem) (x : List Byte) :
    flagsText (i :: items) ++ x = i.letter :: (i.numText ++ (flagsText items ++ x)) := by
  simp [flagsText]

/-- The letters of items. -/
theorem FlagItem.letter_mem (i : FlagItem) : i.letter ∈ lit "tpeuUTKFCLSE" := by
  rcases i.ok with ⟨h, -⟩ | ⟨h, -⟩ | h
  · exact forall_mem_of_all (by decide : (lit "tpeuUTKF").all _ = true) _ h
  · exact forall_mem_of_all (by decide : (lit "CLS").all _ = true) _ h
  · rw [h]
    decide

/-- Behind an item no numeral goes on. -/
theorem noNumeral_flags (items : List FlagItem) (rest : List Byte) :
    NoNumeral (flagsText items ++ '>'.toUInt8 :: rest) := by
  cases items with
  | nil => exact noNumeral_close rest
  | cons i items =>
    rw [flagsText_cons]
    have hletters : ∀ b ∈ lit "tpeuUTKFCLSE", isSpace b = false ∧ b ≠ '-'.toUInt8 ∧
        b ≠ '+'.toUInt8 ∧ isDigit b = false := forall_mem_of_all (by decide)
    exact ⟨i.letter, _, rfl, hletters _ i.letter_mem⟩

/-- A numeral does not start like an item. -/
theorem Numeral.text_ne (n : Numeral) (y : List Byte) {x : List Byte} (hx : NoNumeral x) :
    x ≠ n.text ++ y := by
  obtain ⟨b, t, rfl, hsp, hmin, hplus, hd⟩ := hx
  intro h
  obtain ⟨hdrop, -, -⟩ := n.signed y
  rw [← h, List.dropWhile_cons_of_neg (by simp [hsp])] at hdrop
  obtain ⟨d, ds, hds⟩ := List.exists_cons_of_ne_nil n.digits_ne
  rcases n.sign_ok with hs | hs | hs
  · rw [hs, hds] at hdrop
    have hb : b = d := (List.cons.inj hdrop).1
    rw [hb, n.digits_ok d (by simp [hds])] at hd
    cases hd
  · rw [hs] at hdrop
    exact hmin (List.cons.inj hdrop).1
  · rw [hs] at hdrop
    exact hplus (List.cons.inj hdrop).1

/-- **The grammar is unambiguous.** -/
theorem flagsText_unique {items items' : List FlagItem} {rest rest' : List Byte}
    (h : flagsText items ++ '>'.toUInt8 :: rest = flagsText items' ++ '>'.toUInt8 :: rest') :
    items.map FlagItem.said = items'.map FlagItem.said := by
  have hclose : ∀ i : FlagItem, i.letter ≠ '>'.toUInt8 := by
    intro i hi
    have hmem := i.letter_mem
    rw [hi] at hmem
    exact absurd hmem (by decide)
  induction items generalizing items' with
  | nil =>
    cases items' with
    | nil => rfl
    | cons j items' =>
      rw [flagsText_cons] at h
      exact absurd (List.cons.inj h).1.symm (hclose j)
  | cons i items ih =>
    cases items' with
    | nil =>
      rw [flagsText_cons] at h
      exact absurd (List.cons.inj h).1 (hclose i)
    | cons j items' =>
      rw [flagsText_cons, flagsText_cons] at h
      obtain ⟨hletter, htail⟩ := List.cons.inj h
      have hx := noNumeral_flags items rest
      have hy := noNumeral_flags items' rest'
      rw [FlagItem.numText, FlagItem.numText] at htail
      rw [List.map_cons, List.map_cons, FlagItem.said, FlagItem.said, hletter]
      cases hi : i.num with
      | none =>
        cases hj : j.num with
        | none =>
          rw [hi, hj] at htail
          rw [ih htail]
        | some m =>
          rw [hi, hj] at htail
          exact absurd htail (m.text_ne _ hx)
      | some n =>
        cases hj : j.num with
        | none =>
          rw [hi, hj] at htail
          exact absurd htail.symm (n.text_ne _ hy)
        | some m =>
          rw [hi, hj] at htail
          obtain ⟨hvalue, hrest⟩ := Numeral.unique htail hx.noDigit hy.noDigit
          rw [ih hrest]
          simp only [Option.map_some, hvalue]

theorem Lists.unique {str : List Byte} {said said' : List (Byte × Option ℤ)}
    (h : Lists str said) (h' : Lists str said') : said = said' := by
  obtain ⟨pre, rest, items, hpre, rfl, rfl⟩ := h
  obtain ⟨pre', rest', items', hpre', hstr, rfl⟩ := h'
  have hdrop : ∀ (pre t : List Byte), '<'.toUInt8 ∉ pre →
      (pre ++ '<'.toUInt8 :: t).dropWhile (· ∉ lit "<") = '<'.toUInt8 :: t := by
    intro pre t hpre
    refine dropWhile_word (fun b hb hin => hpre ?_) (by decide) t
    rw [List.mem_singleton.mp hin] at hb
    exact hb
  have hsame := congrArg (List.dropWhile (· ∉ lit "<")) hstr
  rw [hdrop pre _ hpre, hdrop pre' _ hpre'] at hsame
  exact flagsText_unique (List.cons.inj hsame).2

/-! ### What the decoder accepts -/

/-- What an `int` holds of a number read by `strtol`. -/
def stored (pf : Platform) (v : ℤ) : Int32 := Int32.ofInt (pf.clamp v)

/-- What the decoder does with an item. -/
def effectOf (pf : Platform) (said : Byte × Option ℤ) : FlagEffect :=
  let num := said.2.elim 0 (stored pf)
  match Char.ofUInt8 said.1 with
  | 't' => .set Flag.tty
  | 'p' => .set Flag.pipe
  | 'e' => .set Flag.ether
  | 'u' => .set Flag.tun
  | 'U' => .prot Flag.udp
  | 'T' => .prot Flag.tcp
  | 'K' => .set Flag.keepAlive
  | 'C' => .compress Flag.zlib num
  | 'L' => .compress Flag.lzo num
  | 'E' => .encrypt num
  | 'S' => .speed num
  | _ => .set 0

/-- A number that the decoder takes for an error. -/
def Mistaken (pf : Platform) (v : ℤ) : Prop := stored pf v = erange

instance (pf : Platform) (v : ℤ) : Decidable (Mistaken pf v) :=
  inferInstanceAs (Decidable (stored pf v = erange))

theorem readInt_numeral (pf : Platform) (n : Numeral) {x : List Byte} (hx : NoDigit x) :
    readInt pf (n.text ++ x) = (stored pf n.value, x) := by
  rw [readInt, strtol_numeral pf n hx]
  rfl

theorem readInt_none (pf : Platform) {x : List Byte} (hx : NoNumeral x) :
    readInt pf x = (0, x) := by
  obtain ⟨b, t, rfl, hsp, hmin, hplus, hd⟩ := hx
  rw [readInt, strtol_noDigit pf hsp hmin hplus hd]
  rfl

theorem Numeral.text_append_ne (n : Numeral) (x : List Byte) : n.text ++ x ≠ x := by
  intro h
  have hnil := List.append_left_eq_self.mp h
  rw [Numeral.text] at hnil
  exact n.digits_ne (List.append_eq_nil_iff.mp (List.append_eq_nil_iff.mp hnil).2).2

/-- A letter with a number behind it. -/
theorem numberTurn_numeral (pf : Platform) (needed : Bool) (effect : Int32 → FlagEffect)
    (n : Numeral) {x : List Byte} (hx : NoDigit x) :
    numberTurn pf needed effect (n.text ++ x) =
      if Mistaken pf n.value then .ret false else .go (effect (stored pf n.value)) x := by
  unfold Mistaken
  rw [numberTurn, readInt_numeral pf n hx]
  simp only [n.text_append_ne x, and_false, or_false]
  rfl

/-- A letter without one. -/
theorem numberTurn_none (pf : Platform) (effect : Int32 → FlagEffect) {x : List Byte}
    (hx : NoNumeral x) : numberTurn pf false effect x = .go (effect 0) x := by
  rw [numberTurn, readInt_none pf hx]
  simp [erange]

theorem exists_mem_some {p : ℤ → Prop} (v : ℤ) : (∃ w ∈ some v, p w) ↔ p v := by simp

/-- **The turn of an item**: it is read, unless its number is taken for an error. -/
theorem cf2bfTurn_item (pf : Platform) (i : FlagItem) {x : List Byte} (hx : NoNumeral x) :
    cf2bfTurn pf i.letter (i.numText ++ x) =
      if ∃ v ∈ i.said.2, Mistaken pf v then .ret false else .go (effectOf pf i.said) x := by
  obtain ⟨letter, num, ok⟩ := i
  have hnone : ¬ ∃ v ∈ (none : Option ℤ), Mistaken pf v := by simp
  rcases ok with ⟨hletter, hnum⟩ | ⟨hletter, hnum⟩ | hletter
  · subst hnum
    have hcases : letter ∈ ['t'.toUInt8, 'p'.toUInt8, 'e'.toUInt8, 'u'.toUInt8, 'U'.toUInt8,
      'T'.toUInt8, 'K'.toUInt8, 'F'.toUInt8] := hletter
    simp only [List.mem_cons, List.not_mem_nil, or_false] at hcases
    simp only [FlagItem.said, Option.map_none]
    rcases hcases with rfl | rfl | rfl | rfl | rfl | rfl | rfl | rfl <;> rfl
  · obtain ⟨n, rfl⟩ := Option.isSome_iff_exists.mp hnum
    have hcases : letter ∈ ['C'.toUInt8, 'L'.toUInt8, 'S'.toUInt8] := hletter
    simp only [List.mem_cons, List.not_mem_nil, or_false] at hcases
    simp only [FlagItem.said, FlagItem.numText, Option.map_some, Option.elim_some,
      exists_mem_some]
    rcases hcases with rfl | rfl | rfl
    · exact numberTurn_numeral pf true _ n hx.noDigit
    · exact numberTurn_numeral pf true _ n hx.noDigit
    · exact numberTurn_numeral pf true _ n hx.noDigit
  · subst hletter
    cases num with
    | none =>
      simp only [FlagItem.said, FlagItem.numText, Option.map_none, Option.elim_none]
      exact numberTurn_none pf _ hx
    | some n =>
      simp only [FlagItem.said, FlagItem.numText, Option.map_some, Option.elim_some,
        exists_mem_some]
      exact numberTurn_numeral pf false _ n hx.noDigit

theorem toUInt8_ofUInt8 (b : Byte) : (Char.ofUInt8 b).toUInt8 = b := by
  have htable : ∀ x : BitVec 8, (Char.ofUInt8 ⟨x⟩).toUInt8 = ⟨x⟩ := by decide
  exact htable b.toBitVec

/-- A turn that reads a number. -/
theorem numberTurn_go {pf : Platform} {needed : Bool} {effect : Int32 → FlagEffect}
    {ptr p : List Byte} {e : FlagEffect} (h : numberTurn pf needed effect ptr = .go e p) :
    (∃ n : Numeral, ptr = n.text ++ p ∧ e = effect (stored pf n.value) ∧
        ¬ Mistaken pf n.value) ∨
      needed = false ∧ ptr = p ∧ e = effect 0 := by
  rcases strtol_cases pf ptr with hnone | ⟨n, x, rfl, hx⟩
  · have hread : readInt pf ptr = (0, ptr) := by
      rw [readInt, hnone]
      rfl
    rw [numberTurn, hread] at h
    dsimp only at h
    split at h
    · cases h
    · rename_i hok
      cases h
      refine Or.inr ⟨?_, rfl, rfl⟩
      simpa using fun hn => hok (Or.inr ⟨hn, rfl⟩)
  · rw [numberTurn_numeral pf needed effect n hx] at h
    split at h
    · cases h
    · rename_i hok
      cases h
      exact Or.inl ⟨n, rfl, rfl, hok⟩

/-- **A turn that goes on has read an item.** -/
theorem cf2bfTurn_go {pf : Platform} {b : Byte} {ptr p : List Byte} {e : FlagEffect}
    (h : cf2bfTurn pf b ptr = .go e p) :
    ∃ i : FlagItem, i.letter = b ∧ ptr = i.numText ++ p ∧ e = effectOf pf i.said ∧
      ∀ v ∈ i.said.2, ¬ Mistaken pf v := by
  -- the letters without a number
  have hplain : ∀ (c : Char) (effect : FlagEffect), Char.ofUInt8 b = c →
      c.toUInt8 ∈ lit "tpeuUTKF" → effect = effectOf pf (c.toUInt8, none) →
      FlagTurn.go effect ptr = .go e p → ∃ i : FlagItem, i.letter = b ∧ ptr = i.numText ++ p ∧
        e = effectOf pf i.said ∧ ∀ v ∈ i.said.2, ¬ Mistaken pf v := by
    rintro c effect rfl hletter heffect hgo
    rw [toUInt8_ofUInt8] at hletter heffect
    cases hgo
    exact ⟨⟨b, none, Or.inl ⟨hletter, rfl⟩⟩, rfl, rfl, heffect, by simp [FlagItem.said]⟩
  -- those with one
  have hnumbered : ∀ (c : Char) (needed : Bool) (effect : Int32 → FlagEffect),
      Char.ofUInt8 b = c → (c.toUInt8 ∈ lit "CLS" ∨ c.toUInt8 = 'E'.toUInt8) →
      (needed = false → c.toUInt8 = 'E'.toUInt8) →
      (∀ num, effect (num.elim 0 (stored pf)) = effectOf pf (c.toUInt8, num)) →
      numberTurn pf needed effect ptr = .go e p → ∃ i : FlagItem, i.letter = b ∧
        ptr = i.numText ++ p ∧ e = effectOf pf i.said ∧ ∀ v ∈ i.said.2, ¬ Mistaken pf v := by
    rintro c needed effect rfl hletter hneeded heffect hturn
    rw [toUInt8_ofUInt8] at hletter hneeded
    simp only [toUInt8_ofUInt8] at heffect
    rcases numberTurn_go hturn with ⟨n, hptr, he, hok⟩ | ⟨hfalse, hptr, he⟩
    · refine ⟨⟨b, some n, ?_⟩, rfl, hptr, ?_, ?_⟩
      · rcases hletter with hl | hl
        · exact Or.inr (Or.inl ⟨hl, rfl⟩)
        · exact Or.inr (Or.inr hl)
      · rw [he]
        exact heffect (some n.value)
      · intro v hv
        rw [← Option.some.inj (Option.mem_def.mp hv)]
        exact hok
    · refine ⟨⟨b, none, Or.inr (Or.inr (hneeded hfalse))⟩, rfl, hptr, ?_, by simp [FlagItem.said]⟩
      rw [he]
      exact heffect none
  unfold cf2bfTurn at h
  split at h
  · exact hplain 't' _ (by assumption) (by decide) rfl h
  · exact hplain 'p' _ (by assumption) (by decide) rfl h
  · exact hplain 'e' _ (by assumption) (by decide) rfl h
  · exact hplain 'u' _ (by assumption) (by decide) rfl h
  · exact hplain 'U' _ (by assumption) (by decide) rfl h
  · exact hplain 'T' _ (by assumption) (by decide) rfl h
  · exact hplain 'K' _ (by assumption) (by decide) rfl h
  · exact hnumbered 'C' _ _ (by assumption) (by decide) (by decide) (fun _ => rfl) h
  · exact hnumbered 'L' _ _ (by assumption) (by decide) (by decide) (fun _ => rfl) h
  · exact hnumbered 'E' _ _ (by assumption) (by decide) (by decide) (fun _ => rfl) h
  · exact hnumbered 'S' _ _ (by assumption) (by decide) (by decide) (fun _ => rfl) h
  · exact hplain 'F' _ (by assumption) (by decide) rfl h
  · cases h
  · cases h

/-- A turn that accepts has read the closing bracket. -/
theorem cf2bfTurn_true {pf : Platform} {b : Byte} {ptr : List Byte}
    (h : cf2bfTurn pf b ptr = .ret true) : b = '>'.toUInt8 := by
  have hnumber : ∀ (needed : Bool) (effect : Int32 → FlagEffect),
      numberTurn pf needed effect ptr ≠ .ret true := by
    intro needed effect
    rw [numberTurn]
    dsimp only
    split
    · exact fun hret => by cases hret
    · exact fun hret => by cases hret
  unfold cf2bfTurn at h
  split at h
  all_goals first | cases h; done | exact absurd h (hnumber _ _) | skip
  rename_i hc
  rw [← toUInt8_ofUInt8 b, hc]

/-- **What the loop accepts**: items whose numbers are not taken for errors, up to a
closing bracket. -/
theorem cf2bfLoop_sound {pf : Platform} {n : ℕ} {s : List Byte} {host host' : VtunHost}
    (h : cf2bfLoop pf n s host = (true, host')) :
    ∃ (items : List FlagItem) (rest : List Byte), s = flagsText items ++ '>'.toUInt8 :: rest ∧
      (∀ i ∈ items, ∀ v ∈ i.said.2, ¬ Mistaken pf v) ∧
      host' = (items.map FlagItem.said).foldl (fun host k => (effectOf pf k).run host) host := by
  induction n generalizing s host with
  | zero => simp [cf2bfLoop] at h
  | succ n ih =>
    cases s with
    | nil => simp [cf2bfLoop] at h
    | cons b ptr =>
      rw [cf2bfLoop_turn] at h
      cases hturn : cf2bfTurn pf b ptr with
      | ret ok =>
        rw [hturn, FlagTurn.then] at h
        obtain ⟨rfl, rfl⟩ := Prod.mk.inj h
        rw [cf2bfTurn_true hturn]
        exact ⟨[], ptr, rfl, by simp, rfl⟩
      | go e p =>
        rw [hturn, FlagTurn.then] at h
        obtain ⟨i, rfl, rfl, rfl, hi⟩ := cf2bfTurn_go hturn
        obtain ⟨items, rest, rfl, hitems, hhost⟩ := ih h
        refine ⟨i :: items, rest, (flagsText_cons i items _).symm, ?_, hhost⟩
        rintro j hj
        rcases List.mem_cons.mp hj with rfl | hj
        · exact hi
        · exact hitems j hj

/-- The loop accepts such a string. -/
theorem cf2bfLoop_complete {pf : Platform} {items : List FlagItem}
    (hok : ∀ i ∈ items, ∀ v ∈ i.said.2, ¬ Mistaken pf v) {n : ℕ} (hn : items.length < n)
    (rest : List Byte) (host : VtunHost) :
    cf2bfLoop pf n (flagsText items ++ '>'.toUInt8 :: rest) host =
      (true, (items.map FlagItem.said).foldl (fun host k => (effectOf pf k).run host) host) := by
  induction items generalizing n host with
  | nil =>
    obtain ⟨n, rfl⟩ := Nat.exists_eq_add_of_lt hn
    rfl
  | cons i items ih =>
    obtain ⟨m, rfl⟩ : ∃ m, n = m + 1 := ⟨n - 1, by omega⟩
    rw [List.length_cons] at hn
    obtain ⟨hi, hitems⟩ := List.forall_mem_cons.mp hok
    have hnone : ¬ ∃ v ∈ i.said.2, Mistaken pf v := fun ⟨v, hv, hm⟩ => hi v hv hm
    rw [flagsText_cons, cf2bfLoop_turn, cf2bfTurn_item pf i (noNumeral_flags items rest),
      if_neg hnone, FlagTurn.then, ih hitems (by omega)]
    rfl

theorem length_le_flagsText (items : List FlagItem) : items.length ≤ (flagsText items).length := by
  induction items with
  | nil => exact Nat.le_refl 0
  | cons i items ih =>
    have hcons := congrArg List.length (flagsText_cons i items [])
    rw [List.append_nil, List.append_nil] at hcons
    rw [hcons]
    simp only [List.length_cons, List.length_append]
    omega

/-- **What `cf2bf` accepts**, and the record then. -/
theorem cf2bf_accepts (pf : Platform) (str : List Byte) (host host' : VtunHost) :
    cf2bf pf str host = (true, host') ↔ ∃ said, Lists str said ∧
      (∀ k ∈ said, ∀ v ∈ k.2, ¬ Mistaken pf v) ∧
      host' = said.foldl (fun host k => (effectOf pf k).run host) host := by
  constructor
  · intro h
    rw [cf2bf, strchr] at h
    have hsplit : str.takeWhile (· ≠ '<'.toUInt8) ++ str.dropWhile (· ≠ '<'.toUInt8) = str :=
      List.takeWhile_append_dropWhile
    have hpre : '<'.toUInt8 ∉ str.takeWhile (· ≠ '<'.toUInt8) := by
      intro hmem
      simpa using List.mem_takeWhile_imp hmem
    have hfirst := List.head?_dropWhile_not (fun b => decide (b ≠ '<'.toUInt8)) str
    cases hdrop : str.dropWhile (· ≠ '<'.toUInt8) with
    | nil =>
      rw [hdrop] at h
      cases h
    | cons b t =>
      rw [hdrop] at h hsplit hfirst
      have hb : b = '<'.toUInt8 := by simpa using hfirst
      subst hb
      obtain ⟨items, rest, ht, hok, hhost⟩ := cf2bfLoop_sound h
      rw [List.drop_succ_cons, List.drop_zero] at ht
      refine ⟨items.map FlagItem.said, ⟨_, rest, items, hpre, ?_, rfl⟩, ?_, hhost⟩
      · rw [← ht]
        exact hsplit.symm
      · rintro k hk
        obtain ⟨i, hi, rfl⟩ := List.mem_map.mp hk
        exact hok i hi
  · rintro ⟨said, ⟨pre, rest, items, hpre, rfl, rfl⟩, hok, rfl⟩
    have hbefore : ∀ b ∈ pre, decide (b ≠ '<'.toUInt8) = true := fun b hb => by
      simpa using fun h : b = '<'.toUInt8 => hpre (h ▸ hb)
    have hlen := length_le_flagsText items
    rw [cf2bf, strchr, List.dropWhile_append_of_pos hbefore,
      List.dropWhile_cons_of_neg (by simp)]
    refine cf2bfLoop_complete (fun i hi => hok _ (List.mem_map_of_mem hi)) ?_ rest host
    simp only [List.length_cons, List.length_append]
    omega

/-! ### The numbers -/

/-- A number is representable in `int`. -/
def InInt (v : ℤ) : Prop := -2 ^ 31 ≤ v ∧ v < 2 ^ 31

instance (v : ℤ) : Decidable (InInt v) := inferInstanceAs (Decidable (_ ∧ _))

theorem stored_toInt (pf : Platform) {v : ℤ} (hv : InInt v) : (stored pf v).toInt = v := by
  have hmax : (2 : ℤ) ^ 31 - 1 ≤ pf.longMax := by cases pf <;> decide
  obtain ⟨hlow, hhigh⟩ := hv
  have hclamp : pf.clamp v = v := by
    rw [Platform.clamp]
    omega
  rw [stored, hclamp]
  exact Int32.toInt_ofInt_of_le (by omega) (by omega)

/-- The speed an item asks for. -/
def speedOf (k : Byte × Option ℤ) : Option ℤ :=
  if k.1 = 'S'.toUInt8 then k.2.filter (· ≠ 0) else none

/-- The compression level of an item. -/
def levelOf (k : Byte × Option ℤ) : Option ℤ :=
  if k.1 = 'C'.toUInt8 ∨ k.1 = 'L'.toUInt8 then k.2 else none

/-- The cipher of an item, 0 where its number is missing. -/
def cipherOf (k : Byte × Option ℤ) : Option ℤ :=
  if k.1 = 'E'.toUInt8 then some (k.2.getD 0) else none

/-- The record holds the numbers of the last items that have one to give. -/
structure StoresNumbers (said : List (Byte × Option ℤ)) (host : VtunHost) : Prop where
  spdOut : ∀ v, LastWrite.last speedOf said = some v → host.spdOut.toInt = v
  zlevel : ∀ v, LastWrite.last levelOf said = some v → host.zlevel.toInt = v
  cipher : ∀ v, LastWrite.last cipherOf said = some v →
    host.cipher.toInt = if v = 0 then legacyEncrypt.toInt else v

theorem letter_of_char {b : Byte} {c : Char} (h : Char.ofUInt8 b = c) : b = c.toUInt8 := by
  rw [← h, toUInt8_ofUInt8]

/-- Only `S` changes the speed. -/
theorem effectOf_spdOut (pf : Platform) (k : Byte × Option ℤ) (host : VtunHost) :
    ((effectOf pf k).run host).spdOut =
      if k.1 = 'S'.toUInt8 ∧ k.2.elim 0 (stored pf) ≠ 0 then k.2.elim 0 (stored pf)
      else host.spdOut := by
  obtain ⟨b, num⟩ := k
  by_cases hb : b = 'S'.toUInt8
  · subst hb
    show (FlagEffect.run host (.speed (num.elim 0 (stored pf)))).spdOut = _
    rw [FlagEffect.run]
    by_cases hzero : num.elim 0 (stored pf) = 0
    · rw [if_neg (not_not.mpr hzero), if_neg (fun h => h.2 hzero)]
    · rw [if_pos hzero, if_pos ⟨rfl, hzero⟩]
  · rw [if_neg fun h => hb h.1]
    unfold effectOf
    dsimp only
    split
    case h_11 hc => exact absurd (letter_of_char hc) hb
    all_goals rfl

/-- Only `C` and `L` change the level. -/
theorem effectOf_zlevel (pf : Platform) (k : Byte × Option ℤ) (host : VtunHost) :
    ((effectOf pf k).run host).zlevel =
      if k.1 = 'C'.toUInt8 ∨ k.1 = 'L'.toUInt8 then k.2.elim 0 (stored pf) else host.zlevel := by
  obtain ⟨b, num⟩ := k
  by_cases hb : b = 'C'.toUInt8 ∨ b = 'L'.toUInt8
  · rw [if_pos hb]
    rcases hb with rfl | rfl <;> rfl
  · rw [if_neg hb]
    obtain ⟨hC, hL⟩ := not_or.mp hb
    unfold effectOf
    dsimp only
    split
    case h_8 hc => exact absurd (letter_of_char hc) hC
    case h_9 hc => exact absurd (letter_of_char hc) hL
    case h_11 => exact apply_ite VtunHost.zlevel _ _ _ |>.trans (ite_self _)
    all_goals rfl

/-- Only `E` changes the cipher. -/
theorem effectOf_cipher (pf : Platform) (k : Byte × Option ℤ) (host : VtunHost) :
    ((effectOf pf k).run host).cipher =
      if k.1 = 'E'.toUInt8 then
        if k.2.elim 0 (stored pf) = 0 then legacyEncrypt else k.2.elim 0 (stored pf)
      else host.cipher := by
  obtain ⟨b, num⟩ := k
  by_cases hb : b = 'E'.toUInt8
  · rw [if_pos hb]
    subst hb
    rfl
  · rw [if_neg hb]
    unfold effectOf
    dsimp only
    split
    case h_10 hc => exact absurd (letter_of_char hc) hb
    case h_11 => exact apply_ite VtunHost.cipher _ _ _ |>.trans (ite_self _)
    all_goals rfl

/-- A field behind a sequence of items: what the last item left there that has
something to say about it. -/
theorem foldl_effect (pf : Platform) (get : VtunHost → Int32) (val : ℤ → ℤ)
    {mention : Byte × Option ℤ → Option ℤ} {said : List (Byte × Option ℤ)}
    (hsome : ∀ k ∈ said, ∀ v, mention k = some v → ∀ host,
      (get ((effectOf pf k).run host)).toInt = val v)
    (hnone : ∀ k ∈ said, mention k = none → ∀ host,
      get ((effectOf pf k).run host) = get host) (host : VtunHost) {v : ℤ}
    (hv : LastWrite.last mention said = some v) :
    (get (said.foldl (fun host k => (effectOf pf k).run host) host)).toInt = val v := by
  induction said using List.reverseRecOn with
  | nil => cases hv
  | append_singleton said k ih =>
    have hk : k ∈ said ++ [k] := by simp
    have hsaid : ∀ j ∈ said, j ∈ said ++ [k] := fun j hj => by simp [hj]
    rw [LastWrite.last_snoc] at hv
    rw [List.foldl_append, List.foldl_cons, List.foldl_nil]
    cases hm : mention k with
    | none =>
      rw [hm, Option.none_or] at hv
      rw [hnone k hk hm]
      exact ih (fun j hj => hsome j (hsaid j hj)) (fun j hj => hnone j (hsaid j hj)) hv
    | some w =>
      rw [hm, Option.some_or] at hv
      rw [← Option.some.inj hv]
      exact hsome k hk w hm _

theorem toInt_eq_zero {x : Int32} : x = 0 ↔ x.toInt = 0 := by
  constructor
  · rintro rfl
    rfl
  · intro h
    exact Int32.toInt_inj.mp h

/-- A compressor has a level. -/
theorem FlagItem.level_isSome (i : FlagItem)
    (h : i.letter = 'C'.toUInt8 ∨ i.letter = 'L'.toUInt8) : i.num.isSome = true := by
  rcases i.ok with ⟨hl, -⟩ | ⟨-, hnum⟩ | hl
  · rcases h with h | h <;>
    · rw [h] at hl
      exact absurd hl (by decide)
  · exact hnum
  · rcases h with h | h <;>
    · rw [hl] at h
      exact absurd h (by decide)

section StoresNumbers

variable {pf : Platform} {said : List (Byte × Option ℤ)}

/-- The last speed, where there is one. -/
theorem storesNumbers_spdOut (hnum : ∀ k ∈ said, (k.2.elim 0 (stored pf)).toInt = k.2.getD 0)
    (host : VtunHost) {v : ℤ} (hv : LastWrite.last speedOf said = some v) :
    ((said.foldl (fun host k => (effectOf pf k).run host) host).spdOut).toInt = v := by
  refine foldl_effect pf VtunHost.spdOut id (fun k hk v hv host => ?_) (fun k hk hv host => ?_)
    host hv
  · rw [speedOf] at hv
    split at hv
    · rename_i hS
      obtain ⟨hk2, hne⟩ := Option.filter_eq_some_iff.mp hv
      have hval := hnum k hk
      rw [hk2, Option.getD_some] at hval
      have hnz : ¬ k.2.elim 0 (stored pf) = 0 := by
        rw [toInt_eq_zero, hk2, hval]
        simpa using hne
      rw [effectOf_spdOut, if_pos ⟨hS, hnz⟩, hk2]
      exact hval
    · cases hv
  · rw [effectOf_spdOut, if_neg]
    rintro ⟨hS, hne⟩
    rw [speedOf, if_pos hS] at hv
    refine hne (toInt_eq_zero.mpr ?_)
    rw [hnum k hk]
    cases hk2 : k.2 with
    | none => rfl
    | some w =>
      rw [hk2] at hv
      simpa using hv

/-- The last level; every compressor has one. -/
theorem storesNumbers_zlevel (hnum : ∀ k ∈ said, (k.2.elim 0 (stored pf)).toInt = k.2.getD 0)
    (hlevel : ∀ k ∈ said, k.1 = 'C'.toUInt8 ∨ k.1 = 'L'.toUInt8 → k.2 ≠ none)
    (host : VtunHost) {v : ℤ} (hv : LastWrite.last levelOf said = some v) :
    ((said.foldl (fun host k => (effectOf pf k).run host) host).zlevel).toInt = v := by
  refine foldl_effect pf VtunHost.zlevel id (fun k hk v hv host => ?_) (fun k hk hv host => ?_)
    host hv
  · rw [levelOf] at hv
    split at hv
    · rename_i hCL
      have hval := hnum k hk
      rw [hv] at hval
      rw [effectOf_zlevel, if_pos hCL, hv]
      exact hval
    · cases hv
  · rw [effectOf_zlevel, if_neg]
    intro hCL
    rw [levelOf, if_pos hCL] at hv
    exact hlevel k hk hCL hv

/-- The last cipher; zero stands for the old encryptor. -/
theorem storesNumbers_cipher (hnum : ∀ k ∈ said, (k.2.elim 0 (stored pf)).toInt = k.2.getD 0)
    (host : VtunHost) {v : ℤ} (hv : LastWrite.last cipherOf said = some v) :
    ((said.foldl (fun host k => (effectOf pf k).run host) host).cipher).toInt =
      if v = 0 then legacyEncrypt.toInt else v := by
  refine foldl_effect pf VtunHost.cipher (fun v => if v = 0 then legacyEncrypt.toInt else v)
    (fun k hk v hv host => ?_) (fun k hk hv host => ?_) host hv
  · rw [cipherOf] at hv
    split at hv
    · rename_i hE
      rw [← Option.some.inj hv, effectOf_cipher, if_pos hE]
      have hval := hnum k hk
      by_cases hzero : k.2.elim 0 (stored pf) = 0
      · rw [if_pos hzero, if_pos]
        rw [← hval]
        exact toInt_eq_zero.mp hzero
      · rw [if_neg hzero, if_neg, hval]
        rw [← hval]
        exact fun h => hzero (toInt_eq_zero.mpr h)
    · cases hv
  · rw [effectOf_cipher, if_neg]
    intro hE
    rw [cipherOf, if_pos hE] at hv
    cases hv

end StoresNumbers

/-- **Numbers that an `int` can hold are stored as they are written.** -/
theorem storesNumbers {pf : Platform} {items : List FlagItem}
    (hin : ∀ k ∈ items.map FlagItem.said, ∀ v ∈ k.2, InInt v) (host : VtunHost) :
    StoresNumbers (items.map FlagItem.said)
      ((items.map FlagItem.said).foldl (fun host k => (effectOf pf k).run host) host) := by
  set said := items.map FlagItem.said with hsaid
  have hnum : ∀ k ∈ said, (k.2.elim 0 (stored pf)).toInt = k.2.getD 0 := by
    intro k hk
    cases hk2 : k.2 with
    | none => rfl
    | some v => exact stored_toInt pf (hin k hk v hk2)
  have hlevel : ∀ k ∈ said, k.1 = 'C'.toUInt8 ∨ k.1 = 'L'.toUInt8 → k.2 ≠ none := by
    intro k hk hletter
    obtain ⟨i, -, rfl⟩ := List.mem_map.mp hk
    have hsome := i.level_isSome hletter
    intro hnone
    rw [Option.map_eq_none_iff.mp hnone] at hsome
    cases hsome
  exact ⟨fun v hv => storesNumbers_spdOut hnum host hv,
    fun v hv => storesNumbers_zlevel hnum hlevel host hv,
    fun v hv => storesNumbers_cipher hnum host hv⟩

/-! ### Main result -/

/-- The decoder accepts what the grammar does, with numbers that an `int` can hold, and
stores the numbers written. -/
structure Decodes (pf : Platform) (str : List Byte) (host : VtunHost) : Prop where
  accepts : (cf2bf pf str host).1 = true ↔
    ∃ said, Lists str said ∧ ∀ k ∈ said, ∀ v ∈ k.2, InInt v
  stores : (cf2bf pf str host).1 = true → ∀ said, Lists str said →
    StoresNumbers said (cf2bf pf str host).2

/-- The string is no list of items, or it has a number that is taken for an error if
and only if it has one that an `int` cannot hold. -/
def ErrorsAreRange (pf : Platform) (str : List Byte) : Prop :=
  ∀ said, Lists str said →
    ((∃ k ∈ said, ∃ v ∈ k.2, Mistaken pf v) ↔ ∃ k ∈ said, ∃ v ∈ k.2, ¬ InInt v)

/-- **The decoder keeps to the grammar** exactly on the strings whose numbers are taken
for errors where they are out of range. -/
theorem cf2bf_grammar_iff (pf : Platform) (str : List Byte) (host : VtunHost) :
    Decodes pf str host ↔ ErrorsAreRange pf str := by
  have haccept : (cf2bf pf str host).1 = true ↔ ∃ said, Lists str said ∧
      ∀ k ∈ said, ∀ v ∈ k.2, ¬ Mistaken pf v := by
    constructor
    · intro h
      obtain ⟨said, hlists, hok, -⟩ := (cf2bf_accepts pf str host _).mp (Prod.ext h rfl)
      exact ⟨said, hlists, hok⟩
    · rintro ⟨said, hlists, hok⟩
      rw [(cf2bf_accepts pf str host _).mpr ⟨said, hlists, hok, rfl⟩]
  have hex : ∀ (said : List (Byte × Option ℤ)) (p : ℤ → Prop),
      (∃ k ∈ said, ∃ v ∈ k.2, ¬ p v) ↔ ¬ ∀ k ∈ said, ∀ v ∈ k.2, p v := by
    intro said p
    simp only [not_forall, exists_prop]
  constructor
  · intro h said hlists
    have hiff := haccept.symm.trans h.accepts
    have hone : ∀ p : ℤ → Prop, (∃ said, Lists str said ∧ ∀ k ∈ said, ∀ v ∈ k.2, p v) ↔
        ∀ k ∈ said, ∀ v ∈ k.2, p v := by
      intro p
      constructor
      · rintro ⟨said', hlists', hp⟩
        rwa [hlists.unique hlists']
      · exact fun hp => ⟨said, hlists, hp⟩
    rw [hone, hone] at hiff
    rw [hex, ← hiff]
    simp only [not_forall, exists_prop, not_not]
  · intro h
    have hsame : ∀ said, Lists str said → ((∀ k ∈ said, ∀ v ∈ k.2, ¬ Mistaken pf v) ↔
        ∀ k ∈ said, ∀ v ∈ k.2, InInt v) := by
      intro said hlists
      rw [← not_iff_not, ← hex, ← hex, ← h said hlists]
      simp only [not_not]
    refine ⟨haccept.trans ?_, fun hret said hlists => ?_⟩
    · constructor
      · rintro ⟨said, hlists, hok⟩
        exact ⟨said, hlists, (hsame said hlists).mp hok⟩
      · rintro ⟨said, hlists, hin⟩
        exact ⟨said, hlists, (hsame said hlists).mpr hin⟩
    · obtain ⟨said', hlists', hok, hhost⟩ :=
        (cf2bf_accepts pf str host (cf2bf pf str host).2).mp (Prod.ext hret rfl)
      obtain rfl := hlists.unique hlists'
      rw [hhost]
      have hin := (hsame said hlists).mp hok
      obtain ⟨-, -, items, -, -, rfl⟩ := hlists
      exact storesNumbers hin host

/-- A speed of 34, as a numeral. -/
def speed34 : FlagItem :=
  ⟨'S'.toUInt8, some ⟨[], [], lit "34", by simp, Or.inl rfl, by decide, forall_mem_of_all (by decide)⟩,
    Or.inr (Or.inl ⟨by decide, rfl⟩)⟩

/-- **34 is the number of `ERANGE`**: a speed of 34 is refused, while one that no `int`
holds is let through and becomes another speed. -/
theorem cf2bf_erange :
    ¬ Decodes .lp64 (lit "<S34>") clientHost ∧
      (cf2bf .lp64 (lit "<S4294967297>") clientHost).1 = true ∧
      (cf2bf .lp64 (lit "<S4294967297>") clientHost).2.spdOut = 1 := by
  refine ⟨fun h => ?_, by decide, by decide⟩
  have hlists : Lists (lit "<S34>") [('S'.toUInt8, some 34)] :=
    ⟨[], [], [speed34], by simp, rfl, by decide⟩
  have hret : (cf2bf .lp64 (lit "<S34>") clientHost).1 = false := by decide
  have haccepts := h.accepts.mpr ⟨_, hlists, by decide⟩
  rw [hret] at haccepts
  cases haccepts

end Vtun
