/-
The negotiation of the session flags (`auth.c`, `client.c`).

The server renders its host record with `bf2cf`; the client, which has cleared
the fields the server supplies, reads the string back with `cf2bf`.

* `cf2bfLoop_items` — the decoder reads an item string item by item;
* `flags_round_trip` — the client ends up with the server's tunnel type,
  protocol, compressor, keep-alive and encryption settings, and shapes its
  output at the server's input speed if the server shapes.
-/
import Vtun.CString
import Vtun.ModStack

namespace Vtun

/-- `ERANGE`. -/
def erange : Int32 := 34

/-- `VTUN_MESG_SIZE`. -/
def mesgSize : ℕ := 50

/-- `print_p`: the text, cut so that a NUL always follows, padded with NULs. -/
def printP (text : List Byte) : List Byte :=
  text.take (mesgSize - 2) ++ List.replicate (mesgSize - (text.take (mesgSize - 2)).length) 0

/-- What `client` does to the host record before it connects. -/
def clientClear (host : VtunHost) : VtunHost :=
  { host with spdIn := 0, spdOut := 0, flags := host.flags &&& Flag.clntMask }

/-! ### The encoder -/

/-- The letter of the protocol. -/
def protLetter (flags : BitVec 32) : List Byte :=
  if flags &&& Flag.protMask = Flag.tcp then lit "T"
  else if flags &&& Flag.protMask = Flag.udp then lit "U"
  else []

/-- The letter of the tunnel type. -/
def typeLetter (flags : BitVec 32) : List Byte :=
  if flags &&& Flag.typeMask = Flag.tty then lit "t"
  else if flags &&& Flag.typeMask = Flag.pipe then lit "p"
  else if flags &&& Flag.typeMask = Flag.ether then lit "e"
  else if flags &&& Flag.typeMask = Flag.tun then lit "u"
  else []

/-- `bf2cf` on its first call in a process.  Later calls go on writing behind
the string of the first, because the cursor into the buffer is static. -/
def bf2cf (host : VtunHost) : List Byte :=
  lit "<" ++ protLetter host.flags ++ typeLetter host.flags ++
  (if hasFlag host.flags Flag.shape then lit "S" ++ decimal host.spdIn else []) ++
  (if hasFlag host.flags Flag.zlib then lit "C" ++ decimal host.zlevel else []) ++
  (if hasFlag host.flags Flag.lzo then lit "L" ++ decimal host.zlevel else []) ++
  (if hasFlag host.flags Flag.keepAlive then lit "K" else []) ++
  (if hasFlag host.flags Flag.encrypt then
    if host.cipher = legacyEncrypt then lit "E" else lit "E" ++ decimal host.cipher
  else []) ++
  lit ">"

/-- The size of the buffer of `bf2cf`. -/
def bf2cfSize : ℕ := 20

/-! ### The decoder -/

/-- The number read by `s = strtol(ptr, &p, 10)` into an `int`, and `p`. -/
def readInt (pf : Platform) (ptr : List Byte) : Int32 × List Byte :=
  (Int32.ofInt (strtol pf ptr).1, (strtol pf ptr).2)

/-- The loop of `cf2bf`; every turn consumes a byte, so the length of the string
bounds the turns. -/
def cf2bfLoop (pf : Platform) : ℕ → List Byte → VtunHost → Bool × VtunHost
  | 0, _, host => (false, host)
  | _ + 1, [], host => (false, host)
  | n + 1, b :: ptr, host =>
    match Char.ofUInt8 b with
    | 't' => cf2bfLoop pf n ptr { host with flags := host.flags ||| Flag.tty }
    | 'p' => cf2bfLoop pf n ptr { host with flags := host.flags ||| Flag.pipe }
    | 'e' => cf2bfLoop pf n ptr { host with flags := host.flags ||| Flag.ether }
    | 'u' => cf2bfLoop pf n ptr { host with flags := host.flags ||| Flag.tun }
    -- the two protocol letters clear the old protocol first, the others only set
    | 'U' =>
      cf2bfLoop pf n ptr { host with flags := host.flags &&& ~~~Flag.protMask ||| Flag.udp }
    | 'T' =>
      cf2bfLoop pf n ptr { host with flags := host.flags &&& ~~~Flag.protMask ||| Flag.tcp }
    | 'K' => cf2bfLoop pf n ptr { host with flags := host.flags ||| Flag.keepAlive }
    | 'C' =>
      let (s, p) := readInt pf ptr
      if s = erange ∨ ptr = p then (false, host)
      else cf2bfLoop pf n p { host with flags := host.flags ||| Flag.zlib, zlevel := s }
    | 'L' =>
      let (s, p) := readInt pf ptr
      if s = erange ∨ ptr = p then (false, host)
      else cf2bfLoop pf n p { host with flags := host.flags ||| Flag.lzo, zlevel := s }
    | 'E' =>
      -- the old form has no number, so `ptr = p` is allowed
      let (s, p) := readInt pf ptr
      if s = erange then (false, host)
      else
        cf2bfLoop pf n p
          { host with
            flags := host.flags ||| Flag.encrypt
            cipher := if s = 0 then legacyEncrypt else s }
    | 'S' =>
      let (s, p) := readInt pf ptr
      if s = erange ∨ ptr = p then (false, host)
      else
        cf2bfLoop pf n p
          (if s ≠ 0 then { host with flags := host.flags ||| Flag.shape, spdOut := s } else host)
    | 'F' => cf2bfLoop pf n ptr host
    | '>' => (true, host)
    | _ => (false, host)

/-- `cf2bf`: whether it returned 1, and the host record. -/
def cf2bf (pf : Platform) (str : List Byte) (host : VtunHost) : Bool × VtunHost :=
  match strchr str '<'.toUInt8 with
  | none => (false, host)
  | some ptr => cf2bfLoop pf ptr.length (ptr.drop 1) host

/-! ### Reading an item string -/

/-- The string does not start like a number. -/
def NoNumeral (s : List Byte) : Prop :=
  ∃ b t, s = b :: t ∧ isSpace b = false ∧ b ≠ '-'.toUInt8 ∧ b ≠ '+'.toUInt8 ∧ isDigit b = false

theorem NoNumeral.noDigit {s : List Byte} (h : NoNumeral s) : NoDigit s := by
  obtain ⟨b, t, rfl, -, -, -, hd⟩ := h
  simpa [NoDigit] using hd

theorem NoNumeral.append {s : List Byte} (h : NoNumeral s) (t : List Byte) :
    NoNumeral (s ++ t) := by
  obtain ⟨b, u, rfl, hb⟩ := h
  exact ⟨b, u ++ t, rfl, hb⟩

theorem noNumeral_close (t : List Byte) : NoNumeral (lit ">" ++ t) :=
  ⟨'>'.toUInt8, t, rfl, by decide⟩

/-- One item of a flag string, with its effect on the host record. -/
structure Item where
  text : List Byte
  effect : VtunHost → VtunHost

/-- The decoder takes one turn for the item and has its effect, whatever item
comes next. -/
structure Item.Reads (pf : Platform) (i : Item) : Prop where
  starts : NoNumeral i.text
  turn : ∀ n rest host, NoNumeral rest →
    cf2bfLoop pf (n + 1) (i.text ++ rest) host = cf2bfLoop pf n rest (i.effect host)

/-- The text of a list of items. -/
def itemsText (items : List Item) : List Byte := (items.map Item.text).flatten

/-- The effect of a list of items. -/
def itemsEffect (items : List Item) (host : VtunHost) : VtunHost :=
  items.foldl (fun host i => i.effect host) host

@[simp] theorem itemsText_nil : itemsText [] = [] := rfl

@[simp] theorem itemsText_cons (i : Item) (items : List Item) :
    itemsText (i :: items) = i.text ++ itemsText items := by
  simp [itemsText]

theorem itemsText_append (items items' : List Item) :
    itemsText (items ++ items') = itemsText items ++ itemsText items' := by
  simp [itemsText]

theorem itemsEffect_append (items items' : List Item) (host : VtunHost) :
    itemsEffect (items ++ items') host = itemsEffect items' (itemsEffect items host) := by
  simp [itemsEffect]

theorem itemsText_ite (p : Prop) [Decidable p] (i : Item) :
    itemsText (if p then [i] else []) = if p then i.text else [] := by
  split <;> simp

theorem itemsEffect_ite (p : Prop) [Decidable p] (i : Item) (host : VtunHost) :
    itemsEffect (if p then [i] else []) host = if p then i.effect host else host := by
  split <;> rfl

/-- **The decoder reads an item string item by item.** -/
theorem cf2bfLoop_items {pf : Platform} {items : List Item} (hok : ∀ i ∈ items, i.Reads pf)
    (n : ℕ) {rest : List Byte} (hrest : NoNumeral rest) (host : VtunHost) :
    cf2bfLoop pf (n + items.length) (itemsText items ++ rest) host =
      cf2bfLoop pf n rest (itemsEffect items host) := by
  induction items generalizing host with
  | nil => rfl
  | cons i items ih =>
    have hi := hok i (by simp)
    have his : ∀ j ∈ items, j.Reads pf := fun j hj => hok j (by simp [hj])
    -- A number in the text of `i` ends where the next item, or `rest`, starts.
    have hnext : NoNumeral (itemsText items ++ rest) := by
      cases items with
      | nil => exact hrest
      | cons j items =>
        rw [itemsText_cons, List.append_assoc]
        exact (his j (by simp)).starts.append _
    rw [itemsText_cons, List.append_assoc, List.length_cons, ← Nat.add_assoc,
      hi.turn _ _ _ hnext]
    exact ih his (i.effect host)

/-- Every item takes at least one byte. -/
theorem length_le_itemsText {pf : Platform} {items : List Item} (hok : ∀ i ∈ items, i.Reads pf) :
    items.length ≤ (itemsText items).length := by
  induction items with
  | nil => simp
  | cons i items ih =>
    obtain ⟨b, t, hb, -⟩ := (hok i (by simp)).starts
    have := ih fun j hj => hok j (by simp [hj])
    rw [itemsText_cons, List.length_append, hb]
    simp only [List.length_cons]
    omega

/-- A closed item string is accepted, with the effect of its items. -/
theorem cf2bf_items {pf : Platform} {items : List Item} (hok : ∀ i ∈ items, i.Reads pf)
    (pre post : List Byte) (hpre : '<'.toUInt8 ∉ pre) (host : VtunHost) :
    cf2bf pf (pre ++ (lit "<" ++ (itemsText items ++ (lit ">" ++ post)))) host =
      (true, itemsEffect items host) := by
  have hdrop : (pre ++ (lit "<" ++ (itemsText items ++ (lit ">" ++ post)))).dropWhile
      (· ≠ '<'.toUInt8) = '<'.toUInt8 :: (itemsText items ++ (lit ">" ++ post)) := by
    rw [List.dropWhile_append_of_pos]
    · rfl
    · intro b hb
      have hne : b ≠ '<'.toUInt8 := by
        rintro rfl
        exact hpre hb
      simpa using hne
  -- The bytes left over after one turn for each item pay for the closing `>`.
  have hlen := length_le_itemsText hok
  obtain ⟨k, hk⟩ : ∃ k, (itemsText items ++ (lit ">" ++ post)).length = k + 1 + items.length :=
    ⟨(itemsText items).length - items.length + post.length, by
      simp only [List.length_append, show (lit ">").length = 1 from rfl]
      omega⟩
  rw [cf2bf, strchr, hdrop]
  simp only [List.length_cons, List.drop_succ_cons, List.drop_zero]
  rw [hk, show k + 1 + items.length + 1 = (k + 1 + 1) + items.length by omega,
    cf2bfLoop_items hok _ (noNumeral_close post)]
  rfl

/-! ### The items the encoder writes -/

theorem readInt_decimal (pf : Platform) {x : Int32} (hx : 0 ≤ x.toInt) {rest : List Byte}
    (hrest : NoNumeral rest) : readInt pf (decimal x ++ rest) = (x, rest) := by
  have hle : (x.toInt.natAbs : ℤ) ≤ pf.longMax := by
    have hlt : x.toInt < 2 ^ 31 := Int32.toInt_lt x
    have hmax : (2 : ℤ) ^ 31 - 1 ≤ pf.longMax := by cases pf <;> decide
    omega
  rw [readInt, decimal_of_nonneg hx, strtol_digits pf hle hrest.noDigit]
  simp [abs_of_nonneg hx]

theorem decimal_append_ne {x : Int32} (hx : 0 ≤ x.toInt) (rest : List Byte) :
    decimal x ++ rest ≠ rest := by
  rw [decimal_of_nonneg hx]
  intro h
  exact digits_ne_nil _ (List.append_left_eq_self.mp h)

/-- The item of the protocol. -/
def protItem (prot : BitVec 32) : Item :=
  ⟨protLetter prot, fun c => { c with flags := c.flags &&& ~~~Flag.protMask ||| prot }⟩

/-- The item of the tunnel type. -/
def typeItem (type : BitVec 32) : Item :=
  ⟨typeLetter type, fun c => { c with flags := c.flags ||| type }⟩

/-- The item of the shaper. -/
def speedItem (spd : Int32) : Item :=
  ⟨lit "S" ++ decimal spd, fun c =>
    if spd ≠ 0 then { c with flags := c.flags ||| Flag.shape, spdOut := spd } else c⟩

/-- The item of a compressor. -/
def zlibItem (level : Int32) : Item :=
  ⟨lit "C" ++ decimal level, fun c =>
    { c with flags := c.flags ||| Flag.zlib, zlevel := level }⟩

/-- The item of the other compressor. -/
def lzoItem (level : Int32) : Item :=
  ⟨lit "L" ++ decimal level, fun c =>
    { c with flags := c.flags ||| Flag.lzo, zlevel := level }⟩

/-- The item of the keep-alive option. -/
def keepAliveItem : Item :=
  ⟨lit "K", fun c => { c with flags := c.flags ||| Flag.keepAlive }⟩

/-- The item of the encryption. -/
def encryptItem (cipher : Int32) : Item :=
  ⟨if cipher = legacyEncrypt then lit "E" else lit "E" ++ decimal cipher, fun c =>
    { c with flags := c.flags ||| Flag.encrypt, cipher := cipher }⟩

theorem protItem_reads (pf : Platform) {prot : BitVec 32}
    (h : prot = Flag.tcp ∨ prot = Flag.udp) : (protItem prot).Reads pf := by
  rcases h with rfl | rfl
  · exact ⟨⟨'T'.toUInt8, [], by decide⟩, fun _ _ _ _ => rfl⟩
  · exact ⟨⟨'U'.toUInt8, [], by decide⟩, fun _ _ _ _ => rfl⟩

theorem typeItem_reads (pf : Platform) {type : BitVec 32}
    (h : type = Flag.tty ∨ type = Flag.pipe ∨ type = Flag.ether ∨ type = Flag.tun) :
    (typeItem type).Reads pf := by
  rcases h with rfl | rfl | rfl | rfl
  · exact ⟨⟨'t'.toUInt8, [], by decide⟩, fun _ _ _ _ => rfl⟩
  · exact ⟨⟨'p'.toUInt8, [], by decide⟩, fun _ _ _ _ => rfl⟩
  · exact ⟨⟨'e'.toUInt8, [], by decide⟩, fun _ _ _ _ => rfl⟩
  · exact ⟨⟨'u'.toUInt8, [], by decide⟩, fun _ _ _ _ => rfl⟩

/-- An item of a letter and a number, for the letters that require one. -/
theorem numbered_reads {pf : Platform} {b : Byte} (effect : Int32 → VtunHost → VtunHost)
    (hb : ∀ n ptr host, cf2bfLoop pf (n + 1) (b :: ptr) host =
      if (readInt pf ptr).1 = erange ∨ ptr = (readInt pf ptr).2 then (false, host)
      else cf2bfLoop pf n (readInt pf ptr).2 (effect (readInt pf ptr).1 host))
    (hstart : isSpace b = false ∧ b ≠ '-'.toUInt8 ∧ b ≠ '+'.toUInt8 ∧ isDigit b = false)
    {x : Int32} (hx : 0 ≤ x.toInt) (hne : x ≠ erange) :
    Item.Reads pf ⟨b :: decimal x, effect x⟩ where
  starts := ⟨b, decimal x, rfl, hstart⟩
  turn n rest host hrest := by
    rw [List.cons_append, hb, readInt_decimal pf hx hrest,
      if_neg (not_or_intro hne (decimal_append_ne hx rest))]

theorem speedItem_reads (pf : Platform) {spd : Int32} (h : 0 ≤ spd.toInt) (hne : spd ≠ erange) :
    (speedItem spd).Reads pf :=
  numbered_reads (fun s c =>
    if s ≠ 0 then { c with flags := c.flags ||| Flag.shape, spdOut := s } else c)
    (fun _ _ _ => rfl) (by decide) h hne

theorem zlibItem_reads (pf : Platform) {level : Int32} (h : 0 ≤ level.toInt)
    (hne : level ≠ erange) : (zlibItem level).Reads pf :=
  numbered_reads (fun s c => { c with flags := c.flags ||| Flag.zlib, zlevel := s })
    (fun _ _ _ => rfl) (by decide) h hne

theorem lzoItem_reads (pf : Platform) {level : Int32} (h : 0 ≤ level.toInt)
    (hne : level ≠ erange) : (lzoItem level).Reads pf :=
  numbered_reads (fun s c => { c with flags := c.flags ||| Flag.lzo, zlevel := s })
    (fun _ _ _ => rfl) (by decide) h hne

theorem keepAliveItem_reads (pf : Platform) : keepAliveItem.Reads pf :=
  ⟨⟨'K'.toUInt8, [], by decide⟩, fun _ _ _ _ => rfl⟩

/-- The ciphers of `lfd_encrypt`, and the old encryptor. -/
def CipherKnown (cipher : Int32) : Prop :=
  1 ≤ cipher.toInt ∧ cipher.toInt ≤ 16 ∨ cipher = legacyEncrypt

theorem encryptItem_reads (pf : Platform) {cipher : Int32} (h : CipherKnown cipher) :
    (encryptItem cipher).Reads pf := by
  have hturn : ∀ n ptr host, cf2bfLoop pf (n + 1) ('E'.toUInt8 :: ptr) host =
      if (readInt pf ptr).1 = erange then (false, host)
      else cf2bfLoop pf n (readInt pf ptr).2
        { host with
          flags := host.flags ||| Flag.encrypt
          cipher := if (readInt pf ptr).1 = 0 then legacyEncrypt else (readInt pf ptr).1 } :=
    fun _ _ _ => rfl
  by_cases hold : cipher = legacyEncrypt
  -- No number is written, and the decoder reads `0` off what follows.
  · subst hold
    refine ⟨⟨'E'.toUInt8, [], rfl, by decide⟩, fun n rest host hrest => ?_⟩
    obtain ⟨b, t, rfl, hsp, hmin, hplus, hd⟩ := hrest
    have hread : readInt pf (b :: t) = (0, b :: t) := by
      rw [readInt, strtol_noDigit pf hsp hmin hplus hd]
      rfl
    change cf2bfLoop pf (n + 1) ('E'.toUInt8 :: b :: t) host = _
    rw [hturn, hread]
    rfl
  · have hrange : 1 ≤ cipher.toInt ∧ cipher.toInt ≤ 16 := h.resolve_right hold
    have hpos : 0 ≤ cipher.toInt := by omega
    have hne : cipher ≠ erange := by
      rintro rfl
      exact absurd hrange (by decide)
    have hzero : cipher ≠ 0 := by
      rintro rfl
      exact absurd hrange (by decide)
    have htext : (encryptItem cipher).text = 'E'.toUInt8 :: decimal cipher := by
      rw [encryptItem, if_neg hold]
      rfl
    refine ⟨⟨'E'.toUInt8, decimal cipher, htext, by decide⟩, fun n rest host hrest => ?_⟩
    rw [htext, List.cons_append, hturn, readInt_decimal pf hpos hrest, if_neg hne,
      if_neg hzero]
    rfl

/-! ### The round trip -/

/-- The items of the string `bf2cf` renders. -/
def hostItems (h : VtunHost) : List Item :=
  [protItem (h.flags &&& Flag.protMask), typeItem (h.flags &&& Flag.typeMask)] ++
  (if hasFlag h.flags Flag.shape then [speedItem h.spdIn] else []) ++
  (if hasFlag h.flags Flag.zlib then [zlibItem h.zlevel] else []) ++
  (if hasFlag h.flags Flag.lzo then [lzoItem h.zlevel] else []) ++
  (if hasFlag h.flags Flag.keepAlive then [keepAliveItem] else []) ++
  (if hasFlag h.flags Flag.encrypt then [encryptItem h.cipher] else [])

/-- Exactly one protocol bit and exactly one tunnel type bit. -/
structure OneOfEach (flags : BitVec 32) : Prop where
  prot : flags &&& Flag.protMask = Flag.tcp ∨ flags &&& Flag.protMask = Flag.udp
  type : flags &&& Flag.typeMask = Flag.tty ∨ flags &&& Flag.typeMask = Flag.pipe ∨
    flags &&& Flag.typeMask = Flag.ether ∨ flags &&& Flag.typeMask = Flag.tun

instance (flags : BitVec 32) : Decidable (OneOfEach flags) :=
  decidable_of_iff
    ((flags &&& Flag.protMask = Flag.tcp ∨ flags &&& Flag.protMask = Flag.udp) ∧
      (flags &&& Flag.typeMask = Flag.tty ∨ flags &&& Flag.typeMask = Flag.pipe ∨
        flags &&& Flag.typeMask = Flag.ether ∨ flags &&& Flag.typeMask = Flag.tun))
    ⟨fun h => ⟨h.1, h.2⟩, fun h => ⟨h.1, h.2⟩⟩

theorem bf2cf_eq (h : VtunHost) :
    bf2cf h = lit "<" ++ (itemsText (hostItems h) ++ lit ">") := by
  have hprot : protLetter (h.flags &&& Flag.protMask) = protLetter h.flags := by
    rw [protLetter, BitVec.and_assoc, BitVec.and_self]
    rfl
  have htype : typeLetter (h.flags &&& Flag.typeMask) = typeLetter h.flags := by
    rw [typeLetter, BitVec.and_assoc, BitVec.and_self]
    rfl
  simp only [bf2cf, hostItems, itemsText_append, itemsText_cons, itemsText_nil, itemsText_ite,
    protItem, typeItem, hprot, htype, List.append_assoc, List.append_nil]
  rfl

/-- What the server's record must be like for its string to be read back. -/
structure Negotiable (h : VtunHost) : Prop where
  oneOfEach : OneOfEach h.flags
  spdIn : 0 ≤ h.spdIn.toInt
  zlevel : 0 ≤ h.zlevel.toInt
  cipher : hasFlag h.flags Flag.encrypt = true → CipherKnown h.cipher
  fits : (bf2cf h).length < bf2cfSize

/-- No number of the string is the value of `ERANGE`. -/
structure NoErange (h : VtunHost) : Prop where
  spdIn : hasFlag h.flags Flag.shape = true → h.spdIn ≠ erange
  zlevel : hasFlag h.flags Flag.zlib = true ∨ hasFlag h.flags Flag.lzo = true →
    h.zlevel ≠ erange

theorem hostItems_reads (pf : Platform) {h : VtunHost} (hn : Negotiable h) (he : NoErange h) :
    ∀ i ∈ hostItems h, i.Reads pf := by
  intro i hi
  simp only [hostItems, List.mem_append, List.mem_cons, List.not_mem_nil, or_false,
    List.mem_ite_nil_right] at hi
  rcases hi with (((((rfl | rfl) | ⟨hs, rfl⟩) | ⟨hz, rfl⟩) | ⟨hl, rfl⟩) | ⟨-, rfl⟩) | ⟨hc, rfl⟩
  · exact protItem_reads pf hn.oneOfEach.prot
  · exact typeItem_reads pf hn.oneOfEach.type
  · exact speedItem_reads pf hn.spdIn (he.spdIn hs)
  · exact zlibItem_reads pf hn.zlevel (he.zlevel (Or.inl hz))
  · exact lzoItem_reads pf hn.zlevel (he.zlevel (Or.inr hl))
  · exact keepAliveItem_reads pf
  · exact encryptItem_reads pf (hn.cipher hc)

/-- The message that carries the flags. -/
def flagsMesg (h : VtunHost) : List Byte := printP (lit "OK FLAGS: " ++ bf2cf h ++ lit "\n")

theorem nul_notMem_bf2cf (h : VtunHost) : (0 : Byte) ∉ bf2cf h := by
  have hprot : (0 : Byte) ∉ protLetter h.flags := by
    rw [protLetter]
    split_ifs <;> decide
  have htype : (0 : Byte) ∉ typeLetter h.flags := by
    rw [typeLetter]
    split_ifs <;> decide
  have hcipher : (0 : Byte) ∉
      (if h.cipher = legacyEncrypt then lit "E" else lit "E" ++ decimal h.cipher) := by
    split
    · decide
    · simpa [nul_notMem_decimal] using (by decide : (0 : Byte) ∉ lit "E")
  have hlit : ∀ s ∈ ["<", "S", "C", "L", "K", ">"], (0 : Byte) ∉ lit s := by decide
  simp only [List.mem_cons, List.not_mem_nil, or_false, forall_eq_or_imp, forall_eq] at hlit
  simp only [bf2cf, List.mem_append, List.mem_ite_nil_right, hprot, htype, hcipher, hlit,
    nul_notMem_decimal, or_self, and_false, not_false_eq_true]

/-- The string the client finds in its buffer. -/
theorem cstr_flagsMesg {h : VtunHost} (hfit : (bf2cf h).length < bf2cfSize) :
    cstr (flagsMesg h) = lit "OK FLAGS: " ++ (bf2cf h ++ lit "\n") := by
  have hlen : (lit "OK FLAGS: " ++ bf2cf h ++ lit "\n").length ≤ mesgSize - 2 := by
    simp only [List.length_append, show (lit "OK FLAGS: ").length = 10 from rfl,
      show (lit "\n").length = 1 from rfl]
    simp only [bf2cfSize, mesgSize] at hfit ⊢
    omega
  have hnul : (0 : Byte) ∉ lit "OK FLAGS: " ++ bf2cf h ++ lit "\n" := by
    simp only [List.mem_append, nul_notMem_bf2cf, or_false, not_or]
    decide
  rw [flagsMesg, printP, List.take_of_length_le hlen, cstr_append hnul, List.append_assoc]

/-! ### The record the client ends up with -/

theorem hasFlag_or (a b m : BitVec 32) :
    hasFlag (a ||| b) m = (hasFlag a m || hasFlag b m) := by
  rw [Bool.eq_iff_iff]
  simp only [hasFlag, BitVec.and_or_distrib_right, bne_iff_ne, ne_eq, BitVec.ofNat_eq_ofNat,
    BitVec.or_eq_zero_iff, Bool.or_eq_true, not_and_or]

/-- The record of a client that read the server's string. -/
def negotiated (h c : VtunHost) : VtunHost := itemsEffect (hostItems h) (clientClear c)

/-- The effect of an optional item that sets a flag. -/
theorem flags_ite {i : Item} {m : BitVec 32} (hi : ∀ c, (i.effect c).flags = c.flags ||| m)
    (p : Prop) [Decidable p] (c : VtunHost) :
    (if p then i.effect c else c).flags = c.flags ||| (if p then m else 0) := by
  split
  · exact hi c
  · simp

theorem negotiated_flags (h c : VtunHost) :
    (negotiated h c).flags =
      (((((((c.flags &&& Flag.clntMask) &&& ~~~Flag.protMask ||| (h.flags &&& Flag.protMask)) |||
        (h.flags &&& Flag.typeMask)) |||
        (if hasFlag h.flags Flag.shape then if h.spdIn ≠ 0 then Flag.shape else 0 else 0)) |||
        (if hasFlag h.flags Flag.zlib then Flag.zlib else 0)) |||
        (if hasFlag h.flags Flag.lzo then Flag.lzo else 0)) |||
        (if hasFlag h.flags Flag.keepAlive then Flag.keepAlive else 0)) |||
        (if hasFlag h.flags Flag.encrypt then Flag.encrypt else 0) := by
  have hspeed : ∀ c, ((speedItem h.spdIn).effect c).flags =
      c.flags ||| (if h.spdIn ≠ 0 then Flag.shape else 0) := by
    intro c
    simp only [speedItem]
    split_ifs <;> simp
  simp only [negotiated, hostItems, itemsEffect_append, itemsEffect_ite]
  rw [flags_ite (m := Flag.encrypt) fun _ => rfl, flags_ite (m := Flag.keepAlive) fun _ => rfl,
    flags_ite (m := Flag.lzo) fun _ => rfl, flags_ite (m := Flag.zlib) fun _ => rfl,
    flags_ite hspeed]
  rfl

/-- An optional item leaves alone what its effect leaves alone. -/
theorem keep_ite {α : Type} (π : VtunHost → α) {i : Item} (hi : ∀ c, π (i.effect c) = π c)
    (p : Prop) [Decidable p] (c : VtunHost) : π (if p then i.effect c else c) = π c := by
  split
  · exact hi c
  · rfl

theorem negotiated_spdOut (h c : VtunHost) :
    (negotiated h c).spdOut = if hasFlag h.flags Flag.shape then h.spdIn else 0 := by
  simp only [negotiated, hostItems, itemsEffect_append, itemsEffect_ite]
  rw [keep_ite VtunHost.spdOut fun _ => rfl, keep_ite VtunHost.spdOut fun _ => rfl,
    keep_ite VtunHost.spdOut fun _ => rfl, keep_ite VtunHost.spdOut fun _ => rfl]
  split
  · by_cases h0 : h.spdIn = 0
    · simp only [speedItem, h0, ne_eq, not_true_eq_false, if_false]
      rfl
    · simp only [speedItem, ne_eq, h0, not_false_eq_true, if_true]
  · rfl

theorem negotiated_zlevel (h c : VtunHost)
    (hz : hasFlag h.flags Flag.zlib = true ∨ hasFlag h.flags Flag.lzo = true) :
    (negotiated h c).zlevel = h.zlevel := by
  simp only [negotiated, hostItems, itemsEffect_append, itemsEffect_ite]
  rw [keep_ite VtunHost.zlevel fun _ => rfl, keep_ite VtunHost.zlevel fun _ => rfl]
  by_cases hl : hasFlag h.flags Flag.lzo = true
  · rw [if_pos hl]
    rfl
  · rw [if_neg hl, if_pos (hz.resolve_right hl)]
    rfl

theorem negotiated_cipher (h c : VtunHost) (he : hasFlag h.flags Flag.encrypt = true) :
    (negotiated h c).cipher = h.cipher := by
  simp only [negotiated, hostItems, itemsEffect_append, itemsEffect_ite, if_pos he]
  rfl

theorem hasFlag_and (a b m : BitVec 32) : hasFlag (a &&& b) m = hasFlag a (b &&& m) := by
  rw [hasFlag, hasFlag, BitVec.and_assoc]

theorem hasFlag_opt (p : Prop) [Decidable p] (a m : BitVec 32) :
    hasFlag (if p then a else 0) m = (decide p && hasFlag a m) := by
  split <;> simp [hasFlag, *]

/-- A bit that is no type, no protocol and no client bit is set by its own item
only. -/
theorem negotiated_option (h c : VtunHost) {m : BitVec 32}
    (hm : Flag.clntMask &&& (~~~Flag.protMask &&& m) = 0 ∧ Flag.protMask &&& m = 0 ∧
      Flag.typeMask &&& m = 0) :
    hasFlag (negotiated h c).flags m =
      ((hasFlag h.flags Flag.shape && (decide (h.spdIn ≠ 0) && hasFlag Flag.shape m)) ||
        (hasFlag h.flags Flag.zlib && hasFlag Flag.zlib m) ||
        (hasFlag h.flags Flag.lzo && hasFlag Flag.lzo m) ||
        (hasFlag h.flags Flag.keepAlive && hasFlag Flag.keepAlive m) ||
        (hasFlag h.flags Flag.encrypt && hasFlag Flag.encrypt m)) := by
  have hzero : ∀ a : BitVec 32, hasFlag a 0 = false := fun a => by simp [hasFlag]
  rw [negotiated_flags]
  simp only [hasFlag_or, hasFlag_and, hasFlag_opt, hm, hzero, Bool.false_or, Bool.decide_eq_true]

theorem negotiated_shape (h c : VtunHost) :
    hasFlag (negotiated h c).flags Flag.shape =
      (hasFlag h.flags Flag.shape && decide (h.spdIn ≠ 0)) := by
  rw [negotiated_option h c (by decide)]
  simp [hasFlag, Flag.shape, Flag.zlib, Flag.lzo, Flag.keepAlive, Flag.encrypt]

/-- The options other than the shaper are taken over as they are. -/
theorem negotiated_same (h c : VtunHost) {m : BitVec 32}
    (hm : m ∈ [Flag.zlib, Flag.lzo, Flag.keepAlive, Flag.encrypt]) :
    hasFlag (negotiated h c).flags m = hasFlag h.flags m := by
  simp only [List.mem_cons, List.not_mem_nil, or_false] at hm
  rcases hm with rfl | rfl | rfl | rfl
  all_goals
    rw [negotiated_option h c (by decide)]
    simp [hasFlag, Flag.shape, Flag.zlib, Flag.lzo, Flag.keepAlive, Flag.encrypt]

theorem opt_and {p : Prop} [Decidable p] {a m : BitVec 32} (h : a &&& m = 0) :
    (if p then a else 0) &&& m = 0 := by
  split
  · exact h
  · simp

/-- The part of the flag word that no option touches. -/
theorem negotiated_mask (h c : VtunHost) {m : BitVec 32}
    (hm : m = Flag.typeMask ∨ m = Flag.protMask) :
    (negotiated h c).flags &&& m = h.flags &&& m := by
  obtain ⟨hshape, hzlib, hlzo, hkeep, henc⟩ : Flag.shape &&& m = 0 ∧ Flag.zlib &&& m = 0 ∧
      Flag.lzo &&& m = 0 ∧ Flag.keepAlive &&& m = 0 ∧ Flag.encrypt &&& m = 0 := by
    rcases hm with rfl | rfl <;> exact ⟨rfl, rfl, rfl, rfl, rfl⟩
  rw [negotiated_flags]
  simp only [BitVec.and_or_distrib_right]
  rw [opt_and (opt_and hshape), opt_and hzlib, opt_and hlzo, opt_and hkeep, opt_and henc]
  rcases hm with rfl | rfl
  · simp only [BitVec.and_assoc, BitVec.and_self, BitVec.ofNat_eq_ofNat, BitVec.or_zero,
      show Flag.clntMask &&& (~~~Flag.protMask &&& Flag.typeMask) = 0#32 from rfl,
      show Flag.protMask &&& Flag.typeMask = 0#32 from rfl, BitVec.and_zero, BitVec.zero_or]
  · simp only [BitVec.and_assoc, BitVec.and_self, BitVec.ofNat_eq_ofNat, BitVec.or_zero,
      show Flag.clntMask &&& (~~~Flag.protMask &&& Flag.protMask) = 0#32 from rfl,
      show Flag.typeMask &&& Flag.protMask = 0#32 from rfl, BitVec.and_zero, BitVec.zero_or]

/-- What the client's record has in common with the server's. -/
structure Agree (h c : VtunHost) : Prop where
  type : c.flags &&& Flag.typeMask = h.flags &&& Flag.typeMask
  prot : c.flags &&& Flag.protMask = h.flags &&& Flag.protMask
  zlib : hasFlag c.flags Flag.zlib = hasFlag h.flags Flag.zlib
  lzo : hasFlag c.flags Flag.lzo = hasFlag h.flags Flag.lzo
  keepAlive : hasFlag c.flags Flag.keepAlive = hasFlag h.flags Flag.keepAlive
  encrypt : hasFlag c.flags Flag.encrypt = hasFlag h.flags Flag.encrypt
  zlevel : hasFlag h.flags Flag.zlib = true ∨ hasFlag h.flags Flag.lzo = true →
    c.zlevel = h.zlevel
  cipher : hasFlag h.flags Flag.encrypt = true → c.cipher = h.cipher

theorem agree_negotiated (h c : VtunHost) : Agree h (negotiated h c) where
  type := negotiated_mask h c (Or.inl rfl)
  prot := negotiated_mask h c (Or.inr rfl)
  zlib := negotiated_same h c (by decide)
  lzo := negotiated_same h c (by decide)
  keepAlive := negotiated_same h c (by decide)
  encrypt := negotiated_same h c (by decide)
  zlevel := negotiated_zlevel h c
  cipher := negotiated_cipher h c

/-- The compressors and the encryptor of a stack. -/
def codecs (host : VtunHost) : List Module := (selected host).filter (· ≠ .shaper)

/-- Ends that agree build the same compressor and encryptor stack. -/
theorem Agree.codecs {h c : VtunHost} (ha : Agree h c) : codecs c = codecs h := by
  have hshaper : ∀ b : Bool, (if b then [Module.shaper] else []).filter (· ≠ .shaper) = [] := by
    decide
  have henc : (if hasFlag c.flags Flag.encrypt then
        if c.cipher = legacyEncrypt then [Module.legacyEncrypt] else [.encrypt] else []) =
      if hasFlag h.flags Flag.encrypt then
        if h.cipher = legacyEncrypt then [Module.legacyEncrypt] else [.encrypt] else [] := by
    rw [ha.encrypt]
    split
    · rename_i he
      rw [ha.cipher he]
    · rfl
  simp only [Vtun.codecs, selected, List.filter_append, hshaper, henc, ha.zlib, ha.lzo]

/-- **The client agrees with the server after the flags.** -/
theorem flags_round_trip (pf : Platform) (h c : VtunHost) (hn : Negotiable h)
    (he : NoErange h) :
    ∃ c', cf2bf pf (cstr (flagsMesg h)) (clientClear c) = (true, c') ∧ Agree h c' ∧
      codecs c' = codecs h ∧
      c'.spdOut = (if hasFlag h.flags Flag.shape then h.spdIn else 0) ∧
      (hasFlag c'.flags Flag.shape = true ↔
        hasFlag h.flags Flag.shape = true ∧ h.spdIn ≠ 0) := by
  have hpre : '<'.toUInt8 ∉ lit "OK FLAGS: " := by decide
  have hread := cf2bf_items (hostItems_reads pf hn he) (lit "OK FLAGS: ") (lit "\n") hpre
    (clientClear c)
  have hagree := agree_negotiated h c
  refine ⟨negotiated h c, ?_, hagree, hagree.codecs, negotiated_spdOut h c, ?_⟩
  · rw [cstr_flagsMesg hn.fits, bf2cf_eq, negotiated]
    simpa only [List.append_assoc] using hread
  · rw [negotiated_shape]
    simp

/-- A server record for a session over TCP, shaped and compressed. -/
def shapedHost : VtunHost where
  host := lit "lion"
  passwd := lit "ma"
  flags := Flag.tun ||| Flag.tcp ||| Flag.shape ||| Flag.zlib ||| Flag.encrypt
  spdIn := 512
  spdOut := 128
  zlevel := 9
  cipher := 10
  multi := .deny

/-- A client record with values left from elsewhere. -/
def clientHost : VtunHost :=
  { shapedHost with flags := 0x1000 ||| Flag.lzo, spdIn := 3, zlevel := 1, cipher := 1 }

/-- The session `<TuS512C9E10>`. -/
theorem flags_round_trip_shaped :
    ∃ c', cf2bf .lp64 (cstr (flagsMesg shapedHost)) (clientClear clientHost) = (true, c') ∧
      Agree shapedHost c' ∧ codecs c' = codecs shapedHost ∧
      c'.spdOut = (if hasFlag shapedHost.flags Flag.shape then shapedHost.spdIn else 0) ∧
      (hasFlag c'.flags Flag.shape = true ↔
        hasFlag shapedHost.flags Flag.shape = true ∧ shapedHost.spdIn ≠ 0) :=
  flags_round_trip .lp64 shapedHost clientHost
    ⟨by decide, by decide, by decide, fun _ => Or.inl (by decide), by decide⟩
    ⟨fun _ => by decide, fun _ => by decide⟩

/-- The server's record after `speed 512` was undone by `speed 0`: the speed
stays, the shaper is off. -/
def unshapedHost : VtunHost := { shapedHost with flags := Flag.tun ||| Flag.tcp }

/-- The client does not shape at a speed the server does not use. -/
theorem unshaped_speed_not_sent :
    ¬ ∀ (pf : Platform) (h c : VtunHost), Negotiable h →
      ∃ c', cf2bf pf (cstr (flagsMesg h)) (clientClear c) = (true, c') ∧ Agree h c' ∧
        codecs c' = codecs h ∧ c'.spdOut = h.spdIn ∧
        (hasFlag c'.flags Flag.shape = true ↔ h.spdIn ≠ 0) := by
  intro hall
  have hn : Negotiable unshapedHost :=
    ⟨by decide, by decide, by decide, fun h => absurd h (by decide), by decide⟩
  obtain ⟨c', hread, -, -, hspd, -⟩ := hall .lp64 unshapedHost clientHost hn
  have hzero :
      (cf2bf .lp64 (cstr (flagsMesg unshapedHost)) (clientClear clientHost)).2.spdOut = 0 := by
    decide
  rw [hread] at hzero
  exact absurd (hspd.symm.trans hzero) (by decide)

end Vtun
