/-
The lexer of the configuration file (`cfg_file.l`, `cfg_kwords.h`).

The scanner takes, among the rules of its start condition, the one that matches
the longest text, and the first of those.  A rule is given by the length it
matches, zero for none; they stand in the order of the source.

* `lexOne` — the action of one rule;
* `length_lexOne` — every rule takes something away from the text;
* `bottom_lexOne` — below all start conditions there is `INITIAL`.
-/
import Vtun.CString
import Vtun.Host
import Mathlib.Data.List.TakeWhile

namespace Vtun

/-! ### Tokens -/

/-- The keyword tokens. -/
inductive Kw
  | options
  | default
  | port
  | bindaddr
  | persist
  | timeout
  | passwd
  | prog
  | ppp
  | speed
  | ifcfg
  | fwall
  | route
  | device
  | multi
  | srcaddr
  | iface
  | addr
  | type
  | prot
  | natHack
  | compress
  | encrypt
  | kalive
  | stat
  | up
  | down
  | syslog
  | iproute
  deriving DecidableEq, Repr

/-- The tokens of the grammar; `fin` is the end of the input. -/
inductive Token
  | kw (k : Kw)
  | host (name : List Byte)
  | error
  | word (s : List Byte)
  | path (s : List Byte)
  | string (s : List Byte)
  | num (n : Int32)
  | dnum (n₁ n₂ : Int32)
  | open
  | close
  | fin
  deriving DecidableEq, Repr

/-- `cfg_keyword`. -/
def cfgKeyword : List (List Byte × Kw) :=
  [(lit "options", .options), (lit "default", .default), (lit "up", .up), (lit "down", .down),
    (lit "port", .port), (lit "srcaddr", .srcaddr), (lit "addr", .addr), (lit "iface", .iface),
    (lit "bindaddr", .bindaddr), (lit "persist", .persist), (lit "multi", .multi),
    (lit "iface", .iface), (lit "timeout", .timeout), (lit "passwd", .passwd),
    (lit "password", .passwd), (lit "program", .prog), (lit "speed", .speed),
    (lit "compress", .compress), (lit "encrypt", .encrypt), (lit "type", .type),
    (lit "proto", .prot), (lit "nat_hack", .natHack), (lit "delay_udp", .natHack),
    (lit "device", .device), (lit "ppp", .ppp), (lit "ifconfig", .ifcfg), (lit "ifcfg", .ifcfg),
    (lit "firewall", .fwall), (lit "route", .route), (lit "ip", .iproute),
    (lit "keepalive", .kalive), (lit "stat", .stat), (lit "syslog", .syslog)]

/-- `cfg_param`. -/
def cfgParam : List (List Byte × Int32) :=
  [(lit "yes", 1), (lit "no", 0), (lit "allow", 1), (lit "deny", 0), (lit "enable", 1),
    (lit "disable", 0), (lit "tty", 0x0100), (lit "pipe", 0x0200), (lit "ether", 0x0400),
    (lit "tun", 0x0800), (lit "tcp", 0x0010), (lit "udp", 0x0020), (lit "client", 0x4000),
    (lit "server", 0x8000), (lit "lzo", 0x0002), (lit "zlib", 0x0001), (lit "wait", 1),
    (lit "killold", 2), (lit "inetd", 1), (lit "stand", 0), (lit "keep", 2),
    (lit "oldblowfish128ecb", 999), (lit "blowfish128ecb", 1), (lit "blowfish128cbc", 2),
    (lit "blowfish128cfb", 3), (lit "blowfish128ofb", 4), (lit "blowfish256ecb", 5),
    (lit "blowfish256cbc", 6), (lit "blowfish256cfb", 7), (lit "blowfish256ofb", 8),
    (lit "aes128ecb", 9), (lit "aes128cbc", 10), (lit "aes128cfb", 11), (lit "aes128ofb", 12),
    (lit "aes256ecb", 13), (lit "aes256cbc", 14), (lit "aes256cfb", 15), (lit "aes256ofb", 16)]

/-- `find_keyword`: the first entry with the same first 20 characters. -/
def findKeyword {κ : Type} (kw : List (List Byte × κ)) (str : List Byte) : Option κ :=
  (kw.find? fun k => str.take 20 = k.1.take 20).map Prod.snd

/-- `atoi` of a string of digits. -/
def atoi (pf : Platform) (s : List Byte) : Int32 :=
  Int32.ofInt (min (digitsVal (s.takeWhile isDigit) : ℤ) pf.longMax)

/-! ### Patterns -/

/-- The characters of `kword`. -/
def isKwordChar (b : Byte) : Bool :=
  (Char.ofUInt8 b).isAlphanum || b ∈ lit "_-"

/-- The characters of `word`. -/
def isWordChar (b : Byte) : Bool :=
  (Char.ofUInt8 b).isAlphanum || b ∈ lit "-_+=!$#%&*^@\\~."

/-- The characters of `fname`. -/
def isFnameChar (b : Byte) : Bool :=
  (Char.ofUInt8 b).isAlphanum || b ∈ lit "_.-"

/-- The length of the longest run of characters. -/
def run (p : Byte → Bool) (s : List Byte) : ℕ := (s.takeWhile p).length

/-- A single character. -/
def single (p : Byte → Bool) : List Byte → ℕ
  | b :: _ => if p b then 1 else 0
  | [] => 0

/-- A run, a colon and a number. -/
def runColonNum (p : Byte → Bool) (s : List Byte) : ℕ :=
  match s.drop (run p s) with
  | 58 :: rest => if 0 < run p s ∧ 0 < run isDigit rest then run p s + 1 + run isDigit rest else 0
  | _ => 0

/-- `\#.*\n`. -/
def matchComment : List Byte → ℕ
  | 35 :: rest =>
    if 10 ∈ rest then run (· ≠ 10) rest + 2 else 0
  | _ => 0

/-- `\".*\"`: up to the last quotation mark of the line. -/
def matchString : List Byte → ℕ
  | 34 :: rest =>
    let line := rest.takeWhile (· ≠ 10)
    if 34 ∈ line then line.length + 1 - run (· ≠ 34) line.reverse else 0
  | _ => 0

/-- `(\/{fname})+`, at most `n` times. -/
def matchPath : ℕ → List Byte → ℕ
  | n + 1, 47 :: rest =>
    if 0 < run isFnameChar rest then
      1 + run isFnameChar rest + matchPath n (rest.drop (run isFnameChar rest))
    else 0
  | _, _ => 0

/-! ### The scanner -/

/-- The start conditions. -/
inductive StartCond
  | initial
  | option
  | param
  deriving DecidableEq, Repr

/-- The scanner: its start condition, the stack of start conditions from the top
down, and the text before it. -/
structure Lexer where
  start : StartCond
  stack : List StartCond
  text : List Byte
  deriving DecidableEq, Repr

/-- The rules, in the order of the source. -/
inductive Rule
  | space
  | newline
  | comment
  | kword
  | word
  | open
  | close
  | optionWord
  | string
  | dnum
  | num
  | paramWord
  | wordnm
  | path
  | semicolon
  | garbage
  deriving DecidableEq, Repr

/-- The length of the text a rule matches. -/
def Rule.length (s : List Byte) : Rule → ℕ
  | .space => single (fun b => b = 32 || b = 9) s
  | .newline => single (· = 10) s
  | .comment => matchComment s
  | .kword => run isKwordChar s
  | .word => run isWordChar s
  | .open => single (· = 123) s
  | .close => single (· = 125) s
  | .optionWord => run isWordChar s
  | .string => matchString s
  | .dnum => runColonNum isDigit s
  | .num => run isDigit s
  | .paramWord => run isWordChar s
  | .wordnm => runColonNum isWordChar s
  | .path => matchPath s.length s
  | .semicolon => single (· = 59) s
  | .garbage => single (· ≠ 10) s

/-- The rules of a start condition. -/
def StartCond.rules : StartCond → List Rule
  | .initial => [.space, .newline, .comment, .kword, .word, .open, .close, .garbage]
  | .option => [.space, .newline, .comment, .open, .close, .optionWord, .garbage]
  | .param =>
    [.space, .newline, .open, .close, .string, .dnum, .num, .paramWord, .wordnm, .path,
      .semicolon, .garbage]

/-- The first of the rules that match the longest text, with its length. -/
def longest (s : List Byte) : List Rule → Option (Rule × ℕ)
  | [] => none
  | r :: rules =>
    match longest s rules with
    | none => if 0 < r.length s then some (r, r.length s) else none
    | some (r', n) => if n ≤ r.length s then some (r, r.length s) else some (r', n)

/-- `PUSH_STATE`: the stack has room for 16 start conditions. -/
def Lexer.push (l : Lexer) : Option Lexer :=
  if l.stack.length = 16 then none else some { l with stack := l.start :: l.stack }

/-- `POP_STATE`. -/
def Lexer.pop (l : Lexer) : Option Lexer :=
  match l.stack with
  | [] => none
  | s :: stack => some { l with start := s, stack := stack }

/-- `PUSH_STATE` or `POP_STATE` and what comes behind it, or `K_ERROR`. -/
def orError (l : Lexer) (l' : Option Lexer) (t : Option Token) : Option Token × Lexer :=
  match l' with
  | none => (some .error, l)
  | some l' => (t, l')

/-- The action of a rule for the text `yytext`; `l` is the scanner behind it. -/
def Rule.action (pf : Platform) (yytext : List Byte) (l : Lexer) : Rule → Option Token × Lexer
  | .space | .newline | .comment | .garbage => (none, l)
  | .kword =>
    match findKeyword cfgKeyword yytext with
    | some kw => (some (.kw kw), l)
    | none => (some (.host yytext), l)
  | .word => (some .error, l)
  | .open => orError l (l.push.map fun l => { l with start := .option }) (some .open)
  | .close => orError l l.pop (some .close)
  | .optionWord =>
    match findKeyword cfgKeyword yytext with
    | some kw => orError l (l.push.map fun l => { l with start := .param }) (some (.kw kw))
    | none => (some .error, l)
  | .string =>
    -- a string that is too long ends the input
    if yytext.length > 254 then (some .fin, l)
    else (some (.string (cstr ((yytext.drop 1).take (yytext.length - 2)))), l)
  | .dnum => (some (.dnum (atoi pf yytext) (atoi pf ((yytext.dropWhile (· ≠ 58)).drop 1))), l)
  | .num => (some (.num (atoi pf yytext)), l)
  | .paramWord =>
    match findKeyword cfgParam yytext with
    | some n => (some (.num n), l)
    | none => (some (.word yytext), l)
  | .wordnm =>
    let word := yytext.takeWhile (· ≠ 58)
    (some (.dnum ((findKeyword cfgParam word).getD (-1))
      (atoi pf ((yytext.dropWhile (· ≠ 58)).drop 1))), l)
  | .path => (some (.path yytext), l)
  | .semicolon => orError l l.pop none

/-- The action of the next rule, which may return a token; nothing at the end of
the text. -/
def lexOne (pf : Platform) (l : Lexer) : Option (Option Token × Lexer) :=
  (longest l.text l.start.rules).map fun r =>
    r.1.action pf (l.text.take r.2) { l with text := l.text.drop r.2 }

/-! ### Progress -/

theorem longest_pos {s : List Byte} {rules : List Rule} {r : Rule} {n : ℕ}
    (h : longest s rules = some (r, n)) : 0 < n := by
  induction rules generalizing r n with
  | nil => simp [longest] at h
  | cons r' rules ih =>
    rw [longest] at h
    split at h
    · split at h
      · rename_i hpos
        obtain ⟨rfl, rfl⟩ := Prod.mk.inj (Option.some.inj h)
        exact hpos
      · cases h
    · rename_i hrest
      have hpos := ih hrest
      split at h
      · obtain ⟨rfl, rfl⟩ := Prod.mk.inj (Option.some.inj h)
        omega
      · obtain ⟨rfl, rfl⟩ := Prod.mk.inj (Option.some.inj h)
        exact hpos

/-- A rule that matches is enough for one to be taken. -/
theorem longest_isSome {s : List Byte} {rules : List Rule} {r : Rule} (hr : r ∈ rules)
    (hpos : 0 < r.length s) : (longest s rules).isSome := by
  induction rules with
  | nil => cases hr
  | cons r' rules ih =>
    rw [longest]
    split
    · rename_i hnone
      rcases List.mem_cons.mp hr with rfl | hr
      · rw [if_pos hpos]
        rfl
      · have hsome := ih hr
        rw [hnone] at hsome
        cases hsome
    · split <;> rfl

theorem text_orError (l : Lexer) (l' : Option Lexer) (t : Option Token)
    (h : ∀ k, l' = some k → k.text = l.text) : (orError l l' t).2.text = l.text := by
  cases l' with
  | none => rfl
  | some k => exact h k rfl

theorem Lexer.text_push {l k : Lexer} (c : StartCond)
    (h : (l.push.map fun l => { l with start := c }) = some k) : k.text = l.text := by
  rw [Lexer.push] at h
  split at h
  · cases h
  · obtain rfl := Option.some.inj h
    rfl

theorem Lexer.text_pop {l k : Lexer} (h : l.pop = some k) : k.text = l.text := by
  rw [Lexer.pop] at h
  split at h
  · cases h
  · obtain rfl := Option.some.inj h
    rfl

/-- Actions leave the text behind the one they are for alone. -/
theorem text_action (pf : Platform) (yytext : List Byte) (l : Lexer) (r : Rule) :
    (r.action pf yytext l).2.text = l.text := by
  cases r with
  | «open» => exact text_orError l _ _ fun k h => Lexer.text_push _ h
  | close => exact text_orError l _ _ fun k h => Lexer.text_pop h
  | semicolon => exact text_orError l _ _ fun k h => Lexer.text_pop h
  | optionWord =>
    simp only [Rule.action]
    split
    · exact text_orError l _ _ fun k h => Lexer.text_push _ h
    · rfl
  | _ =>
    simp only [Rule.action]
    try split
    all_goals rfl

theorem longest_nil (c : StartCond) : longest [] c.rules = none := by
  cases c <;> rfl

/-- **Every rule takes something away from the text.** -/
theorem length_lexOne {pf : Platform} {l l' : Lexer} {t : Option Token}
    (h : lexOne pf l = some (t, l')) : l'.text.length < l.text.length := by
  rw [lexOne, Option.map_eq_some_iff] at h
  obtain ⟨⟨r, n⟩, hr, haction⟩ := h
  have hpos := longest_pos hr
  have htext := text_action pf (l.text.take n) { l with text := l.text.drop n } r
  rw [haction] at htext
  have hne : l.text ≠ [] := by
    intro hnil
    rw [hnil, longest_nil] at hr
    cases hr
  have hlen : 0 < l.text.length := List.length_pos_iff.mpr hne
  dsimp only at htext
  rw [htext, List.length_drop]
  omega

/-- Some rule applies before the end of the text. -/
theorem lexOne_eq_none {pf : Platform} {l : Lexer} : lexOne pf l = none ↔ l.text = [] := by
  rw [lexOne, Option.map_eq_none_iff]
  constructor
  · intro hnone
    cases htext : l.text with
    | nil => rfl
    | cons b rest =>
      rw [htext] at hnone
      -- a newline, or a character that is none
      have hrule : ∃ r ∈ l.start.rules, 0 < r.length (b :: rest) := by
        by_cases hb : b = 10
        · exact ⟨.newline, by cases l.start <;> decide, by simp [Rule.length, single, hb]⟩
        · exact ⟨.garbage, by cases l.start <;> decide, by simp [Rule.length, single, hb]⟩
      obtain ⟨r, hr, hpos⟩ := hrule
      have hsome := longest_isSome hr hpos
      rw [hnone] at hsome
      cases hsome
  · intro hnil
    rw [hnil, longest_nil]

/-! ### The bottom of the stack -/

/-- The start condition below all others. -/
def Lexer.bottom (l : Lexer) : Option StartCond := (l.start :: l.stack).getLast?

theorem Lexer.bottom_push {l k : Lexer} (c : StartCond)
    (h : (l.push.map fun l => { l with start := c }) = some k) : k.bottom = l.bottom := by
  rw [Lexer.push] at h
  split at h
  · cases h
  · obtain rfl := Option.some.inj h
    exact List.getLast?_cons_cons

theorem Lexer.bottom_pop {l k : Lexer} (h : l.pop = some k) : k.bottom = l.bottom := by
  rw [Lexer.pop] at h
  split at h
  · cases h
  · rename_i s stack hstack
    obtain rfl := Option.some.inj h
    rw [Lexer.bottom, Lexer.bottom, hstack]
    exact List.getLast?_cons_cons.symm

theorem bottom_orError (l : Lexer) (l' : Option Lexer) (t : Option Token)
    (h : ∀ k, l' = some k → k.bottom = l.bottom) : (orError l l' t).2.bottom = l.bottom := by
  cases l' with
  | none => rfl
  | some k => exact h k rfl

theorem bottom_action (pf : Platform) (yytext : List Byte) (l : Lexer) (r : Rule) :
    (r.action pf yytext l).2.bottom = l.bottom := by
  cases r with
  | «open» => exact bottom_orError l _ _ fun k h => Lexer.bottom_push _ h
  | close => exact bottom_orError l _ _ fun k h => Lexer.bottom_pop h
  | semicolon => exact bottom_orError l _ _ fun k h => Lexer.bottom_pop h
  | optionWord =>
    simp only [Rule.action]
    split
    · exact bottom_orError l _ _ fun k h => Lexer.bottom_push _ h
    · rfl
  | _ =>
    simp only [Rule.action]
    try split
    all_goals rfl

/-- **`INITIAL` stays below all other start conditions.** -/
theorem bottom_lexOne {pf : Platform} {l l' : Lexer} {t : Option Token}
    (h : lexOne pf l = some (t, l')) : l'.bottom = l.bottom := by
  rw [lexOne, Option.map_eq_some_iff] at h
  obtain ⟨⟨r, n⟩, -, haction⟩ := h
  have hbottom := bottom_action pf (l.text.take n) { l with text := l.text.drop n } r
  rw [haction] at hbottom
  exact hbottom

/-- With everything closed the scanner is in the start condition it began with. -/
theorem Lexer.start_eq {l : Lexer} {c : StartCond} (h : l.bottom = some c) (hstack : l.stack = []) :
    l.start = c := by
  rw [Lexer.bottom, hstack] at h
  exact Option.some.inj h

end Vtun
