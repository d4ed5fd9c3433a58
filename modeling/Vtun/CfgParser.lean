/-
The grammar of the configuration file (`cfg_file.y`).

The parser reads one token at a time.  Its actions depend on the tokens alone, so
it leaves them, in order, as a list of sections, to be carried out afterwards; a
parse that stops early leaves the section it was in.  Lists of the grammar end at
the first token that does not continue them.

* `feedToken` — the parser on one token;
* `yyparse` — a whole text;
* `parseLoop_isSome` — the parser comes to an end;
* `yyparse_ok` — a text that is accepted ends behind a statement;
* `yyparse_bottom` — with everything closed the scanner is where it was;
* `yyparse_grouped` — statements are made up of whole options.
-/
import Vtun.CfgLexer

namespace Vtun

/-! ### What is parsed -/

/-- `struct vtun_cmd`. -/
structure Cmd where
  prog : Option (List Byte)
  args : Option (List Byte)
  flags : Int32
  deriving DecidableEq, Repr

/-- `parse_cmds`: the up or the down commands of `parse_host`. -/
inductive Dir
  | up
  | down
  deriving DecidableEq, Repr

/-- The commands that are configured in the options section. -/
inductive Tool
  | ppp
  | ifcfg
  | route
  | fwall
  | iproute
  deriving DecidableEq, Repr

/-- The actions of `option`, `bindaddr_option` and `syslog_opt`. -/
inductive OptAct
  | port (n : Int32)
  | svrType (n : Int32)
  | timeout (n : Int32)
  | svrAddr (s : List Byte)
  | bindName (s : List Byte)
  | bindIface (s : List Byte)
  | tool (t : Tool) (path : List Byte)
  | syslog (n : Int32)
  deriving DecidableEq, Repr

/-- The actions of `host_option` and of what is inside it.  `compressStart` and
`kaliveStart` come with the keyword, `cmdsStart` with `up` and `down`. -/
inductive HostAct
  | passwd (s : List Byte)
  | device (s : List Byte)
  | multi (n : Int32)
  | timeout (n : Int32)
  | speed (n : Int32)
  | speeds (n₁ n₂ : Int32)
  | compressStart
  | compress (n : Int32)
  | compressPair (n₁ n₂ : Int32)
  | encrypt (n : Int32)
  | kaliveStart
  | kalive (n : Int32)
  | kalivePair (n₁ n₂ : Int32)
  | stat (n : Int32)
  | persist (n : Int32)
  | type (n : Int32)
  | prot (n : Int32)
  | natHack (n : Int32)
  | srcName (s : List Byte)
  | srcIface (s : List Byte)
  | srcPort (n : Int32)
  | cmdsStart (d : Dir)
  | prog (d : Dir) (cmd : Cmd)
  | tool (d : Dir) (t : Tool) (args : List Byte)
  deriving BEq, ReflBEq, LawfulBEq, Repr

/-- The statements of a file. -/
inductive Section
  | options (acts : List OptAct)
  | default (acts : List HostAct)
  | host (name : List Byte) (acts : List HostAct)
  deriving BEq, ReflBEq, LawfulBEq, Repr

/-- One more action of `option` in a section. -/
def Section.opt (o : OptAct) : Section → Section
  | .options acts => .options (acts ++ [o])
  | s => s

/-- One more action of `host_option` in a section. -/
def Section.act (a : HostAct) : Section → Section
  | .options acts => .options acts
  | .default acts => .default (acts ++ [a])
  | .host name acts => .host name (acts ++ [a])

/-! ### The parser -/

/-- Where the parser is: before a statement, in an options section, in the body of
a default or session section, or in one of their parts.  `any` tells whether a
list that must not be empty has an element. -/
inductive Place
  | config
  | optionsOpen
  | options (any : Bool)
  | option (k : Kw)
  | bindOpen
  | bind
  | bindOption (k : Kw)
  | bindClose
  | hostOpen
  | host (any : Bool)
  | hostOption (k : Kw)
  | srcOpen
  | src
  | srcOption (k : Kw)
  | cmdsOpen
  | cmds
  | cmdOption (t : Tool)
  | progs (any : Bool)
  deriving DecidableEq, Repr

/-- The parser: its place, the section it is in, the statements behind it, and the
variables `parse_cmds` and `parse_cmd`. -/
structure Parser where
  place : Place
  current : Option Section
  done : List Section
  dir : Dir
  cmd : Cmd
  deriving BEq, ReflBEq, LawfulBEq, Repr

/-- What becomes of a parse. -/
inductive Verdict
  | more
  | accept
  | abort
  deriving DecidableEq, Repr

/-- On to another place. -/
def Parser.goto (p : Parser) (place : Place) : Parser × Verdict :=
  ({ p with place := place }, .more)

/-- A syntax error, or `YYABORT`. -/
def Parser.fail (p : Parser) : Parser × Verdict := (p, .abort)

/-- An action of `option`. -/
def Parser.opt (p : Parser) (o : OptAct) (place : Place) : Parser × Verdict :=
  ({ p with current := p.current.map (Section.opt o), place := place }, .more)

/-- An action of `host_option`. -/
def Parser.act (p : Parser) (a : HostAct) (place : Place) : Parser × Verdict :=
  ({ p with current := p.current.map (Section.act a), place := place }, .more)

/-- The end of a section. -/
def Parser.finish (p : Parser) : Parser × Verdict :=
  ({ p with current := none, done := p.done ++ p.current.toList, place := .config }, .more)

/-- `syslog_names`. -/
def syslogNames : List (List Byte × Int32) :=
  [(lit "auth", 32), (lit "cron", 72), (lit "daemon", 24), (lit "kern", 0), (lit "lpr", 48),
    (lit "mail", 16), (lit "news", 56), (lit "syslog", 40), (lit "user", 8), (lit "uucp", 64),
    (lit "local0", 128), (lit "local1", 136), (lit "local2", 144), (lit "local3", 152),
    (lit "local4", 160), (lit "local5", 168), (lit "local6", 176), (lit "local7", 184)]

/-- `parse_syslog`. -/
def parseSyslog (facility : List Byte) : Option Int32 :=
  (syslogNames.find? fun k => k.1 = facility).map Prod.snd

/-- The tool of a keyword. -/
def Kw.tool : Kw → Option Tool
  | .ppp => some .ppp
  | .ifcfg => some .ifcfg
  | .route => some .route
  | .fwall => some .fwall
  | .iproute => some .iproute
  | _ => none

/-- `config` and `statement`. -/
def feedConfig (p : Parser) : Token → Parser × Verdict
  | .fin => (p, .accept)
  | .kw .options => ({ p with current := some (.options []), place := .optionsOpen }, .more)
  | .kw .default => ({ p with current := some (.default []), place := .hostOpen }, .more)
  | .host name => ({ p with current := some (.host name []), place := .hostOpen }, .more)
  | _ => p.fail

/-- `option`, up to its argument. -/
def feedOptions (p : Parser) (any : Bool) : Token → Parser × Verdict
  | .kw .bindaddr => p.goto .bindOpen
  | .kw k =>
    if k ∈ [.port, .iface, .type, .timeout, .syslog] ∨ k.tool.isSome then p.goto (.option k)
    else p.fail
  | .close => if any then p.finish else p.fail
  | _ => p.fail

/-- The argument of an `option`. -/
def feedOption (p : Parser) (k : Kw) (t : Token) : Parser × Verdict :=
  match k, t with
  | .port, .num n => p.opt (.port n) (.options true)
  | .iface, .string s => p.opt (.svrAddr s) (.options true)
  | .type, .num n => p.opt (.svrType n) (.options true)
  | .timeout, .num n => p.opt (.timeout n) (.options true)
  | .syslog, .num n => p.opt (.syslog n) (.options true)
  | .syslog, .word s =>
    match parseSyslog s with
    | some n => p.opt (.syslog n) (.options true)
    | none => p.fail
  | k, .path s =>
    match k.tool with
    | some t => p.opt (.tool t s) (.options true)
    | none => p.fail
  | _, _ => p.fail

/-- `bindaddr_option`: the argument. -/
def feedBind (p : Parser) (k : Kw) (t : Token) : Parser × Verdict :=
  match k, t with
  | .addr, .word s => p.opt (.bindName s) .bindClose
  | .iface, .word s => p.opt (.bindIface s) .bindClose
  | .iface, .string s => p.opt (.bindIface s) .bindClose
  | _, _ => p.fail

/-- `host_option`, up to its argument. -/
def feedHost (p : Parser) (any : Bool) : Token → Parser × Verdict
  | .kw .compress => p.act .compressStart (.hostOption .compress)
  | .kw .kalive => p.act .kaliveStart (.hostOption .kalive)
  | .kw .srcaddr => p.goto .srcOpen
  | .kw .up => { p with dir := .up }.act (.cmdsStart .up) .cmdsOpen
  | .kw .down => { p with dir := .down }.act (.cmdsStart .down) .cmdsOpen
  | .kw k =>
    if k ∈ [.passwd, .device, .multi, .timeout, .speed, .encrypt, .stat, .persist, .type, .prot,
        .natHack] then
      p.goto (.hostOption k)
    else p.fail
  | .close => if any then p.finish else p.fail
  | _ => p.fail

/-- The action of a `host_option` for its argument. -/
def hostAct (k : Kw) (t : Token) : Option HostAct :=
  match k, t with
  | .passwd, .word s => some (.passwd s)
  | .device, .word s => some (.device s)
  | .multi, .num n => some (.multi n)
  | .timeout, .num n => some (.timeout n)
  | .speed, .num n => some (.speed n)
  | .speed, .dnum n₁ n₂ => some (.speeds n₁ n₂)
  | .compress, .num n => some (.compress n)
  | .compress, .dnum n₁ n₂ => some (.compressPair n₁ n₂)
  | .encrypt, .num n => some (.encrypt n)
  | .kalive, .num n => some (.kalive n)
  | .kalive, .dnum n₁ n₂ => some (.kalivePair n₁ n₂)
  | .stat, .num n => some (.stat n)
  | .persist, .num n => some (.persist n)
  | .type, .num n => some (.type n)
  | .prot, .num n => some (.prot n)
  | .natHack, .num n => some (.natHack n)
  | _, _ => none

/-- `srcaddr_options`. -/
def feedSrc (p : Parser) : Token → Parser × Verdict
  | .kw k => if k ∈ [.addr, .iface, .port] then p.goto (.srcOption k) else p.fail
  | .close => p.goto (.host true)
  | _ => p.fail

/-- The action of a `srcaddr_option` for its argument. -/
def srcAct (k : Kw) (t : Token) : Option HostAct :=
  match k, t with
  | .addr, .word s => some (.srcName s)
  | .iface, .word s => some (.srcIface s)
  | .iface, .string s => some (.srcIface s)
  | .port, .num n => some (.srcPort n)
  | _, _ => none

/-- `command_options`. -/
def feedCmds (p : Parser) : Token → Parser × Verdict
  -- `memset(&parse_cmd, 0, sizeof(struct vtun_cmd))`
  | .kw .prog => ({ p with cmd := ⟨none, none, 0⟩, place := .progs false }, .more)
  | .kw k =>
    match k.tool with
    | some t => p.goto (.cmdOption t)
    | none => p.fail
  | .close => p.goto (.host true)
  | _ => p.fail

/-- `prog_options`: a token that is none of them ends the command, also when it
is an error there. -/
def feedProgs (p : Parser) (any : Bool) (t : Token) : Parser × Verdict :=
  match t with
  | .path s => ({ p with cmd := { p.cmd with prog := some s }, place := .progs true }, .more)
  | .string s => ({ p with cmd := { p.cmd with args := some s }, place := .progs true }, .more)
  | .num n => ({ p with cmd := { p.cmd with flags := n }, place := .progs true }, .more)
  | t => if any then feedCmds (p.act (.prog p.dir p.cmd) .cmds).1 t else p.fail

/-- An argument with its action. -/
def feedAct (p : Parser) (a : Option HostAct) (place : Place) : Parser × Verdict :=
  match a with
  | some a => p.act a place
  | none => p.fail

/-- The parser on one token. -/
def feedToken (p : Parser) (t : Token) : Parser × Verdict :=
  match p.place with
  | .config => feedConfig p t
  | .optionsOpen => if t = .open then p.goto (.options false) else p.fail
  | .options any => feedOptions p any t
  | .option k => feedOption p k t
  | .bindOpen => if t = .open then p.goto .bind else p.fail
  | .bind =>
    if t = .kw .addr then p.goto (.bindOption .addr)
    else if t = .kw .iface then p.goto (.bindOption .iface)
    else p.fail
  | .bindOption k => feedBind p k t
  | .bindClose => if t = .close then p.goto (.options true) else p.fail
  | .hostOpen => if t = .open then p.goto (.host false) else p.fail
  | .host any => feedHost p any t
  | .hostOption k => feedAct p (hostAct k t) (.host true)
  | .srcOpen => if t = .open then p.goto .src else p.fail
  | .src => feedSrc p t
  | .srcOption k => feedAct p (srcAct k t) .src
  | .cmdsOpen => if t = .open then p.goto .cmds else p.fail
  | .cmds => feedCmds p t
  | .cmdOption tool =>
    match t with
    | .string s => p.act (.tool p.dir tool s) .cmds
    | _ => p.fail
  | .progs any => feedProgs p any t

/-- The parser before a text. -/
def Parser.start : Parser := ⟨.config, none, [], .up, ⟨none, none, 0⟩⟩

/-- What a call of `yyparse` leaves. -/
structure Parsed where
  /-- the complete statements -/
  done : List Section
  /-- the statement the parser stopped in -/
  current : Option Section
  /-- whether there was no error -/
  ok : Bool
  /-- whether the end of the text was reached -/
  ended : Bool
  lexer : Lexer
  deriving BEq, ReflBEq, LawfulBEq, Repr

/-- The end of a parse. -/
def Parser.result (p : Parser) (v : Verdict) (ended : Bool) (l : Lexer) : Parsed :=
  ⟨p.done, p.current, v = .accept, ended, l⟩

/-- `yyparse`, for at most `n` rules of the scanner. -/
def parseLoop (pf : Platform) : ℕ → Lexer → Parser → Option Parsed
  | 0, _, _ => none
  | n + 1, l, p =>
    match lexOne pf l with
    | none =>
      let r := feedToken p .fin
      some (r.1.result r.2 true l)
    | some (none, l) => parseLoop pf n l p
    | some (some t, l) =>
      let r := feedToken p t
      match r.2 with
      | .more => parseLoop pf n l r.1
      | v => some (r.1.result v false l)

/-- `yyparse`: there are no more rules to apply than characters. -/
def yyparse (pf : Platform) (l : Lexer) : Option Parsed :=
  parseLoop pf (l.text.length + 1) l .start

/-- **The parser comes to an end**: every rule of the scanner takes a character
away. -/
theorem parseLoop_isSome (pf : Platform) {n : ℕ} {l : Lexer} (p : Parser)
    (hn : l.text.length < n) : (parseLoop pf n l p).isSome := by
  induction n generalizing l p with
  | zero => omega
  | succ n ih =>
    rw [parseLoop]
    split
    · rfl
    · rename_i l' hone
      have hlen := length_lexOne hone
      exact ih p (by omega)
    · rename_i t l' hone
      have hlen := length_lexOne hone
      dsimp only
      split
      · exact ih _ (by omega)
      · rfl

theorem yyparse_isSome (pf : Platform) (l : Lexer) : (yyparse pf l).isSome :=
  parseLoop_isSome pf .start (Nat.lt_succ_self _)

/-! ### Accepted texts -/

/-- What becomes of a parser: it fails, or accepts before a statement, or goes on,
with no section open if it is before a statement again. -/
def Fed (p : Parser) (r : Parser × Verdict) : Prop :=
  r.2 = .abort ∨ (r = (p, .accept) ∧ p.place = .config) ∨
    (r.2 = .more ∧ (r.1.place = .config → r.1.current = none))

theorem fed_goto (p q : Parser) {place : Place} (h : place ≠ .config) : Fed p (q.goto place) :=
  .inr (.inr ⟨rfl, fun hc => absurd hc h⟩)

theorem fed_act (p q : Parser) (a : HostAct) {place : Place} (h : place ≠ .config) :
    Fed p (q.act a place) :=
  .inr (.inr ⟨rfl, fun hc => absurd hc h⟩)

theorem fed_opt (p q : Parser) (o : OptAct) {place : Place} (h : place ≠ .config) :
    Fed p (q.opt o place) :=
  .inr (.inr ⟨rfl, fun hc => absurd hc h⟩)

theorem fed_fail (p q : Parser) : Fed p q.fail := .inl rfl

theorem fed_finish (p q : Parser) : Fed p q.finish := .inr (.inr ⟨rfl, fun _ => rfl⟩)

theorem fed_feedConfig {p : Parser} (t : Token) (h : p.place = .config) :
    Fed p (feedConfig p t) := by
  unfold feedConfig
  split
  · exact .inr (.inl ⟨rfl, h⟩)
  · exact .inr (.inr ⟨rfl, fun hc => by cases hc⟩)
  · exact .inr (.inr ⟨rfl, fun hc => by cases hc⟩)
  · exact .inr (.inr ⟨rfl, fun hc => by cases hc⟩)
  · exact fed_fail p p

theorem fed_feedOptions (p : Parser) (any : Bool) (t : Token) : Fed p (feedOptions p any t) := by
  unfold feedOptions
  split
  · exact fed_goto p p (by decide)
  · split
    · exact fed_goto p p (by simp)
    · exact fed_fail p p
  · split
    · exact fed_finish p p
    · exact fed_fail p p
  · exact fed_fail p p

theorem fed_feedOption (p : Parser) (k : Kw) (t : Token) : Fed p (feedOption p k t) := by
  unfold feedOption
  split <;> try split
  all_goals first
    | exact fed_opt p p _ (by decide)
    | exact fed_fail p p

theorem fed_feedBind (p : Parser) (k : Kw) (t : Token) : Fed p (feedBind p k t) := by
  unfold feedBind
  split
  all_goals first
    | exact fed_opt p p _ (by decide)
    | exact fed_fail p p

theorem fed_feedHost (p : Parser) (any : Bool) (t : Token) : Fed p (feedHost p any t) := by
  unfold feedHost
  split
  · exact fed_act p p _ (by decide)
  · exact fed_act p p _ (by decide)
  · exact fed_goto p p (by decide)
  · exact fed_act p _ _ (by decide)
  · exact fed_act p _ _ (by decide)
  · split
    · exact fed_goto p p (by simp)
    · exact fed_fail p p
  · split
    · exact fed_finish p p
    · exact fed_fail p p
  · exact fed_fail p p

theorem fed_feedSrc (p : Parser) (t : Token) : Fed p (feedSrc p t) := by
  unfold feedSrc
  split
  · split
    · exact fed_goto p p (by simp)
    · exact fed_fail p p
  · exact fed_goto p p (by decide)
  · exact fed_fail p p

theorem fed_feedCmds (p q : Parser) (t : Token) : Fed p (feedCmds q t) := by
  unfold feedCmds
  split
  · exact .inr (.inr ⟨rfl, fun hc => by cases hc⟩)
  · split
    · exact fed_goto p q (by simp)
    · exact fed_fail p q
  · exact fed_goto p q (by decide)
  · exact fed_fail p q

theorem fed_feedProgs (p : Parser) (any : Bool) (t : Token) : Fed p (feedProgs p any t) := by
  unfold feedProgs
  split
  · exact .inr (.inr ⟨rfl, fun hc => by cases hc⟩)
  · exact .inr (.inr ⟨rfl, fun hc => by cases hc⟩)
  · exact .inr (.inr ⟨rfl, fun hc => by cases hc⟩)
  · split
    · exact fed_feedCmds p _ t
    · exact fed_fail p p

theorem fed_feedAct (p : Parser) (a : Option HostAct) {place : Place} (h : place ≠ .config) :
    Fed p (feedAct p a place) := by
  unfold feedAct
  split
  · exact fed_act p p _ h
  · exact fed_fail p p

theorem fed_feedToken (p : Parser) (t : Token) : Fed p (feedToken p t) := by
  unfold feedToken
  split
  · rename_i h
    exact fed_feedConfig t h
  · split
    · exact fed_goto p p (by simp)
    · exact fed_fail p p
  · exact fed_feedOptions p _ t
  · exact fed_feedOption p _ t
  · split
    · exact fed_goto p p (by simp)
    · exact fed_fail p p
  · split
    · exact fed_goto p p (by simp)
    · split
      · exact fed_goto p p (by simp)
      · exact fed_fail p p
  · exact fed_feedBind p _ t
  · split
    · exact fed_goto p p (by simp)
    · exact fed_fail p p
  · split
    · exact fed_goto p p (by simp)
    · exact fed_fail p p
  · exact fed_feedHost p _ t
  · exact fed_feedAct p _ (by decide)
  · split
    · exact fed_goto p p (by simp)
    · exact fed_fail p p
  · exact fed_feedSrc p t
  · exact fed_feedAct p _ (by decide)
  · split
    · exact fed_goto p p (by simp)
    · exact fed_fail p p
  · exact fed_feedCmds p p t
  · split
    · exact fed_act p p _ (by decide)
    · exact fed_fail p p
  · exact fed_feedProgs p _ t

/-- **An accepted text leaves no section open.** -/
theorem parseLoop_ok {pf : Platform} {n : ℕ} {l : Lexer} {p : Parser} {r : Parsed}
    (h : parseLoop pf n l p = some r) (hok : r.ok = true)
    (hp : p.place = .config → p.current = none) : r.current = none := by
  -- the parser accepts only before a statement
  have hend : ∀ (t : Token) (ended : Bool) (l : Lexer) (p : Parser),
      (p.place = .config → p.current = none) →
      ((feedToken p t).1.result (feedToken p t).2 ended l).ok = true →
      ((feedToken p t).1.result (feedToken p t).2 ended l).current = none := by
    intro t ended l p hp hok
    have haccept : (feedToken p t).2 = .accept := of_decide_eq_true hok
    rcases fed_feedToken p t with h | ⟨h, hplace⟩ | ⟨h, -⟩
    · rw [h] at haccept
      cases haccept
    · rw [h]
      exact hp hplace
    · rw [h] at haccept
      cases haccept
  induction n generalizing l p with
  | zero => cases h
  | succ n ih =>
    rw [parseLoop] at h
    split at h
    · obtain rfl := Option.some.inj h
      exact hend _ _ _ p hp hok
    · exact ih h hp
    · rename_i t l' _
      dsimp only at h
      split at h
      · rename_i hmore
        refine ih h ?_
        rcases fed_feedToken p t with hv | ⟨hv, -⟩ | ⟨-, hc⟩
        · rw [hv] at hmore
          cases hmore
        · rw [hv] at hmore
          cases hmore
        · exact hc
      · obtain rfl := Option.some.inj h
        exact hend _ _ _ p hp hok

theorem yyparse_ok {pf : Platform} {l : Lexer} {r : Parsed} (h : yyparse pf l = some r)
    (hok : r.ok = true) : r.current = none :=
  parseLoop_ok h hok fun _ => rfl

/-! ### The scanner behind a text -/

theorem parseLoop_bottom {pf : Platform} {n : ℕ} {l : Lexer} {p : Parser} {r : Parsed}
    (h : parseLoop pf n l p = some r) : r.lexer.bottom = l.bottom := by
  induction n generalizing l p with
  | zero => cases h
  | succ n ih =>
    rw [parseLoop] at h
    split at h
    · obtain rfl := Option.some.inj h
      rfl
    · rename_i l' hone
      rw [ih h, bottom_lexOne hone]
    · rename_i t l' hone
      dsimp only at h
      split at h
      · rw [ih h, bottom_lexOne hone]
      · obtain rfl := Option.some.inj h
        exact bottom_lexOne hone

theorem yyparse_bottom {pf : Platform} {l : Lexer} {r : Parsed} (h : yyparse pf l = some r) :
    r.lexer.bottom = l.bottom := parseLoop_bottom h

/-! ### Whole options -/

/-- The actions that make up an option alone. -/
def HostAct.single : HostAct → Bool
  | .compressStart | .compress _ | .compressPair _ _ | .kaliveStart | .kalive _
  | .kalivePair _ _ => false
  | _ => true

/-- The first and the second action of `compress` and of `keepalive`. -/
def HostAct.opens : HostAct → HostAct → Bool
  | .compressStart, .compress _ | .compressStart, .compressPair _ _
  | .kaliveStart, .kalive _ | .kaliveStart, .kalivePair _ _ => true
  | _, _ => false

/-- The list that a command is for. -/
def HostAct.cmdDir : HostAct → Option Dir
  | .prog d _ => some d
  | .tool d _ _ => some d
  | _ => none

/-- Actions that make up whole options, with commands only in a block. -/
inductive Grouped : List HostAct → Prop
  | nil : Grouped []
  | one {acts : List HostAct} {a : HostAct} : Grouped acts → a.single = true →
    (∀ d, a.cmdDir = some d → .cmdsStart d ∈ acts) → Grouped (acts ++ [a])
  | pair {acts : List HostAct} {a b : HostAct} :
    Grouped acts → a.opens b = true → Grouped (acts ++ [a] ++ [b])

/-- The actions of a body that the parser is in, by its place and `parse_cmds`. -/
def GroupedAt (acts : List HostAct) (dir : Dir) : Place → Prop
  | .hostOption .compress => ∃ g, Grouped g ∧ acts = g ++ [.compressStart]
  | .hostOption .kalive => ∃ g, Grouped g ∧ acts = g ++ [.kaliveStart]
  | .cmdsOpen | .cmds | .cmdOption _ | .progs _ => Grouped acts ∧ .cmdsStart dir ∈ acts
  | _ => Grouped acts

/-- A place where no option has been begun. -/
def Place.plain : Place → Bool
  | .hostOption .compress | .hostOption .kalive | .cmdsOpen | .cmds | .cmdOption _
  | .progs _ => false
  | _ => true

/-- A place among commands. -/
def Place.inCmds : Place → Bool
  | .cmdsOpen | .cmds | .cmdOption _ | .progs _ => true
  | _ => false

variable {acts : List HostAct} {dir dir' : Dir} {place place' : Place}

theorem groupedAt_plain (h : place.plain = true) : GroupedAt acts dir place ↔ Grouped acts := by
  unfold GroupedAt
  split <;> first | exact Iff.rfl | cases h

theorem groupedAt_inCmds (h : place.inCmds = true) :
    GroupedAt acts dir place ↔ Grouped acts ∧ .cmdsStart dir ∈ acts := by
  unfold GroupedAt
  split <;> first | exact Iff.rfl | cases h | skip
  unfold Place.inCmds at h
  split at h
  all_goals simp_all

/-- The same for a section. -/
def Section.GroupedAt (dir : Dir) (place : Place) : Section → Prop
  | .options _ => True
  | .default acts | .host _ acts => Vtun.GroupedAt acts dir place

theorem Section.GroupedAt.imp {sec : Section}
    (h : ∀ acts, Vtun.GroupedAt acts dir place → Vtun.GroupedAt acts dir' place')
    (hg : sec.GroupedAt dir place) : sec.GroupedAt dir' place' := by
  cases sec with
  | options acts => trivial
  | default acts => exact h acts hg
  | host name acts => exact h acts hg

/-- One more action. -/
theorem Section.GroupedAt.act {sec : Section} {a : HostAct}
    (h : ∀ acts, Vtun.GroupedAt acts dir place → Vtun.GroupedAt (acts ++ [a]) dir' place')
    (hg : sec.GroupedAt dir place) : (sec.act a).GroupedAt dir' place' := by
  cases sec with
  | options acts => trivial
  | default acts => exact h acts hg
  | host name acts => exact h acts hg

/-- A section that is made up of whole options. -/
def Section.Whole (sec : Section) : Prop := sec.GroupedAt .up .config

/-- The sections of a parser are made up of whole options. -/
structure ParserGrouped (p : Parser) : Prop where
  done : ∀ sec ∈ p.done, sec.Whole
  current : ∀ sec ∈ p.current, sec.GroupedAt p.dir p.place

variable {p q : Parser}

theorem ParserGrouped.moved (h : ParserGrouped p) (hdone : q.done = p.done)
    (hcurrent : q.current = p.current)
    (hacts : ∀ acts, GroupedAt acts p.dir p.place → GroupedAt acts q.dir q.place) :
    ParserGrouped q where
  done := by
    rw [hdone]
    exact h.done
  current := fun sec hsec => by
    rw [hcurrent] at hsec
    exact (h.current sec hsec).imp hacts

theorem ParserGrouped.act (h : ParserGrouped p) {a : HostAct} (hdone : q.done = p.done)
    (hcurrent : q.current = p.current)
    (hacts : ∀ acts, GroupedAt acts p.dir p.place → GroupedAt (acts ++ [a]) q.dir place) :
    ParserGrouped (q.act a place).1 where
  done := by
    rw [Parser.act, hdone]
    exact h.done
  current := fun sec hsec => by
    obtain ⟨sec', hsec', rfl⟩ := Option.map_eq_some_iff.mp hsec
    rw [hcurrent] at hsec'
    exact (h.current _ hsec').act hacts

theorem ParserGrouped.goto (h : ParserGrouped p) (hp : p.place.plain = true)
    (hplace : place.plain = true) : ParserGrouped (p.goto place).1 :=
  h.moved rfl rfl fun _ hg => (groupedAt_plain hplace).mpr ((groupedAt_plain hp).mp hg)

theorem ParserGrouped.opt (h : ParserGrouped p) (hp : p.place.plain = true) (o : OptAct)
    (hplace : place.plain = true) : ParserGrouped (p.opt o place).1 where
  done := h.done
  current := fun sec hsec => by
    obtain ⟨sec', hsec', rfl⟩ := Option.map_eq_some_iff.mp hsec
    have himp : ∀ acts, GroupedAt acts p.dir p.place → GroupedAt acts p.dir place :=
      fun _ hg => (groupedAt_plain hplace).mpr ((groupedAt_plain hp).mp hg)
    cases sec' with
    | options acts => trivial
    | default acts => exact himp _ (h.current _ hsec')
    | host name acts => exact himp _ (h.current _ hsec')

/-- An option of one action. -/
theorem ParserGrouped.single (h : ParserGrouped p) (hp : p.place.plain = true) {a : HostAct}
    (ha : a.single = true) (hcmd : a.cmdDir = none) (hplace : place.plain = true) :
    ParserGrouped (p.act a place).1 :=
  h.act rfl rfl fun _ hg => (groupedAt_plain hplace).mpr
    (.one ((groupedAt_plain hp).mp hg) ha fun d hd => by rw [hcmd] at hd; cases hd)

/-- The beginning of a block of commands. -/
theorem ParserGrouped.cmdsStart (h : ParserGrouped p) (hp : p.place.plain = true) (d : Dir) :
    ParserGrouped ({ p with dir := d }.act (.cmdsStart d) .cmdsOpen).1 :=
  h.act rfl rfl fun acts hg => by
    have hone : Grouped (acts ++ [.cmdsStart d]) :=
      .one ((groupedAt_plain hp).mp hg) rfl fun _ hd => by cases hd
    exact ⟨hone, List.mem_append_right _ (List.mem_singleton.mpr rfl)⟩

/-- A command. -/
theorem ParserGrouped.cmd (h : ParserGrouped p) (hp : p.place.inCmds = true) {a : HostAct}
    (ha : a.single = true) (hcmd : a.cmdDir = some p.dir) :
    ParserGrouped (p.act a .cmds).1 :=
  h.act rfl rfl fun _ hg => by
    obtain ⟨hgrouped, hstart⟩ := (groupedAt_inCmds hp).mp hg
    exact ⟨.one hgrouped ha fun d hd => by rw [hcmd] at hd; exact Option.some.inj hd ▸ hstart,
      List.mem_append_left _ hstart⟩

theorem ParserGrouped.gotoCmds (h : ParserGrouped p) (hp : p.place.inCmds = true)
    (hdone : q.done = p.done) (hcurrent : q.current = p.current) (hdir : q.dir = p.dir)
    (hq : q.place.inCmds = true) : ParserGrouped q :=
  h.moved hdone hcurrent fun _ hg =>
    (groupedAt_inCmds hq).mpr (hdir ▸ (groupedAt_inCmds hp).mp hg)

theorem ParserGrouped.leaveCmds (h : ParserGrouped p) (hp : p.place.inCmds = true)
    (hplace : place.plain = true) : ParserGrouped (p.goto place).1 :=
  h.moved rfl rfl fun _ hg => (groupedAt_plain hplace).mpr ((groupedAt_inCmds hp).mp hg).1

theorem ParserGrouped.finish (h : ParserGrouped p) (hp : p.place.plain = true) :
    ParserGrouped p.finish.1 where
  done := fun sec hsec => by
    rcases List.mem_append.mp hsec with hsec | hsec
    · exact h.done sec hsec
    · exact (h.current sec (Option.mem_toList.mp hsec)).imp fun _ hg => (groupedAt_plain hp).mp hg
  current := fun sec hsec => by cases hsec

/-- A section is begun. -/
theorem ParserGrouped.begin (h : ParserGrouped p) {sec : Section} (hsec : sec.Whole)
    (hplace : place.plain = true) :
    ParserGrouped { p with current := some sec, place := place } where
  done := h.done
  current := fun sec' hsec' => by
    obtain rfl := Option.some.inj hsec'
    have himp : ∀ acts, GroupedAt acts .up .config → GroupedAt acts p.dir place :=
      fun _ hg => (groupedAt_plain hplace).mpr hg
    exact hsec.imp himp

theorem hostAct_single {k : Kw} {t : Token} {a : HostAct} (h : hostAct k t = some a)
    (hk : (Place.hostOption k).plain = true) : a.single = true ∧ a.cmdDir = none := by
  unfold hostAct at h
  split at h <;> first
    | obtain rfl := Option.some.inj h
      first | exact ⟨rfl, rfl⟩ | cases hk
    | cases h

theorem srcAct_single {k : Kw} {t : Token} {a : HostAct} (h : srcAct k t = some a) :
    a.single = true ∧ a.cmdDir = none := by
  unfold srcAct at h
  split at h <;> first
    | obtain rfl := Option.some.inj h
      exact ⟨rfl, rfl⟩
    | cases h

/-- The argument of an option, whether it has begun with an action or not. -/
theorem ParserGrouped.hostOption (h : ParserGrouped p) {k : Kw} (hp : p.place = .hostOption k)
    (t : Token) : ParserGrouped (feedAct p (hostAct k t) (.host true)).1 := by
  unfold feedAct
  split
  · rename_i a ha
    by_cases hplain : (Place.hostOption k).plain = true
    · obtain ⟨hsingle, hcmd⟩ := hostAct_single ha hplain
      exact h.single (by rw [hp]; exact hplain) hsingle hcmd rfl
    · refine h.act rfl rfl fun acts hg => ?_
      rw [hp] at hg
      show Grouped (acts ++ [a])
      unfold hostAct at ha
      split at ha <;> first
        | exact absurd rfl hplain
        | obtain rfl := Option.some.inj ha
          obtain ⟨g, hg, rfl⟩ := hg
          exact .pair hg rfl
        | cases ha
  · exact h

theorem ParserGrouped.feedCmds (h : ParserGrouped p) (hp : p.place.inCmds = true) (t : Token) :
    ParserGrouped (feedCmds p t).1 := by
  unfold Vtun.feedCmds
  split
  · exact h.gotoCmds hp rfl rfl rfl rfl
  · split
    · exact h.gotoCmds hp rfl rfl rfl rfl
    · exact h
  · exact h.leaveCmds hp rfl
  · exact h

theorem ParserGrouped.feedConfig (h : ParserGrouped p) (t : Token) :
    ParserGrouped (feedConfig p t).1 := by
  unfold Vtun.feedConfig
  split
  · exact h
  · exact h.begin (show (Section.options []).Whole from trivial) rfl
  · exact h.begin (show (Section.default []).Whole from Grouped.nil) rfl
  · exact h.begin (show (Section.host _ []).Whole from Grouped.nil) rfl
  · exact h

theorem ParserGrouped.feedOptions (h : ParserGrouped p) (hp : p.place.plain = true) (any : Bool)
    (t : Token) : ParserGrouped (feedOptions p any t).1 := by
  unfold Vtun.feedOptions
  split
  · exact h.goto hp rfl
  · split
    · exact h.goto hp rfl
    · exact h
  · split
    · exact h.finish hp
    · exact h
  · exact h

theorem ParserGrouped.feedOption (h : ParserGrouped p) (hp : p.place.plain = true) (k : Kw)
    (t : Token) : ParserGrouped (feedOption p k t).1 := by
  unfold Vtun.feedOption
  split <;> try split
  all_goals first
    | exact h.opt hp _ rfl
    | exact h

theorem ParserGrouped.feedBind (h : ParserGrouped p) (hp : p.place.plain = true) (k : Kw)
    (t : Token) : ParserGrouped (feedBind p k t).1 := by
  unfold Vtun.feedBind
  split
  all_goals first
    | exact h.opt hp _ rfl
    | exact h

theorem ParserGrouped.feedHost (h : ParserGrouped p) (hp : p.place.plain = true) (any : Bool)
    (t : Token) : ParserGrouped (feedHost p any t).1 := by
  unfold Vtun.feedHost
  split
  · exact h.act rfl rfl fun acts hg => ⟨acts, (groupedAt_plain hp).mp hg, rfl⟩
  · exact h.act rfl rfl fun acts hg => ⟨acts, (groupedAt_plain hp).mp hg, rfl⟩
  · exact h.goto hp rfl
  · exact h.cmdsStart hp .up
  · exact h.cmdsStart hp .down
  · split
    · rename_i hk
      refine h.goto hp ?_
      simp only [List.mem_cons, List.not_mem_nil, or_false] at hk
      rcases hk with rfl | rfl | rfl | rfl | rfl | rfl | rfl | rfl | rfl | rfl | rfl <;> rfl
    · exact h
  · split
    · exact h.finish hp
    · exact h
  · exact h

theorem ParserGrouped.feedSrc (h : ParserGrouped p) (hp : p.place.plain = true) (t : Token) :
    ParserGrouped (feedSrc p t).1 := by
  unfold Vtun.feedSrc
  split
  · split
    · exact h.goto hp rfl
    · exact h
  · exact h.goto hp rfl
  · exact h

theorem ParserGrouped.srcOption (h : ParserGrouped p) (hp : p.place.plain = true) (k : Kw)
    (t : Token) : ParserGrouped (feedAct p (srcAct k t) .src).1 := by
  unfold feedAct
  split
  · rename_i a ha
    obtain ⟨hsingle, hcmd⟩ := srcAct_single ha
    exact h.single hp hsingle hcmd rfl
  · exact h

theorem ParserGrouped.feedProgs (h : ParserGrouped p) (hp : p.place.inCmds = true) (any : Bool)
    (t : Token) : ParserGrouped (feedProgs p any t).1 := by
  unfold Vtun.feedProgs
  split
  · exact h.gotoCmds hp rfl rfl rfl rfl
  · exact h.gotoCmds hp rfl rfl rfl rfl
  · exact h.gotoCmds hp rfl rfl rfl rfl
  · split
    · have hcmd : ParserGrouped (p.act (.prog p.dir p.cmd) .cmds).1 := h.cmd hp rfl rfl
      exact hcmd.feedCmds rfl t
    · exact h

/-- **Sections are made up of whole options**, one token after another. -/
theorem ParserGrouped.feedToken (h : ParserGrouped p) (t : Token) :
    ParserGrouped (feedToken p t).1 := by
  unfold Vtun.feedToken
  split
  · exact h.feedConfig t
  all_goals rename_i hplace
  · split
    · exact h.goto (by rw [hplace]; rfl) rfl
    · exact h
  · exact h.feedOptions (by rw [hplace]; rfl) _ t
  · exact h.feedOption (by rw [hplace]; rfl) _ t
  · split
    · exact h.goto (by rw [hplace]; rfl) rfl
    · exact h
  · split
    · exact h.goto (by rw [hplace]; rfl) rfl
    · split
      · exact h.goto (by rw [hplace]; rfl) rfl
      · exact h
  · exact h.feedBind (by rw [hplace]; rfl) _ t
  · split
    · exact h.goto (by rw [hplace]; rfl) rfl
    · exact h
  · split
    · exact h.goto (by rw [hplace]; rfl) rfl
    · exact h
  · exact h.feedHost (by rw [hplace]; rfl) _ t
  · exact h.hostOption hplace t
  · split
    · exact h.goto (by rw [hplace]; rfl) rfl
    · exact h
  · exact h.feedSrc (by rw [hplace]; rfl) t
  · exact h.srcOption (by rw [hplace]; rfl) _ t
  · split
    · exact h.gotoCmds (by rw [hplace]; rfl) rfl rfl rfl rfl
    · exact h
  · exact h.feedCmds (by rw [hplace]; rfl) t
  · split
    · exact h.cmd (by rw [hplace]; rfl) rfl rfl
    · exact h
  · exact h.feedProgs (by rw [hplace]; rfl) _ t

theorem parseLoop_grouped {pf : Platform} {n : ℕ} {l : Lexer} {p : Parser} {r : Parsed}
    (h : parseLoop pf n l p = some r) (hp : ParserGrouped p) : ∀ sec ∈ r.done, sec.Whole := by
  induction n generalizing l p with
  | zero => cases h
  | succ n ih =>
    rw [parseLoop] at h
    split at h
    · obtain rfl := Option.some.inj h
      exact (hp.feedToken .fin).done
    · exact ih h hp
    · rename_i t l' _
      dsimp only at h
      split at h
      · exact ih h (hp.feedToken t)
      · obtain rfl := Option.some.inj h
        exact (hp.feedToken t).done

/-- **The statements of a text are made up of whole options.** -/
theorem yyparse_grouped {pf : Platform} {l : Lexer} {r : Parsed} (h : yyparse pf l = some r) :
    ∀ sec ∈ r.done, sec.Whole :=
  parseLoop_grouped h
    { done := fun sec hsec => by cases hsec
      current := fun sec hsec => by cases hsec }

end Vtun
