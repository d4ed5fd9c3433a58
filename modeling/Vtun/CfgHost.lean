/-
What the statements of the configuration file do (`cfg_file.y`, `main.c`).

The strings of a record belong to it alone and are values, with one exception:
`memcpy` gives every session the pointer to the device of `default_host`, so the
strings `default_host.dev` has pointed to are numbered cells.  A cell that is freed
has no value, and what the language leaves undefined ends a load with nothing.

* `HostAct.flags_eq` — every action clears some flags and sets others;
* `readConfig` — one load of a file.
-/
import Vtun.CfgParser
import Mathlib.Logic.Function.Basic

namespace Vtun

/-! ### Records -/

/-- The type of a `struct vtun_addr`. -/
inductive AddrType
  | iface
  | name
  deriving DecidableEq, Repr

/-- The device of a record: `NULL`, a string of its own, or the cell of a string of
`default_host`. -/
inductive Dev
  | null
  | own (s : List Byte)
  | shared (cell : ℕ)
  deriving DecidableEq, Repr

/-- The fields of `struct vtun_host` that the parser sets. -/
structure ConfHost where
  host : List Byte
  passwd : Option (List Byte)
  dev : Dev
  up : List Cmd
  down : List Cmd
  flags : BitVec 32
  timeout : Int32
  spdIn : Int32
  spdOut : Int32
  zlevel : Int32
  cipher : Int32
  persist : Int32
  multi : Int32
  kaInterval : Int32
  kaMaxfail : Int32
  /-- type and name of the source address, where it has a type -/
  srcAddr : Option (AddrType × List Byte)
  srcPort : Int32
  deriving DecidableEq, Repr

/-- `struct vtun_opts`, without what only the command line sets. -/
structure VtunOpts where
  timeout : Int32
  persist : Int32
  tool : Tool → List Byte
  svrAddr : Option (List Byte)
  bindAddr : Option (AddrType × List Byte)
  bindPort : Int32
  svrType : Int32
  syslog : Int32

/-- The settings of `vtun` in `main`, with `persist` from the command line. -/
def mainOpts (persist : Int32) : VtunOpts where
  timeout := -1
  persist := persist
  tool
    | .ppp => lit "/usr/sbin/pppd"
    | .ifcfg => lit "/sbin/ifconfig"
    | .route => lit "/sbin/route"
    | .fwall => lit "/sbin/ipchains"
    | .iproute => lit "/sbin/ip"
  svrAddr := none
  bindAddr := none
  bindPort := -1
  svrType := -1
  syslog := 24

/-- `default_host` in `main`. -/
def defaultHost : ConfHost where
  host := []
  passwd := none
  dev := .null
  up := []
  down := []
  flags := Flag.tty ||| Flag.tcp
  timeout := 30
  spdIn := 0
  spdOut := 0
  zlevel := 0
  cipher := 0
  persist := 0
  multi := 1
  kaInterval := 30
  kaMaxfail := 4
  srcAddr := none
  srcPort := 0

/-! ### Actions -/

/-- The actions of `option`: settings of the command line stay. -/
def OptAct.run (v : VtunOpts) : OptAct → VtunOpts
  | .port n => if v.bindPort = -1 then { v with bindPort := n } else v
  | .svrType n => if v.svrType = -1 then { v with svrType := n } else v
  | .timeout n => if v.timeout = -1 then { v with timeout := n } else v
  | .svrAddr s => if v.svrAddr = none then { v with svrAddr := some s } else v
  | .bindName s => { v with bindAddr := some (.name, s) }
  | .bindIface s => { v with bindAddr := some (.iface, s) }
  | .tool t path => { v with tool := Function.update v.tool t path }
  | .syslog n => { v with syslog := n }

/-- What the actions of `host_option` do to `parse_host->flags`. -/
def HostAct.flags (a : HostAct) (f : BitVec 32) : BitVec 32 :=
  match a with
  | .speed n => if n ≠ 0 then f ||| Flag.shape else f &&& ~~~Flag.shape
  | .speeds n₁ n₂ => if n₁ ≠ 0 ∨ n₂ ≠ 0 then f ||| Flag.shape else f &&& ~~~Flag.shape
  | .compressStart => f &&& ~~~(Flag.zlib ||| Flag.lzo)
  | .compress n => if n ≠ 0 then f ||| Flag.zlib else f
  | .compressPair n₁ _ => f ||| n₁.toBitVec
  | .encrypt n => if n ≠ 0 then f ||| Flag.encrypt else f &&& ~~~Flag.encrypt
  | .kaliveStart => f &&& ~~~Flag.keepAlive
  | .kalive n => if n ≠ 0 then f ||| Flag.keepAlive else f
  | .kalivePair n₁ _ => if n₁ ≠ 0 then f ||| Flag.keepAlive else f
  | .stat n => if n ≠ 0 then f ||| Flag.stat else f &&& ~~~Flag.stat
  | .type n => (f &&& ~~~Flag.typeMask) ||| n.toBitVec
  | .prot n => (f &&& ~~~Flag.protMask) ||| n.toBitVec
  | .natHack n => (f &&& ~~~Flag.natHackMask) ||| n.toBitVec
  | _ => f

/-- The flags that an action clears. -/
def HostAct.clears : HostAct → BitVec 32
  | .speed _ | .speeds _ _ => Flag.shape
  | .compressStart => Flag.zlib ||| Flag.lzo
  | .encrypt _ => Flag.encrypt
  | .kaliveStart => Flag.keepAlive
  | .stat _ => Flag.stat
  | .type _ => Flag.typeMask
  | .prot _ => Flag.protMask
  | .natHack _ => Flag.natHackMask
  | _ => 0

/-- The flags that an action sets. -/
def HostAct.sets : HostAct → BitVec 32
  | .speed n => if n ≠ 0 then Flag.shape else 0
  | .speeds n₁ n₂ => if n₁ ≠ 0 ∨ n₂ ≠ 0 then Flag.shape else 0
  | .compress n => if n ≠ 0 then Flag.zlib else 0
  | .compressPair n₁ _ => n₁.toBitVec
  | .encrypt n => if n ≠ 0 then Flag.encrypt else 0
  | .kalive n => if n ≠ 0 then Flag.keepAlive else 0
  | .kalivePair n₁ _ => if n₁ ≠ 0 then Flag.keepAlive else 0
  | .stat n => if n ≠ 0 then Flag.stat else 0
  | .type n => n.toBitVec
  | .prot n => n.toBitVec
  | .natHack n => n.toBitVec
  | _ => 0

/-- Setting a bit clears it first, as far as the other bits go. -/
theorem or_bit_eq (f b : BitVec 32) : f ||| b = f &&& ~~~b ||| b := by
  ext i hi
  simp only [BitVec.getElem_or, BitVec.getElem_and, BitVec.getElem_not]
  cases f[i] <;> cases b[i] <;> rfl

theorem clear_none (f : BitVec 32) : f &&& ~~~(0 : BitVec 32) = f := by
  show f &&& ~~~0#32 = f
  rw [BitVec.not_zero, BitVec.and_allOnes]

theorem set_none (f : BitVec 32) : f ||| (0 : BitVec 32) = f := BitVec.or_zero

/-- **Every action clears some flags and sets others.** -/
theorem HostAct.flags_eq (a : HostAct) (f : BitVec 32) :
    a.flags f = f &&& ~~~a.clears ||| a.sets := by
  cases a <;> simp only [HostAct.flags, HostAct.clears, HostAct.sets] <;> try split
  all_goals first
    | rfl
    | exact or_bit_eq f _
    | exact (set_none _).symm
    | rw [clear_none, set_none]
    | rw [clear_none]

/-- The device that an option names. -/
def Mention.device : HostAct → Option (List Byte)
  | .device s => some s
  | _ => none

/-- The password that an option names. -/
def Mention.passwd : HostAct → Option (List Byte)
  | .passwd s => some s
  | _ => none

/-- The flags of a command that runs a configured tool: `VTUN_CMD_DELAY` for
`pppd`, `VTUN_CMD_WAIT` for the others. -/
def Tool.flags : Tool → Int32
  | .ppp => 2
  | _ => 1

/-- A change of the up or the down commands. -/
def ConfHost.mapCmds (h : ConfHost) (d : Dir) (f : List Cmd → List Cmd) : ConfHost :=
  match d with
  | .up => { h with up := f h.up }
  | .down => { h with down := f h.down }

/-- The actions of `host_option` on the fields of `parse_host`, `device` apart. -/
def HostAct.fields (tool : Tool → List Byte) (a : HostAct) (h : ConfHost) : ConfHost :=
  let h := { h with flags := a.flags h.flags }
  match a with
  | .passwd s => { h with passwd := some s }
  | .multi n => { h with multi := n }
  | .timeout n => { h with timeout := n }
  | .speed n => if n ≠ 0 then { h with spdIn := n, spdOut := n } else h
  | .speeds n₁ n₂ => if n₁ ≠ 0 ∨ n₂ ≠ 0 then { h with spdOut := n₁, spdIn := n₂ } else h
  | .compress n => if n ≠ 0 then { h with zlevel := n } else h
  | .compressPair _ n₂ => { h with zlevel := n₂ }
  | .encrypt n => if n ≠ 0 then { h with cipher := n } else h
  | .kalivePair n₁ n₂ => if n₁ ≠ 0 then { h with kaInterval := n₁, kaMaxfail := n₂ } else h
  | .persist n => { h with persist := n }
  | .srcName s => { h with srcAddr := some (.name, s) }
  | .srcIface s => { h with srcAddr := some (.iface, s) }
  | .srcPort n => { h with srcPort := n }
  | .cmdsStart d => h.mapCmds d fun _ => []
  | .prog d cmd => h.mapCmds d (· ++ [cmd])
  | .tool d t args => h.mapCmds d (· ++ [⟨some (tool t), some args, t.flags⟩])
  | _ => h

/-- `free` of a device; a cell must not be freed twice. -/
def freeDev (cells : List (Option (List Byte))) : Dev → Option (List (Option (List Byte)))
  | .shared c =>
    match cells[c]? with
    | some (some _) => some (cells.set c none)
    | _ => none
  | _ => some cells

/-- `parse_host`, the strings of `default_host.dev`, and `vtun`. -/
structure Work where
  h : ConfHost
  cells : List (Option (List Byte))
  vtun : VtunOpts

/-- An action of `host_option`; `main` tells whether `parse_host` is
`default_host`. -/
def HostAct.run (main : Bool) (w : Work) (a : HostAct) : Option Work :=
  match a with
  | .device s => do
    let cells ← freeDev w.cells w.h.dev
    if main then
      some { w with h := { w.h with dev := .shared cells.length }, cells := cells ++ [some s] }
    else some { w with h := { w.h with dev := .own s }, cells := cells }
  | .persist n =>
    some { w with
      h := a.fields w.vtun.tool w.h
      vtun := if w.vtun.persist = -1 then { w.vtun with persist := n } else w.vtun }
  | a => some { w with h := a.fields w.vtun.tool w.h }

/-! ### Statements -/

/-- `cp_cmd`: `strdup` of a missing string is undefined. -/
def cpCmd (cmd : Cmd) : Option Cmd :=
  if cmd.prog.isSome ∧ cmd.args.isSome then some cmd else none

/-- The new record of a session. -/
def openHost (d : ConfHost) (name : List Byte) : Option ConfHost := do
  let up ← d.up.mapM cpCmd
  let down ← d.down.mapM cpCmd
  some { d with host := name, passwd := none, up := up, down := down }

/-- The process: `default_host` and the strings of its device, `host_list`, `vtun`,
and what the scanner keeps from one load to the next: its start condition and
stack, and text it has not used.  `ended` is whether it takes the input to end
there. -/
structure Conf where
  default : ConfHost
  cells : List (Option (List Byte))
  hosts : List ConfHost
  vtun : VtunOpts
  start : StartCond
  stack : List StartCond
  unread : List Byte
  ended : Bool

/-- A freshly started process. -/
def Conf.init (v : VtunOpts) : Conf := ⟨defaultHost, [], [], v, .initial, [], [], false⟩

/-- A statement; `whole` tells whether it was parsed to its end. -/
def Section.run (whole : Bool) (s : Conf) : Section → Option Conf
  | .options acts => some { s with vtun := acts.foldl OptAct.run s.vtun }
  | .default acts => do
    let w ← acts.foldlM (HostAct.run true) ⟨s.default, s.cells, s.vtun⟩
    some { s with default := w.h, cells := w.cells, vtun := w.vtun }
  | .host name acts => do
    let h ← openHost s.default name
    let w ← acts.foldlM (HostAct.run false) ⟨h, s.cells, s.vtun⟩
    some { s with
      cells := w.cells
      vtun := w.vtun
      -- a session without a password is left out
      hosts := if whole ∧ w.h.passwd.isSome then s.hosts ++ [w.h] else s.hosts }

/-- The statements of a file. -/
def runSections (s : Conf) (secs : List Section) : Option Conf := secs.foldlM (Section.run true) s

/-- `free_host(&default_host, NULL)`: with a password it frees what was never
allocated. -/
def freeDefault (s : Conf) : Option Conf :=
  if s.default.passwd.isSome then none
  else some { s with default := { s.default with up := [], down := [], srcAddr := none } }

/-- A call of `read_config`: the contents of the file, if it can be opened; and
where the parser stops early, how much of the rest is in the buffer of the
scanner, and whether it has seen the end of the file. -/
structure Load where
  file : Option (List Byte)
  kept : ℕ
  sawEnd : Bool

/-- The scanner before a file. -/
def Conf.lexer (s : Conf) (file : List Byte) : Lexer :=
  ⟨s.start, s.stack, if s.ended then s.unread else s.unread ++ file⟩

/-- `read_config`. -/
def readConfig (pf : Platform) (s : Conf) (ev : Load) : Option Conf :=
  let s := { s with hosts := [] }
  match ev.file with
  | none => some s
  | some file => do
    let r ← yyparse pf (s.lexer file)
    let s' ← runSections s r.done
    let s' ← r.current.toList.foldlM (Section.run false) s'
    let s' ← freeDefault s'
    some { s' with
      start := r.lexer.start
      stack := r.lexer.stack
      unread := if r.ended then [] else r.lexer.text.take ev.kept
      ended := !r.ended && ev.sawEnd }

/-- What the parser leaves in the scanner. -/
def Parsed.keep (r : Parsed) (ev : Load) (s : Conf) : Conf :=
  { s with
    start := r.lexer.start
    stack := r.lexer.stack
    unread := if r.ended then [] else r.lexer.text.take ev.kept
    ended := !r.ended && ev.sawEnd }

/-- A load of a file that can be opened, step by step. -/
theorem readConfig_parsed {pf : Platform} {s : Conf} {file : List Byte} {kept : ℕ} {sawEnd : Bool}
    {r : Parsed} (hparse : yyparse pf (s.lexer file) = some r) :
    readConfig pf s ⟨some file, kept, sawEnd⟩ =
      (((runSections { s with hosts := [] } r.done).bind fun s' =>
        r.current.toList.foldlM (Section.run false) s').bind freeDefault).map
          (r.keep ⟨some file, kept, sawEnd⟩) := by
  have hlexer : Conf.lexer { s with hosts := [] } file = s.lexer file := rfl
  simp only [readConfig, hlexer, hparse, Option.bind_eq_bind, Option.bind_some]
  cases runSections { s with hosts := [] } r.done with
  | none => rfl
  | some s₁ =>
    simp only [Option.bind_some]
    cases r.current.toList.foldlM (Section.run false) s₁ with
    | none => rfl
    | some s₂ =>
      simp only [Option.bind_some]
      cases freeDefault s₂ <;> rfl

/-! ### Settings -/

/-- The text a device points to: nothing, a string, or a cell that may have been
freed. -/
def devText (cells : List (Option (List Byte))) : Dev → Option (Option (List Byte))
  | .null => some none
  | .own s => some (some s)
  | .shared c => (cells.getD c none).map some

/-- The settings of a record: its fields, and the text of its device. -/
def settings (cells : List (Option (List Byte))) (h : ConfHost) :
    ConfHost × Option (Option (List Byte)) :=
  ({ h with dev := .null }, devText cells h.dev)

/-- The settings of the sessions in `host_list`. -/
def Conf.sessions (s : Conf) : List (ConfHost × Option (Option (List Byte))) :=
  s.hosts.map (settings s.cells)

end Vtun
