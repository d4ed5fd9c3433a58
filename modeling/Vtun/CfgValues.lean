/-
The semantic values of the configuration file (`cfg_file.l`, `cfg_file.y`).

The scanner stores the value of a token in the union `yylval`, and the actions of the
grammar read a member of it.  `PUSH_STATE` and `POP_STATE` return `K_ERROR` without
storing anything, so that an action prints what an earlier token has left there.

* `loggedLoop` — the parser, with the rules the scanner has taken for it;
* `tokenStored_action` — what a rule stores is the value of its token, unless the stack of
  start conditions is full or empty;
* `reads_of_taken` — no token with a value is taken without an action that reads it;
* `reads_stored_iff` — when every action reads what the rule of its token has stored;
* `reads_stale` — a closing brace too many.
-/
import Vtun.CfgParser

namespace Vtun

/-! ### The union -/

/-- The members of the union `yylval`. -/
inductive YyMember
  | str
  | num
  | dnum
  deriving DecidableEq, Repr

/-- The union `yylval`, by the member that was stored last. -/
inductive Yylval
  | str (s : List Byte)
  | num (n : Int32)
  | dnum (num1 num2 : Int32)
  deriving DecidableEq, Repr

def Yylval.member : Yylval → YyMember
  | .str _ => .str
  | .num _ => .num
  | .dnum _ _ => .dnum

/-- What the action of a rule stores in `yylval`. -/
def Rule.stores (pf : Platform) (yytext : List Byte) : Rule → Option Yylval
  | .space | .newline | .comment | .garbage | .open | .close | .semicolon => none
  | .kword | .optionWord =>
    match findKeyword cfgKeyword yytext with
    | some _ => none
    | none => some (.str yytext)
  | .word => some (.str yytext)
  | .string =>
    if yytext.length > 254 then none
    else some (.str (cstr ((yytext.drop 1).take (yytext.length - 2))))
  | .dnum => some (.dnum (atoi pf yytext) (atoi pf ((yytext.dropWhile (· ≠ 58)).drop 1)))
  | .num => some (.num (atoi pf yytext))
  | .paramWord =>
    match findKeyword cfgParam yytext with
    | some kw => some (.num kw)
    | none => some (.str yytext)
  | .wordnm =>
    let word := yytext.takeWhile (· ≠ 58)
    some (.dnum ((findKeyword cfgParam word).getD (-1))
      (atoi pf ((yytext.dropWhile (· ≠ 58)).drop 1)))
  | .path => some (.str yytext)

/-- `PUSH_STATE` finds the stack full, or `POP_STATE` finds it empty. -/
def Lexer.faults (l : Lexer) (yytext : List Byte) : Rule → Bool
  | .open => l.stack.length = 16
  | .close | .semicolon => l.stack = []
  | .optionWord => (findKeyword cfgKeyword yytext).isSome ∧ l.stack.length = 16
  | _ => false

/-! ### What the actions read -/

/-- The member that an action of `option` reads of the argument of `k`. -/
def optReads (k : Kw) : Token → Option YyMember
  | .num _ => if k ∈ [.port, .type, .timeout, .syslog] then some .num else none
  | .string _ => if k = .iface then some .str else none
  | .path _ => if k.tool.isSome then some .str else none
  | .word _ | .error => if k = .syslog then some .str else none
  | _ => none

/-- The member that an action of `bindaddr_option` reads. -/
def bindReads (k : Kw) : Token → Option YyMember
  | .word _ => if k ∈ [.addr, .iface] then some .str else none
  | .string _ => if k = .iface then some .str else none
  | _ => none

/-- The member that an action of `host_option`, `compress` or `keepalive` reads. -/
def hostReads (k : Kw) : Token → Option YyMember
  | .word _ => if k ∈ [.passwd, .device] then some .str else none
  | .num _ =>
    if k ∈ [.multi, .timeout, .speed, .compress, .encrypt, .kalive, .stat, .persist, .type,
        .prot, .natHack] then some .num
    else none
  | .dnum _ _ => if k ∈ [.speed, .compress, .kalive] then some .dnum else none
  | .error => if k ∈ [.compress, .kalive] then some .str else none
  | _ => none

/-- The member that an action of `srcaddr_option` reads. -/
def srcReads (k : Kw) : Token → Option YyMember
  | .word _ => if k ∈ [.addr, .iface] then some .str else none
  | .string _ => if k = .iface then some .str else none
  | .num _ => if k = .port then some .num else none
  | _ => none

/-- The member that an action of `prog_option` reads, or that of a `K_ERROR` behind the
options. -/
def progReads (any : Bool) : Token → Option YyMember
  | .path _ | .string _ => some .str
  | .num _ => some .num
  | .error => if any then some .str else none
  | _ => none

/-- The member of `yylval` that the action for a token reads, if one does: `cfg_error`
prints a `K_ERROR` wherever the grammar has one. -/
def Place.reads (place : Place) (t : Token) : Option YyMember :=
  match place, t with
  | .config, .host _ => some .str
  | .config, .error | .options _, .error | .bind, .error | .host _, .error | .src, .error
  | .cmds, .error => some .str
  | .option k, t => optReads k t
  | .bindOption k, t => bindReads k t
  | .hostOption k, t => hostReads k t
  | .srcOption k, t => srcReads k t
  | .cmdOption _, .string _ => some .str
  | .progs any, t => progReads any t
  | _, _ => none

/-! ### The parser with its scanner -/

/-- A rule that the scanner has taken. -/
structure Taken where
  rule : Rule
  yytext : List Byte
  /-- the scanner behind the text, before the action -/
  lexer : Lexer
  /-- where the parser is -/
  place : Place
  /-- `yylval` behind the action -/
  yylval : Option Yylval
  deriving DecidableEq, Repr

/-- The token that a rule returns. -/
def Taken.token (pf : Platform) (x : Taken) : Option Token :=
  (x.rule.action pf x.yytext x.lexer).1

/-- The next rule of the scanner, for the parser at a place. -/
def takeRule (pf : Platform) (l : Lexer) (yylval : Option Yylval) (place : Place) :
    Option Taken :=
  (longest l.text l.start.rules).map fun r =>
    { rule := r.1
      yytext := l.text.take r.2
      lexer := { l with text := l.text.drop r.2 }
      place := place
      yylval := (r.1.stores pf (l.text.take r.2)).or yylval }

/-- The rules taken, and what the parser leaves. -/
def loggedLoop (pf : Platform) : ℕ → Lexer → Option Yylval → Parser → List Taken × Option Parsed
  | 0, _, _, _ => ([], none)
  | n + 1, l, yylval, p =>
    match takeRule pf l yylval p.place with
    | none =>
      let r := feedToken p .fin
      ([], some (r.1.result r.2 true l))
    | some x =>
      match x.rule.action pf x.yytext x.lexer with
      | (none, l) =>
        let rest := loggedLoop pf n l x.yylval p
        (x :: rest.1, rest.2)
      | (some t, l) =>
        let r := feedToken p t
        match r.2 with
        | .more =>
          let rest := loggedLoop pf n l x.yylval r.1
          (x :: rest.1, rest.2)
        | v => ([x], some (r.1.result v false l))

/-- The rules that the scanner takes for `yyparse`. -/
def takenRules (pf : Platform) (l : Lexer) (yylval : Option Yylval) : List Taken :=
  (loggedLoop pf (l.text.length + 1) l yylval .start).1

/-- An action reads of a token what its rule has stored. -/
def Taken.ReadsStored (pf : Platform) (x : Taken) : Prop :=
  ∀ t ∈ x.token pf, ∀ m ∈ x.place.reads t, (x.rule.stores pf x.yytext).map Yylval.member = some m

/-- The stack of start conditions is full, or empty, where the grammar has `K_ERROR`. -/
def Taken.StackError (x : Taken) : Prop :=
  x.lexer.faults x.yytext x.rule = true ∧ (x.place.reads .error).isSome

/-! ### What the scanner stores -/

/-- The value of a token. -/
def Token.value : Token → Option Yylval
  | .host s | .word s | .path s | .string s => some (.str s)
  | .num n => some (.num n)
  | .dnum n₁ n₂ => some (.dnum n₁ n₂)
  | _ => none

section Scanner

variable {pf : Platform} {l : Lexer} {yytext : List Byte} {t : Token}

theorem Lexer.push_eq_none {c : StartCond} :
    l.push.map (fun l => { l with start := c }) = none ↔ l.stack.length = 16 := by
  rw [Option.map_eq_none_iff, Lexer.push]
  split <;> simp_all

theorem Lexer.pop_eq_none : l.pop = none ↔ l.stack = [] := by
  rw [Lexer.pop]
  split <;> simp_all

theorem orError_eq {l' : Option Lexer} {u : Option Token} (h : (orError l l' u).1 = some t) :
    l' = none ∧ t = .error ∨ l' ≠ none ∧ u = some t := by
  cases l' with
  | none => exact .inl ⟨rfl, (Option.some.inj h).symm⟩
  | some k => exact .inr ⟨by simp, h⟩

/-- A token has the value that its rule has stored.  A `K_ERROR` has the text of the rule,
unless it comes from `PUSH_STATE` or `POP_STATE`, which store nothing. -/
def TokenStored (pf : Platform) (l : Lexer) (yytext : List Byte) (r : Rule) (t : Token) : Prop :=
  (t ≠ .error ∧ l.faults yytext r = false ∧ ∀ v ∈ t.value, r.stores pf yytext = some v) ∨
    t = .error ∧ if l.faults yytext r then r.stores pf yytext = none
      else r.stores pf yytext = some (.str yytext)

/-- `PUSH_STATE` and `POP_STATE`, before a token without a value. -/
theorem tokenStored_orError {r : Rule} {l' : Option Lexer} {u : Option Token}
    (hfaults : l.faults yytext r = true ↔ l' = none) (hstores : r.stores pf yytext = none)
    (hu : ∀ t ∈ u, t ≠ .error ∧ t.value = none) (h : (orError l l' u).1 = some t) :
    TokenStored pf l yytext r t := by
  rcases orError_eq h with ⟨hnone, rfl⟩ | ⟨hsome, ht⟩
  · exact .inr ⟨rfl, by rw [if_pos (hfaults.mpr hnone)]; exact hstores⟩
  · obtain ⟨hne, hvalue⟩ := hu t ht
    refine .inl ⟨hne, Bool.eq_false_iff.mpr fun hf => hsome (hfaults.mp hf), ?_⟩
    rw [hvalue]
    intro v hv
    cases hv

/-- **What a rule stores is the value of its token.** -/
theorem tokenStored_action {r : Rule} (h : (r.action pf yytext l).1 = some t) :
    TokenStored pf l yytext r t := by
  cases r with
  | space | newline | comment | garbage => cases h
  | kword =>
    simp only [Rule.action] at h
    split at h
    · obtain rfl := Option.some.inj h
      exact .inl ⟨by simp, rfl, by simp [Token.value]⟩
    · rename_i hkw
      obtain rfl := Option.some.inj h
      exact .inl ⟨by simp, rfl, by simp [Token.value, Rule.stores, hkw]⟩
  | word =>
    obtain rfl := Option.some.inj h
    exact .inr ⟨rfl, rfl⟩
  | «open» =>
    refine tokenStored_orError ?_ rfl ?_ h
    · rw [Lexer.push_eq_none]
      simp [Lexer.faults]
    · simp [Token.value]
  | close =>
    refine tokenStored_orError ?_ rfl ?_ h
    · rw [Lexer.pop_eq_none]
      simp [Lexer.faults]
    · simp [Token.value]
  | semicolon =>
    refine tokenStored_orError ?_ rfl (by simp) h
    rw [Lexer.pop_eq_none]
    simp [Lexer.faults]
  | optionWord =>
    simp only [Rule.action] at h
    split at h
    · rename_i kw hkw
      refine tokenStored_orError ?_ (by simp [Rule.stores, hkw]) (by simp [Token.value]) h
      rw [Lexer.push_eq_none]
      simp [Lexer.faults, hkw]
    · rename_i hkw
      obtain rfl := Option.some.inj h
      exact .inr ⟨rfl, by simp [Lexer.faults, hkw, Rule.stores]⟩
  | string =>
    simp only [Rule.action] at h
    split at h
    · obtain rfl := Option.some.inj h
      exact .inl ⟨by simp, rfl, by simp [Token.value]⟩
    · rename_i hlen
      obtain rfl := Option.some.inj h
      exact .inl ⟨by simp, rfl, by simp [Token.value, Rule.stores, hlen]⟩
  | paramWord =>
    simp only [Rule.action] at h
    split at h
    all_goals
      rename_i hkw
      obtain rfl := Option.some.inj h
      exact .inl ⟨by simp, rfl, by simp [Token.value, Rule.stores, hkw]⟩
  | dnum | num | wordnm | path =>
    obtain rfl := Option.some.inj h
    exact .inl ⟨by simp, rfl, by simp [Token.value, Rule.stores]⟩

/-- With the stack full, or empty, the scanner returns `K_ERROR`. -/
theorem action_faults {r : Rule} (h : l.faults yytext r = true) :
    r.action pf yytext l = (some .error, l) := by
  cases r with
  | «open» =>
    have hnone := (Lexer.push_eq_none (c := .option)).mpr (of_decide_eq_true h)
    rw [Rule.action, hnone, orError]
  | close | semicolon =>
    have hnone := Lexer.pop_eq_none.mpr (of_decide_eq_true h)
    rw [Rule.action, hnone, orError]
  | optionWord =>
    obtain ⟨hkw, hfull⟩ := of_decide_eq_true h
    obtain ⟨kw, hkw⟩ := Option.isSome_iff_exists.mp hkw
    have hnone := (Lexer.push_eq_none (c := .param)).mpr hfull
    rw [Rule.action, hkw]
    dsimp only
    rw [hnone, orError]
  | _ => cases h

end Scanner

/-! ### What the grammar reads -/

section Grammar

variable {place : Place} {t : Token} {m : YyMember}

/-- What an action reads is the member that the token has by its declaration. -/
def ReadsValue (t : Token) (m : YyMember) : Prop := ∃ v ∈ t.value, v.member = m

theorem optReads_value {k : Kw} (hne : t ≠ .error) (h : optReads k t = some m) :
    ReadsValue t m := by
  cases t with
  | num | string | path | word =>
    obtain ⟨-, hm⟩ := Option.ite_none_right_eq_some.mp h
    exact ⟨_, rfl, Option.some.inj hm⟩
  | error => exact absurd rfl hne
  | _ => cases h

theorem bindReads_value {k : Kw} (h : bindReads k t = some m) : ReadsValue t m := by
  cases t with
  | word | string =>
    obtain ⟨-, hm⟩ := Option.ite_none_right_eq_some.mp h
    exact ⟨_, rfl, Option.some.inj hm⟩
  | _ => cases h

theorem hostReads_value {k : Kw} (hne : t ≠ .error) (h : hostReads k t = some m) :
    ReadsValue t m := by
  cases t with
  | word | num | dnum =>
    obtain ⟨-, hm⟩ := Option.ite_none_right_eq_some.mp h
    exact ⟨_, rfl, Option.some.inj hm⟩
  | error => exact absurd rfl hne
  | _ => cases h

theorem srcReads_value {k : Kw} (h : srcReads k t = some m) : ReadsValue t m := by
  cases t with
  | word | string | num =>
    obtain ⟨-, hm⟩ := Option.ite_none_right_eq_some.mp h
    exact ⟨_, rfl, Option.some.inj hm⟩
  | _ => cases h

theorem progReads_value {any : Bool} (hne : t ≠ .error) (h : progReads any t = some m) :
    ReadsValue t m := by
  cases t with
  | path | string | num => exact ⟨_, rfl, Option.some.inj h⟩
  | error => exact absurd rfl hne
  | _ => cases h

/-- The actions read the member that the token has by its declaration. -/
theorem reads_value (hne : t ≠ .error) (h : place.reads t = some m) : ReadsValue t m := by
  cases place with
  | option => exact optReads_value hne h
  | bindOption => exact bindReads_value h
  | hostOption => exact hostReads_value hne h
  | srcOption => exact srcReads_value h
  | progs => exact progReads_value hne h
  | config =>
    cases t with
    | host => exact ⟨_, rfl, Option.some.inj h⟩
    | error => exact absurd rfl hne
    | _ => cases h
  | cmdOption =>
    cases t with
    | string => exact ⟨_, rfl, Option.some.inj h⟩
    | _ => cases h
  | options | bind | host | src | cmds =>
    cases t with
    | error => exact absurd rfl hne
    | _ => cases h
  | _ => cases h

/-- A `K_ERROR` is printed as a string. -/
theorem reads_error (h : place.reads .error = some m) : m = .str := by
  cases place with
  | option | hostOption | progs =>
    obtain ⟨-, hm⟩ := Option.ite_none_right_eq_some.mp h
    exact (Option.some.inj hm).symm
  | config | options | bind | host | src | cmds => exact (Option.some.inj h).symm
  | _ => cases h

theorem hostAct_reads {k : Kw} {a : HostAct} (h : hostAct k t = some a) :
    (hostReads k t).isSome := by
  unfold hostAct at h
  split at h
  all_goals first
    | rfl
    | cases h

theorem srcAct_reads {k : Kw} {a : HostAct} (h : srcAct k t = some a) :
    (srcReads k t).isSome := by
  unfold srcAct at h
  split at h
  all_goals first
    | rfl
    | cases h

theorem feedAct_some {p : Parser} {a : Option HostAct} {place : Place}
    (h : (feedAct p a place).2 = .more) : ∃ b, a = some b := by
  cases a with
  | none => cases h
  | some b => exact ⟨b, rfl⟩

theorem feedOption_reads {p : Parser} {k : Kw} (h : (feedOption p k t).2 = .more) :
    (optReads k t).isSome := by
  unfold feedOption at h
  split at h
  case h_7 =>
    -- the path of a command
    split at h
    · rename_i tool htool
      have hsome := Option.isSome_iff_exists.mpr ⟨tool, htool⟩
      exact congrArg Option.isSome (if_pos hsome)
    · cases h
  case h_8 => cases h
  all_goals rfl

theorem feedBind_reads {p : Parser} {k : Kw} (h : (feedBind p k t).2 = .more) :
    (bindReads k t).isSome := by
  unfold feedBind at h
  split at h
  all_goals first
    | rfl
    | cases h

/-- The tokens with a value. -/
theorem valued (h : t.value.isSome) : (∃ s, t = .host s) ∨ (∃ s, t = .word s) ∨
    (∃ s, t = .path s) ∨ (∃ s, t = .string s) ∨ (∃ n, t = .num n) ∨ ∃ n₁ n₂, t = .dnum n₁ n₂ := by
  cases t <;> simp_all [Token.value]

/-- No list of options begins with a token that has a value. -/
theorem not_taken (hvalue : t.value.isSome) (p : Parser) (any : Bool) :
    (feedOptions p any t).2 ≠ .more ∧ (feedHost p any t).2 ≠ .more ∧
      (feedSrc p t).2 ≠ .more ∧ (feedCmds p t).2 ≠ .more := by
  rcases valued hvalue with ⟨_, rfl⟩ | ⟨_, rfl⟩ | ⟨_, rfl⟩ | ⟨_, rfl⟩ | ⟨_, rfl⟩ | ⟨_, _, rfl⟩
  all_goals exact ⟨nofun, nofun, nofun, nofun⟩

theorem feedConfig_reads {p : Parser} (hvalue : t.value.isSome)
    (h : (feedConfig p t).2 = .more) : (Place.config.reads t).isSome := by
  rcases valued hvalue with ⟨_, rfl⟩ | ⟨_, rfl⟩ | ⟨_, rfl⟩ | ⟨_, rfl⟩ | ⟨_, rfl⟩ | ⟨_, _, rfl⟩
  · rfl
  all_goals cases h

/-- Behind a program, no other token with a value is taken. -/
theorem feedProgs_reads {p : Parser} {any : Bool} (hvalue : t.value.isSome)
    (h : (feedProgs p any t).2 = .more) : (progReads any t).isSome := by
  unfold feedProgs at h
  split at h
  · rfl
  · rfl
  · rfl
  · split at h
    · exact absurd h (not_taken hvalue _ any).2.2.2
    · cases h

/-- **No token with a value is taken without an action that reads it.** -/
theorem reads_of_taken {p : Parser} (hvalue : t.value.isSome)
    (h : (feedToken p t).2 = .more) : (p.place.reads t).isSome := by
  have hone : ∀ u : Token, u.value = none → ∀ q r : Parser × Verdict, r.2 ≠ .more →
      (if t = u then q else r).2 ≠ .more := by
    intro u hu q r hr
    rw [if_neg]
    · exact hr
    · rintro rfl
      rw [hu] at hvalue
      cases hvalue
  have hfail : p.fail.2 ≠ .more := nofun
  rw [feedToken] at h
  cases hplace : p.place <;> rw [hplace] at h <;> dsimp only at h
  case config => exact feedConfig_reads hvalue h
  case options any => exact absurd h (not_taken hvalue p any).1
  case option k => exact feedOption_reads h
  case bindOption k => exact feedBind_reads h
  case host any => exact absurd h (not_taken hvalue p any).2.1
  case hostOption k =>
    obtain ⟨a, ha⟩ := feedAct_some h
    exact hostAct_reads ha
  case src => exact absurd h (not_taken hvalue p true).2.2.1
  case srcOption k =>
    obtain ⟨a, ha⟩ := feedAct_some h
    exact srcAct_reads ha
  case cmds => exact absurd h (not_taken hvalue p true).2.2.2
  case cmdOption tool =>
    rcases valued hvalue with ⟨_, rfl⟩ | ⟨_, rfl⟩ | ⟨_, rfl⟩ | ⟨_, rfl⟩ | ⟨_, rfl⟩ | ⟨_, _, rfl⟩
    all_goals first
      | rfl
      | cases h
  case progs any => exact feedProgs_reads hvalue h
  -- a brace or a keyword is expected
  case bind => exact absurd h (hone _ rfl _ _ (hone _ rfl _ _ hfail))
  all_goals exact absurd h (hone _ rfl _ _ hfail)

end Grammar

/-! ### Runs of the parser -/

/-- The log leaves the parser alone. -/
theorem loggedLoop_parsed (pf : Platform) (n : ℕ) (l : Lexer) (yylval : Option Yylval)
    (p : Parser) : (loggedLoop pf n l yylval p).2 = parseLoop pf n l p := by
  induction n generalizing l yylval p with
  | zero => rfl
  | succ n ih =>
    rw [loggedLoop, parseLoop, lexOne, takeRule]
    cases hlongest : longest l.text l.start.rules with
    | none => rfl
    | some r =>
      simp only [Option.map_some]
      obtain ⟨rule, k⟩ := r
      dsimp only
      rcases haction : rule.action pf (l.text.take k) { l with text := l.text.drop k } with
        ⟨_ | t, l'⟩
      · exact ih l' _ p
      · dsimp only
        cases hverdict : (feedToken p t).2 with
        | more => exact ih l' _ _
        | accept => rfl
        | abort => rfl

/-- One rule: its token is read as it was stored unless the stack is at fault. -/
theorem readsStored_iff (pf : Platform) (x : Taken) : x.ReadsStored pf ↔ ¬ x.StackError := by
  rw [Taken.ReadsStored, Taken.StackError]
  constructor
  · rintro hreads ⟨hfaults, herror⟩
    obtain ⟨m, hm⟩ := Option.isSome_iff_exists.mp herror
    have htoken : x.token pf = some .error := by rw [Taken.token, action_faults hfaults]
    have hstored := hreads .error htoken m hm
    rcases tokenStored_action htoken with ⟨hne, -⟩ | ⟨-, hnone⟩
    · exact hne rfl
    · rw [if_pos hfaults] at hnone
      rw [hnone] at hstored
      cases hstored
  · intro hok t ht m hm
    rcases tokenStored_action ht with ⟨hne, -, hvalue⟩ | ⟨rfl, hstored⟩
    · obtain ⟨v, hv, hmember⟩ := reads_value hne hm
      rw [hvalue v hv, Option.map_some, hmember]
    · have hfaults : x.lexer.faults x.yytext x.rule = false :=
        Bool.eq_false_iff.mpr fun hf => hok ⟨hf, by rw [hm]; rfl⟩
      rw [hfaults, if_neg (by simp)] at hstored
      rw [hstored, reads_error hm]
      rfl

/-- **When every action reads what the rule of its token has stored.**  For every text, in
whatever state the scanner and `yylval` are before it, exactly if the scanner never comes
to a brace, a semicolon or an option with its stack empty or full where the grammar has
`K_ERROR`. -/
theorem reads_stored_iff (pf : Platform) (l : Lexer) (yylval : Option Yylval) :
    (∀ x ∈ takenRules pf l yylval, x.ReadsStored pf) ↔
      ∀ x ∈ takenRules pf l yylval, ¬ x.StackError :=
  forall₂_congr fun x _ => readsStored_iff pf x

/-- A closing brace behind the options. -/
def bracesFile : List Byte := lit "options \x7b\n timeout 5;\n\x7d\n\x7d\n"

/-- **A closing brace too many.**  The action that prints an invalid clause reads a string
where the scanner has left the number 5. -/
theorem reads_stale :
    ∃ x ∈ takenRules .lp64 ⟨.initial, [], bracesFile⟩ none,
      (x.token .lp64 = some .error ∧ x.place.reads .error = some .str ∧
        x.yylval = some (.num 5)) ∧ ¬ x.ReadsStored .lp64 := by
  have hrun : (takenRules .lp64 ⟨.initial, [], bracesFile⟩ none).any (fun x =>
      x.token .lp64 = some .error ∧ x.place.reads .error = some .str ∧
        x.yylval = some (.num 5) ∧ x.lexer.faults x.yytext x.rule = true) = true := by
    decide
  obtain ⟨x, hx, hany⟩ := List.any_eq_true.mp hrun
  obtain ⟨htoken, hreads, hyylval, hfaults⟩ := of_decide_eq_true hany
  refine ⟨x, hx, ⟨htoken, hreads, hyylval⟩, ?_⟩
  rw [readsStored_iff, not_not]
  exact ⟨hfaults, by rw [hreads]; rfl⟩

end Vtun
