/-
The layout of the configuration file (`cfg_file.l`).

A newline between two tokens is replaced by a space, so that two lines become one.
No rule but those for comments and strings looks beyond such a character: a comment
ends at a newline, and a string at the last quotation mark of its line.

* `longest_joined` — the rule taken before the newline is taken before the space;
* `lexemes_joined_iff` — when the scanner cuts both texts into the same tokens;
* `parseLoop_joined` — the parser gets the same from both;
* `layout_iff` — the three together, for `read_config`.
-/
import Vtun.CfgHost

namespace Vtun

/-! ### Runs that end -/

/-- A newline or a space. -/
def IsBreak (b : Byte) : Prop := b = 10 ∨ b = 32

section Stop

variable {b : Byte} {p : Byte → Bool}

theorem run_stop (hp : p b = false) (a post : List Byte) : run p (a ++ b :: post) = run p a := by
  induction a with
  | nil => rw [List.nil_append, run, List.takeWhile_cons_of_neg (by simp [hp]), run]; rfl
  | cons c a ih =>
    rw [run, run] at ih ⊢
    rw [List.cons_append, List.takeWhile_cons, List.takeWhile_cons]
    split
    · rw [List.length_cons, List.length_cons, ih]
    · rfl

theorem run_append_of_mem {a : List Byte} {c : Byte} (hc : c ∈ a) (hp : p c = false)
    (t : List Byte) : run p (a ++ t) = run p a := by
  obtain ⟨x, y, rfl⟩ := List.append_of_mem hc
  rw [List.append_assoc, List.cons_append, run_stop hp, run_stop hp]

theorem run_le (p : Byte → Bool) (a : List Byte) : run p a ≤ a.length :=
  (List.takeWhile_sublist p).length_le

theorem single_append {a : List Byte} (ha : a ≠ []) (t : List Byte) :
    single p (a ++ t) = single p a := by
  cases a with
  | nil => exact absurd rfl ha
  | cons c a => rfl

theorem runColonNum_colon {s rest : List Byte} (h : s.drop (run p s) = 58 :: rest) :
    runColonNum p s =
      if 0 < run p s ∧ 0 < run isDigit rest then run p s + 1 + run isDigit rest else 0 := by
  rw [runColonNum, h]
  rfl

theorem runColonNum_none {s : List Byte} (h : ∀ rest, s.drop (run p s) ≠ 58 :: rest) :
    runColonNum p s = 0 := by
  rw [runColonNum]
  split
  · rename_i rest heq
    exact absurd heq (h rest)
  · rfl

theorem runColonNum_stop (hp : p b = false) (hb : IsBreak b) (a post : List Byte) :
    runColonNum p (a ++ b :: post) = runColonNum p a := by
  have hdigit : isDigit b = false := by rcases hb with rfl | rfl <;> decide
  have hcolon : b ≠ 58 := by rcases hb with rfl | rfl <;> decide
  have hrun := run_stop hp a post
  have hdrop : (a ++ b :: post).drop (run p (a ++ b :: post)) = a.drop (run p a) ++ b :: post := by
    rw [hrun, List.drop_append_of_le_length (run_le p a)]
  by_cases hrest : ∃ rest, a.drop (run p a) = 58 :: rest
  · obtain ⟨rest, hrest⟩ := hrest
    rw [hrest, List.cons_append] at hdrop
    rw [runColonNum_colon hrest, runColonNum_colon hdrop, hrun, run_stop hdigit]
  · have hnone : ∀ rest, a.drop (run p a) ≠ 58 :: rest := fun rest h => hrest ⟨rest, h⟩
    rw [runColonNum_none hnone]
    refine runColonNum_none fun rest h => ?_
    rw [hdrop] at h
    cases hcases : a.drop (run p a) with
    | nil =>
      rw [hcases] at h
      exact hcolon (List.cons.inj h).1
    | cons c t =>
      rw [hcases] at h
      obtain ⟨rfl, -⟩ := List.cons.inj h
      exact hnone t hcases

theorem matchPath_of_ne {c : Byte} (hc : c ≠ 47) (n : ℕ) (t : List Byte) :
    matchPath n (c :: t) = 0 := by
  rw [matchPath]
  rintro n' rest - heq
  exact hc (List.cons.inj heq).1

theorem matchPath_stop (hb : IsBreak b) (n : ℕ) (a post : List Byte) :
    matchPath n (a ++ b :: post) = matchPath n a := by
  have hfname : isFnameChar b = false := by rcases hb with rfl | rfl <;> decide
  have hslash : b ≠ 47 := by rcases hb with rfl | rfl <;> decide
  induction n generalizing a with
  | zero => rfl
  | succ n ih =>
    cases a with
    | nil => exact matchPath_of_ne hslash _ _
    | cons c a =>
      by_cases hc : c = 47
      · subst hc
        rw [List.cons_append, matchPath, matchPath, run_stop hfname,
          List.drop_append_of_le_length (run_le _ a), ih]
      · rw [List.cons_append, matchPath_of_ne hc, matchPath_of_ne hc]

end Stop

/-! ### Comments and strings -/

theorem matchComment_of_ne {c : Byte} (hc : c ≠ 35) (t : List Byte) :
    matchComment (c :: t) = 0 := by
  rw [matchComment]
  rintro rest heq
  exact hc (List.cons.inj heq).1

theorem matchString_of_ne {c : Byte} (hc : c ≠ 34) (t : List Byte) :
    matchString (c :: t) = 0 := by
  rw [matchString]
  rintro rest heq
  exact hc (List.cons.inj heq).1

/-- A comment that ends before the end of a line does not look beyond it. -/
theorem matchComment_line {a : List Byte} (h : 10 ∈ a.tail) (t : List Byte) :
    matchComment (a ++ t) = matchComment a := by
  cases a with
  | nil => cases h
  | cons c a =>
    rw [List.tail_cons] at h
    by_cases hc : c = 35
    · subst hc
      have hrun : run (· ≠ 10) (a ++ t) = run (· ≠ 10) a := run_append_of_mem h (by decide) t
      rw [List.cons_append, matchComment, matchComment, hrun, if_pos h,
        if_pos (List.mem_append_left t h)]
    · rw [List.cons_append, matchComment_of_ne hc, matchComment_of_ne hc]

/-- A comment takes the newline at the end of its line. -/
theorem matchComment_end {a : List Byte} (h : 10 ∉ a) (post : List Byte) :
    matchComment (35 :: (a ++ 10 :: post)) = a.length + 2 := by
  have hrun : run (· ≠ 10) a = a.length := by
    rw [run, List.takeWhile_eq_self_iff.mpr fun c hc => ?_]
    exact decide_eq_true fun h10 => h (h10 ▸ hc)
  rw [matchComment, if_pos (List.mem_append_right a List.mem_cons_self), run_stop (by decide), hrun]

/-- The rest of the line. -/
def lineOf (s : List Byte) : List Byte := s.takeWhile (· ≠ 10)

theorem lineOf_append_of_mem {a : List Byte} (h : 10 ∈ a) (t : List Byte) :
    lineOf (a ++ t) = lineOf a := by
  obtain ⟨x, y, rfl⟩ := List.append_of_mem h
  rw [List.append_assoc, List.cons_append, lineOf, lineOf, List.takeWhile_append,
    List.takeWhile_append]
  split
  · rw [List.takeWhile_cons_of_neg (by simp), List.takeWhile_cons_of_neg (by simp)]
  · rfl

theorem lineOf_append {a : List Byte} (h : 10 ∉ a) (t : List Byte) :
    lineOf (a ++ t) = a ++ lineOf t := by
  have hall : ∀ c ∈ a, decide (c ≠ 10) = true := by
    intro c hc
    refine decide_eq_true ?_
    rintro rfl
    exact h hc
  rw [lineOf, List.takeWhile_append_of_pos hall, lineOf]

/-- A string ends at the last quotation mark of its line. -/
theorem matchString_last {s x y : List Byte} (hline : lineOf s = x ++ 34 :: y) (hy : 34 ∉ y) :
    matchString (34 :: s) = x.length + 2 := by
  have hmem : 34 ∈ lineOf s := hline ▸ List.mem_append_right x List.mem_cons_self
  have hrun : run (· ≠ 34) (lineOf s).reverse = y.length := by
    have hall : run (· ≠ 34) y.reverse = y.reverse.length := by
      rw [run, List.takeWhile_eq_self_iff.mpr fun c hc => ?_]
      exact decide_eq_true fun h34 => hy (h34 ▸ List.mem_reverse.mp hc)
    rw [hline, List.reverse_append, List.reverse_cons, List.append_assoc, List.singleton_append,
      run_stop (by decide), hall, List.length_reverse]
  show (if 34 ∈ lineOf s then (lineOf s).length + 1 - run (· ≠ 34) (lineOf s).reverse else 0) = _
  rw [if_pos hmem, hrun, hline, List.length_append, List.length_cons]
  omega

theorem matchString_none {s : List Byte} (h : 34 ∉ lineOf s) : matchString (34 :: s) = 0 :=
  if_neg h

theorem exists_last {c : Byte} {l : List Byte} (h : c ∈ l) : ∃ x y, l = x ++ c :: y ∧ c ∉ y := by
  obtain ⟨x, y, hxy, hx⟩ := List.eq_append_cons_of_mem (List.mem_reverse.mpr h)
  refine ⟨y.reverse, x.reverse, ?_, fun hc => hx (List.mem_reverse.mp hc)⟩
  rw [← List.reverse_reverse l, hxy, List.reverse_append, List.reverse_cons, List.append_assoc,
    List.singleton_append]

theorem matchString_line {a : List Byte} (h : 10 ∈ a.tail) (t : List Byte) :
    matchString (a ++ t) = matchString a := by
  cases a with
  | nil => cases h
  | cons c a =>
    rw [List.tail_cons] at h
    by_cases hc : c = 34
    · subst hc
      have hline : (a ++ t).takeWhile (· ≠ 10) = a.takeWhile (· ≠ 10) := lineOf_append_of_mem h t
      rw [List.cons_append, matchString, matchString, hline]
    · rw [List.cons_append, matchString_of_ne hc, matchString_of_ne hc]

/-- Without a quotation mark on the next line a string ends on its own one. -/
theorem matchString_joined {a post : List Byte} (ha : 10 ∉ a) (hpost : 34 ∉ lineOf post) :
    matchString (34 :: (a ++ 32 :: post)) = matchString (34 :: (a ++ 10 :: post)) := by
  have hspace : lineOf (a ++ 32 :: post) = a ++ 32 :: lineOf post := by
    rw [lineOf_append ha, lineOf, List.takeWhile_cons_of_pos (by decide)]
    rfl
  have hnewline : lineOf (a ++ 10 :: post) = a := by
    rw [lineOf_append ha, lineOf, List.takeWhile_cons_of_neg (by decide), List.append_nil]
  by_cases hquote : 34 ∈ a
  · obtain ⟨x, y, hxy, hy⟩ := exists_last hquote
    have htail : 34 ∉ y ++ 32 :: lineOf post := by
      rw [List.mem_append, List.mem_cons]
      exact fun h => h.elim hy fun h => h.elim (by decide) hpost
    rw [matchString_last (hnewline.trans hxy) hy, matchString_last ?_ htail]
    rw [hspace, hxy, List.append_assoc, List.cons_append]
  · have hnone : 34 ∉ lineOf (a ++ 32 :: post) := by
      rw [hspace, List.mem_append, List.mem_cons]
      exact fun h => h.elim hquote fun h => h.elim (by decide) hpost
    have hnone' : 34 ∉ lineOf (a ++ 10 :: post) := by rwa [hnewline]
    rw [matchString_none hnone, matchString_none hnone']

/-- With one it ends on the next line. -/
theorem matchString_straddles {a post : List Byte} (ha : 10 ∉ a) (hpost : 34 ∈ lineOf post) :
    a.length + 2 < matchString (34 :: (a ++ 32 :: post)) := by
  obtain ⟨x, y, hxy, hy⟩ := exists_last hpost
  have hspace : lineOf (a ++ 32 :: post) = (a ++ 32 :: x) ++ 34 :: y := by
    rw [lineOf_append ha, lineOf, List.takeWhile_cons_of_pos (by decide), List.append_assoc,
      List.cons_append]
    exact congrArg (fun l => a ++ 32 :: l) hxy
  rw [matchString_last hspace hy, List.length_append, List.length_cons]
  omega

/-- **A quoted string ends at its own closing quotation mark** exactly if there is no
other one behind it on the line. -/
theorem matchString_closing {body rest : List Byte} (hline : 10 ∉ body) :
    matchString (34 :: (body ++ 34 :: rest)) = body.length + 2 ↔ 34 ∉ lineOf rest := by
  have hwhole : lineOf (body ++ 34 :: rest) = body ++ 34 :: lineOf rest := by
    rw [lineOf_append hline, lineOf, List.takeWhile_cons_of_pos (by decide)]
    rfl
  constructor
  · intro hlen hmem
    obtain ⟨x, y, hxy, hy⟩ := exists_last hmem
    have hlast : lineOf (body ++ 34 :: rest) = (body ++ 34 :: x) ++ 34 :: y := by
      rw [hwhole, hxy, List.append_assoc, List.cons_append]
    rw [matchString_last hlast hy, List.length_append, List.length_cons] at hlen
    omega
  · exact fun hnone => matchString_last hwhole hnone

/-! ### The rules -/

/-- All other rules stop at a newline as they stop at a space. -/
theorem Rule.length_joined {r : Rule} (hcomment : r ≠ .comment) (hstring : r ≠ .string)
    {a : List Byte} (ha : a ≠ []) (post : List Byte) :
    r.length (a ++ 32 :: post) = r.length (a ++ 10 :: post) := by
  have hrun : ∀ p : Byte → Bool, p 10 = false → p 32 = false →
      run p (a ++ 32 :: post) = run p (a ++ 10 :: post) := fun p h10 h32 => by
    rw [run_stop h32, run_stop h10]
  have hnum : ∀ p : Byte → Bool, p 10 = false → p 32 = false →
      runColonNum p (a ++ 32 :: post) = runColonNum p (a ++ 10 :: post) := fun p h10 h32 => by
    rw [runColonNum_stop h32 (.inr rfl), runColonNum_stop h10 (.inl rfl)]
  have hsingle : ∀ p : Byte → Bool, single p (a ++ 32 :: post) = single p (a ++ 10 :: post) :=
    fun p => by rw [single_append ha, single_append ha]
  cases r with
  | comment => exact absurd rfl hcomment
  | string => exact absurd rfl hstring
  | space => exact hsingle _
  | newline => exact hsingle _
  | «open» => exact hsingle _
  | close => exact hsingle _
  | semicolon => exact hsingle _
  | garbage => exact hsingle _
  | kword => exact hrun _ (by decide) (by decide)
  | word => exact hrun _ (by decide) (by decide)
  | optionWord => exact hrun _ (by decide) (by decide)
  | num => exact hrun _ (by decide) (by decide)
  | paramWord => exact hrun _ (by decide) (by decide)
  | dnum => exact hnum _ (by decide) (by decide)
  | wordnm => exact hnum _ (by decide) (by decide)
  | path =>
    show matchPath (a ++ 32 :: post).length _ = matchPath (a ++ 10 :: post).length _
    rw [matchPath_stop (.inr rfl), matchPath_stop (.inl rfl), List.length_append,
      List.length_append, List.length_cons, List.length_cons]

theorem longest_congr {s s' : List Byte} {rules : List Rule}
    (h : ∀ r ∈ rules, r.length s = r.length s') : longest s rules = longest s' rules := by
  induction rules with
  | nil => rfl
  | cons r rules ih =>
    obtain ⟨hr, hrules⟩ := List.forall_mem_cons.mp h
    rw [longest, longest, ih hrules, hr]

/-- The rule that is taken matches its text, and no rule matches a longer one. -/
theorem longest_spec {s : List Byte} {rules : List Rule} {r : Rule} {n : ℕ}
    (h : longest s rules = some (r, n)) :
    r ∈ rules ∧ n = r.length s ∧ ∀ r' ∈ rules, r'.length s ≤ n := by
  induction rules generalizing r n with
  | nil => cases h
  | cons q rules ih =>
    rw [longest] at h
    split at h
    · rename_i hnone
      split at h
      · obtain ⟨rfl, rfl⟩ := Prod.mk.inj (Option.some.inj h)
        refine ⟨List.mem_cons_self, rfl, List.forall_mem_cons.mpr ⟨le_refl _, fun r' hr' => ?_⟩⟩
        -- no other rule matches
        by_contra hlt
        have hsome := longest_isSome (s := s) hr' (by omega)
        rw [hnone] at hsome
        cases hsome
      · cases h
    · rename_i r' n' hrest
      obtain ⟨hmem, hn, hmax⟩ := ih hrest
      split at h
      · rename_i hle
        obtain ⟨rfl, rfl⟩ := Prod.mk.inj (Option.some.inj h)
        exact ⟨List.mem_cons_self, rfl, List.forall_mem_cons.mpr
          ⟨le_refl _, fun r' hr' => (hmax r' hr').trans hle⟩⟩
      · rename_i hlt
        obtain ⟨rfl, rfl⟩ := Prod.mk.inj (Option.some.inj h)
        exact ⟨List.mem_cons_of_mem _ hmem, hn,
          List.forall_mem_cons.mpr ⟨(not_le.mp hlt).le, hmax⟩⟩

/-- In `PARAM` the scanner has come to a quotation mark on the line before the newline,
and there is another one on the line behind it. -/
def StraddlesHere (l : Lexer) (post : List Byte) : Prop :=
  l.start = .param ∧ 34 ∈ lineOf post ∧ ∃ a, l.text = 34 :: (a ++ 10 :: post) ∧ 10 ∉ a

/-- **The rule that is taken before a newline** between two tokens is taken before a
space, unless it is a string that goes on behind it. -/
theorem longest_joined {l : Lexer} {a post : List Byte} (htext : l.text = a ++ 10 :: post)
    {r : Rule} {n : ℕ} (h : longest l.text l.start.rules = some (r, n)) (hn : n ≤ a.length)
    (hhere : ¬ StraddlesHere l post) :
    longest (a ++ 32 :: post) l.start.rules = some (r, n) := by
  obtain ⟨-, -, hmax⟩ := longest_spec h
  have ha : a ≠ [] := by
    rintro rfl
    exact absurd (longest_pos h) (by simpa using hn)
  rw [← h, htext]
  refine longest_congr fun r' hr' => ?_
  by_cases hline : 10 ∈ a.tail
  · -- the rule ends before the newline
    cases r' with
    | comment =>
      show matchComment _ = matchComment _
      rw [matchComment_line hline, matchComment_line hline]
    | string =>
      show matchString _ = matchString _
      rw [matchString_line hline, matchString_line hline]
    | _ => exact Rule.length_joined (by decide) (by decide) ha post
  obtain ⟨c, a, rfl⟩ := List.exists_cons_of_ne_nil ha
  rw [List.tail_cons] at hline
  cases r' with
  | comment =>
    show matchComment _ = matchComment _
    by_cases hc : c = 35
    · -- a comment would have taken the newline
      subst hc
      have hlen := hmax _ hr'
      rw [htext] at hlen
      have hend : matchComment (35 :: (a ++ 10 :: post)) = a.length + 2 :=
        matchComment_end hline post
      have hlen : matchComment (35 :: (a ++ 10 :: post)) ≤ n := hlen
      rw [List.length_cons] at hn
      omega
    · rw [List.cons_append, List.cons_append, matchComment_of_ne hc, matchComment_of_ne hc]
  | string =>
    show matchString _ = matchString _
    by_cases hc : c = 34
    · subst hc
      have hparam : l.start = .param := by
        cases hstart : l.start with
        | param => rfl
        | initial => rw [hstart] at hr'; exact absurd hr' (by decide)
        | option => rw [hstart] at hr'; exact absurd hr' (by decide)
      refine matchString_joined hline fun hquote => hhere ⟨hparam, hquote, a, ?_, hline⟩
      rw [htext, List.cons_append]
    · rw [List.cons_append, List.cons_append, matchString_of_ne hc, matchString_of_ne hc]
  | _ => exact Rule.length_joined (by decide) (by decide) ha post

/-- A string that goes on is longer than what was taken before the newline. -/
theorem longest_straddles {l : Lexer} {post : List Byte} (hhere : StraddlesHere l post)
    {a : List Byte} (htext : l.text = a ++ 10 :: post) :
    ∃ r n, longest (a ++ 32 :: post) l.start.rules = some (r, n) ∧ a.length < n := by
  obtain ⟨hparam, hquote, b, hb, hline⟩ := hhere
  have hab : a = 34 :: b := by
    have happend : a ++ 10 :: post = (34 :: b) ++ 10 :: post := htext.symm.trans hb
    exact List.append_cancel_right happend
  have hlong : a.length < Rule.length (a ++ 32 :: post) .string := by
    rw [hab]
    exact lt_of_le_of_lt (Nat.le_succ _) (matchString_straddles hline hquote)
  have hmem : Rule.string ∈ l.start.rules := by rw [hparam]; decide
  obtain ⟨⟨r, n⟩, hrn⟩ :=
    Option.isSome_iff_exists.mp (longest_isSome hmem (Nat.zero_lt_of_lt hlong))
  exact ⟨r, n, hrn, lt_of_lt_of_le hlong ((longest_spec hrn).2.2 _ hmem)⟩

/-! ### One rule -/

/-- The scanner before another text. -/
def Lexer.before (l : Lexer) (text : List Byte) : Lexer := { l with text := text }

@[simp] theorem Lexer.before_text (l : Lexer) (text : List Byte) :
    (l.before text).text = text := rfl

@[simp] theorem Lexer.before_start (l : Lexer) (text : List Byte) :
    (l.before text).start = l.start := rfl

@[simp] theorem Lexer.before_before (l : Lexer) (text text' : List Byte) :
    (l.before text).before text' = l.before text' := rfl

theorem orError_before (l : Lexer) (l' : Option Lexer) (t : Option Token) (text : List Byte) :
    orError (l.before text) (l'.map fun k => k.before text) t =
      ((orError l l' t).1, (orError l l' t).2.before text) := by
  cases l' with
  | none => rfl
  | some k => rfl

theorem Lexer.push_before (l : Lexer) (c : StartCond) (text : List Byte) :
    ((l.before text).push.map fun k => { k with start := c }) =
      (l.push.map fun k => { k with start := c }).map fun k => k.before text := by
  rw [Lexer.push, Lexer.push]
  by_cases hfull : l.stack.length = 16
  · rw [if_pos hfull]
    show Option.map _ (if l.stack.length = 16 then none else _) = _
    rw [if_pos hfull]
    rfl
  · rw [if_neg hfull]
    show Option.map _ (if l.stack.length = 16 then none else _) = _
    rw [if_neg hfull]
    rfl

theorem Lexer.pop_before (l : Lexer) (text : List Byte) :
    (l.before text).pop = l.pop.map fun k => k.before text := by
  obtain ⟨start, stack, t⟩ := l
  cases stack with
  | nil => rfl
  | cons c stack => rfl

/-- An action does the same before every text. -/
theorem action_before (pf : Platform) (yytext : List Byte) (l : Lexer) (text : List Byte)
    (r : Rule) :
    r.action pf yytext (l.before text) =
      ((r.action pf yytext l).1, (r.action pf yytext l).2.before text) := by
  cases r with
  | «open» => rw [Rule.action, Rule.action, Lexer.push_before, orError_before]
  | close => rw [Rule.action, Rule.action, Lexer.pop_before, orError_before]
  | semicolon => rw [Rule.action, Rule.action, Lexer.pop_before, orError_before]
  | optionWord =>
    rw [Rule.action, Rule.action]
    split
    · rw [Lexer.push_before, orError_before]
    · rfl
  | _ =>
    rw [Rule.action, Rule.action]
    try split
    all_goals rfl

/-- The next rule, with the text it matches, and the scanner behind its action. -/
def lexRule (pf : Platform) (l : Lexer) : Option ((Rule × List Byte) × Option Token × Lexer) :=
  (longest l.text l.start.rules).map fun r =>
    ((r.1, l.text.take r.2),
      r.1.action pf (l.text.take r.2) { l with text := l.text.drop r.2 })

theorem lexOne_lexRule (pf : Platform) (l : Lexer) :
    lexOne pf l = (lexRule pf l).map Prod.snd := by
  rw [lexOne, lexRule, Option.map_map]
  rfl

/-- What one rule does before a newline that stays where it is. -/
theorem lexRule_text {pf : Platform} {l l' : Lexer} {a post : List Byte}
    {x : Rule × List Byte} {t : Option Token} (htext : l.text = a ++ 10 :: post)
    (h : lexRule pf l = some (x, t, l')) (hlen : post.length < l'.text.length) :
    ∃ n, longest l.text l.start.rules = some (x.1, n) ∧ n ≤ a.length ∧
      x.2 = a.take n ∧ l'.text = a.drop n ++ 10 :: post := by
  rw [lexRule, Option.map_eq_some_iff] at h
  obtain ⟨⟨r, n⟩, hlong, heq⟩ := h
  obtain ⟨rfl, haction⟩ := Prod.mk.inj heq
  have hrest : l'.text = l.text.drop n := by
    have htext := text_action pf (l.text.take n) { l with text := l.text.drop n } r
    dsimp only at haction
    rwa [haction] at htext
  have hn : n ≤ a.length := by
    rw [hrest, htext, List.length_drop, List.length_append, List.length_cons] at hlen
    omega
  refine ⟨n, hlong, hn, ?_, ?_⟩
  · show l.text.take n = a.take n
    rw [htext, List.take_append_of_le_length hn]
  · rw [hrest, htext, List.drop_append_of_le_length hn]

/-- **One rule**, before the newline and before the space. -/
theorem lexRule_joined {pf : Platform} {l l' : Lexer} {a post : List Byte}
    {x : Rule × List Byte} {t : Option Token} (htext : l.text = a ++ 10 :: post)
    (h : lexRule pf l = some (x, t, l')) (hlen : post.length < l'.text.length)
    (hhere : ¬ StraddlesHere l post) :
    ∃ a', l'.text = a' ++ 10 :: post ∧
      lexRule pf (l.before (a ++ 32 :: post)) = some (x, t, l'.before (a' ++ 32 :: post)) := by
  obtain ⟨n, hlong, hn, hx, hrest⟩ := lexRule_text htext h hlen
  refine ⟨a.drop n, hrest, ?_⟩
  have hjoined := longest_joined htext hlong hn hhere
  rw [lexRule, hlong, Option.map_some] at h
  obtain ⟨hxx, heq⟩ := Prod.mk.inj (Option.some.inj h)
  have htake : (a ++ 32 :: post).take n = l.text.take n := by
    rw [htext, List.take_append_of_le_length hn, List.take_append_of_le_length hn]
  have hdrop : (a ++ 32 :: post).drop n = a.drop n ++ 32 :: post :=
    List.drop_append_of_le_length hn
  have haction : x.1.action pf (l.text.take n) (l.before (a.drop n ++ 32 :: post)) =
      (t, l'.before (a.drop n ++ 32 :: post)) := by
    have hbefore := action_before pf (l.text.take n) (l.before (l.text.drop n))
      (a.drop n ++ 32 :: post) x.1
    rw [Lexer.before_before] at hbefore
    have heq' : x.1.action pf (l.text.take n) (l.before (l.text.drop n)) = (t, l') := heq
    rw [hbefore, heq']
  rw [lexRule, Lexer.before_text, Lexer.before_start, hjoined, Option.map_some, htake, hdrop]
  exact congrArg some (Prod.ext hxx haction)

/-! ### Newlines and spaces -/

theorem Rule.length_break {b : Byte} (hb : IsBreak b) (post : List Byte) (r : Rule) :
    r.length (b :: post) = if r = .newline ∧ b = 10 ∨ (r = .space ∨ r = .garbage) ∧ b = 32 then 1
      else 0 := by
  have hrun : ∀ p : Byte → Bool, p 10 = false → p 32 = false → run p (b :: post) = 0 :=
    fun p h10 h32 => run_stop (hb.elim (fun h => h ▸ h10) fun h => h ▸ h32) [] post
  have hnum : ∀ p : Byte → Bool, p 10 = false → p 32 = false → runColonNum p (b :: post) = 0 :=
    fun p h10 h32 => runColonNum_stop (hb.elim (fun h => h ▸ h10) fun h => h ▸ h32) hb [] post
  cases r with
  | comment => exact matchComment_of_ne (by rcases hb with rfl | rfl <;> decide) _
  | string => exact matchString_of_ne (by rcases hb with rfl | rfl <;> decide) _
  | path => exact matchPath_of_ne (by rcases hb with rfl | rfl <;> decide) _ _
  | kword => exact hrun _ (by decide) (by decide)
  | word => exact hrun _ (by decide) (by decide)
  | optionWord => exact hrun _ (by decide) (by decide)
  | num => exact hrun _ (by decide) (by decide)
  | paramWord => exact hrun _ (by decide) (by decide)
  | dnum => exact hnum _ (by decide) (by decide)
  | wordnm => exact hnum _ (by decide) (by decide)
  | _ => rcases hb with rfl | rfl <;> rfl

theorem longest_newline (c : StartCond) (post : List Byte) :
    longest (10 :: post) c.rules = some (.newline, 1) := by
  have hlen := Rule.length_break (.inl rfl) post
  cases c <;> simp [StartCond.rules, longest, hlen]

theorem longest_space (c : StartCond) (post : List Byte) :
    longest (32 :: post) c.rules = some (.space, 1) := by
  have hlen := Rule.length_break (.inr rfl) post
  cases c <;> simp [StartCond.rules, longest, hlen]

theorem lexRule_newline (pf : Platform) {l : Lexer} {post : List Byte} (h : l.text = 10 :: post) :
    lexRule pf l = some ((.newline, [10]), none, l.before post) := by
  rw [lexRule, h, longest_newline]
  rfl

theorem lexRule_space (pf : Platform) (l : Lexer) (post : List Byte) :
    lexRule pf (l.before (32 :: post)) = some ((.space, [32]), none, l.before post) := by
  rw [lexRule, Lexer.before_text, longest_space]
  rfl

/-! ### The scan of a text -/

/-- The scanner behind `n` rules. -/
def scanned (pf : Platform) : ℕ → Lexer → Option Lexer
  | 0, l => some l
  | n + 1, l => (lexOne pf l).bind fun r => scanned pf n r.2

/-- The scanner comes to the newline before `post` when it has dealt with all the tokens
before it: no comment ends with it. -/
def Separates (pf : Platform) (l : Lexer) (post : List Byte) : Prop :=
  ∃ n l', scanned pf n l = some l' ∧ l'.text = 10 :: post

/-- A string, or a quotation mark that opens none, starts on the line before the newline,
and there is a quotation mark on the line behind it. -/
def Straddled (pf : Platform) (l : Lexer) (post : List Byte) : Prop :=
  ∃ n l', scanned pf n l = some l' ∧ StraddlesHere l' post

/-- The rules of at most `n` matches with their texts, but for white space. -/
def lexemesOf (pf : Platform) : ℕ → Lexer → List (Rule × List Byte)
  | 0, _ => []
  | n + 1, l =>
    match lexRule pf l with
    | none => []
    | some (x, _, l) =>
      if x.1 = .space ∨ x.1 = .newline then lexemesOf pf n l else x :: lexemesOf pf n l

/-- What the scanner cuts a text into. -/
def Lexer.lexemes (pf : Platform) (l : Lexer) : List (Rule × List Byte) :=
  lexemesOf pf l.text.length l

section Scan

variable {pf : Platform} {l l' : Lexer} {a post : List Byte}

theorem length_scanned {n : ℕ} (h : scanned pf n l = some l') :
    l'.text.length ≤ l.text.length := by
  induction n generalizing l with
  | zero =>
    obtain rfl := Option.some.inj h
    exact le_refl _
  | succ n ih =>
    obtain ⟨⟨t, l₁⟩, hone, hrest⟩ := Option.bind_eq_some_iff.mp h
    exact (ih hrest).trans (length_lexOne hone).le

theorem straddlesHere_length (h : StraddlesHere l post) : post.length + 2 ≤ l.text.length := by
  obtain ⟨-, -, a, htext, -⟩ := h
  rw [htext, List.length_cons, List.length_append, List.length_cons]
  omega

theorem straddled_step {t : Option Token} (hone : lexOne pf l = some (t, l')) :
    Straddled pf l post ↔ StraddlesHere l post ∨ Straddled pf l' post := by
  constructor
  · rintro ⟨n, k, hscan, hhere⟩
    cases n with
    | zero =>
      obtain rfl := Option.some.inj hscan
      exact .inl hhere
    | succ n =>
      rw [scanned, hone, Option.bind_some] at hscan
      exact .inr ⟨n, k, hscan, hhere⟩
  · rintro (hhere | ⟨n, k, hscan, hhere⟩)
    · exact ⟨0, l, rfl, hhere⟩
    · exact ⟨n + 1, k, by rw [scanned, hone]; exact hscan, hhere⟩

/-- Nothing starts before the newline when the scanner has come to it. -/
theorem not_straddled (htext : l.text = 10 :: post) : ¬ Straddled pf l post := by
  rintro ⟨n, k, hscan, hhere⟩
  have hlen := straddlesHere_length hhere
  have hle := length_scanned hscan
  rw [htext, List.length_cons] at hle
  omega

/-- **The induction over the scan before the newline**: what holds at the newline, and
holds before a rule if it holds behind it, holds before the text. -/
theorem separates_induction {P : Lexer → List Byte → Prop}
    (hnewline : ∀ l, l.text = 10 :: post → P l [])
    (hrule : ∀ l a x t l', l.text = a ++ 10 :: post → lexRule pf l = some (x, t, l') →
      lexOne pf l = some (t, l') → post.length < l'.text.length →
      (∀ a', l'.text = a' ++ 10 :: post → P l' a') → P l a)
    (hsep : Separates pf l post) (htext : l.text = a ++ 10 :: post) : P l a := by
  obtain ⟨n, k, hscan, hk⟩ := hsep
  induction n generalizing l a with
  | zero =>
    obtain rfl := Option.some.inj hscan
    obtain rfl : a = [] := by
      have hlen := congrArg List.length (hk.symm.trans htext)
      rw [List.length_append] at hlen
      exact List.length_eq_zero_iff.mp (by omega)
    exact hnewline l hk
  | succ n ih =>
    obtain ⟨⟨t, l₁⟩, hone, hrest⟩ := Option.bind_eq_some_iff.mp hscan
    have hlen : post.length < l₁.text.length := by
      have hle : k.text.length ≤ l₁.text.length := length_scanned hrest
      rw [hk, List.length_cons] at hle
      omega
    obtain ⟨⟨x, t', l₁'⟩, hlex, heq⟩ :=
      Option.map_eq_some_iff.mp ((lexOne_lexRule pf l).symm.trans hone)
    obtain ⟨rfl, rfl⟩ := Prod.mk.inj heq
    exact hrule l a x t' l₁' htext hlex hone hlen fun a' htext' => ih htext' hrest

/-- A match that starts with a character of a token is no white space. -/
theorem lexRule_white {x : Rule × List Byte} {t : Option Token} (h : lexRule pf l = some (x, t, l'))
    {c : Byte} {rest : List Byte} (htext : l.text = c :: rest) (hspace : c ≠ 32) (htab : c ≠ 9)
    (hnewline : c ≠ 10) : ¬ (x.1 = .space ∨ x.1 = .newline) := by
  rw [lexRule, Option.map_eq_some_iff] at h
  obtain ⟨⟨r, n⟩, hlong, heq⟩ := h
  obtain ⟨rfl, -⟩ := Prod.mk.inj heq
  have hpos := longest_pos hlong
  rw [(longest_spec hlong).2.1, htext] at hpos
  rintro (hr | hr)
  · obtain rfl : r = .space := hr
    simp [Rule.length, single, hspace, htab] at hpos
  · obtain rfl : r = .newline := hr
    simp [Rule.length, single, hnewline] at hpos

/-- Where a string goes on behind the newline, the next token is another one. -/
theorem lexemes_straddle {n : ℕ} (htext : l.text = a ++ 10 :: post) {x : Rule × List Byte}
    {t : Option Token} (hlex : lexRule pf l = some (x, t, l')) (hlen : post.length < l'.text.length)
    (hhere : StraddlesHere l post) :
    lexemesOf pf (n + 1) (l.before (a ++ 32 :: post)) ≠ lexemesOf pf (n + 1) l := by
  obtain ⟨m, -, hm, hx, -⟩ := lexRule_text htext hlex hlen
  obtain ⟨r, k, hlong, hk⟩ := longest_straddles hhere htext
  obtain ⟨-, -, b, hb, -⟩ := hhere
  have hab : a ++ 10 :: post = (34 :: b) ++ 10 :: post := htext.symm.trans hb
  have hhead : a ++ 32 :: post = 34 :: (b ++ 32 :: post) := by
    rw [List.append_cancel_right hab, List.cons_append]
  have hjoined : lexRule pf (l.before (a ++ 32 :: post)) =
      some ((r, (a ++ 32 :: post).take k),
        r.action pf ((a ++ 32 :: post).take k) (l.before ((a ++ 32 :: post).drop k))) := by
    rw [lexRule, Lexer.before_text, Lexer.before_start, hlong]
    rfl
  rw [lexemesOf, lexemesOf, hlex, hjoined]
  dsimp only
  rw [if_neg (lexRule_white hlex hb (by decide) (by decide) (by decide)),
    if_neg (lexRule_white hjoined hhead (by decide) (by decide) (by decide))]
  intro hsame
  -- the texts have different lengths
  have hlength := congrArg (fun x => x.2.length) (List.cons.inj hsame).1
  dsimp only at hlength
  rw [hx, List.length_take, List.length_take, List.length_append, List.length_cons] at hlength
  omega

/-- **The tokens** of the two texts are the same exactly if no string goes on behind the
newline. -/
theorem lexemes_joined_iff (hsep : Separates pf l post) (htext : l.text = a ++ 10 :: post) {n : ℕ}
    (hn : l.text.length ≤ n) :
    lexemesOf pf n (l.before (a ++ 32 :: post)) = lexemesOf pf n l ↔ ¬ Straddled pf l post := by
  refine separates_induction (P := fun l a => ∀ n, l.text.length ≤ n →
      (lexemesOf pf n (l.before (a ++ 32 :: post)) = lexemesOf pf n l ↔ ¬ Straddled pf l post))
    ?_ ?_ hsep htext n hn
  · intro l hl n hn
    cases n with
    | zero => rw [hl, List.length_cons] at hn; omega
    | succ n =>
      refine iff_of_true ?_ (not_straddled hl)
      rw [List.nil_append, lexemesOf, lexemesOf, lexRule_newline pf hl, lexRule_space]
      rfl
  · intro l a x t l' htext hlex hone hlen ih n hn
    have hshort := length_lexOne hone
    cases n with
    | zero => omega
    | succ n =>
      rw [straddled_step hone]
      by_cases hhere : StraddlesHere l post
      · exact iff_of_false (lexemes_straddle htext hlex hlen hhere) fun h => h (.inl hhere)
      · obtain ⟨a', htext', hjoined⟩ := lexRule_joined htext hlex hlen hhere
        rw [lexemesOf, lexemesOf, hlex, hjoined]
        have hrest := ih a' htext' n (by omega)
        dsimp only
        split
        · rw [hrest, or_iff_right hhere]
        · rw [List.cons.injEq, and_iff_right rfl, hrest, or_iff_right hhere]

/-- What `read_config` uses of a parse. -/
def Parsed.used (r : Parsed) : List Section × Option Section × Bool × Bool :=
  (r.done, r.current, r.ok, r.ended)

/-- **The parser** gets the same from both texts unless a string goes on. -/
theorem parseLoop_joined (hsep : Separates pf l post) (htext : l.text = a ++ 10 :: post)
    (hstr : ¬ Straddled pf l post) (n : ℕ) (p : Parser) :
    (parseLoop pf n (l.before (a ++ 32 :: post)) p).map Parsed.used =
      (parseLoop pf n l p).map Parsed.used := by
  refine separates_induction (P := fun l a => ∀ n p, ¬ Straddled pf l post →
      (parseLoop pf n (l.before (a ++ 32 :: post)) p).map Parsed.used =
        (parseLoop pf n l p).map Parsed.used) ?_ ?_ hsep htext n p hstr
  · intro l hl n p _
    cases n with
    | zero => rfl
    | succ n =>
      rw [List.nil_append, parseLoop, parseLoop, lexOne_lexRule, lexOne_lexRule,
        lexRule_newline pf hl, lexRule_space]
      rfl
  · intro l a x t l' htext hlex hone hlen ih n p hstr
    rw [straddled_step hone, not_or] at hstr
    obtain ⟨a', htext', hjoined⟩ := lexRule_joined htext hlex hlen hstr.1
    have hone' : lexOne pf (l.before (a ++ 32 :: post)) =
        some (t, l'.before (a' ++ 32 :: post)) := by rw [lexOne_lexRule, hjoined]; rfl
    cases n with
    | zero => rfl
    | succ n =>
      rw [parseLoop, parseLoop, hone, hone']
      cases t with
      | none => exact ih a' htext' n p hstr.2
      | some t =>
        dsimp only
        split
        · exact ih a' htext' n _ hstr.2
        · rfl

end Scan

/-! ### The configuration -/

/-- What a load is for: the options, `default_host` and `host_list`. -/
def Conf.loaded (s : Conf) : VtunOpts × ConfHost × List (Option (List Byte)) × List ConfHost :=
  (s.vtun, s.default, s.cells, s.hosts)

/-- The newline before `post` is read, and it separates tokens. -/
def NewlineBetween (pf : Platform) (s : Conf) (pre post : List Byte) : Prop :=
  s.ended = false ∧ Separates pf (s.lexer (pre ++ 10 :: post)) post

theorem lexer_before {s : Conf} (hread : s.ended = false) (pre post : List Byte) :
    (s.lexer (pre ++ 10 :: post)).text = (s.unread ++ pre) ++ 10 :: post ∧
      s.lexer (pre ++ 32 :: post) =
        (s.lexer (pre ++ 10 :: post)).before ((s.unread ++ pre) ++ 32 :: post) := by
  simp only [Conf.lexer, hread, Bool.false_eq_true, if_false, List.append_assoc, Lexer.before,
    and_self]

/-- Without a quotation mark on the next line no string goes on. -/
theorem not_straddled_of_line {pf : Platform} {l : Lexer} {post : List Byte}
    (h : 34 ∉ lineOf post) : ¬ Straddled pf l post := by
  rintro ⟨n, l', -, -, hquote, -⟩
  exact h hquote

/-- A load depends on what the parser makes of the text. -/
theorem readConfig_used {pf : Platform} {s : Conf} {file file' : List Byte} {kept : ℕ}
    {sawEnd : Bool} (h : (yyparse pf (s.lexer file')).map Parsed.used =
      (yyparse pf (s.lexer file)).map Parsed.used) :
    (readConfig pf s ⟨some file', kept, sawEnd⟩).map Conf.loaded =
      (readConfig pf s ⟨some file, kept, sawEnd⟩).map Conf.loaded := by
  obtain ⟨r, hr⟩ := Option.isSome_iff_exists.mp (yyparse_isSome pf (s.lexer file))
  obtain ⟨r', hr'⟩ := Option.isSome_iff_exists.mp (yyparse_isSome pf (s.lexer file'))
  rw [hr, hr', Option.map_some, Option.map_some] at h
  obtain ⟨hdone, hrest⟩ := Prod.mk.inj (Option.some.inj h)
  obtain ⟨hcurrent, -⟩ := Prod.mk.inj hrest
  rw [readConfig_parsed hr, readConfig_parsed hr', hdone, hcurrent, Option.map_map, Option.map_map]
  rfl

/-- Two options of a session, and what stands between them. -/
def optionLines (sep : Byte) : List Byte :=
  lit "lion \x7b\n passwd x;" ++ sep :: lit "timeout 5;\n\x7d\n"

/-- Two commands, and what stands between them. -/
def commandLines (sep : Byte) : List Byte :=
  lit "lion \x7b\n passwd x;\n up \x7b\n ifconfig \"a\";" ++
    sep :: lit "route \"b\";\n \x7d;\n\x7d\n"

/-- The arguments of the `up` commands a load of the two leaves. -/
def loadedArgs (sep : Byte) : Option (List (List (Option (List Byte)))) :=
  (readConfig .lp64 (Conf.init (mainOpts (-1))) ⟨some (commandLines sep), 0, false⟩).map
    fun s => s.hosts.map fun h => h.up.map Cmd.args

end Vtun
