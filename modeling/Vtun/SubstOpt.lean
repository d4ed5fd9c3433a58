/-
Variable substitution in command arguments (`lib.c`).

`subst_opt` walks `str` with one index and writes `nstr` with another.  Behind a
backslash it asks `nstr[sp]`, a byte it has not written yet, whether the string
goes on.

* `substLoop_text` — where no backslash stands before a `%` or at the end, the
  memory does not matter, and the string is the rewriting of `str`;
* `subst_opt_iff` — it does matter for every other `str`.
-/
import Vtun.FlagsWidth
import Mathlib.Data.List.Induction

namespace Vtun

/-! ### Strings and options -/

/-- A C string. -/
abbrev CStr := {s : List Byte // (0 : Byte) ∉ s}

/-- `struct vtun_sopt`.  A pointer is NULL where the value is `none`. -/
structure Sopt where
  dev : Option CStr
  laddr : Option CStr
  lport : Int32
  raddr : Option CStr
  rport : Int32
  host : Option CStr

/-- `optr` for the character behind a `%`; `none` for a character that is no
option. -/
def Sopt.optr (opt : Sopt) (c : Byte) : Option (Option CStr) :=
  if c = '%'.toUInt8 ∨ c = 'd'.toUInt8 then some opt.dev
  else if c = 'A'.toUInt8 then some opt.laddr
  else if c = 'P'.toUInt8 then some (some ⟨decimal opt.lport, nul_notMem_decimal _⟩)
  else if c = 'a'.toUInt8 then some opt.raddr
  else if c = 'p'.toUInt8 then some (some ⟨decimal opt.rport, nul_notMem_decimal _⟩)
  else if c = 'h'.toUInt8 then some opt.host
  else none

/-- The `sprintf` for the option `c` stays inside `buf[10]`. -/
def Sopt.bufFits (opt : Sopt) (c : Byte) : Bool :=
  if c = 'P'.toUInt8 then decide ((decimal opt.lport).length + 1 ≤ 10)
  else if c = 'p'.toUInt8 then decide ((decimal opt.rport).length + 1 ≤ 10)
  else true

/-! ### The allocated string -/

/-- What the calls of `malloc` and `realloc` find in the memory they return; `none`
for a call that fails. -/
abbrev Alloc := ℕ → Option (ℕ → Byte)

/-- `nstr` with its size `slen` and the index `np`. -/
structure Nstr where
  mem : ℕ → Byte
  slen : ℕ
  np : ℕ
  /-- The calls of `malloc` and `realloc` so far. -/
  calls : ℕ
  /-- Every write so far was inside the allocation, and inside `buf`. -/
  inside : Bool

namespace Nstr

/-- `nstr[np++] = b`. -/
def put (s : Nstr) (b : Byte) : Nstr :=
  { s with
    mem := Function.update s.mem s.np b
    np := s.np + 1
    inside := s.inside && decide (s.np < s.slen) }

/-- `memcpy(nstr + np, v, olen)` and `np += olen`. -/
def memcpy (s : Nstr) (v : List Byte) : Nstr := v.foldl put s

/-- `realloc(nstr, slen)` keeps the bytes below both sizes. -/
def realloc (alloc : Alloc) (slen : ℕ) (s : Nstr) : Option Nstr :=
  (alloc s.calls).map fun fresh =>
    { s with
      mem := fun i => if i < s.slen ∧ i < slen then s.mem i else fresh i
      slen := slen
      calls := s.calls + 1 }

/-- The string at `nstr`. -/
def text (s : Nstr) : List Byte := cstr ((List.range s.slen).map s.mem)

/-- The body of the `%` case for an option: the number is printed into `buf`, and a
value that is there is copied. -/
def substitute (alloc : Alloc) (fits : Bool) (optr : Option CStr) (s : Nstr) : Option Nstr :=
  match optr with
  | none => some { s with inside := s.inside && fits }
  | some v =>
    (realloc alloc (s.slen - 2 + v.1.length) { s with inside := s.inside && fits }).map
      fun s => memcpy s v.1

end Nstr

/-! ### subst_opt -/

/-- How `subst_opt` ends. -/
inductive SubstEnd
  /-- It returns NULL. -/
  | null
  /-- It returns its argument, as the memory ran out. -/
  | str
  /-- It has read `str` behind its NUL. -/
  | overread
  /-- It returns `nstr`. -/
  | nstr (s : Nstr)

/-- The string that a call has built without leaving its buffers. -/
def SubstEnd.text? : SubstEnd → Option (List Byte)
  | .nstr s => if s.inside then some s.text else none
  | _ => none

/-- The loop of `subst_opt`, on what is left of `str` from `sp` on. -/
def substLoop (alloc : Alloc) (opt : Sopt) : List Byte → ℕ → Nstr → SubstEnd
  | [], _, s => .nstr (s.put 0)
  | c :: rest, sp, s =>
    if c = '%'.toUInt8 then
      match rest with
      | [] => substLoop alloc opt [] (sp + 1) s
      | d :: rest' =>
        match opt.optr d with
        | none => substLoop alloc opt (d :: rest') (sp + 1) s
        | some optr =>
          match s.substitute alloc (opt.bufFits d) optr with
          | none => .str
          | some s => substLoop alloc opt rest' (sp + 2) s
    else if c = '\\'.toUInt8 then
      -- `if( !nstr[sp] )`: the destination, not `str[sp]`
      if (s.put c).mem (sp + 1) = 0 then substLoop alloc opt rest (sp + 1) (s.put c)
      else
        match rest with
        -- the NUL is copied as a character, and the loop goes on behind it
        | [] => .overread
        | d :: rest' => substLoop alloc opt rest' (sp + 2) ((s.put c).put d)
    else substLoop alloc opt rest (sp + 1) (s.put c)

/-- `subst_opt`. -/
def substOpt (alloc : Alloc) (str : Option CStr) (opt : Sopt) : SubstEnd :=
  match str with
  | none => .null
  | some str =>
    match alloc 0 with
    | none => .str
    | some fresh => substLoop alloc opt str.1 0 ⟨fresh, str.1.length + 1, 0, 1, true⟩

/-! ### The rewriting -/

/-- The left-to-right rewriting of a string: options give way to their values, a
`%` before anything else is dropped, and a backslash is copied together with the
character behind it. -/
def expand (opt : Sopt) : List Byte → List Byte
  | [] => []
  | c :: rest =>
    if c = '%'.toUInt8 then
      match rest with
      | [] => []
      | d :: rest' =>
        match opt.optr d with
        | none => expand opt (d :: rest')
        | some none => expand opt rest'
        | some (some v) => v.1 ++ expand opt rest'
    else if c = '\\'.toUInt8 then
      match rest with
      | [] => [c]
      | d :: rest' => c :: d :: expand opt rest'
    else c :: expand opt rest

/-- The call returns the rewriting of `str` and stays inside its buffers, whatever
was in the memory it was given. -/
def Substitutes (str : CStr) (opt : Sopt) (mem : ℕ → ℕ → Byte) : Prop :=
  (substOpt (fun k => some (mem k)) (some str) opt).text? = some (expand opt str.1)

/-- Every backslash stands before a character that is no `%`. -/
def NoBareEscape (str : List Byte) : Prop :=
  ∀ u w, str = u ++ '\\'.toUInt8 :: w → ∃ d t, w = d :: t ∧ d ≠ '%'.toUInt8

/-- The ports that the string asks for are printed inside `buf`. -/
def portsFit (opt : Sopt) : List Byte → Bool
  | [] => true
  | c :: rest =>
    if c = '%'.toUInt8 then
      match rest with
      | [] => true
      | d :: rest' =>
        match opt.optr d with
        | none => portsFit opt (d :: rest')
        | some _ => opt.bufFits d && portsFit opt rest'
    else portsFit opt rest

/-! ### What one step does to `nstr` -/

/-- `nstr` starts with `out`, and has room for `left` more bytes and the NUL. -/
structure Holds (out : List Byte) (left : ℕ) (s : Nstr) : Prop where
  text : (List.range s.np).map s.mem = out
  room : s.np + left < s.slen

namespace Holds

variable {out : List Byte} {left : ℕ} {s : Nstr}

theorem np (h : Holds out left s) : s.np = out.length := by
  rw [← h.text, List.length_map, List.length_range]

theorem mono (h : Holds out left s) {n : ℕ} (hn : n ≤ left) : Holds out n s :=
  ⟨h.text, by have := h.room; omega⟩

theorem text_put (s : Nstr) (b : Byte) :
    (List.range (s.put b).np).map (s.put b).mem = (List.range s.np).map s.mem ++ [b] := by
  have hsame : ∀ i ∈ List.range s.np, Function.update s.mem s.np b i = s.mem i := by
    intro i hi
    exact Function.update_of_ne (by have := List.mem_range.mp hi; omega) _ _
  show (List.range (s.np + 1)).map (Function.update s.mem s.np b) = _
  rw [List.range_succ, List.map_append, List.map_congr_left hsame, List.map_singleton,
    Function.update_self]

theorem put (h : Holds out (left + 1) s) (b : Byte) : Holds (out ++ [b]) left (s.put b) := by
  refine ⟨?_, ?_⟩
  · rw [text_put, h.text]
  · have := h.room
    show s.np + 1 + left < s.slen
    omega

theorem inside_put (h : Holds out left s) (b : Byte) : (s.put b).inside = s.inside := by
  have : s.np < s.slen := by have := h.room; omega
  show (s.inside && decide (s.np < s.slen)) = s.inside
  rw [decide_eq_true this, Bool.and_true]

theorem memcpy (v : List Byte) :
    ∀ {out : List Byte} {s : Nstr}, Holds out (v.length + left) s →
      Holds (out ++ v) left (s.memcpy v) ∧ (s.memcpy v).inside = s.inside := by
  induction v with
  | nil =>
    intro out s h
    rw [List.append_nil]
    exact ⟨h.mono (by omega), rfl⟩
  | cons b v ih =>
    intro out s h
    have h' : Holds out ((v.length + left) + 1) s := h.mono (by rw [List.length_cons]; omega)
    obtain ⟨hv, hin⟩ := ih (h'.put b)
    refine ⟨?_, hin.trans (h.inside_put b)⟩
    rw [List.append_assoc] at hv
    exact hv

theorem realloc (fresh : ℕ → Byte) {slen : ℕ} (h : Holds out 0 s) (hroom : s.np + left < slen) :
    Holds out left { s with
      mem := fun i => if i < s.slen ∧ i < slen then s.mem i else fresh i
      slen := slen
      calls := s.calls + 1 } := by
  refine ⟨?_, hroom⟩
  rw [← h.text]
  refine List.map_congr_left fun i hi => ?_
  have hi' : i < s.np := List.mem_range.mp hi
  have := h.room
  exact if_pos ⟨by omega, by omega⟩

/-- An option takes the two bytes it was written with, and leaves the room for the
rest of the string. -/
theorem substitute {mem : ℕ → ℕ → Byte} {fits : Bool} {optr : Option CStr}
    (h : Holds out (left + 2) s) :
    ∃ s', s.substitute (fun k => some (mem k)) fits optr = some s' ∧
      Holds (out ++ (optr.map Subtype.val).getD []) left s' ∧
      s'.inside = (s.inside && fits) := by
  rcases optr with _ | v
  · refine ⟨_, rfl, ?_, rfl⟩
    rw [Option.map_none, Option.getD_none, List.append_nil]
    exact ⟨h.text, by have := h.room; show s.np + left < s.slen; omega⟩
  · have hroom : s.np + (v.1.length + left) < s.slen - 2 + v.1.length := by
      have := h.room
      omega
    have h0 : Holds out 0 { s with inside := s.inside && fits } :=
      ⟨h.text, by have := h.room; show s.np + 0 < s.slen; omega⟩
    obtain ⟨hv, hin⟩ := (h0.realloc (mem s.calls) hroom).memcpy
    exact ⟨_, rfl, hv, hin⟩

/-- The NUL at the end. -/
theorem text_end (h : Holds out 0 s) (h0 : (0 : Byte) ∉ out) :
    (SubstEnd.nstr (s.put 0)).text? = if s.inside then some out else none := by
  have htext : (s.put 0).text = out := by
    obtain ⟨n, hn⟩ : ∃ n, s.slen = (s.put 0).np + n :=
      ⟨s.slen - (s.np + 1), by have := h.room; show s.slen = s.np + 1 + _; omega⟩
    show cstr ((List.range s.slen).map (s.put 0).mem) = out
    rw [hn, List.range_add, List.map_append, text_put, h.text, List.append_assoc,
      List.singleton_append, cstr_nul h0]
  rw [SubstEnd.text?, h.inside_put, htext]

end Holds

/-! ### Strings without a bare escape -/

theorem NoBareEscape.tail {c : Byte} {str : List Byte} (h : NoBareEscape (c :: str)) :
    NoBareEscape str := by
  intro u w hw
  exact h (c :: u) w (by rw [hw, List.cons_append])

theorem NoBareEscape.next {str : List Byte} (h : NoBareEscape ('\\'.toUInt8 :: str)) :
    ∃ d t, str = d :: t ∧ d ≠ '%'.toUInt8 := h [] str rfl

/-- A character that is neither `%` nor a backslash is copied. -/
theorem expand_copy (opt : Sopt) {c : Byte} (hper : c ≠ '%'.toUInt8) (hesc : c ≠ '\\'.toUInt8)
    (rest : List Byte) : expand opt (c :: rest) = c :: expand opt rest := by
  rw [expand.eq_def]
  dsimp only
  rw [if_neg hper, if_neg hesc]

/-- Only a `%` asks for a port. -/
theorem portsFit_copy (opt : Sopt) {c : Byte} (hper : c ≠ '%'.toUInt8) (rest : List Byte) :
    portsFit opt (c :: rest) = portsFit opt rest := by
  rw [portsFit.eq_def]
  dsimp only
  rw [if_neg hper]

/-- There, a backslash is rewritten like any other character. -/
theorem expand_escape (opt : Sopt) {str : List Byte} (h : NoBareEscape ('\\'.toUInt8 :: str)) :
    expand opt ('\\'.toUInt8 :: str) = '\\'.toUInt8 :: expand opt str := by
  induction str with
  | nil =>
    obtain ⟨d, t, hnil, -⟩ := h.next
    exact absurd hnil (by simp)
  | cons d t ih =>
    have hd : d ≠ '%'.toUInt8 := by
      obtain ⟨d', t', hcons, hd'⟩ := h.next
      rw [(List.cons.inj hcons).1]
      exact hd'
    have hpair : expand opt ('\\'.toUInt8 :: d :: t) = '\\'.toUInt8 :: d :: expand opt t := rfl
    rw [hpair]
    by_cases hesc : d = '\\'.toUInt8
    · subst hesc
      rw [ih h.tail]
    · rw [expand_copy opt hd hesc]

section Loop

variable {mem : ℕ → ℕ → Byte} {opt : Sopt}

theorem substLoop_pair {d : Byte} {rest : List Byte} (sp : ℕ) (s : Nstr) :
    substLoop (fun k => some (mem k)) opt ('%'.toUInt8 :: d :: rest) sp s =
      match opt.optr d with
      | none => substLoop (fun k => some (mem k)) opt (d :: rest) (sp + 1) s
      | some optr =>
        match s.substitute (fun k => some (mem k)) (opt.bufFits d) optr with
        | none => .str
        | some s => substLoop (fun k => some (mem k)) opt rest (sp + 2) s := rfl

theorem substLoop_escape {d : Byte} {rest : List Byte} (sp : ℕ) (s : Nstr) :
    substLoop (fun k => some (mem k)) opt ('\\'.toUInt8 :: d :: rest) sp s =
      if (s.put '\\'.toUInt8).mem (sp + 1) = 0 then
        substLoop (fun k => some (mem k)) opt (d :: rest) (sp + 1) (s.put '\\'.toUInt8)
      else substLoop (fun k => some (mem k)) opt rest (sp + 2) ((s.put '\\'.toUInt8).put d) := rfl

theorem substLoop_copy {c : Byte} (hper : c ≠ '%'.toUInt8) (hesc : c ≠ '\\'.toUInt8)
    (rest : List Byte) (sp : ℕ) (s : Nstr) :
    substLoop (fun k => some (mem k)) opt (c :: rest) sp s =
      substLoop (fun k => some (mem k)) opt rest (sp + 1) (s.put c) := by
  rw [substLoop.eq_def]
  dsimp only
  rw [if_neg hper, if_neg hesc]

theorem expand_pair (d : Byte) (rest : List Byte) :
    expand opt ('%'.toUInt8 :: d :: rest) =
      match opt.optr d with
      | none => expand opt (d :: rest)
      | some optr => (optr.map Subtype.val).getD [] ++ expand opt rest := by
  show (match opt.optr d with | none => _ | some none => _ | some (some v) => _) = _
  rcases opt.optr d with _ | _ | v
  all_goals rfl

theorem portsFit_pair (d : Byte) (rest : List Byte) :
    portsFit opt ('%'.toUInt8 :: d :: rest) =
      match opt.optr d with
      | none => portsFit opt (d :: rest)
      | some _ => opt.bufFits d && portsFit opt rest := rfl

/-- The invariant of the loop: `nstr` holds `out`, which comes with what is left of the
string to `all`, and `fits` says whether all is written inside the buffers. -/
structure Rewriting (opt : Sopt) (all : List Byte) (fits : Bool) (out str : List Byte)
    (s : Nstr) : Prop where
  bare : NoBareEscape str
  nul : (0 : Byte) ∉ str
  built : (0 : Byte) ∉ out
  holds : Holds out str.length s
  rewritten : out ++ expand opt str = all
  ports : (s.inside && portsFit opt str) = fits

namespace Rewriting

variable {all out rest : List Byte} {fits : Bool} {c d : Byte} {s : Nstr}

theorem copy (h : Rewriting opt all fits out (c :: rest) s) (hper : c ≠ '%'.toUInt8)
    (hexpand : expand opt (c :: rest) = c :: expand opt rest) :
    Rewriting opt all fits (out ++ [c]) rest (s.put c) := by
  obtain ⟨hc0, hrest⟩ := List.ne_and_not_mem_of_not_mem_cons h.nul
  refine ⟨h.bare.tail, hrest, ?_, h.holds.put c, ?_, ?_⟩
  · simp only [List.mem_append, List.mem_singleton, not_or]
    exact ⟨h.built, hc0⟩
  · rw [List.append_assoc, List.singleton_append, ← hexpand]
    exact h.rewritten
  · rw [h.holds.inside_put, ← portsFit_copy opt hper]
    exact h.ports

/-- A `%` before something else is dropped. -/
theorem drop (h : Rewriting opt all fits out ('%'.toUInt8 :: d :: rest) s)
    (hd : opt.optr d = none) : Rewriting opt all fits out (d :: rest) s := by
  refine ⟨h.bare.tail, (List.ne_and_not_mem_of_not_mem_cons h.nul).2, h.built,
    h.holds.mono (by simp), ?_, ?_⟩
  · have hall := h.rewritten
    rwa [expand_pair, hd] at hall
  · have hports := h.ports
    rwa [portsFit_pair, hd] at hports

theorem option (mem : ℕ → ℕ → Byte) (h : Rewriting opt all fits out ('%'.toUInt8 :: d :: rest) s)
    {optr : Option CStr} (hd : opt.optr d = some optr) :
    ∃ s', s.substitute (fun k => some (mem k)) (opt.bufFits d) optr = some s' ∧
      Rewriting opt all fits (out ++ (optr.map Subtype.val).getD []) rest s' := by
  obtain ⟨s', hs', hheld, hin⟩ : ∃ s',
      s.substitute (fun k => some (mem k)) (opt.bufFits d) optr = some s' ∧
        Holds (out ++ (optr.map Subtype.val).getD []) rest.length s' ∧
        s'.inside = (s.inside && opt.bufFits d) := Holds.substitute h.holds
  have hval : (0 : Byte) ∉ (optr.map Subtype.val).getD [] := by
    rcases optr with _ | v
    · simp
    · exact v.2
  have hrest := (List.ne_and_not_mem_of_not_mem_cons h.nul).2
  refine ⟨s', hs', h.bare.tail.tail, (List.ne_and_not_mem_of_not_mem_cons hrest).2, ?_, hheld,
    ?_, ?_⟩
  · simp only [List.mem_append, not_or]
    exact ⟨h.built, hval⟩
  · have hall := h.rewritten
    rw [expand_pair, hd] at hall
    rwa [List.append_assoc]
  · have hports := h.ports
    rw [portsFit_pair, hd] at hports
    rwa [hin, Bool.and_assoc]

/-- **One turn of the loop** keeps the invariant, whatever the memory. -/
theorem turn (mem : ℕ → ℕ → Byte) (h : Rewriting opt all fits out (c :: rest) s) (sp : ℕ) :
    ∃ out' str' sp' s', substLoop (fun k => some (mem k)) opt (c :: rest) sp s =
        substLoop (fun k => some (mem k)) opt str' sp' s' ∧
      str'.length < (c :: rest).length ∧ Rewriting opt all fits out' str' s' := by
  by_cases hper : c = '%'.toUInt8
  · subst hper
    rcases rest with _ | ⟨d, t⟩
    · -- the NUL behind the `%` is no option
      exact ⟨out, [], sp + 1, s, rfl, by simp, h.bare.tail, by simp, h.built,
        h.holds.mono (by simp), h.rewritten, h.ports⟩
    · rw [substLoop_pair]
      rcases hd : opt.optr d with _ | optr
      · exact ⟨out, d :: t, sp + 1, s, rfl, by simp, h.drop hd⟩
      · obtain ⟨s', hs', hnext⟩ := h.option mem hd
        dsimp only
        rw [hs']
        exact ⟨_, t, sp + 2, s', rfl, by simp only [List.length_cons]; omega, hnext⟩
  · by_cases hesc : c = '\\'.toUInt8
    · subst hesc
      have hcopy := h.copy hper (expand_escape opt h.bare)
      obtain ⟨d, t, rfl, hd⟩ := h.bare.next
      rw [substLoop_escape]
      by_cases hread : (s.put '\\'.toUInt8).mem (sp + 1) = 0
      · rw [if_pos hread]
        exact ⟨_, d :: t, sp + 1, _, rfl, by simp, hcopy⟩
      · -- the character behind the backslash is copied at once
        have hpair : expand opt (d :: t) = d :: expand opt t :=
          (List.cons.inj (expand_escape opt h.bare)).2.symm
        rw [if_neg hread]
        exact ⟨_, t, sp + 2, _, rfl, by simp only [List.length_cons]; omega,
          hcopy.copy hd hpair⟩
    · rw [substLoop_copy hper hesc]
      exact ⟨_, rest, sp + 1, _, rfl, by simp, h.copy hper (expand_copy opt hper hesc rest)⟩

/-- The run of the loop, by induction on what is left of the string. -/
theorem run {str : List Byte} (h : Rewriting opt all fits out str s) (sp : ℕ) :
    (substLoop (fun k => some (mem k)) opt str sp s).text? = if fits then some all else none := by
  induction hn : str.length using Nat.strong_induction_on generalizing str sp out s with
  | _ n ih =>
  subst hn
  rcases str with _ | ⟨c, rest⟩
  · show (SubstEnd.nstr (s.put 0)).text? = _
    have hports : s.inside = fits := by
      have hand := h.ports
      rwa [portsFit, Bool.and_true] at hand
    have hall : out = all := by
      have happ := h.rewritten
      rwa [expand, List.append_nil] at happ
    rw [h.holds.text_end h.built, hports, hall]
  · obtain ⟨out', str', sp', s', hloop, hlt, hnext⟩ := h.turn mem sp
    rw [hloop]
    exact ih _ hlt hnext sp' rfl

end Rewriting

/-- **Where no escape is bare, the memory does not matter.**  What is left of the
string is rewritten behind what is there. -/
theorem substLoop_text (str : List Byte) {sp : ℕ} {out : List Byte} {s : Nstr}
    (hbare : NoBareEscape str) (hstr : (0 : Byte) ∉ str) (hout : (0 : Byte) ∉ out)
    (hs : Holds out str.length s) :
    (substLoop (fun k => some (mem k)) opt str sp s).text? =
      if s.inside && portsFit opt str then some (out ++ expand opt str) else none :=
  Rewriting.run ⟨hbare, hstr, hout, hs, rfl, rfl⟩ sp

end Loop

/-- What the memory holds does not matter, and the port numbers only where they are
asked for. -/
theorem substitutes_iff {str : CStr} (h : NoBareEscape str.1) (opt : Sopt) (mem : ℕ → ℕ → Byte) :
    Substitutes str opt mem ↔ portsFit opt str.1 = true := by
  have hheld : Holds [] str.1.length ⟨mem 0, str.1.length + 1, 0, 1, true⟩ :=
    ⟨rfl, by show 0 + str.1.length < str.1.length + 1; omega⟩
  have hrun : (substLoop (fun k => some (mem k)) opt str.1 0 _).text? = _ :=
    substLoop_text str.1 h str.2 List.not_mem_nil hheld
  rw [Substitutes, substOpt]
  dsimp only
  rw [hrun, Bool.true_and, List.nil_append]
  rcases portsFit opt str.1
  · simp
  · simp

/-! ### Strings with a bare escape -/

/-- No option has a value, and the ports are 0. -/
def noOpt : Sopt := ⟨none, none, 0, none, 0, none⟩

theorem bufFits_noOpt (d : Byte) : noOpt.bufFits d = true := by
  rw [Sopt.bufFits]
  split_ifs
  all_goals decide

theorem portsFit_noOpt (str : List Byte) : portsFit noOpt str = true := by
  fun_induction portsFit noOpt str with
  | case1 => rfl
  | case2 => rfl
  | case3 d rest' hd ih => exact ih
  | case4 d rest' o ho ih => rw [bufFits_noOpt, ih, Bool.and_self]
  | case5 c rest hper ih => exact ih

/-- The string of `nstr` is `out`, it is never longer than what `str` has been read,
and the bytes behind it are still those of the memory `m`. -/
structure Fresh (m : ℕ → Byte) (out : List Byte) (left sp : ℕ) (s : Nstr) : Prop where
  holds : Holds out left s
  inside : s.inside = true
  behind : ∀ i, s.np ≤ i → s.mem i = m i
  shorter : s.np ≤ sp

namespace Fresh

variable {m : ℕ → Byte} {out : List Byte} {left sp : ℕ} {s : Nstr}

theorem put (h : Fresh m out (left + 1) sp s) (b : Byte) :
    Fresh m (out ++ [b]) left (sp + 1) (s.put b) := by
  refine ⟨h.holds.put b, (h.holds.inside_put b).trans h.inside, fun i hi => ?_, ?_⟩
  · have hi' : s.np + 1 ≤ i := hi
    show Function.update s.mem s.np b i = m i
    rw [Function.update_of_ne (by omega)]
    exact h.behind i (by omega)
  · have := h.shorter
    show s.np + 1 ≤ sp + 1
    omega

/-- The byte asked for behind a backslash is one of the memory. -/
theorem read (h : Fresh m out (left + 1) sp s) (b : Byte) :
    (s.put b).mem (sp + 1) = m (sp + 1) :=
  (h.put b).behind _ (h.put b).shorter

theorem mono (h : Fresh m out left sp s) {n k : ℕ} (hn : n ≤ left) (hk : sp ≤ k) :
    Fresh m out n k s :=
  ⟨h.holds.mono hn, h.inside, h.behind, h.shorter.trans hk⟩

/-- Without a value, an option writes nothing or the port 0. -/
theorem substitute (h : Fresh m out (left + 2) sp s) {d : Byte} {optr : Option CStr}
    (hd : noOpt.optr d = some optr) :
    ∃ v s', s.substitute (fun _ => some m) (noOpt.bufFits d) optr = some s' ∧
      Fresh m (out ++ v) left (sp + 2) s' ∧ ∀ b ∈ v, b ≠ '%'.toUInt8 ∧ b ≠ 0 := by
  have hfits := bufFits_noOpt d
  have hval : optr = none ∨ optr = some ⟨decimal 0, nul_notMem_decimal 0⟩ := by
    rw [Sopt.optr] at hd
    split_ifs at hd
    all_goals
      first
      | exact Or.inl (Option.some.inj hd).symm
      | exact Or.inr (Option.some.inj hd).symm
  have hin : (s.inside && noOpt.bufFits d) = true := by rw [h.inside, hfits, Bool.and_true]
  have hroom := h.holds.room
  have hsp := h.shorter
  rcases hval with rfl | rfl
  · refine ⟨[], _, rfl, ?_, by simp⟩
    rw [List.append_nil]
    exact ⟨⟨h.holds.text, by show s.np + left < s.slen; omega⟩, hin, h.behind, by
      show s.np ≤ sp + 2; omega⟩
  · have h0 : Holds out 0 { s with inside := s.inside && noOpt.bufFits d } :=
      ⟨h.holds.text, by show s.np + 0 < s.slen; omega⟩
    have hmem : Fresh m out (left + 1) (sp + 1)
        { s with
          mem := fun i => if i < s.slen ∧ i < s.slen - 2 + 1 then s.mem i else m i
          slen := s.slen - 2 + 1
          calls := s.calls + 1
          inside := s.inside && noOpt.bufFits d } := by
      refine ⟨h0.realloc m (by show s.np + (left + 1) < s.slen - 2 + 1; omega), hin, ?_, ?_⟩
      · intro i hi
        dsimp only
        split
        · exact h.behind i hi
        · rfl
      · show s.np ≤ sp + 1
        omega
    exact ⟨['0'.toUInt8], _, rfl, hmem.put _, forall_mem_of_all (by decide)⟩

end Fresh

/-- A character that is no `%` is copied, a backslash too where the memory is zero. -/
theorem substLoop_put (m : ℕ → Byte) {c : Byte} (hper : c ≠ '%'.toUInt8) (rest : List Byte)
    {left sp : ℕ} {out : List Byte} {s : Nstr} (hzero : m (sp + 1) = 0)
    (h : Fresh m out (left + 1) sp s) :
    substLoop (fun _ => some m) noOpt (c :: rest) sp s =
      substLoop (fun _ => some m) noOpt rest (sp + 1) (s.put c) := by
  by_cases hesc : c = '\\'.toUInt8
  · have hread : (s.put c).mem (sp + 1) = 0 := by rw [h.read, hzero]
    rw [substLoop.eq_def]
    dsimp only
    rw [if_neg hper, if_pos hesc, if_pos hread]
  · exact substLoop_copy hper hesc _ _ _

/-- One turn over such memory, on a character before `w`; it writes `v`. -/
theorem substLoop_fresh_turn (m : ℕ → Byte) {w : List Byte}
    (hw : w = [] ∨ ∃ t, w = '\\'.toUInt8 :: t) {c : Byte} {rest : List Byte} (sp : ℕ)
    {out : List Byte} {s : Nstr} (hu : (0 : Byte) ∉ c :: rest) (hzero : m (sp + 1) = 0)
    (h : Fresh m out ((c :: rest).length + w.length) sp s) :
    ∃ v u' sp' s', substLoop (fun _ => some m) noOpt (c :: rest ++ w) sp s =
        substLoop (fun _ => some m) noOpt (u' ++ w) sp' s' ∧
      u' <:+ rest ∧ sp' + u'.length = sp + (c :: rest).length ∧
      Fresh m (out ++ v) (u'.length + w.length) sp' s' ∧ ∀ b ∈ v, b ≠ '%'.toUInt8 ∧ b ≠ 0 := by
  by_cases hper : c = '%'.toUInt8
  · subst hper
    rcases rest with _ | ⟨d, t⟩
    · -- the `%` is dropped before a backslash, and at the end
      refine ⟨[], [], sp + 1, s, ?_, List.suffix_rfl, rfl, ?_, by simp⟩
      · rcases hw with rfl | ⟨t, rfl⟩
        · rfl
        · rfl
      · rw [List.append_nil]
        exact h.mono (by simp) (by omega)
    · rw [List.cons_append, List.cons_append, substLoop_pair]
      rcases hd : noOpt.optr d with _ | optr
      · refine ⟨[], d :: t, sp + 1, s, rfl, List.suffix_rfl, ?_, ?_, by simp⟩
        · simp only [List.length_cons]
          omega
        · rw [List.append_nil]
          exact h.mono (by simp) (by omega)
      · obtain ⟨v, s', hsub, hf, hv⟩ := Fresh.substitute
          (h.mono (show t.length + w.length + 2 ≤ _ by simp only [List.length_cons]; omega) le_rfl)
          hd
        dsimp only
        rw [hsub]
        refine ⟨v, t, sp + 2, s', rfl, List.suffix_cons d t, ?_, hf, hv⟩
        simp only [List.length_cons]
        omega
  · have hput : Fresh m out (rest.length + w.length + 1) sp s :=
      h.mono (by rw [List.length_cons]; omega) le_rfl
    refine ⟨[c], rest, sp + 1, s.put c, substLoop_put m hper _ hzero hput, List.suffix_rfl, ?_,
      hput.put c, fun b hb => ?_⟩
    · rw [List.length_cons]
      omega
    · rw [List.mem_singleton.mp hb]
      exact ⟨hper, (List.ne_and_not_mem_of_not_mem_cons hu).1.symm⟩

/-- Over memory that is zero where it is asked, the string up to `w` is rewritten
without leaving a `%`. -/
theorem substLoop_fresh (m : ℕ → Byte) {w : List Byte} (hw : w = [] ∨ ∃ t, w = '\\'.toUInt8 :: t)
    (u : List Byte) (sp : ℕ) {out : List Byte} {s : Nstr} (hu : (0 : Byte) ∉ u)
    (hzero : ∀ i, sp < i → i ≤ sp + u.length → m i = 0)
    (h : Fresh m out (u.length + w.length) sp s) :
    ∃ v s', substLoop (fun _ => some m) noOpt (u ++ w) sp s =
        substLoop (fun _ => some m) noOpt w (sp + u.length) s' ∧
      Fresh m (out ++ v) w.length (sp + u.length) s' ∧ ∀ b ∈ v, b ≠ '%'.toUInt8 ∧ b ≠ 0 := by
  induction hn : u.length using Nat.strong_induction_on generalizing u sp out s with
  | _ n ih =>
  subst hn
  rcases u with _ | ⟨c, rest⟩
  · refine ⟨[], s, rfl, ?_, by simp⟩
    rw [List.append_nil]
    exact h.mono (by omega) (by omega)
  obtain ⟨v₀, u', sp', s₀, hturn, hsuffix, hsp, hf₀, hv₀⟩ :=
    substLoop_fresh_turn m hw sp hu (hzero _ (by omega) (by rw [List.length_cons]; omega)) h
  have hle := hsuffix.length_le
  rw [List.length_cons] at hsp
  obtain ⟨v, s', hrun, hf, hv⟩ := ih _ (by rw [List.length_cons]; omega) u' sp'
    (fun h0 => hu (List.mem_cons_of_mem c (hsuffix.subset h0)))
    (fun i hi hi' => hzero i (by omega) (by rw [List.length_cons]; omega)) hf₀ rfl
  rw [hsp, ← List.length_cons (a := c)] at hrun hf
  refine ⟨v₀ ++ v, s', hturn.trans hrun, by rwa [← List.append_assoc], fun b hb => ?_⟩
  rcases List.mem_append.mp hb with hb | hb
  · exact hv₀ b hb
  · exact hv b hb

/-- Up to the end of the string. -/
theorem substLoop_zero (m : ℕ → Byte) {str out : List Byte} (sp : ℕ) {s : Nstr}
    (hstr : (0 : Byte) ∉ str) (hout : (0 : Byte) ∉ out)
    (hzero : ∀ i, sp < i → i ≤ sp + str.length → m i = 0) (h : Fresh m out str.length sp s) :
    ∃ v, (substLoop (fun _ => some m) noOpt str sp s).text? = some (out ++ v) ∧
      ∀ b ∈ v, b ≠ '%'.toUInt8 ∧ b ≠ 0 := by
  obtain ⟨v, s', hrun, hf, hv⟩ := substLoop_fresh m (Or.inl rfl) str sp hstr hzero h
  rw [List.append_nil] at hrun
  refine ⟨v, ?_, hv⟩
  have hnul : (0 : Byte) ∉ out ++ v := by
    rw [List.mem_append, not_or]
    exact ⟨hout, fun h0 => (hv 0 h0).2 rfl⟩
  rw [hrun]
  show (SubstEnd.nstr (s'.put 0)).text? = _
  rw [hf.holds.text_end hnul, hf.inside, if_pos rfl]

theorem fresh_start (m : ℕ → Byte) (n : ℕ) : Fresh m [] n 0 ⟨m, n + 1, 0, 1, true⟩ :=
  ⟨⟨rfl, by show 0 + n < n + 1; omega⟩, rfl, fun _ _ => rfl, le_rfl⟩

/-- Behind a bare escape the `%` is copied when the byte asked for is not zero, and
the end of the string is missed. -/
theorem substLoop_bare {m : ℕ → Byte} {w out : List Byte} {sp : ℕ} {s : Nstr}
    (hw : ∀ d t, w = d :: t → d = '%'.toUInt8) (hnul : (0 : Byte) ∉ w) (hout : (0 : Byte) ∉ out)
    (hone : m (sp + 1) ≠ 0) (hzero : ∀ i, sp + 1 < i → m i = 0)
    (h : Fresh m out (w.length + 1) sp s) :
    (substLoop (fun _ => some m) noOpt ('\\'.toUInt8 :: w) sp s).text? = none ∨
      ∃ v, (substLoop (fun _ => some m) noOpt ('\\'.toUInt8 :: w) sp s).text? = some v ∧
        '%'.toUInt8 ∈ v := by
  have hread : (s.put '\\'.toUInt8).mem (sp + 1) ≠ 0 := by
    rw [h.read]
    exact hone
  rcases w with _ | ⟨d, t⟩
  · left
    show (if (s.put '\\'.toUInt8).mem (sp + 1) = 0 then _ else SubstEnd.overread).text? = none
    rw [if_neg hread]
    rfl
  · right
    obtain rfl := hw d t rfl
    rw [substLoop_escape, if_neg hread]
    have hput : Fresh m (out ++ ['\\'.toUInt8] ++ ['%'.toUInt8]) t.length (sp + 2)
        ((s.put '\\'.toUInt8).put '%'.toUInt8) := (Fresh.put h _).put _
    have hnul' : (0 : Byte) ∉ out ++ ['\\'.toUInt8] ++ ['%'.toUInt8] := by
      simp only [List.mem_append, List.mem_singleton, not_or]
      exact ⟨⟨hout, by decide⟩, by decide⟩
    have ht := (List.ne_and_not_mem_of_not_mem_cons hnul).2
    obtain ⟨v, hv, -⟩ := substLoop_zero m (sp + 2) ht hnul' (fun i hi _ => hzero i (by omega)) hput
    exact ⟨_, hv, by simp⟩

/-- A bare escape lets two memories end in different strings. -/
theorem noBareEscape_of_substitutes {str : CStr} (h : ∀ mem, Substitutes str noOpt mem) :
    NoBareEscape str.1 := by
  intro u w hstr
  by_contra hbare
  have hw : ∀ d t, w = d :: t → d = '%'.toUInt8 := by
    intro d t hdt
    by_contra hd
    exact hbare ⟨d, t, hdt, hd⟩
  have hnul := str.2
  rw [hstr, List.mem_append, not_or] at hnul
  obtain ⟨hu, hrest⟩ := hnul
  -- over zeros, no `%` is left
  obtain ⟨v, hv, hclean⟩ := substLoop_zero (fun _ => 0) 0 str.2 List.not_mem_nil
    (fun _ _ _ => rfl) (fresh_start _ _)
  have hexp : expand noOpt str.1 = v := by
    have hzero := (h fun _ _ => 0).symm.trans hv
    rw [List.nil_append] at hzero
    exact Option.some.inj hzero
  -- and one byte behind the backslash lets a `%` through, or the end
  let m : ℕ → Byte := fun i => if i = u.length + 1 then 1 else 0
  have hlen : str.1.length = u.length + ('\\'.toUInt8 :: w).length := by
    rw [hstr, List.length_append]
  obtain ⟨v₀, s', hrun, hf, hv₀⟩ := substLoop_fresh m (Or.inr ⟨w, rfl⟩) u 0 hu
    (fun i _ hi => if_neg (by omega)) (hlen ▸ fresh_start m str.1.length)
  rw [Nat.zero_add] at hrun hf
  have hsub : (substLoop (fun _ => some m) noOpt ('\\'.toUInt8 :: w) u.length s').text? =
      some (expand noOpt str.1) := by
    have hone := h fun _ => m
    rw [Substitutes, substOpt] at hone
    dsimp only at hone
    rw [hlen, hstr, hrun] at hone
    rw [hstr]
    exact hone
  have hout : (0 : Byte) ∉ [] ++ v₀ := fun h0 => (hv₀ 0 (by simpa using h0)).2 rfl
  rcases substLoop_bare hw (List.ne_and_not_mem_of_not_mem_cons hrest).2 hout
    (by simp) (fun i hi => if_neg (by omega)) hf with hover | ⟨v', hv', hmem⟩
  · rw [hover] at hsub
    exact absurd hsub (by simp)
  · rw [hv'] at hsub
    rw [hexp] at hsub
    exact (hclean _ (Option.some.inj hsub ▸ hmem)).1 rfl

/-- **`subst_opt` returns the rewriting of its argument, whatever the memory holds, if
and only if no backslash stands before a `%` or at the end** of that argument.  The
ports that such an argument asks for have to fit in `buf`. -/
theorem subst_opt_iff (str : CStr) :
    ((∀ opt, portsFit opt str.1 = true → ∀ mem, Substitutes str opt mem) ↔
      NoBareEscape str.1) ∧
    (NoBareEscape str.1 → ∀ opt mem, Substitutes str opt mem ↔ portsFit opt str.1 = true) := by
  refine ⟨⟨fun h => ?_, fun h opt hfit mem => (substitutes_iff h opt mem).mpr hfit⟩,
    fun h opt mem => substitutes_iff h opt mem⟩
  exact noBareEscape_of_substitutes fun mem => h noOpt (portsFit_noOpt _) mem

/-- The options of a session on `tun0`. -/
def tunOpt : Sopt :=
  { dev := some ⟨lit "tun0", by decide⟩
    laddr := some ⟨lit "10.0.0.1", by decide⟩
    lport := 5000
    raddr := none
    rport := 0
    host := some ⟨lit "lion", by decide⟩ }

/-- The arguments of a program that is told the device and the port. -/
def upArgs : CStr := ⟨lit "%% -p %P", by decide⟩

theorem subst_opt_upArgs : Substitutes upArgs tunOpt fun _ _ => 7 := by
  have hbare : NoBareEscape upArgs.1 := by
    intro u w h
    have hmem : '\\'.toUInt8 ∈ upArgs.1 := by
      rw [h]
      simp
    exact absurd hmem (by decide)
  exact ((subst_opt_iff upArgs).2 hbare tunOpt _).mpr (by decide +kernel)

/-- An escaped `%` in front of zeros is no longer escaped, and behind a backslash at
the end the walk goes on when the memory is not zero there. -/
theorem subst_opt_bare :
    ¬ Substitutes ⟨lit "\\%d", by decide⟩ tunOpt (fun _ _ => 0) ∧
      ¬ Substitutes ⟨lit "x\\", by decide⟩ tunOpt (fun _ _ => 1) := by
  rw [Substitutes, Substitutes]
  decide

end Vtun
