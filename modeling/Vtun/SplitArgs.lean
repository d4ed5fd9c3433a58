/-
Splitting the arguments of a command (`lib.c`).

`split_args` works in place: a quote or a backslash inside an argument goes away
when the part of the argument in front of it is moved over it, and a space that
ends an argument becomes its NUL.

* `Scan.turn` — what one turn of the loop does to the string in memory;
* `split_args_eq_tokenise` — the arguments are those of the tokeniser, and none
  changes any more once it is complete.
-/
import Vtun.SubstOpt

namespace Vtun

/-! ### The tokeniser -/

/-- The single quote. -/
def quoteByte : Byte := 39

/-- What the bytes of the string stand for. -/
inductive Mark
  /-- A space that separates arguments. -/
  | gap
  /-- The opening or the closing quote of a quoted run. -/
  | quote
  /-- A byte of an argument. -/
  | char (b : Byte)
  deriving DecidableEq, Repr

/-- The marks of a string, behind an opening quote when `quoted`. -/
def marks : Bool → List Byte → List Mark
  | _, [] => []
  | quoted, c :: t =>
    if c = ' '.toUInt8 then (if quoted then .char c else .gap) :: marks quoted t
    else if c = quoteByte then .quote :: marks (!quoted) t
    else if c = '\\'.toUInt8 then
      match t with
      | [] => []
      | d :: t => .char d :: marks quoted t
    else .char c :: marks quoted t
termination_by structural _ t => t

theorem marks_space (q : Bool) (t : List Byte) :
    marks q (' '.toUInt8 :: t) = (if q then .char ' '.toUInt8 else .gap) :: marks q t := by
  rw [marks.eq_def]
  dsimp only
  rw [if_pos rfl]

theorem marks_quote (q : Bool) (t : List Byte) :
    marks q (quoteByte :: t) = .quote :: marks (!q) t := by
  rw [marks.eq_def]
  dsimp only
  rw [if_neg (by decide), if_pos rfl]

theorem marks_escape (q : Bool) (d : Byte) (t : List Byte) :
    marks q ('\\'.toUInt8 :: d :: t) = .char d :: marks q t := rfl

theorem marks_char {c : Byte} (hsp : c ≠ ' '.toUInt8) (hq : c ≠ quoteByte)
    (hesc : c ≠ '\\'.toUInt8) (q : Bool) (t : List Byte) :
    marks q (c :: t) = .char c :: marks q t := by
  rw [marks.eq_def]
  dsimp only
  rw [if_neg hsp, if_neg hq, if_neg hesc]

/-- The bytes among the marks. -/
def chars (ms : List Mark) : List Byte :=
  ms.filterMap fun
    | .char b => some b
    | _ => none

/-- The arguments: what stands between the gaps, where something does. -/
def arguments (ms : List Mark) : List (List Byte) :=
  ((ms.splitOn .gap).filter (· ≠ [])).map chars

/-- The arguments in a string. -/
def tokenise (str : List Byte) : List (List Byte) := arguments (marks false str)

theorem chars_append (ms ns : List Mark) : chars (ms ++ ns) = chars ms ++ chars ns :=
  List.filterMap_append

/-- The argument that `ms` has begun, if it has. -/
def begun (ms : List Mark) : List (List Byte) := if ms = [] then [] else [chars ms]

theorem arguments_gap {ms : List Mark} (h : Mark.gap ∉ ms) (ns : List Mark) :
    arguments (ms ++ .gap :: ns) = begun ms ++ arguments ns := by
  rw [arguments, List.splitOn_append_cons_self_of_not_mem h, List.filter_cons, begun]
  by_cases hms : ms = []
  · rw [if_neg (by simpa using hms), if_pos hms]
    rfl
  · rw [if_pos (by simpa using hms), if_neg hms]
    rfl

theorem arguments_end {ms : List Mark} (h : Mark.gap ∉ ms) : arguments ms = begun ms := by
  rw [arguments, List.splitOn_eq_singleton h, List.filter_cons, begun]
  by_cases hms : ms = []
  · rw [if_neg (by simpa using hms), if_pos hms]
    rfl
  · rw [if_pos (by simpa using hms), if_neg hms]
    rfl

/-! ### split_args -/

/-- `memmove(mem + dst, mem + src, n)`. -/
def memmove (mem : List Byte) (dst src n : ℕ) : List Byte :=
  mem.take dst ++ (mem.drop src).take n ++ mem.drop (dst + n)

/-- `mode`: 0 between arguments, 1 in one, 2 in one and behind an opening quote. -/
inductive ArgMode
  | outside
  | plain
  | quoted
  deriving DecidableEq, Repr

/-- The memory of the string with its NUL, and the variables of `split_args`.
Pointers are indices. -/
structure SplitState where
  mem : List Byte
  str : ℕ
  argv : ℕ → ℕ
  i : ℕ
  mode : ArgMode

namespace SplitState

/-- `argv[i] = p`. -/
def setArg (s : SplitState) (p : ℕ) : SplitState :=
  { s with argv := Function.update s.argv s.i p }

/-- The argument scanned so far moves over the byte behind it. -/
def shift (s : SplitState) : SplitState :=
  { s with mem := memmove s.mem (s.argv s.i + 1) (s.argv s.i) (s.str - s.argv s.i) }.setArg
    (s.argv s.i + 1)

/-- `str++`. -/
def next (s : SplitState) : SplitState := { s with str := s.str + 1 }

/-- The body of the `default` case, and the `str++` behind the switch. -/
def literal (s : SplitState) : SplitState :=
  if s.mode = .outside then { s.setArg s.str with mode := .plain }.next else s.next

/-- The argument `k`, as it is in memory. -/
def arg (s : SplitState) (k : ℕ) : List Byte := cstr (s.mem.drop (s.argv k))

end SplitState

/-- One turn of the loop, at the byte `c`; `none` when it reads behind the memory. -/
def splitTurn (s : SplitState) (c : Byte) : Option SplitState :=
  if c = ' '.toUInt8 then
    if s.mode = .plain then
      some { s with mem := s.mem.set s.str 0, mode := .outside, i := s.i + 1 }.next
    else some s.next
  else if c = quoteByte then
    match s.mode with
    | .outside => some { s.setArg (s.str + 1) with mode := .quoted }.next
    | .plain => some { s.shift with mode := .quoted }.next
    | .quoted => some { s.shift with mode := .plain }.next
  else if c = '\\'.toUInt8 then
    let s := if s.mode = .outside then s.next else s.shift.next
    -- `if( !*(++str) ) continue;`
    match s.mem[s.str]? with
    | none => none
    | some d => if d = 0 then some s else some s.literal
  else some s.literal

/-- The loop: `none` when the turns run out, or when it reads behind the memory. -/
def splitLoop : ℕ → SplitState → Option SplitState
  | 0, _ => none
  | fuel + 1, s =>
    match s.mem[s.str]? with
    | none => none
    | some c =>
      if c = 0 then some s
      else
        match splitTurn s c with
        | none => none
        | some s => splitLoop fuel s

/-- The state in which `split_args` starts on `str`; what `argv` holds before does
not matter. -/
def splitStart (str : CStr) (argv : ℕ → ℕ) : SplitState := ⟨str.1 ++ [0], 0, argv, 0, .outside⟩

/-- The arguments in front of the NULL that ends `argv`. -/
def SplitState.args (s : SplitState) : List (List Byte) :=
  (List.range (if s.mode = .outside then s.i else s.i + 1)).map s.arg

/-- `split_args`, and the arguments read through `argv` afterwards. -/
def splitArgs (str : Option CStr) (argv : ℕ → ℕ) : Option (List (List Byte)) :=
  match str with
  | none => some []
  | some str => (splitLoop (str.1.length + 1) (splitStart str argv)).map SplitState.args

/-- The states that the loop passes on `str`. -/
inductive Passes (str : CStr) (argv : ℕ → ℕ) : SplitState → Prop
  | start : Passes str argv (splitStart str argv)
  | turn {s s' : SplitState} {c : Byte} (h : Passes str argv s) (hc : s.mem[s.str]? = some c)
      (hne : c ≠ 0) (ht : splitTurn s c = some s') : Passes str argv s'

/-! ### What one turn does -/

/-- The memory is what is settled (`front`), the bytes of the argument begun by `ms`,
and what is left of the string with its NUL; the arguments `done` are complete,
with their NULs, in `front`. -/
structure Scan (front : List Byte) (done : List (List Byte)) (ms : List Mark) (t : List Byte)
    (s : SplitState) : Prop where
  mem : s.mem = front ++ (chars ms ++ (t ++ [0]))
  str : s.str = front.length + (chars ms).length
  count : done.length = s.i
  complete : ∀ k w, done[k]? = some w → (0 : Byte) ∉ w ∧
    ∃ tail, front.drop (s.argv k) = w ++ 0 :: tail
  outside : s.mode = .outside ↔ ms = []
  start : ms ≠ [] → s.argv s.i = front.length
  gap : Mark.gap ∉ ms
  nul : (0 : Byte) ∉ chars ms ++ t

/-- The argument moves over the byte behind it, and its own first byte, or that byte
where the argument is still empty, stays in front of it. -/
theorem memmove_shift (front acc rest : List Byte) (c : Byte) :
    ∃ x, memmove (front ++ (acc ++ c :: rest)) (front.length + 1) front.length acc.length =
      front ++ [x] ++ (acc ++ rest) := by
  have htake : front.take (front.length + 1) = front := List.take_of_length_le (by omega)
  have hdrop : ∀ n, front.drop (front.length + 1 + n) = [] := fun n =>
    List.drop_eq_nil_of_le (by omega)
  rcases acc with _ | ⟨x, acc⟩
  · refine ⟨c, ?_⟩
    have hnone := hdrop 0
    rw [Nat.add_zero] at hnone
    simp [memmove, List.take_append, List.drop_append, htake, hnone]
  · refine ⟨x, ?_⟩
    have hlen : front.length + 1 + (acc.length + 1) - front.length = (acc.length + 1) + 1 := by
      omega
    have hacc : acc.drop (acc.length + 1) = [] := List.drop_eq_nil_of_le (by omega)
    simp [memmove, List.take_append, List.drop_append, htake, hdrop, hlen, hacc]

namespace Scan

variable {front : List Byte} {done : List (List Byte)} {ms : List Mark} {t : List Byte} {c : Byte}
  {s : SplitState}

/-- The byte under `str`. -/
theorem read (h : Scan front done ms t s) : s.mem[s.str]? = (t ++ [0])[0]? := by
  rw [h.mem, h.str, ← List.append_assoc, List.getElem?_append_right (by simp),
    List.length_append, Nat.sub_self]

/-- What is complete stays so when more is settled. -/
theorem complete_append (h : Scan front done ms t s) (more : List Byte) {k : ℕ} {w : List Byte}
    (hk : done[k]? = some w) :
    (0 : Byte) ∉ w ∧ ∃ tail, (front ++ more).drop (s.argv k) = w ++ 0 :: tail := by
  obtain ⟨hw, tail, htail⟩ := h.complete k w hk
  have hle : s.argv k ≤ front.length := by
    by_contra hgt
    rw [List.drop_eq_nil_of_le (by omega)] at htail
    simp at htail
  refine ⟨hw, tail ++ more, ?_⟩
  rw [List.drop_append_of_le_length hle, htail, List.append_assoc, List.cons_append]

/-- `argv[i]` is not the pointer of an argument that is complete. -/
theorem ne_of_complete (h : Scan front done ms t s) {k : ℕ} {w : List Byte}
    (hk : done[k]? = some w) : k ≠ s.i := by
  have hlt : k < done.length := (List.getElem?_eq_some_iff.mp hk).1
  rw [h.count] at hlt
  omega

theorem notMem_tail (h : Scan front done ms (c :: t) s) : (0 : Byte) ∉ t := by
  have hnul := h.nul
  simp only [List.mem_append, List.mem_cons, not_or] at hnul
  exact hnul.2.2

theorem ne_nul (h : Scan front done ms (c :: t) s) : c ≠ 0 := by
  have hnul := h.nul
  simp only [List.mem_append, List.mem_cons, not_or] at hnul
  exact fun h0 => hnul.2.1 h0.symm

/-- Between arguments a byte is passed. -/
theorem pass (h : Scan front done [] (c :: t) s) : Scan (front ++ [c]) done [] t s.next where
  mem := by
    show s.mem = _
    rw [h.mem]
    simp [chars]
  str := by
    show s.str + 1 = _
    rw [h.str]
    simp [chars]
  count := h.count
  complete := fun k w hk => h.complete_append [c] hk
  outside := h.outside
  start := fun hne => absurd rfl hne
  gap := List.not_mem_nil
  nul := h.notMem_tail

/-- A literal byte goes to the argument, or begins one. -/
theorem literal (h : Scan front done ms (c :: t) s) :
    Scan front done (ms ++ [.char c]) t s.literal := by
  have hmem : s.mem = front ++ (chars (ms ++ [.char c]) ++ (t ++ [0])) := by
    rw [h.mem, chars_append]
    simp [chars]
  have hstr : s.str + 1 = front.length + (chars (ms ++ [.char c])).length := by
    rw [h.str, chars_append, List.length_append]
    rfl
  have hgap : Mark.gap ∉ ms ++ [.char c] := by
    rw [List.mem_append, not_or]
    exact ⟨h.gap, by simp⟩
  have hnul : (0 : Byte) ∉ chars (ms ++ [.char c]) ++ t := by
    have hall := h.nul
    rw [chars_append]
    simpa [chars] using hall
  rw [SplitState.literal]
  by_cases hout : s.mode = .outside
  · obtain rfl := h.outside.mp hout
    rw [if_pos hout]
    refine ⟨hmem, hstr, h.count, fun k w hk => ?_, ?_, fun _ => ?_, hgap, hnul⟩
    · show _ ∧ ∃ tail, front.drop (Function.update s.argv s.i s.str k) = _
      rw [Function.update_of_ne (h.ne_of_complete hk)]
      exact h.complete k w hk
    · simp [SplitState.next]
    · show Function.update s.argv s.i s.str s.i = front.length
      rw [Function.update_self, h.str]
      rfl
  · have hne : ms ≠ [] := fun hnil => hout (h.outside.mpr hnil)
    rw [if_neg hout]
    refine ⟨hmem, hstr, h.count, h.complete, ?_, fun _ => h.start hne, hgap, hnul⟩
    exact ⟨fun hmode => absurd hmode hout, fun hnil => absurd hnil (by simp)⟩

/-- A byte taken out of the argument. -/
theorem shift (h : Scan front done ms (c :: t) s) (hne : ms ≠ []) :
    ∃ x, Scan (front ++ [x]) done ms t s.shift.next := by
  obtain ⟨x, hx⟩ := memmove_shift front (chars ms) (t ++ [0]) c
  have hmove : memmove s.mem (s.argv s.i + 1) (s.argv s.i) (s.str - s.argv s.i) =
      front ++ [x] ++ (chars ms ++ (t ++ [0])) := by
    have hlen : s.str - front.length = (chars ms).length := by
      rw [h.str]
      omega
    rw [h.start hne, hlen, h.mem]
    exact hx
  refine ⟨x, hmove, ?_, h.count, fun k w hk => ?_, h.outside, fun _ => ?_, h.gap, ?_⟩
  · show s.str + 1 = _
    rw [h.str, List.length_append, List.length_singleton]
    omega
  · show _ ∧ ∃ tail, (front ++ [x]).drop (Function.update s.argv s.i _ k) = _
    rw [Function.update_of_ne (h.ne_of_complete hk)]
    exact h.complete_append [x] hk
  · show Function.update s.argv s.i (s.argv s.i + 1) s.i = _
    rw [Function.update_self, h.start hne, List.length_append, List.length_singleton]
  · have hall := h.nul
    simp only [List.mem_append, List.mem_cons, not_or] at hall ⊢
    exact ⟨hall.1, hall.2.2⟩

/-- A quote joins the argument, and switches between its two modes. -/
theorem quote {m : ArgMode} (h : Scan front done ms t s) (hne : ms ≠ []) (hm : m ≠ .outside) :
    Scan front done (ms ++ [.quote]) t { s with mode := m } := by
  have hchars : chars (ms ++ [.quote]) = chars ms := by
    rw [chars_append]
    exact List.append_nil _
  refine ⟨?_, ?_, h.count, h.complete, ?_, fun _ => h.start hne, ?_, ?_⟩
  · rw [hchars]
    exact h.mem
  · rw [hchars]
    exact h.str
  · exact ⟨fun hmode => absurd hmode hm, fun hnil => absurd hnil (by simp)⟩
  · rw [List.mem_append, not_or]
    exact ⟨h.gap, by simp⟩
  · rw [hchars]
    exact h.nul

/-- A quote begins an argument. -/
theorem open_quote (h : Scan front done [] (c :: t) s) :
    Scan (front ++ [c]) done [.quote] t { s.setArg (s.str + 1) with mode := .quoted }.next := by
  have hp := h.pass
  refine ⟨hp.mem, hp.str, h.count, fun k w hk => ?_, by simp [SplitState.next], fun _ => ?_,
    by simp, hp.nul⟩
  · show _ ∧ ∃ tail, (front ++ [c]).drop (Function.update s.argv s.i _ k) = _
    rw [Function.update_of_ne (h.ne_of_complete hk)]
    exact h.complete_append [c] hk
  · show Function.update s.argv s.i (s.str + 1) s.i = _
    rw [Function.update_self]
    exact hp.str

/-- The NUL that ends an argument. -/
theorem close (h : Scan front done ms (c :: t) s) (hne : ms ≠ []) :
    Scan (front ++ chars ms ++ [0]) (done ++ [chars ms]) [] t
      { s with mem := s.mem.set s.str 0, mode := .outside, i := s.i + 1 }.next := by
  have hchars : (0 : Byte) ∉ chars ms := fun h0 => h.nul (List.mem_append_left _ h0)
  refine ⟨?_, ?_, ?_, fun k w hk => ?_, by simp [SplitState.next], by simp, List.not_mem_nil,
    h.notMem_tail⟩
  · show s.mem.set s.str 0 = _
    rw [h.mem, h.str, ← List.append_assoc, List.set_append_right _ _ (by simp)]
    simp [chars]
  · show s.str + 1 = _
    rw [h.str]
    simp [chars]
    omega
  · show (done ++ [chars ms]).length = s.i + 1
    rw [List.length_append, h.count, List.length_singleton]
  · show _ ∧ ∃ tail, (front ++ chars ms ++ [0]).drop (s.argv k) = _
    rcases Nat.lt_or_ge k done.length with hlt | hge
    · rw [List.getElem?_append_left hlt] at hk
      rw [List.append_assoc]
      exact h.complete_append _ hk
    · rw [List.getElem?_append_right hge] at hk
      rw [List.getElem?_singleton] at hk
      split_ifs at hk with hlast
      obtain rfl := Option.some.inj hk
      have hk' : k = s.i := by
        have := h.count
        omega
      rw [hk', h.start hne, List.append_assoc, List.drop_left]
      exact ⟨hchars, [], rfl⟩

end Scan

/-- `argv` and what is left of the string come to the arguments `all` when the loop
goes on from here, with `n` bytes to go. -/
def ComesTo (all : List (List Byte)) (n : ℕ) (s : SplitState) : Prop :=
  ∃ front done ms t, Scan front done ms t s ∧ t.length = n ∧
    done ++ arguments (ms ++ marks (decide (s.mode = .quoted)) t) = all

theorem literal_quoted (s : SplitState) :
    decide (s.literal.mode = .quoted) = decide (s.mode = .quoted) := by
  rw [SplitState.literal]
  by_cases hout : s.mode = .outside
  · rw [if_pos hout, hout]
    rfl
  · rw [if_neg hout]
    rfl

/-- A literal byte, with its mark. -/
theorem Scan.comesTo_literal {front : List Byte} {done : List (List Byte)} {ms : List Mark}
    {t : List Byte} {c : Byte} {s : SplitState} (h : Scan front done ms (c :: t) s) :
    ComesTo (done ++ arguments (ms ++ .char c :: marks (decide (s.mode = .quoted)) t)) t.length
      s.literal := by
  refine ⟨front, done, _, t, h.literal, rfl, ?_⟩
  rw [literal_quoted, List.append_assoc, List.singleton_append]

/-- A turn on the byte `c` takes at least that byte, and keeps the arguments that the
loop comes to. -/
def TakesTurn (done : List (List Byte)) (ms : List Mark) (c : Byte) (t : List Byte)
    (s : SplitState) : Prop :=
  ∃ s' n, splitTurn s c = some s' ∧ n ≤ t.length ∧
    ComesTo (done ++ arguments (ms ++ marks (decide (s.mode = .quoted)) (c :: t))) n s'

section Turn

variable {front : List Byte} {done : List (List Byte)} {ms : List Mark} {t : List Byte}
  {s : SplitState}

theorem Scan.turn_space (h : Scan front done ms (' '.toUInt8 :: t) s) :
    TakesTurn done ms ' '.toUInt8 t s := by
  rw [TakesTurn, splitTurn, if_pos rfl, marks_space]
  rcases hm : s.mode with _ | _ | _
  · -- a space between arguments
    obtain rfl := h.outside.mp hm
    refine ⟨s.next, t.length, rfl, le_rfl, _, done, [], t, h.pass, rfl, ?_⟩
    show done ++ arguments (marks (decide (s.mode = .quoted)) t) =
      done ++ arguments ([] ++ .gap :: marks false t)
    rw [hm, arguments_gap List.not_mem_nil]
    rfl
  · -- the space that ends one
    have hne : ms ≠ [] := fun hnil => by simpa [hm] using h.outside.mpr hnil
    refine ⟨_, t.length, rfl, le_rfl, _, _, [], t, h.close hne, rfl, ?_⟩
    show done ++ [chars ms] ++ arguments (marks false t) =
      done ++ arguments (ms ++ .gap :: marks false t)
    rw [arguments_gap h.gap, begun, if_neg hne, List.append_assoc]
  · -- and one in quotes
    have hlit := h.comesTo_literal
    rw [hm] at hlit
    have hnext : s.literal = s.next := by
      rw [SplitState.literal, if_neg (by rw [hm]; decide)]
    rw [hnext] at hlit
    exact ⟨s.next, t.length, rfl, le_rfl, hlit⟩

theorem Scan.turn_quote (h : Scan front done ms (quoteByte :: t) s) :
    TakesTurn done ms quoteByte t s := by
  rw [TakesTurn, splitTurn, if_neg (by decide), if_pos rfl, marks_quote]
  rcases hm : s.mode with _ | _ | _
  · obtain rfl := h.outside.mp hm
    exact ⟨_, t.length, rfl, le_rfl, _, done, _, t, h.open_quote, rfl, rfl⟩
  all_goals
    have hne : ms ≠ [] := fun hnil => by simpa [hm] using h.outside.mpr hnil
    obtain ⟨x, hs⟩ := h.shift hne
  · refine ⟨_, t.length, rfl, le_rfl, _, done, _, t, hs.quote hne (m := .quoted) (by decide),
      rfl, ?_⟩
    rw [List.append_assoc]
    rfl
  · refine ⟨_, t.length, rfl, le_rfl, _, done, _, t, hs.quote hne (m := .plain) (by decide),
      rfl, ?_⟩
    rw [List.append_assoc]
    rfl

/-- The backslash is taken out, and the mode stays. -/
theorem Scan.escape (h : Scan front done ms ('\\'.toUInt8 :: t) s) :
    ∃ front' s₁, (if s.mode = .outside then s.next else s.shift.next) = s₁ ∧
      Scan front' done ms t s₁ ∧ s₁.mode = s.mode := by
  by_cases hout : s.mode = .outside
  · obtain rfl := h.outside.mp hout
    rw [if_pos hout]
    exact ⟨_, _, rfl, h.pass, rfl⟩
  · have hne : ms ≠ [] := fun hnil => hout (h.outside.mpr hnil)
    obtain ⟨x, hs⟩ := h.shift hne
    rw [if_neg hout]
    exact ⟨_, _, rfl, hs, rfl⟩

/-- What is behind the backslash is taken with it, as it is. -/
theorem Scan.turn_escape (h : Scan front done ms ('\\'.toUInt8 :: t) s) :
    TakesTurn done ms '\\'.toUInt8 t s := by
  rw [TakesTurn, splitTurn, if_neg (by decide), if_neg (by decide), if_pos rfl]
  obtain ⟨front', s₁, hs₁, hscan, hmode⟩ := h.escape
  dsimp only
  rw [hs₁, hscan.read, ← hmode]
  rcases t with _ | ⟨d, t⟩
  · exact ⟨s₁, 0, rfl, le_rfl, front', done, ms, [], hscan, rfl, rfl⟩
  · refine ⟨s₁.literal, t.length, ?_, by simp, ?_⟩
    · show (if d = 0 then some s₁ else some s₁.literal) = _
      rw [if_neg hscan.ne_nul]
    · rw [marks_escape]
      exact hscan.comesTo_literal

/-- **One turn of the loop**, whatever the byte. -/
theorem Scan.turn {c : Byte} (h : Scan front done ms (c :: t) s) : TakesTurn done ms c t s := by
  by_cases hsp : c = ' '.toUInt8
  · subst hsp
    exact h.turn_space
  by_cases hq : c = quoteByte
  · subst hq
    exact h.turn_quote
  by_cases hesc : c = '\\'.toUInt8
  · subst hesc
    exact h.turn_escape
  rw [TakesTurn, splitTurn, if_neg hsp, if_neg hq, if_neg hesc, marks_char hsp hq hesc]
  exact ⟨s.literal, t.length, rfl, le_rfl, h.comesTo_literal⟩

end Turn

/-! ### Whole runs -/

/-- An argument that is complete is read as such. -/
theorem Scan.arg {front : List Byte} {done : List (List Byte)} {ms : List Mark} {t : List Byte}
    {s : SplitState} (h : Scan front done ms t s) {k : ℕ} {w : List Byte}
    (hk : done[k]? = some w) : s.arg k = w := by
  obtain ⟨hw, tail, htail⟩ := h.complete_append (chars ms ++ (t ++ [0])) hk
  rw [SplitState.arg, h.mem, htail, cstr_nul hw]

/-- At the NUL, the arguments are those that are complete and the one begun. -/
theorem Scan.args_end {front : List Byte} {done : List (List Byte)} {ms : List Mark}
    {s : SplitState} (h : Scan front done ms [] s) : s.args = done ++ begun ms := by
  have hdone : (List.range s.i).map s.arg = done := by
    rw [← h.count]
    refine List.ext_getElem (by simp) fun k hk hk' => ?_
    rw [List.getElem_map, List.getElem_range]
    exact h.arg (List.getElem?_eq_getElem hk')
  rw [SplitState.args, begun]
  by_cases hout : s.mode = .outside
  · rw [if_pos hout, if_pos (h.outside.mp hout), hdone, List.append_nil]
  · have hne : ms ≠ [] := fun hnil => hout (h.outside.mpr hnil)
    have hlast : s.arg s.i = chars ms := by
      have hnul := h.nul
      rw [List.append_nil] at hnul
      rw [SplitState.arg, h.mem, h.start hne, List.drop_left]
      exact cstr_nul hnul []
    rw [if_neg hout, if_neg hne, List.range_succ, List.map_append, List.map_singleton, hdone,
      hlast]

theorem scan_start (str : CStr) (argv : ℕ → ℕ) : Scan [] [] [] str.1 (splitStart str argv) where
  mem := rfl
  str := rfl
  count := rfl
  complete := fun k w hk => by simp at hk
  outside := ⟨fun _ => rfl, fun _ => rfl⟩
  start := fun hne => absurd rfl hne
  gap := List.not_mem_nil
  nul := str.2

theorem comesTo_start (str : CStr) (argv : ℕ → ℕ) :
    ComesTo (tokenise str.1) str.1.length (splitStart str argv) :=
  ⟨_, _, _, _, scan_start str argv, rfl, rfl⟩

/-- The loop ends, and with the arguments it comes to. -/
theorem ComesTo.loop {all : List (List Byte)} (fuel : ℕ) : ∀ {n : ℕ} {s : SplitState},
    ComesTo all n s → n < fuel → ∃ s', splitLoop fuel s = some s' ∧ s'.args = all := by
  induction fuel with
  | zero =>
    intro n s _ hn
    exact absurd hn (Nat.not_lt_zero n)
  | succ fuel ih =>
    rintro n s ⟨front, done, ms, t, h, rfl, rfl⟩ hn
    rw [splitLoop, h.read]
    rcases t with _ | ⟨c, t⟩
    · refine ⟨s, rfl, ?_⟩
      rw [h.args_end]
      show done ++ begun ms = done ++ arguments (ms ++ [])
      rw [List.append_nil, arguments_end h.gap]
    · obtain ⟨s', n', hturn, hle, hcomes⟩ := h.turn
      obtain ⟨s'', hloop, hargs⟩ := ih hcomes (by rw [List.length_cons] at hn; omega)
      refine ⟨s'', ?_, hargs⟩
      show (if c = 0 then some s else _) = _
      rw [if_neg h.ne_nul, hturn]
      exact hloop

/-- Every state that the loop passes comes to the arguments of the tokeniser. -/
theorem Passes.comesTo {str : CStr} {argv : ℕ → ℕ} {s : SplitState} (h : Passes str argv s) :
    ∃ n, ComesTo (tokenise str.1) n s := by
  induction h with
  | start => exact ⟨_, comesTo_start str argv⟩
  | @turn s s' c _ hc hne ht ih =>
    obtain ⟨n, front, done, ms, t, h, -, hall⟩ := ih
    rcases t with _ | ⟨d, t⟩
    · -- the loop is over at the NUL
      rw [h.read] at hc
      exact absurd (Option.some.inj hc).symm hne
    · rw [h.read] at hc
      obtain rfl : d = c := Option.some.inj hc
      obtain ⟨s₁, n₁, ht₁, -, hcomes⟩ := h.turn
      obtain rfl : s₁ = s' := Option.some.inj (ht₁.symm.trans ht)
      rw [hall] at hcomes
      exact ⟨n₁, hcomes⟩

/-- **`split_args` yields the arguments of the tokeniser**, and an argument has its
final bytes from the turn that completes it on. -/
theorem split_args_eq_tokenise (str : CStr) (argv : ℕ → ℕ) :
    splitArgs (some str) argv = some (tokenise str.1) ∧
      ∀ s, Passes str argv s → ∀ k < s.i, (tokenise str.1)[k]? = some (s.arg k) := by
  refine ⟨?_, fun s hs k hk => ?_⟩
  · obtain ⟨s', hloop, hargs⟩ := (comesTo_start str argv).loop (str.1.length + 1) (by omega)
    rw [splitArgs, hloop, Option.map_some, hargs]
  · obtain ⟨n, front, done, ms, t, h, -, hall⟩ := hs.comesTo
    have hlt : k < done.length := by
      rw [h.count]
      exact hk
    have hget := List.getElem?_eq_getElem hlt
    rw [← hall, List.getElem?_append_left hlt, hget, h.arg hget]

/-- Arguments with quotes and escapes. -/
def quotedArgs : CStr := ⟨lit "-c 'a b'\\ c\\' '' '' d\\", by decide⟩

theorem split_args_quoted :
    splitArgs (some quotedArgs) (fun _ => 0) =
      some [lit "-c", lit "a b c'", [], [], lit "d"] :=
  (split_args_eq_tokenise quotedArgs fun _ => 0).1.trans (congrArg some (by decide +kernel))

end Vtun
