/-
The server side of the authentication (`auth.c`).

`auth_server` reads messages of a fixed size and answers them in two stages: a
`HOST` line is answered with a challenge, a `CHAL` line is decoded, decrypted
under the password of the host and compared with the challenge.

* `mesgNext_whole` — a message is the next 50 bytes of the stream;
* `authLoop_cases` — the loop either authenticates a host or gives up;
* `auth_server_correct` — a host is returned exactly when the two messages
  authenticate it and its lock could be taken; `OK FLAGS` is sent then and only
  then, and otherwise `ERR` is sent and no lock is taken.
-/
import Vtun.Flags
import Vtun.Lock
import Vtun.TcpProto

namespace Vtun

/-! ### Challenges as text -/

/-- `VTUN_CHAL_SIZE`. -/
def chalSize : ℕ := 16

/-- The bytes of a challenge. -/
abbrev Chal := { bytes : List Byte // bytes.length = chalSize }

/-- A letter of `chr` in `cl2cs`. -/
def chr (n : Byte) : Byte := 'a'.toUInt8 + n

/-- `cl2cs`. -/
def cl2cs (chal : Chal) : List Byte :=
  lit "<" ++
  chal.val.flatMap (fun c : Byte => [chr ((c &&& 0xf0) >>> 4), chr (c &&& 0x0f)]) ++
  lit ">"

/-- The loop of `cs2cl`: two letters make a byte. -/
def cs2clLoop : List Byte → List Byte
  | a :: b :: s => ((a - 'a'.toUInt8) <<< 4 ||| (b - 'a'.toUInt8)) :: cs2clLoop s
  | _ => []

theorem length_cs2clLoop (s : List Byte) : (cs2clLoop s).length = s.length / 2 := by
  induction s using cs2clLoop.induct with
  | case1 a b s ih =>
    simp only [cs2clLoop, List.length_cons, ih]
    omega
  | case2 s hs =>
    rcases s with _ | ⟨a, _ | ⟨b, s⟩⟩
    · rfl
    · simp [cs2clLoop]
    · exact absurd rfl (hs a b s)

/-- `cs2cl`. -/
def cs2cl (str : List Byte) : Option Chal :=
  match strchr str '<'.toUInt8 with
  | none => none
  | some ptr =>
    let s := strtokCut (lit ">") (ptr.drop 1)
    if h : (strtok (lit ">") (ptr.drop 1)).isSome ∧ s.length = chalSize * 2 then
      some ⟨cs2clLoop s, by rw [length_cs2clLoop, h.2, chalSize]⟩
    else none

/-! ### The server -/

/-- `find_host`: `free_host` keeps the records of that name, and the last of them
is returned. -/
def findHost (hosts : List VtunHost) (name : Option (List Byte)) : Option VtunHost :=
  hosts.foldl (fun ff h => if name = some h.host then some h else ff) none

/-- What a run of `auth_server` depends on besides the peer's bytes. -/
structure AuthEnv where
  /-- `VTUN_VER` -/
  ver : List Byte
  /-- `host_list` -/
  hosts : List VtunHost
  /-- what `gen_chal` makes in each turn of the loop -/
  rand : ℕ → Chal
  /-- whether data arrives before the timeout of `readn_t` in each turn -/
  ready : ℕ → Bool
  /-- the answers to the system calls of `lock_host` -/
  ans : ℕ → Answer
  /-- `decrypt_chal`, under a password -/
  decryptChal : List Byte → Chal → Chal

/-- A line sent with `print_p`. -/
inductive Reply
  | version
  | okChal (chal : Chal)
  | okFlags (h : VtunHost)
  | err
  deriving DecidableEq

/-- The message of a line. -/
def Reply.text (ver : List Byte) : Reply → List Byte
  | .version => printP (lit "VTUN server ver " ++ ver ++ lit "\n")
  | .okChal chal => printP (lit "OK CHAL: " ++ cl2cs chal ++ lit "\n")
  | .okFlags h => printP (lit "OK FLAGS: " ++ bf2cf h ++ lit "\n")
  | .err => printP (lit "ERR\n")

/-- `ST_HOST` and `ST_CHAL`. -/
inductive Stage
  | host
  | chal
  deriving DecidableEq

/-- The variables of `auth_server`, with the lines sent, the responses examined
and whether a lock was taken. -/
structure AuthState where
  stage : Stage
  host : Option (List Byte)
  chalReq : Option Chal
  h : Option VtunHost
  sent : List Reply
  examined : List Chal
  took : Bool

/-- The server's state before the first message. -/
def greeting : AuthState := ⟨.host, none, none, none, [.version], [], false⟩

/-- The words of a message. -/
def authTokens (buf : List Byte) : Option (List Byte × List Byte) := do
  let (str1, rest) ← strtok (lit " :") (strtokCut (lit "\r\n") (cstr (buf.take (mesgSize - 1))))
  let (str2, _) ← strtok (lit " :") rest
  some (str1, str2)

/-- The case `ST_CHAL` for a response that was decoded. -/
def examine (env : AuthEnv) (s : AuthState) (chalRes : Chal) : AuthState :=
  match findHost env.hosts s.host with
  -- `break` out of the case, with `h` as `find_host` left it
  | none => { s with h := none }
  | some h =>
    let s := { s with examined := s.examined ++ [chalRes] }
    if s.chalReq = some (env.decryptChal h.passwd chalRes) then
      let r := lockHost h.multi env.ans
      -- the host is locked by another session
      if r.1 < 0 then { s with h := none, took := r.2 }
      else { s with h := some h, took := r.2, sent := s.sent ++ [.okFlags h] }
    else { s with h := none }

/-- The body of the loop; the flag tells whether the loop goes on. -/
def authBody (env : AuthEnv) (turn : ℕ) (s : AuthState) (buf : List Byte) : AuthState × Bool :=
  match authTokens buf with
  | none => (s, false)
  | some (str1, str2) =>
    match s.stage with
    | .host =>
      if str1 = lit "HOST" then
        ({ s with
            host := some str2
            chalReq := some (env.rand turn)
            sent := s.sent ++ [.okChal (env.rand turn)]
            stage := .chal }, true)
      else (s, false)
    | .chal =>
      if str1 = lit "CHAL" then
        match cs2cl str2 with
        | none => (s, false)
        | some chalRes => (examine env s chalRes, false)
      else (s, false)

/-- `readn_t` of a message into `buf`: the buffer and the rest of the stream, if
it returned a positive number. -/
def mesgNext (env : AuthEnv) (turn : ℕ) (fd : Input) (buf : List Byte) :
    Option (List Byte × Input) :=
  if env.ready turn then
    let r := readN fd mesgSize
    if r.1.ret > 0 then some (store buf r.1.bytes, r.2) else none
  else none

/-- The loop of `auth_server`.  A turn that goes on has taken bytes off the
stream, so their number bounds the turns. -/
def authLoop (env : AuthEnv) : ℕ → ℕ → Input → List Byte → AuthState → AuthState
  | 0, _, _, _, s => s
  | n + 1, turn, fd, buf, s =>
    match mesgNext env turn fd buf with
    | none => s
    | some (buf, fd) =>
      match authBody env turn s buf with
      | (s, true) => authLoop env n (turn + 1) fd buf s
      | (s, false) => s

/-- `auth_server`; `buf` is what its buffer holds at first.  The value returned
is the field `h`. -/
def authServer (env : AuthEnv) (fd : Input) (buf : List Byte) : AuthState :=
  let s := authLoop env (fd.data.length + 2) 0 fd buf greeting
  if s.h = none then { s with sent := s.sent ++ [.err] } else s

/-! ### The two messages -/

/-- On a connection that is not cancelled a message is the next 50 bytes of the
stream. -/
theorem mesgNext_whole {env : AuthEnv} {turn : ℕ} {fd fd' : Input} {buf buf' : List Byte}
    (hfd : fd.canceled = false) (hsched : .cancel ∉ fd.sched)
    (h : mesgNext env turn fd buf = some (buf', fd')) :
    buf'.take mesgSize = fd.data.take mesgSize ∧ fd'.data = fd.data.drop mesgSize ∧
      mesgSize ≤ fd.data.length := by
  have hread : readN fd mesgSize = readLoop fd.sched fd.data mesgSize [] := by
    rw [readN, hfd]
    rfl
  simp only [mesgNext, Option.ite_none_right_eq_some, hread, Option.some.injEq, Prod.mk.injEq]
    at h
  obtain ⟨-, hpos, rfl, rfl⟩ := h
  obtain ⟨hlen, hbytes, hdata⟩ := readLoop_pos hsched hpos
  rw [List.nil_append] at hbytes
  refine ⟨?_, hdata, hlen⟩
  have htake : (fd.data.take mesgSize).length = mesgSize := List.length_take_of_le hlen
  calc (store buf (readLoop fd.sched fd.data mesgSize []).1.bytes).take mesgSize
      = (store buf (fd.data.take mesgSize)).take (fd.data.take mesgSize).length := by
        rw [hbytes, htake]
    _ = fd.data.take mesgSize := take_store buf _

/-- The peer's messages authenticate it as the host `h`: a name, and a response
that decrypts to the challenge under the password of the host of that name. -/
def Authenticated (env : AuthEnv) (fd : Input) (buf : List Byte) (h : VtunHost) : Prop :=
  ∃ mesg₁ fd₁ mesg₂ fd₂ name s chalRes,
    mesgNext env 0 fd buf = some (mesg₁, fd₁) ∧ authTokens mesg₁ = some (lit "HOST", name) ∧
    mesgNext env 1 fd₁ mesg₁ = some (mesg₂, fd₂) ∧ authTokens mesg₂ = some (lit "CHAL", s) ∧
    cs2cl s = some chalRes ∧ findHost env.hosts (some name) = some h ∧
    env.rand 0 = env.decryptChal h.passwd chalRes

/-- The server gave up: it sent at most a challenge and took no lock. -/
structure Refused (s : AuthState) : Prop where
  h : s.h = none
  took : s.took = false
  sent : s.sent = [.version] ∨ ∃ chal, s.sent = [.version, .okChal chal]
  examined : s.examined.length ≤ 1

/-- The server's state when it waits for the response. -/
def waiting (env : AuthEnv) (name : List Byte) : AuthState :=
  ⟨.chal, some name, some (env.rand 0), none, [.version, .okChal (env.rand 0)], [], false⟩

/-- What becomes of a decoded response: either it is the right one for a host
that can be locked, or the server gives up. -/
theorem examine_cases (env : AuthEnv) (name : List Byte) (chalRes : Chal) :
    (∃ h, findHost env.hosts (some name) = some h ∧
        env.rand 0 = env.decryptChal h.passwd chalRes ∧ 0 ≤ (lockHost h.multi env.ans).1 ∧
        examine env (waiting env name) chalRes =
          { waiting env name with
            h := some h
            sent := [.version, .okChal (env.rand 0), .okFlags h]
            examined := [chalRes]
            took := (lockHost h.multi env.ans).2 }) ∨
      Refused (examine env (waiting env name) chalRes) ∧
        ∀ h, findHost env.hosts (some name) = some h →
          env.rand 0 = env.decryptChal h.passwd chalRes → (lockHost h.multi env.ans).1 < 0 := by
  have hname : (waiting env name).host = some name := rfl
  have hchal : (waiting env name).chalReq = some (env.rand 0) := rfl
  rcases hfind : findHost env.hosts (some name) with _ | h
  · right
    have heq : examine env (waiting env name) chalRes = waiting env name := by
      rw [examine, hname, hfind]
      rfl
    rw [heq]
    exact ⟨⟨rfl, rfl, Or.inr ⟨_, rfl⟩, Nat.zero_le _⟩, by simp⟩
  by_cases hres : env.rand 0 = env.decryptChal h.passwd chalRes
  · rcases lockHost_cases h.multi env.ans with ⟨hret, -⟩ | ⟨hret, htook⟩
    · left
      refine ⟨h, rfl, hres, by omega, ?_⟩
      simp only [examine, hname, hchal, hfind]
      rw [if_pos (congrArg some hres), if_neg (by omega)]
      rfl
    · right
      have heq : examine env (waiting env name) chalRes =
          { waiting env name with examined := [chalRes] } := by
        simp only [examine, hname, hchal, hfind]
        rw [if_pos (congrArg some hres), if_pos (by omega), htook]
        rfl
      rw [heq]
      refine ⟨⟨rfl, rfl, Or.inr ⟨_, rfl⟩, Nat.le_refl 1⟩, ?_⟩
      rintro h' hh' -
      obtain rfl : h = h' := by simpa using hh'
      omega
  · right
    have heq : examine env (waiting env name) chalRes =
        { waiting env name with examined := [chalRes] } := by
      simp only [examine, hname, hchal, hfind]
      rw [if_neg fun heq => hres (Option.some.inj heq)]
      rfl
    rw [heq]
    refine ⟨⟨rfl, rfl, Or.inr ⟨_, rfl⟩, Nat.le_refl 1⟩, ?_⟩
    rintro h' hh' hres'
    obtain rfl : h = h' := by simpa using hh'
    exact absurd hres' hres

theorem refused_greeting : Refused greeting := ⟨rfl, rfl, Or.inl rfl, Nat.zero_le _⟩

theorem refused_waiting (env : AuthEnv) (name : List Byte) : Refused (waiting env name) :=
  ⟨rfl, rfl, Or.inr ⟨_, rfl⟩, Nat.zero_le _⟩

/-- The loop that waits for the response takes one more turn. -/
theorem authLoop_waiting (env : AuthEnv) (n turn : ℕ) (fd : Input) (buf name : List Byte) :
    authLoop env (n + 1) turn fd buf (waiting env name) =
      match mesgNext env turn fd buf with
      | none => waiting env name
      | some (buf, _) =>
        match authTokens buf with
        | none => waiting env name
        | some (str1, str2) =>
          if str1 = lit "CHAL" then
            match cs2cl str2 with
            | none => waiting env name
            | some chalRes => examine env (waiting env name) chalRes
          else waiting env name := by
  rw [authLoop]
  rcases mesgNext env turn fd buf with _ | ⟨buf', fd'⟩
  · rfl
  dsimp only
  rw [authBody]
  rcases authTokens buf' with _ | ⟨str1, str2⟩
  · rfl
  have hstage : (waiting env name).stage = .chal := rfl
  simp only [hstage]
  by_cases hchal : str1 = lit "CHAL"
  · simp only [if_pos hchal]
    rcases cs2cl str2 with _ | chalRes
    · rfl
    · rfl
  · simp only [if_neg hchal]

/-- Once both messages have been read and decoded, only the host and its
password are in question. -/
theorem authenticated_iff {env : AuthEnv} {fd fd₁ fd₂ : Input} {buf mesg₁ mesg₂ : List Byte}
    {name str2 : List Byte} {chalRes : Chal} (hm₁ : mesgNext env 0 fd buf = some (mesg₁, fd₁))
    (ht₁ : authTokens mesg₁ = some (lit "HOST", name))
    (hm₂ : mesgNext env 1 fd₁ mesg₁ = some (mesg₂, fd₂))
    (ht₂ : authTokens mesg₂ = some (lit "CHAL", str2)) (hc : cs2cl str2 = some chalRes)
    (h : VtunHost) :
    Authenticated env fd buf h ↔
      findHost env.hosts (some name) = some h ∧ env.rand 0 = env.decryptChal h.passwd chalRes := by
  simp [Authenticated, hm₁, ht₁, hm₂, ht₂, hc, -Subtype.exists]

/-- **The outcome of the loop.**  Either the messages authenticate a host whose
lock was taken, or the server gives up and no such host exists. -/
theorem authLoop_cases (env : AuthEnv) (n : ℕ) (fd : Input) (buf : List Byte) :
    (∃ h name chalRes, (∀ h', Authenticated env fd buf h' ↔ h' = h) ∧
        0 ≤ (lockHost h.multi env.ans).1 ∧
        authLoop env (n + 2) 0 fd buf greeting =
          { waiting env name with
            h := some h
            sent := [.version, .okChal (env.rand 0), .okFlags h]
            examined := [chalRes]
            took := (lockHost h.multi env.ans).2 }) ∨
      Refused (authLoop env (n + 2) 0 fd buf greeting) ∧
        ∀ h, Authenticated env fd buf h → (lockHost h.multi env.ans).1 < 0 := by
  rw [authLoop]
  -- The cases are the ways a turn can end, in the order of the source; before the
  -- response is decoded nothing authenticates and nothing has been locked.
  rcases hm₁ : mesgNext env 0 fd buf with _ | ⟨mesg₁, fd₁⟩
  · right
    exact ⟨refused_greeting, by simp [Authenticated, hm₁]⟩
  rcases ht₁ : authTokens mesg₁ with _ | ⟨str1, name⟩
  · right
    simp only [authBody, ht₁]
    exact ⟨refused_greeting, by simp [Authenticated, hm₁, ht₁]⟩
  have hstage : greeting.stage = .host := rfl
  by_cases hhost : str1 = lit "HOST"
  case neg =>
    right
    simp only [authBody, ht₁, hstage, if_neg hhost]
    exact ⟨refused_greeting, by simp [Authenticated, hm₁, ht₁, hhost]⟩
  subst hhost
  -- the server has sent its challenge and reads the response
  have hsecond : (match authBody env 0 greeting mesg₁ with
      | (s, true) => authLoop env (n + 1) (0 + 1) fd₁ mesg₁ s
      | (s, false) => s) = authLoop env (n + 1) 1 fd₁ mesg₁ (waiting env name) := by
    simp only [authBody, ht₁, hstage, if_true]
    rfl
  simp only [hsecond, authLoop_waiting]
  rcases hm₂ : mesgNext env 1 fd₁ mesg₁ with _ | ⟨mesg₂, fd₂⟩
  · right
    exact ⟨refused_waiting env name, by simp [Authenticated, hm₁, ht₁, hm₂]⟩
  rcases ht₂ : authTokens mesg₂ with _ | ⟨str1, str2⟩
  · right
    simp only [ht₂]
    exact ⟨refused_waiting env name, by simp [Authenticated, hm₁, ht₁, hm₂, ht₂]⟩
  by_cases hchal : str1 = lit "CHAL"
  case neg =>
    right
    simp only [ht₂, if_neg hchal]
    exact ⟨refused_waiting env name, by simp [Authenticated, hm₁, ht₁, hm₂, ht₂, hchal]⟩
  subst hchal
  rcases hc : cs2cl str2 with _ | chalRes
  · right
    simp only [ht₂, if_true, hc]
    exact ⟨refused_waiting env name, by simp [Authenticated, hm₁, ht₁, hm₂, ht₂, hc]⟩
  simp only [ht₂, if_true, hc]
  have hiff := authenticated_iff hm₁ ht₁ hm₂ ht₂ hc
  rcases examine_cases env name chalRes with ⟨h, hfind, hres, hlock, heq⟩ | ⟨href, hnone⟩
  · left
    refine ⟨h, name, chalRes, fun h' => ?_, hlock, heq⟩
    rw [hiff, hfind]
    constructor
    · rintro ⟨hh, -⟩
      exact (Option.some.inj hh).symm
    · rintro rfl
      exact ⟨rfl, hres⟩
  · right
    refine ⟨href, fun h hauth => ?_⟩
    obtain ⟨hfind, hres⟩ := (hiff h).mp hauth
    exact hnone h hfind hres

/-- A line that carries a challenge. -/
def Reply.isChal : Reply → Bool
  | .okChal _ => true
  | _ => false

/-- **Authentication is sound and complete.**  Whatever the peer sends, a host is
returned exactly when the first two messages authenticate it and it could be
locked; `OK FLAGS` is sent for that host only; otherwise `ERR` is sent and no
lock is taken.  One challenge is sent at most, and one response examined. -/
theorem auth_server_correct (env : AuthEnv) (fd : Input) (buf : List Byte) :
    (∀ h, (authServer env fd buf).h = some h ↔
      Authenticated env fd buf h ∧ 0 ≤ (lockHost h.multi env.ans).1) ∧
    (∀ h, .okFlags h ∈ (authServer env fd buf).sent ↔ (authServer env fd buf).h = some h) ∧
    (.err ∈ (authServer env fd buf).sent ↔ (authServer env fd buf).h = none) ∧
    ((authServer env fd buf).h = none → (authServer env fd buf).took = false) ∧
    (authServer env fd buf).sent.countP Reply.isChal ≤ 1 ∧
    (authServer env fd buf).examined.length ≤ 1 := by
  rcases authLoop_cases env fd.data.length fd buf with
    ⟨h, name, chalRes, hauth, hlock, heq⟩ | ⟨href, hnone⟩
  · have hserver : authServer env fd buf =
        { waiting env name with
          h := some h
          sent := [.version, .okChal (env.rand 0), .okFlags h]
          examined := [chalRes]
          took := (lockHost h.multi env.ans).2 } := by
      rw [authServer, heq]
      rfl
    rw [hserver]
    refine ⟨fun h' => ?_, fun h' => ?_, by simp, by simp, ?_, Nat.le_refl 1⟩
    · constructor
      · intro hh
        obtain rfl : h = h' := by simpa using hh
        exact ⟨(hauth h).mpr rfl, hlock⟩
      · rintro ⟨hauth', -⟩
        rw [(hauth h').mp hauth']
    · simp [eq_comm]
    · simp [List.countP_cons, Reply.isChal]
  · have hserver : authServer env fd buf =
        { authLoop env (fd.data.length + 2) 0 fd buf greeting with
          sent := (authLoop env (fd.data.length + 2) 0 fd buf greeting).sent ++ [.err] } := by
      rw [authServer]
      exact if_pos href.h
    rw [hserver]
    refine ⟨fun h => ?_, fun h => ?_, ?_, fun _ => href.took, ?_, href.examined⟩
    · constructor
      · intro hh
        simp [href.h] at hh
      · rintro ⟨hauth, hlock⟩
        exact absurd (hnone h hauth) (by omega)
    · rcases href.sent with hsent | ⟨chal, hsent⟩ <;> simp [hsent, href.h]
    · simp [href.h]
    · rcases href.sent with hsent | ⟨chal, hsent⟩ <;> simp [hsent, List.countP_cons, Reply.isChal]

end Vtun
