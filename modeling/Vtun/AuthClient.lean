/-
The client side of the authentication (`auth.c`).

`auth_client` answers the greeting of the server with the name of its session
and the challenge with a response; the lines go in messages of a fixed size.

* `cs2clOn_eq`, `cl2csOn_eq` — whether `char` is signed makes no difference to
  the text of a challenge;
* `name_intact_iff` — the server looks up the session the client asked for if and
  only if its name leaves room for itself in the message;
* `chal_survives` — challenges and responses come out of their messages as they
  were, so the server's comparison succeeds when the passwords are equal;
* `auth_client_stages` — what the client sends, when it succeeds and when it changes
  the record, for all the messages a server can send.
-/
import Vtun.Auth
import Vtun.CfgLexer

namespace Vtun

/-! ### Characters -/

/-- A `char` as an operand is an `int`, of its own sign. -/
def promote (signed : Bool) (c : Byte) : BitVec 32 :=
  if signed then c.toBitVec.signExtend 32 else c.toBitVec.zeroExtend 32

/-- An `int` stored in a `char`. -/
def narrow (x : BitVec 32) : Byte := UInt8.ofBitVec (x.setWidth 8)

/-- `chr[i]` in `cl2cs`. -/
def chrAt (i : BitVec 32) : Byte := (lit "abcdefghijklmnop").getD i.toNat 0

/-- `cl2cs` where `char` is signed or not. -/
def cl2csOn (signed : Bool) (chal : Chal) : List Byte :=
  lit "<" ++
  chal.val.flatMap (fun c : Byte =>
    [chrAt ((promote signed c &&& 0xf0).sshiftRight 4), chrAt (promote signed c &&& 0x0f)]) ++
  lit ">"

/-- The loop of `cs2cl` where `char` is signed or not. -/
def cs2clLoopOn (signed : Bool) : List Byte → List Byte
  | a :: b :: s =>
    let c := narrow ((promote signed a - promote signed 'a'.toUInt8) <<< 4)
    narrow (promote signed c ||| (promote signed b - promote signed 'a'.toUInt8)) ::
      cs2clLoopOn signed s
  | _ => []

/-- The two letters of a byte are those of its nibbles. -/
theorem chrAt_nibbles (signed : Bool) (c : Byte) :
    chrAt ((promote signed c &&& 0xf0).sshiftRight 4) = chr ((c &&& 0xf0) >>> 4) ∧
      chrAt (promote signed c &&& 0x0f) = chr (c &&& 0x0f) := by
  have htable : ∀ (signed : Bool) (x : BitVec 8),
      chrAt ((promote signed ⟨x⟩ &&& 0xf0).sshiftRight 4) =
          chr (((⟨x⟩ : Byte) &&& 0xf0) >>> 4) ∧
        chrAt (promote signed ⟨x⟩ &&& 0x0f) = chr ((⟨x⟩ : Byte) &&& 0x0f) := by
    decide
  exact htable signed c.toBitVec

/-- What is kept of an `int` does not depend on the sign it was promoted with. -/
theorem narrow_promote (signed : Bool) (c : Byte) :
    narrow (promote signed c) = c ∧
      narrow (promote signed c - promote signed 'a'.toUInt8) = c - 'a'.toUInt8 := by
  have htable : ∀ (signed : Bool) (x : BitVec 8),
      narrow (promote signed ⟨x⟩) = ⟨x⟩ ∧
        narrow (promote signed ⟨x⟩ - promote signed 'a'.toUInt8) =
          (⟨x⟩ : Byte) - 'a'.toUInt8 := by
    decide
  exact htable signed c.toBitVec

theorem narrow_or (x y : BitVec 32) : narrow (x ||| y) = narrow x ||| narrow y := by
  rw [narrow, BitVec.setWidth_or]
  rfl

theorem narrow_shiftLeft (x : BitVec 32) : narrow (x <<< 4) = narrow x <<< 4 := by
  rw [narrow, BitVec.setWidth_shiftLeft_of_le (by decide)]
  rfl

theorem cl2csOn_eq (signed : Bool) (chal : Chal) : cl2csOn signed chal = cl2cs chal := by
  have hpair : (fun c : Byte =>
      [chrAt ((promote signed c &&& 0xf0).sshiftRight 4), chrAt (promote signed c &&& 0x0f)]) =
      fun c : Byte => [chr ((c &&& 0xf0) >>> 4), chr (c &&& 0x0f)] := by
    funext c
    obtain ⟨hhigh, hlow⟩ := chrAt_nibbles signed c
    rw [hhigh, hlow]
  rw [cl2csOn, cl2cs, hpair]

theorem cs2clLoopOn_eq (signed : Bool) (s : List Byte) : cs2clLoopOn signed s = cs2clLoop s := by
  induction s using cs2clLoop.induct with
  | case1 a b s ih =>
    rw [cs2clLoopOn, cs2clLoop, ih]
    rw [narrow_or, (narrow_promote signed _).1, narrow_shiftLeft, (narrow_promote signed a).2,
      (narrow_promote signed b).2]
  | case2 s hs =>
    rcases s with _ | ⟨a, _ | ⟨b, s⟩⟩
    · rfl
    · rfl
    · exact absurd rfl (hs a b s)

/-- `cs2cl` where `char` is signed or not. -/
def cs2clOn (signed : Bool) (str : List Byte) : Option Chal :=
  match strchr str '<'.toUInt8 with
  | none => none
  | some ptr =>
    let s := strtokCut (lit ">") (ptr.drop 1)
    if h : (strtok (lit ">") (ptr.drop 1)).isSome ∧ s.length = chalSize * 2 then
      some ⟨cs2clLoopOn signed s, by
        rw [cs2clLoopOn_eq, length_cs2clLoop, h.2, chalSize]⟩
    else none

theorem cs2clOn_eq (signed : Bool) (str : List Byte) : cs2clOn signed str = cs2cl str := by
  rw [cs2clOn, cs2cl]
  cases strchr str '<'.toUInt8 with
  | none => rfl
  | some ptr =>
    dsimp only
    split
    · exact congrArg some (Subtype.ext (cs2clLoopOn_eq signed _))
    · rfl

/-! ### The client -/

/-- `encrypt_chal`, and `decrypt_chal`, without SSL.  The password is not empty. -/
def xorChal (pwd : List Byte) (chal : Chal) : Chal :=
  ⟨chal.val.mapIdx fun i c => c ^^^ pwd.getD (i % pwd.length) 0, by
    rw [List.length_mapIdx, chal.property]⟩

/-- The message that asks for a session. -/
def hostMesg (host : VtunHost) : List Byte := printP (lit "HOST: " ++ host.host ++ lit "\n")

/-- The message that carries a response. -/
def chalMesg (chal : Chal) : List Byte := printP (lit "CHAL: " ++ cl2cs chal ++ lit "\n")

/-- What a run of `auth_client` depends on besides the server's bytes. -/
structure ClientEnv where
  pf : Platform
  /-- `encrypt_chal`, under a password -/
  encryptChal : List Byte → Chal → Chal
  /-- whether data arrives before the timeout of `readn_t` in each turn -/
  ready : ℕ → Bool

/-- `ST_INIT`, `ST_HOST` and `ST_CHAL`. -/
inductive ClientStage
  | init
  | host
  | chal
  deriving DecidableEq

/-- The variables of `auth_client` and the host record, with the messages sent. -/
structure AuthClient where
  stage : ClientStage
  host : VtunHost
  sent : List (List Byte)
  success : Bool

/-- The string in the buffer, whose last byte is cleared. -/
def mesgText (buf : List Byte) : List Byte := cstr (buf.take (mesgSize - 1))

/-- The body of the loop of `auth_client`; the flag tells whether the loop goes on. -/
def authClientBody (env : ClientEnv) (s : AuthClient) (buf : List Byte) : AuthClient × Bool :=
  let str := mesgText buf
  match s.stage with
  | .init =>
    if str.take 4 = lit "VTUN" then
      ({ s with stage := .host, sent := s.sent ++ [hostMesg s.host] }, true)
    else (s, false)
  | .host =>
    if str.take 2 = lit "OK" then
      match cs2cl str with
      | none => (s, false)
      | some chal =>
        ({ s with
            stage := .chal
            sent := s.sent ++ [chalMesg (env.encryptChal s.host.passwd chal)] }, true)
    else (s, false)
  | .chal =>
    if str.take 2 = lit "OK" then
      -- the record keeps what `cf2bf` has put into it, also when it returns 0
      let r := cf2bf env.pf str s.host
      ({ s with host := r.2, success := r.1 }, false)
    else (s, false)

/-- `readn_t` of a message, as on the side of the server. -/
def clientMesg (ready : ℕ → Bool) (turn : ℕ) (fd : Input) (buf : List Byte) :
    Option (List Byte × Input) :=
  if ready turn then
    let r := readN fd mesgSize
    if r.1.ret > 0 then some (store buf r.1.bytes, r.2) else none
  else none

/-- The loop of `auth_client`.  Every turn that goes on leads to the next stage, so
there are at most three. -/
def authClientLoop (env : ClientEnv) : ℕ → ℕ → Input → List Byte → AuthClient → AuthClient
  | 0, _, _, _, s => s
  | n + 1, turn, fd, buf, s =>
    match clientMesg env.ready turn fd buf with
    | none => s
    | some (buf, fd) =>
      match authClientBody env s buf with
      | (s, true) => authClientLoop env n (turn + 1) fd buf s
      | (s, false) => s

/-- `auth_client`; `buf` is what its buffer holds at first. -/
def authClient (env : ClientEnv) (host : VtunHost) (fd : Input) (buf : List Byte) : AuthClient :=
  authClientLoop env 3 0 fd buf ⟨.init, host, [], false⟩

/-! ### Texts in messages -/

/-- The string the other side finds in a message is the text, as far as it fits. -/
theorem mesgText_printP {text buf : List Byte} (hbuf : buf.take mesgSize = printP text)
    (hnul : (0 : Byte) ∉ text) : mesgText buf = text.take (mesgSize - 2) := by
  have hle : (text.take (mesgSize - 2)).length ≤ mesgSize - 2 := List.length_take_le _ _
  have hcut : buf.take (mesgSize - 1) = text.take (mesgSize - 2) ++
      List.replicate (mesgSize - 1 - (text.take (mesgSize - 2)).length) 0 := by
    have hshort : buf.take (mesgSize - 1) = (buf.take mesgSize).take (mesgSize - 1) := by
      rw [List.take_take]
      rfl
    rw [hshort, hbuf, printP, List.take_append,
      List.take_of_length_le (by simp only [mesgSize] at hle ⊢; omega), List.take_replicate]
    congr 2
    simp only [mesgSize] at hle ⊢
    omega
  rw [mesgText, hcut]
  exact cstr_append (fun h => hnul (List.mem_of_mem_take h)) _

/-- The words of a line `key: word`. -/
theorem authTokens_line {key word line buf : List Byte} (hbuf : mesgText buf = line)
    (hcut : strtokCut (lit "\r\n") line = key ++ lit ": " ++ word)
    (hkey : ∀ b ∈ key, b ∉ lit " :") (hkne : key ≠ []) (hword : ∀ b ∈ word, b ∉ lit " :")
    (hwne : word ≠ []) : authTokens buf = some (key, word) := by
  have hfirst : strtok (lit " :") (key ++ lit ": " ++ word) =
      some (key, lit " " ++ word) := by
    rw [List.append_assoc]
    exact strtok_word hkey hkne (by decide) _
  have hsecond : strtok (lit " :") (lit " " ++ word) = some (word, []) := by
    show strtok (lit " :") (' '.toUInt8 :: word) = _
    rw [strtok_skip (by decide), strtok_last hword hwne]
  rw [mesgText] at hbuf
  rw [authTokens, hbuf, hcut, hfirst]
  show (strtok (lit " :") (lit " " ++ word)).bind _ = _
  rw [hsecond]
  rfl

/-! ### The name of the session -/

/-- The characters of a name the configuration file accepts. -/
def IsName (name : List Byte) : Prop := name ≠ [] ∧ ∀ b ∈ name, isKwordChar b = true

/-- A name has none of the characters that structure a message. -/
theorem IsName.notMem {name : List Byte} (h : IsName name) {b : Byte} (hb : b ∈ name) :
    b ≠ 0 ∧ b ∉ lit "\r\n" ∧ b ∉ lit " :" := by
  have htable : ∀ c : Byte, c = 0 ∨ c ∈ lit "\r\n" ∨ c ∈ lit " :" → isKwordChar c = false := by
    rintro c (rfl | hc | hc)
    · decide
    · rcases List.mem_pair.mp hc with rfl | rfl <;> decide
    · rcases List.mem_pair.mp hc with rfl | rfl <;> decide
  have hchar := h.2 b hb
  refine ⟨fun h0 => ?_, fun hin => ?_, fun hin => ?_⟩
  · rw [htable b (Or.inl h0)] at hchar
    exact absurd hchar (by decide)
  · rw [htable b (Or.inr (Or.inl hin))] at hchar
    exact absurd hchar (by decide)
  · rw [htable b (Or.inr (Or.inr hin))] at hchar
    exact absurd hchar (by decide)

/-- The characters of a name that a message has room for. -/
def nameRoom : ℕ := 42

/-- What `print_p` leaves of the line that asks for a session. -/
theorem take_hostLine (name : List Byte) :
    (lit "HOST: " ++ name ++ lit "\n").take (mesgSize - 2) =
      lit "HOST: " ++ (name ++ lit "\n").take nameRoom := by
  rw [List.append_assoc, List.take_append, List.take_of_length_le (by decide)]
  rfl

/-- **The server reads the name as far as there is room for it.** -/
theorem authTokens_hostMesg {host : VtunHost} (hname : IsName host.host) {buf : List Byte}
    (hbuf : buf.take mesgSize = hostMesg host) :
    authTokens buf = some (lit "HOST", host.host.take nameRoom) := by
  set name := host.host with hn
  have hnul : (0 : Byte) ∉ lit "HOST: " ++ name ++ lit "\n" := by
    have hno : (0 : Byte) ∉ name := fun h => (hname.notMem h).1 rfl
    simp only [List.mem_append, hno, or_false, not_or]
    exact ⟨by decide, by decide⟩
  have hline := mesgText_printP hbuf hnul
  rw [take_hostLine] at hline
  have hhost : ∀ b ∈ lit "HOST: ", b ∉ lit "\r\n" := forall_mem_of_all (by decide)
  refine authTokens_line hline ?_ (forall_mem_of_all (by decide)) (by decide)
    (fun b hb => (hname.notMem (List.mem_of_mem_take hb)).2.2) ?_
  · rcases Nat.lt_or_ge name.length nameRoom with hlt | hge
    -- the end of the line is in the message
    · have hall : (name ++ lit "\n").take nameRoom = name ++ lit "\n" := by
        refine List.take_of_length_le ?_
        rw [List.length_append]
        exact hlt
      rw [hall, List.take_of_length_le hlt.le, ← List.append_assoc]
      refine strtokCut_word ?_ (by simp [lit]) (by decide) []
      intro b hb
      rcases List.mem_append.mp hb with hb | hb
      · exact hhost b hb
      · exact (hname.notMem hb).2.1
    -- it is not
    · rw [List.take_append_of_le_length hge]
      refine strtokCut_last ?_
      intro b hb
      rcases List.mem_append.mp hb with hb | hb
      · exact hhost b hb
      · exact (hname.notMem (List.mem_of_mem_take hb)).2.1
  · intro hempty
    have hnone : name = [] ∨ nameRoom = 0 := by
      rcases List.take_eq_nil_iff.mp hempty with h | h
      · exact Or.inr h
      · exact Or.inl h
    rcases hnone with h | h
    · exact hname.1 h
    · exact absurd h (by decide)

/-- `find_host` returns a record of the name asked for. -/
theorem findHost_host {hosts : List VtunHost} {name : List Byte} {h : VtunHost}
    (hfind : findHost hosts (some name) = some h) : h.host = name := by
  have hfold : ∀ (hosts : List VtunHost) (ff : Option VtunHost),
      (∀ h, ff = some h → h.host = name) → ∀ h,
        hosts.foldl (fun ff h => if some name = some h.host then some h else ff) ff = some h →
          h.host = name := by
    intro hosts
    induction hosts with
    | nil => exact fun ff hff => hff
    | cons g hosts ih =>
      intro ff hff
      refine ih _ fun h hh => ?_
      dsimp only at hh
      split at hh
      · rename_i heq
        rw [← Option.some.inj hh]
        exact (Option.some.inj heq).symm
      · exact hff h hh
  exact hfold hosts none (by simp) h hfind

theorem examine_host (env : AuthEnv) (s : AuthState) (chalRes : Chal) :
    (examine env s chalRes).host = s.host := by
  unfold examine
  dsimp only
  repeat' split
  all_goals rfl

/-- Once the first message has been read, the name in it is the server's. -/
theorem authServer_host {env : AuthEnv} {fd fd' : Input} {buf buf' name : List Byte}
    (hread : mesgNext env 0 fd buf = some (buf', fd'))
    (htok : authTokens buf' = some (lit "HOST", name)) :
    (authServer env fd buf).host = some name := by
  have hstage : greeting.stage = .host := rfl
  have hfirst : authLoop env (fd.data.length + 2) 0 fd buf greeting =
      authLoop env (fd.data.length + 1) 1 fd' buf' (waiting env name) := by
    rw [authLoop, hread]
    simp only [authBody, htok, hstage, if_true]
    rfl
  have hloop : (authLoop env (fd.data.length + 1) 1 fd' buf' (waiting env name)).host =
      some name := by
    rw [authLoop_waiting]
    repeat' split
    · rfl
    · rfl
    · rfl
    · exact examine_host env _ _
    · rfl
  rw [authServer, hfirst]
  split
  · exact hloop
  · exact hloop

/-- What the client has sent stays sent. -/
theorem authClientLoop_sent (env : ClientEnv) (n turn : ℕ) (fd : Input) (buf : List Byte)
    (s : AuthClient) : s.sent <+: (authClientLoop env n turn fd buf s).sent := by
  induction n generalizing turn fd buf s with
  | zero => exact List.prefix_refl _
  | succ n ih =>
    have hbody : ∀ buf, s.sent <+: (authClientBody env s buf).1.sent := by
      intro buf
      unfold authClientBody
      dsimp only
      repeat' split
      all_goals first | exact List.prefix_refl _ | exact List.prefix_append _ _
    rw [authClientLoop]
    split
    · exact List.prefix_refl _
    · rename_i buf' fd' hread
      have hsent := hbody buf'
      split
      · rename_i s' hgo
        rw [hgo] at hsent
        exact hsent.trans (ih _ _ _ _)
      · rename_i s' hgo
        rw [hgo] at hsent
        exact hsent

/-- The first message of the client asks for its session. -/
theorem authClient_first {env : ClientEnv} {host : VtunHost} {fd : Input} {buf m : List Byte}
    (h : (authClient env host fd buf).sent.head? = some m) : m = hostMesg host := by
  rw [authClient, authClientLoop] at h
  split at h
  · exact absurd h (by simp)
  · rename_i buf' fd' hread
    rw [authClientBody] at h
    dsimp only at h
    by_cases hver : (mesgText buf').take 4 = lit "VTUN"
    · rw [if_pos hver] at h
      obtain ⟨t, ht⟩ := authClientLoop_sent env 2 1 fd' buf'
        ⟨.host, host, [] ++ [hostMesg host], false⟩
      dsimp only at h
      rw [← ht] at h
      exact (Option.some.inj h).symm
    · rw [if_neg hver] at h
      exact absurd h (by simp)

/-- **The session name is intact** on its way to the server if and only if the
message has room for it; only then can the host that is found be the one asked
for. -/
theorem name_intact_iff {host : VtunHost} (hname : IsName host.host) {cenv : ClientEnv}
    {cfd : Input} {cbuf m : List Byte} (hm : (authClient cenv host cfd cbuf).sent.head? = some m)
    {env : AuthEnv} {fd fd' : Input} {buf buf' : List Byte} (hfd : fd.canceled = false)
    (hsched : .cancel ∉ fd.sched) (hdata : fd.data.take mesgSize = m)
    (hread : mesgNext env 0 fd buf = some (buf', fd')) :
    ((authServer env fd buf).host = some host.host ↔ host.host.length ≤ nameRoom) ∧
      ∀ h, (authServer env fd buf).h = some h →
        (h.host = host.host ↔ host.host.length ≤ nameRoom) := by
  obtain rfl := authClient_first hm
  have htok := authTokens_hostMesg hname ((mesgNext_whole hfd hsched hread).1.trans hdata)
  have hcut : host.host.take nameRoom = host.host ↔ host.host.length ≤ nameRoom :=
    List.take_eq_self_iff _
  refine ⟨?_, fun h hh => ?_⟩
  · rw [authServer_host hread htok, Option.some.injEq, hcut]
  · obtain ⟨⟨mesg₁, fd₁, mesg₂, fd₂, name, s, chalRes, hread', htok', -, -, -, hfind, -⟩, -⟩ :=
      ((auth_server_correct env fd buf).1 h).mp hh
    obtain ⟨rfl, rfl⟩ : mesg₁ = buf' ∧ fd₁ = fd' := by
      simpa using hread'.symm.trans hread
    have heq := htok'.symm.trans htok
    simp only [Option.some.injEq, Prod.mk.injEq, true_and] at heq
    rw [findHost_host hfind, heq, hcut]

/-- A session of the name `name`. -/
def namedHost (name : List Byte) : VtunHost :=
  { shapedHost with host := name, passwd := lit "ma", multi := .allow }

/-- A challenge of zeros. -/
def zeroChal : Chal := ⟨List.replicate chalSize 0, by decide⟩

/-- A server without SSL that has one session and sends the challenge of zeros. -/
def oneHostEnv (name : List Byte) : AuthEnv :=
  ⟨lit "3.X", [namedHost name], fun _ => zeroChal, fun _ => true, fun _ => .ok, xorChal⟩

/-- A client without SSL. -/
def xorEnv : ClientEnv := ⟨.lp64, xorChal, fun _ => true⟩

/-- What a server gets from a client of the session `name`. -/
def clientInput (name : List Byte) : Input :=
  ⟨hostMesg (namedHost name) ++ chalMesg (xorChal (lit "ma") zeroChal), [], false⟩

/-- What a client gets from that server, up to the challenge. -/
def serverInput : Input :=
  ⟨(Reply.version).text (lit "3.X") ++ (Reply.okChal zeroChal).text (lit "3.X"), [], false⟩

/-- A short name. -/
theorem name_intact_lion :
    (authServer (oneHostEnv (lit "lion")) (clientInput (lit "lion")) []).host =
      some (lit "lion") := by
  have hname : IsName (namedHost (lit "lion")).host :=
    ⟨by decide, forall_mem_of_all (by decide)⟩
  have hm : (authClient xorEnv (namedHost (lit "lion")) serverInput []).sent.head? =
      some (hostMesg (namedHost (lit "lion"))) := by
    set_option maxRecDepth 1000 in
    decide
  have hread : mesgNext (oneHostEnv (lit "lion")) 0 (clientInput (lit "lion")) [] =
      some (hostMesg (namedHost (lit "lion")),
        ⟨chalMesg (xorChal (lit "ma") zeroChal), [], false⟩) := by
    set_option maxRecDepth 1000 in
    decide
  exact (name_intact_iff hname hm rfl (by decide) (by decide) hread).1.mpr (by decide)

/-- **A name that is too long**: the client asks for a session of 43 letters and
is let into the one of 42. -/
theorem name_cut :
    (authClient xorEnv (namedHost (List.replicate 43 97)) serverInput []).sent =
        [hostMesg (namedHost (List.replicate 43 97)), chalMesg (xorChal (lit "ma") zeroChal)] ∧
      (authServer (oneHostEnv (List.replicate 42 97)) (clientInput (List.replicate 43 97)) []).h =
        some (namedHost (List.replicate 42 97)) := by
  refine ⟨?_, by decide +kernel⟩
  set_option maxRecDepth 1000 in
  decide

/-! ### Challenges and responses -/

/-- The letters of a challenge. -/
def letters (bytes : List Byte) : List Byte :=
  bytes.flatMap fun c : Byte => [chr ((c &&& 0xf0) >>> 4), chr (c &&& 0x0f)]

/-- A byte is read back from its two letters, which close no text. -/
theorem nibbles_round_trip (c : Byte) :
    ((chr ((c &&& 0xf0) >>> 4) - 'a'.toUInt8) <<< 4 ||| (chr (c &&& 0x0f) - 'a'.toUInt8)) = c ∧
      ∀ b ∈ [chr ((c &&& 0xf0) >>> 4), chr (c &&& 0x0f)], 'a'.toUInt8 ≤ b := by
  have htable : ∀ x : BitVec 8,
      ((chr (((⟨x⟩ : Byte) &&& 0xf0) >>> 4) - 'a'.toUInt8) <<< 4 |||
          (chr ((⟨x⟩ : Byte) &&& 0x0f) - 'a'.toUInt8)) = ⟨x⟩ ∧
        'a'.toUInt8 ≤ chr (((⟨x⟩ : Byte) &&& 0xf0) >>> 4) ∧
        'a'.toUInt8 ≤ chr ((⟨x⟩ : Byte) &&& 0x0f) := by
    decide
  obtain ⟨hbyte, hhigh, hlow⟩ := htable c.toBitVec
  exact ⟨hbyte, List.forall_mem_cons.mpr ⟨hhigh, List.forall_mem_singleton.mpr hlow⟩⟩

theorem cs2clLoop_letters (bytes : List Byte) : cs2clLoop (letters bytes) = bytes := by
  induction bytes with
  | nil => rfl
  | cons c bytes ih =>
    show cs2clLoop (chr ((c &&& 0xf0) >>> 4) :: chr (c &&& 0x0f) :: letters bytes) = c :: bytes
    rw [cs2clLoop, ih, (nibbles_round_trip c).1]

theorem length_letters (bytes : List Byte) : (letters bytes).length = 2 * bytes.length := by
  induction bytes with
  | nil => rfl
  | cons c bytes ih =>
    show (letters bytes).length + 1 + 1 = _
    rw [ih, List.length_cons]
    omega

/-- The letters are none of the characters that structure a message. -/
theorem letters_notMem {bytes delims : List Byte} (hdelims : ∀ d ∈ delims, d < 'a'.toUInt8) :
    ∀ b ∈ letters bytes, b ∉ delims := by
  intro b hb hin
  obtain ⟨c, -, hc⟩ := List.mem_flatMap.mp hb
  exact absurd ((nibbles_round_trip c).2 b hc) (UInt8.not_le.mpr (hdelims b hin))

theorem cl2cs_eq (chal : Chal) : cl2cs chal = lit "<" ++ letters chal.val ++ lit ">" := rfl

/-- **A challenge is read back from its text**, whatever stands before and behind
it. -/
theorem cs2cl_cl2cs (chal : Chal) (pre : List Byte) (hpre : '<'.toUInt8 ∉ pre)
    (post : List Byte) : cs2cl (pre ++ cl2cs chal ++ post) = some chal := by
  have hlen : (letters chal.val).length = chalSize * 2 := by
    rw [length_letters, chal.property, Nat.mul_comm]
  have hne : letters chal.val ≠ [] := by
    rw [← List.length_pos_iff, hlen]
    decide
  have hword : ∀ b ∈ letters chal.val, b ∉ lit ">" :=
    letters_notMem (forall_mem_of_all (by decide))
  have hstart : (pre ++ cl2cs chal ++ post).dropWhile (· ≠ '<'.toUInt8) =
      '<'.toUInt8 :: (letters chal.val ++ '>'.toUInt8 :: post) := by
    have hsplit : pre ++ cl2cs chal ++ post =
        pre ++ '<'.toUInt8 :: (letters chal.val ++ '>'.toUInt8 :: post) := by
      rw [cl2cs_eq]
      simp only [List.append_assoc]
      rfl
    have hbefore : ∀ b ∈ pre, decide (b ≠ '<'.toUInt8) = true := fun b hb => by
      simpa using fun h : b = '<'.toUInt8 => hpre (h ▸ hb)
    rw [hsplit, List.dropWhile_append_of_pos hbefore, List.dropWhile_cons_of_neg (by simp)]
  have hclose : '>'.toUInt8 ∈ lit ">" := by decide
  rw [cs2cl, strchr, hstart]
  simp only [List.drop_succ_cons, List.drop_zero, strtok_word hword hne hclose,
    strtokCut_word hword hne hclose, hlen, Option.isSome_some, true_and, dite_true,
    cs2clLoop_letters]

/-- A text without NULs that fits into a message is found in it as it is. -/
theorem mesgText_whole {text buf : List Byte} (hbuf : buf.take mesgSize = printP text)
    (hnul : (0 : Byte) ∉ text) (hlen : text.length ≤ mesgSize - 2) : mesgText buf = text := by
  rw [mesgText_printP hbuf hnul, List.take_of_length_le hlen]

/-- A line with a challenge fits into a message. -/
theorem chalLine (pre : List Byte) (hpre : (0 : Byte) ∉ pre) (hlen : pre.length ≤ 10)
    (chal : Chal) :
    (0 : Byte) ∉ pre ++ cl2cs chal ++ lit "\n" ∧
      (pre ++ cl2cs chal ++ lit "\n").length ≤ mesgSize - 2 := by
  have hword : ∀ b ∈ letters chal.val, b ∉ [(0 : Byte)] :=
    letters_notMem (forall_mem_of_all (by decide))
  constructor
  · have hno : (0 : Byte) ∉ letters chal.val := fun h => hword 0 h (by simp)
    rw [cl2cs_eq]
    simp only [List.mem_append, hpre, hno, or_false, false_or, not_or]
    exact ⟨⟨by decide, by decide⟩, by decide⟩
  · rw [cl2cs_eq]
    simp only [List.length_append, length_letters, chal.property, chalSize, mesgSize,
      show (lit "<").length = 1 from rfl, show (lit ">").length = 1 from rfl,
      show (lit "\n").length = 1 from rfl]
    omega

/-- The client reads the challenge in the server's message. -/
theorem cs2cl_okChal {ver buf : List Byte} {chal : Chal}
    (hbuf : buf.take mesgSize = (Reply.okChal chal).text ver) :
    cs2cl (mesgText buf) = some chal ∧ (mesgText buf).take 2 = lit "OK" := by
  obtain ⟨hnul, hlen⟩ := chalLine (lit "OK CHAL: ") (by decide) (by decide) chal
  rw [mesgText_whole hbuf hnul hlen]
  exact ⟨cs2cl_cl2cs chal _ (by decide) _, rfl⟩

/-- The server reads the response in the client's message. -/
theorem authTokens_chalMesg {buf : List Byte} {chal : Chal}
    (hbuf : buf.take mesgSize = chalMesg chal) :
    authTokens buf = some (lit "CHAL", cl2cs chal) := by
  obtain ⟨hnul, hlen⟩ := chalLine (lit "CHAL: ") (by decide) (by decide) chal
  have hcl2cs : ∀ delims : List Byte, (∀ d ∈ delims, d < 'a'.toUInt8) →
      '<'.toUInt8 ∉ delims → '>'.toUInt8 ∉ delims → ∀ b ∈ cl2cs chal, b ∉ delims := by
    intro delims hdelims hopen hclose b hb
    rw [cl2cs_eq] at hb
    rcases List.mem_append.mp hb with hb | hb
    · rcases List.mem_append.mp hb with hb | hb
      · rw [List.mem_singleton.mp hb]
        exact hopen
      · exact letters_notMem hdelims b hb
    · rw [List.mem_singleton.mp hb]
      exact hclose
  have hspace : ∀ b ∈ cl2cs chal, b ∉ lit " :" :=
    hcl2cs _ (forall_mem_of_all (by decide)) (by decide) (by decide)
  have hline : ∀ b ∈ cl2cs chal, b ∉ lit "\r\n" :=
    hcl2cs _ (forall_mem_of_all (by decide)) (by decide) (by decide)
  have hkey : ∀ b ∈ lit "CHAL: ", b ∉ lit "\r\n" := forall_mem_of_all (by decide)
  refine authTokens_line (mesgText_whole hbuf hnul hlen) ?_ (forall_mem_of_all (by decide))
    (by decide) hspace (by rw [cl2cs_eq]; simp [lit])
  refine strtokCut_word ?_ (by simp [lit]) (by decide) []
  intro b hb
  rcases List.mem_append.mp hb with hb | hb
  · exact hkey b hb
  · exact hline b hb

/-- Without SSL, decryption undoes encryption. -/
theorem xorChal_xorChal (pwd : List Byte) (chal : Chal) :
    xorChal pwd (xorChal pwd chal) = chal := by
  refine Subtype.ext ?_
  show (chal.val.mapIdx _).mapIdx _ = chal.val
  rw [List.mapIdx_mapIdx]
  refine List.ext_getElem (by rw [List.length_mapIdx]) fun i h _ => ?_
  rw [List.getElem_mapIdx, Function.comp_apply]
  rw [UInt8.xor_assoc, UInt8.xor_self, UInt8.xor_zero]

/-- The response to a challenge, sent back to a server that waits for it. -/
theorem response_examined {cenv : ClientEnv} {env : AuthEnv} {c : AuthClient} {s : AuthState}
    {chal : Chal} {h : VtunHost} {cbuf : List Byte}
    (hinv : env.decryptChal h.passwd (cenv.encryptChal h.passwd chal) = chal)
    (hc : c.stage = .host) (hpwd : c.host.passwd = h.passwd) (hs : s.stage = .chal)
    (hchal : s.chalReq = some chal)
    (hcbuf : cbuf.take mesgSize = (Reply.okChal chal).text env.ver) :
    ∃ m, (authClientBody cenv c cbuf).1.sent = c.sent ++ [m] ∧
      ∀ turn sbuf, sbuf.take mesgSize = m → ∃ r,
        (authBody env turn s sbuf).1 = examine env s r ∧
          s.chalReq = some (env.decryptChal h.passwd r) := by
  obtain ⟨hread, hok⟩ := cs2cl_okChal hcbuf
  refine ⟨chalMesg (cenv.encryptChal h.passwd chal), ?_, fun turn sbuf hsbuf => ?_⟩
  · rw [authClientBody, hc]
    simp only [if_pos hok, hread, hpwd]
  · refine ⟨cenv.encryptChal h.passwd chal, ?_, by rw [hinv, hchal]⟩
    have hres : cs2cl (cl2cs (cenv.encryptChal h.passwd chal)) =
        some (cenv.encryptChal h.passwd chal) := by
      have hall := cs2cl_cl2cs (cenv.encryptChal h.passwd chal) [] (by simp) []
      rwa [List.nil_append, List.append_nil] at hall
    rw [authBody, authTokens_chalMesg hsbuf, hs]
    simp only [if_true, hres]

/-- **Challenges and responses survive their messages**, wherever `char` is signed;
so the comparison of the server succeeds for every challenge when the passwords
are equal, and without SSL nothing has to be assumed for it. -/
theorem chal_survives (signed signed' : Bool) :
    (∀ (chal : Chal) (buf : List Byte),
      buf.take mesgSize = printP (lit "OK CHAL: " ++ cl2csOn signed chal ++ lit "\n") →
        cs2clOn signed' (mesgText buf) = some chal) ∧
    (∀ (chal : Chal) (buf : List Byte),
      buf.take mesgSize = printP (lit "CHAL: " ++ cl2csOn signed chal ++ lit "\n") →
        ∃ str2, authTokens buf = some (lit "CHAL", str2) ∧ cs2clOn signed' str2 = some chal) ∧
    (∀ (cenv : ClientEnv) (env : AuthEnv) (c : AuthClient) (s : AuthState) (chal : Chal)
      (h : VtunHost) (cbuf : List Byte),
      (∀ chal, env.decryptChal h.passwd (cenv.encryptChal h.passwd chal) = chal) →
      c.stage = .host → c.host.passwd = h.passwd → s.stage = .chal → s.chalReq = some chal →
      findHost env.hosts s.host = some h →
      cbuf.take mesgSize = (Reply.okChal chal).text env.ver →
      ∃ m, (authClientBody cenv c cbuf).1.sent = c.sent ++ [m] ∧
        ∀ turn sbuf, sbuf.take mesgSize = m → ∃ r,
          (authBody env turn s sbuf).1 = examine env s r ∧
            s.chalReq = some (env.decryptChal h.passwd r)) ∧
    ∀ pwd ≠ [], ∀ chal, xorChal pwd (xorChal pwd chal) = chal := by
  refine ⟨fun chal buf hbuf => ?_, fun chal buf hbuf => ?_, ?_, fun pwd _ => xorChal_xorChal pwd⟩
  · rw [cl2csOn_eq] at hbuf
    have hmesg : buf.take mesgSize = (Reply.okChal chal).text [] := hbuf
    rw [cs2clOn_eq]
    exact (cs2cl_okChal hmesg).1
  · rw [cl2csOn_eq] at hbuf
    have hres := cs2cl_cl2cs chal [] (by simp) []
    rw [List.nil_append, List.append_nil] at hres
    exact ⟨cl2cs chal, authTokens_chalMesg hbuf, (cs2clOn_eq signed' _).trans hres⟩
  · intro cenv env c s chal h cbuf hinv hc hpwd hs hchal _ hcbuf
    exact response_examined (hinv chal) hc hpwd hs hchal hcbuf

/-- Without SSL, the session `lion`. -/
theorem chal_survives_lion :
    ∃ m, (authClientBody xorEnv ⟨.host, namedHost (lit "lion"), [], false⟩
          ((Reply.okChal zeroChal).text (lit "3.X"))).1.sent = [] ++ [m] ∧
      ∀ turn sbuf, sbuf.take mesgSize = m → ∃ r,
        (authBody (oneHostEnv (lit "lion")) turn (waiting (oneHostEnv (lit "lion")) (lit "lion"))
            sbuf).1 = examine (oneHostEnv (lit "lion"))
            (waiting (oneHostEnv (lit "lion")) (lit "lion")) r ∧
          some zeroChal = some (xorChal (lit "ma") r) :=
  (chal_survives true false).2.2.1 xorEnv (oneHostEnv (lit "lion"))
    ⟨.host, namedHost (lit "lion"), [], false⟩ (waiting (oneHostEnv (lit "lion")) (lit "lion"))
    zeroChal (namedHost (lit "lion")) _ ((chal_survives true false).2.2.2 _ (by decide)) rfl rfl rfl
    rfl (by decide) (by decide)

/-! ### The stages -/

/-- The texts of the first `n` messages the client is sent. -/
def clientTexts (ready : ℕ → Bool) : ℕ → ℕ → Input → List Byte → List (List Byte)
  | 0, _, _, _ => []
  | n + 1, turn, fd, buf =>
    match clientMesg ready turn fd buf with
    | none => []
    | some (buf, fd) => mesgText buf :: clientTexts ready n (turn + 1) fd buf

/-- The start of `auth_client`. -/
def authStart (host : VtunHost) : AuthClient := ⟨.init, host, [], false⟩

/-- The client once it has asked for its session. -/
def authAsked (host : VtunHost) : AuthClient := ⟨.host, host, [hostMesg host], false⟩

/-- The client once it has answered a challenge. -/
def authAnswered (env : ClientEnv) (host : VtunHost) (chal : Chal) : AuthClient :=
  ⟨.chal, host, [hostMesg host, chalMesg (env.encryptChal host.passwd chal)], false⟩

/-- The client once it has heard the flags of the session. -/
def authDone (env : ClientEnv) (host : VtunHost) (chal : Chal) (flags : List Byte) :
    AuthClient :=
  { authAnswered env host chal with
    host := (cf2bf env.pf flags host).2
    success := (cf2bf env.pf flags host).1 }

/-- The state the messages from the third on lead to. -/
def hearsFlags (env : ClientEnv) (host : VtunHost) (chal : Chal) : List (List Byte) → AuthClient
  | [] => authAnswered env host chal
  | flags :: _ =>
    if flags.take 2 = lit "OK" then authDone env host chal flags
    else authAnswered env host chal

/-- The state the messages from the second on lead to. -/
def hearsChal (env : ClientEnv) (host : VtunHost) : List (List Byte) → AuthClient
  | [] => authAsked host
  | mesg :: texts =>
    if mesg.take 2 = lit "OK" then
      match cs2cl mesg with
      | none => authAsked host
      | some chal => hearsFlags env host chal texts
    else authAsked host

/-- The state all the messages lead to. -/
def clientHears (env : ClientEnv) (host : VtunHost) : List (List Byte) → AuthClient
  | [] => authStart host
  | banner :: texts =>
    if banner.take 4 = lit "VTUN" then hearsChal env host texts else authStart host

/-- The third stage is the last. -/
theorem authClientLoop_answered (env : ClientEnv) (host : VtunHost) (chal : Chal)
    (n turn : ℕ) (fd : Input) (buf : List Byte) :
    authClientLoop env n turn fd buf (authAnswered env host chal) =
      hearsFlags env host chal (clientTexts env.ready n turn fd buf) := by
  cases n with
  | zero => rfl
  | succ n =>
    rw [authClientLoop, clientTexts]
    cases hread : clientMesg env.ready turn fd buf with
    | none => rfl
    | some r =>
      obtain ⟨buf', fd'⟩ := r
      dsimp only
      by_cases hok : (mesgText buf').take 2 = lit "OK"
      · have hbody : authClientBody env (authAnswered env host chal) buf' =
            (authDone env host chal (mesgText buf'), false) := by
          rw [authClientBody]
          simp only [authAnswered, if_pos hok]
          rfl
        rw [hbody, hearsFlags, if_pos hok]
      · have hbody : authClientBody env (authAnswered env host chal) buf' =
            (authAnswered env host chal, false) := by
          rw [authClientBody]
          simp only [authAnswered, if_neg hok]
        rw [hbody, hearsFlags, if_neg hok]

/-- The second stage answers a challenge or is the last. -/
theorem authClientLoop_asked (env : ClientEnv) (host : VtunHost) (n turn : ℕ) (fd : Input)
    (buf : List Byte) :
    authClientLoop env n turn fd buf (authAsked host) =
      hearsChal env host (clientTexts env.ready n turn fd buf) := by
  cases n with
  | zero => rfl
  | succ n =>
    rw [authClientLoop, clientTexts]
    cases hread : clientMesg env.ready turn fd buf with
    | none => rfl
    | some r =>
      obtain ⟨buf', fd'⟩ := r
      dsimp only
      by_cases hok : (mesgText buf').take 2 = lit "OK"
      · rw [hearsChal, if_pos hok]
        cases hchal : cs2cl (mesgText buf') with
        | none =>
          have hbody : authClientBody env (authAsked host) buf' =
              (authAsked host, false) := by
            rw [authClientBody]
            simp only [authAsked, if_pos hok, hchal]
          rw [hbody]
        | some chal =>
          have hbody : authClientBody env (authAsked host) buf' =
              (authAnswered env host chal, true) := by
            rw [authClientBody]
            simp only [authAsked, if_pos hok, hchal]
            rfl
          rw [hbody]
          exact authClientLoop_answered env host chal n (turn + 1) fd' buf'
      · have hbody : authClientBody env (authAsked host) buf' = (authAsked host, false) := by
          rw [authClientBody]
          simp only [authAsked, if_neg hok]
        rw [hbody, hearsChal, if_neg hok]

/-- **The loop is the stage machine** on the messages it is sent, however often it
may turn. -/
theorem authClientLoop_hears (env : ClientEnv) (host : VtunHost) (n : ℕ) (fd : Input)
    (buf : List Byte) :
    authClientLoop env n 0 fd buf (authStart host) =
      clientHears env host (clientTexts env.ready n 0 fd buf) := by
  cases n with
  | zero => rfl
  | succ n =>
    rw [authClientLoop, clientTexts]
    cases hread : clientMesg env.ready 0 fd buf with
    | none => rfl
    | some r =>
      obtain ⟨buf', fd'⟩ := r
      dsimp only
      rw [clientHears]
      by_cases hver : (mesgText buf').take 4 = lit "VTUN"
      · have hbody : authClientBody env (authStart host) buf' = (authAsked host, true) := by
          rw [authClientBody]
          simp only [authStart, if_pos hver]
          rfl
        rw [hbody, if_pos hver]
        exact authClientLoop_asked env host n 1 fd' buf'
      · have hbody : authClientBody env (authStart host) buf' = (authStart host, false) := by
          rw [authClientBody]
          simp only [authStart, if_neg hver]
        rw [hbody, if_neg hver]

/-- More turns bring more messages. -/
theorem clientTexts_take (ready : ℕ → Bool) (n m turn : ℕ) (fd : Input) (buf : List Byte) :
    (clientTexts ready (n + m) turn fd buf).take n = clientTexts ready n turn fd buf := by
  induction n generalizing turn fd buf with
  | zero => rfl
  | succ n ih =>
    rw [Nat.succ_add, clientTexts, clientTexts]
    cases clientMesg ready turn fd buf with
    | none => rfl
    | some r => rw [List.take_succ_cons, ih]

/-- Only the first three messages count. -/
theorem clientHears_take (env : ClientEnv) (host : VtunHost) (texts : List (List Byte)) :
    clientHears env host (texts.take 3) = clientHears env host texts := by
  rcases texts with _ | ⟨banner, _ | ⟨mesg, _ | ⟨flags, texts⟩⟩⟩
  · rfl
  · rfl
  · rfl
  · rfl

/-- The cases of the stage machine. -/
theorem clientHears_cases (env : ClientEnv) (host : VtunHost) (texts : List (List Byte)) :
    clientHears env host texts = authStart host ∨
    clientHears env host texts = authAsked host ∨
    ∃ banner mesg rest chal, texts = banner :: mesg :: rest ∧ banner.take 4 = lit "VTUN" ∧
      mesg.take 2 = lit "OK" ∧ cs2cl mesg = some chal ∧
      (clientHears env host texts = authAnswered env host chal ∨
        ∃ flags rest', rest = flags :: rest' ∧ flags.take 2 = lit "OK" ∧
          clientHears env host texts = authDone env host chal flags) := by
  rcases texts with _ | ⟨banner, texts⟩
  · exact Or.inl rfl
  by_cases hver : banner.take 4 = lit "VTUN"
  swap
  · exact Or.inl (by rw [clientHears, if_neg hver])
  rw [clientHears, if_pos hver]
  refine Or.inr ?_
  rcases texts with _ | ⟨mesg, texts⟩
  · exact Or.inl rfl
  by_cases hok : mesg.take 2 = lit "OK"
  swap
  · exact Or.inl (by rw [hearsChal, if_neg hok])
  rw [hearsChal, if_pos hok]
  cases hchal : cs2cl mesg with
  | none => exact Or.inl rfl
  | some chal =>
    refine Or.inr ⟨banner, mesg, texts, chal, rfl, hver, hok, hchal, ?_⟩
    rcases texts with _ | ⟨flags, texts⟩
    · exact Or.inl rfl
    by_cases hflags : flags.take 2 = lit "OK"
    · exact Or.inr ⟨flags, texts, rfl, hflags, if_pos hflags⟩
    · exact Or.inl (if_neg hflags)

/-- The messages on which the client succeeds. -/
theorem clientHears_success (env : ClientEnv) (host : VtunHost) (texts : List (List Byte)) :
    (clientHears env host texts).success = true ↔
      ∃ banner mesg flags rest chal, texts = banner :: mesg :: flags :: rest ∧
        banner.take 4 = lit "VTUN" ∧ mesg.take 2 = lit "OK" ∧ cs2cl mesg = some chal ∧
        flags.take 2 = lit "OK" ∧ (cf2bf env.pf flags host).1 = true := by
  constructor
  · intro h
    rcases clientHears_cases env host texts with heq | heq | hchal
    · exact absurd (heq ▸ h) (by simp [authStart])
    · exact absurd (heq ▸ h) (by simp [authAsked])
    · obtain ⟨banner, mesg, rest, chal, htexts, hver, hok, hchal, heq | hdone⟩ := hchal
      · exact absurd (heq ▸ h) (by simp [authAnswered])
      · obtain ⟨flags, rest', rfl, hflags, heq⟩ := hdone
        rw [heq] at h
        exact ⟨banner, mesg, flags, rest', chal, htexts, hver, hok, hchal, hflags, h⟩
  · rintro ⟨banner, mesg, flags, rest, chal, rfl, hver, hok, hchal, hflags, hcf⟩
    rw [clientHears, if_pos hver, hearsChal, if_pos hok, hchal]
    show (hearsFlags env host chal (flags :: rest)).success = true
    rw [hearsFlags, if_pos hflags]
    exact hcf

/-- **The client's stages.**  After any number of turns at most one `HOST` line and
then at most one response has been sent, to the challenge in the second message;
the client succeeds exactly on a banner, a challenge and flags that `cf2bf` takes;
and before a third message that starts with `OK` the record is as it was.  There
are never more than three turns. -/
theorem auth_client_stages (env : ClientEnv) (host : VtunHost) (fd : Input) (buf : List Byte) :
    (∀ n, authClientLoop env (n + 3) 0 fd buf (authStart host) =
      authClient env host fd buf) ∧
    ∀ n s texts, s = authClientLoop env n 0 fd buf (authStart host) →
      texts = clientTexts env.ready n 0 fd buf →
      (s.sent = [] ∨ s.sent = [hostMesg host] ∨
        ∃ banner mesg rest chal, texts = banner :: mesg :: rest ∧ cs2cl mesg = some chal ∧
          s.sent = [hostMesg host, chalMesg (env.encryptChal host.passwd chal)]) ∧
      (s.success = true ↔
        ∃ banner mesg flags rest chal, texts = banner :: mesg :: flags :: rest ∧
          banner.take 4 = lit "VTUN" ∧ mesg.take 2 = lit "OK" ∧ cs2cl mesg = some chal ∧
          flags.take 2 = lit "OK" ∧ (cf2bf env.pf flags host).1 = true) ∧
      (s.host ≠ host →
        ∃ banner mesg flags rest, texts = banner :: mesg :: flags :: rest ∧
          flags.take 2 = lit "OK") := by
  constructor
  · intro n
    have hmore : (clientTexts env.ready (3 + n) 0 fd buf).take 3 =
        clientTexts env.ready 3 0 fd buf := clientTexts_take env.ready 3 n 0 fd buf
    rw [authClientLoop_hears, Nat.add_comm, ← clientHears_take, hmore]
    exact (authClientLoop_hears env host 3 fd buf).symm
  · rintro n s texts rfl rfl
    rw [authClientLoop_hears]
    refine ⟨?_, clientHears_success env host _, ?_⟩
    · rcases clientHears_cases env host (clientTexts env.ready n 0 fd buf) with heq | heq | h
      · exact Or.inl (by rw [heq]; rfl)
      · exact Or.inr (Or.inl (by rw [heq]; rfl))
      · obtain ⟨banner, mesg, rest, chal, htexts, -, -, hchal, hsent⟩ := h
        refine Or.inr (Or.inr ⟨banner, mesg, rest, chal, htexts, hchal, ?_⟩)
        rcases hsent with heq | ⟨flags, rest', -, -, heq⟩
        · rw [heq]; rfl
        · rw [heq]; rfl
    · intro hne
      rcases clientHears_cases env host (clientTexts env.ready n 0 fd buf) with heq | heq | h
      · exact absurd (by rw [heq]; rfl) hne
      · exact absurd (by rw [heq]; rfl) hne
      · obtain ⟨banner, mesg, rest, chal, htexts, -, -, -, heq | hdone⟩ := h
        · exact absurd (by rw [heq]; rfl) hne
        · obtain ⟨flags, rest', rfl, hflags, -⟩ := hdone
          exact ⟨banner, mesg, flags, rest', htexts, hflags⟩

end Vtun
