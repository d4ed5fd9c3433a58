/-
The two sides of the authentication (`auth.c`).

`auth_server` and `auth_client` run at the two ends of a connection.  Each of them takes the
next message when all of it has come, and may give up at any time: when its time is over, or
when the other end has closed the connection.

* `Handshake`, `handshakeStep` — both sides and the bytes on their way;
* `Handshaking` — where both sides are, and what is on its way, in every run;
* `handshake_agreement` — whatever is lost to time, a client that succeeds has a server that
  serves its session under the lock, and has taken over the server's flags.
-/
import Vtun.AuthClient
import Vtun.Lib.Run

namespace Vtun

/-! ### The connection -/

/-- One side: its variables, its buffer, the messages it has read, and whether its loop has
ended. -/
structure AuthParty (α : Type) where
  state : α
  buf : List Byte
  turn : ℕ
  ended : Bool

/-- Both sides and the bytes on their way. -/
structure Handshake where
  server : AuthParty AuthState
  client : AuthParty AuthClient
  toServer : List Byte
  toClient : List Byte

/-- What can happen next. -/
inductive HandshakeEv
  | serverReads
  /-- `readn_t` returns nothing positive -/
  | serverGivesUp
  | clientReads
  | clientGivesUp
  deriving DecidableEq, Repr

/-- The bytes of the lines a server has sent. -/
def serverBytes (ver : List Byte) (sent : List Reply) : List Byte :=
  (sent.map (Reply.text ver)).flatten

/-- Behind the loop of `auth_server`. -/
def AuthState.close (s : AuthState) : AuthState :=
  if s.h = none then { s with sent := s.sent ++ [.err] } else s

/-- A turn of `auth_server` on the message `m`. -/
def serverTurn (env : AuthEnv) (p : AuthParty AuthState) (m : List Byte) : AuthParty AuthState :=
  let buf := store p.buf m
  let r := authBody env p.turn p.state buf
  ⟨if r.2 then r.1 else r.1.close, buf, p.turn + 1, !r.2⟩

/-- A turn of `auth_client` on the message `m`. -/
def clientTurn (env : ClientEnv) (p : AuthParty AuthClient) (m : List Byte) :
    AuthParty AuthClient :=
  let buf := store p.buf m
  let r := authClientBody env p.state buf
  ⟨r.1, buf, p.turn + 1, !r.2⟩

/-- `auth_server` goes on, with the bytes of what it sends on their way. -/
def Handshake.serverNext (t : Handshake) (env : AuthEnv) (p : AuthParty AuthState) : Handshake :=
  { t with
    server := p
    toClient := t.toClient ++
      serverBytes env.ver (p.state.sent.drop t.server.state.sent.length) }

/-- `auth_client` goes on. -/
def Handshake.clientNext (t : Handshake) (p : AuthParty AuthClient) : Handshake :=
  { t with
    client := p
    toServer := t.toServer ++ (p.state.sent.drop t.client.state.sent.length).flatten }

/-- One step of either side. -/
def handshakeStep (env : AuthEnv) (cenv : ClientEnv) (t : Handshake) :
    HandshakeEv → Option Handshake
  | .serverReads =>
    if t.server.ended = true ∨ t.toServer.length < mesgSize then none
    else
      let p := serverTurn env t.server (t.toServer.take mesgSize)
      some (({ t with toServer := t.toServer.drop mesgSize } : Handshake).serverNext env p)
  | .serverGivesUp =>
    if t.server.ended = true then none
    else some (t.serverNext env { t.server with state := t.server.state.close, ended := true })
  | .clientReads =>
    if t.client.ended = true ∨ t.toClient.length < mesgSize then none
    else
      let p := clientTurn cenv t.client (t.toClient.take mesgSize)
      some (({ t with toClient := t.toClient.drop mesgSize } : Handshake).clientNext p)
  | .clientGivesUp =>
    if t.client.ended = true then none
    else some (t.clientNext { t.client with ended := true })

/-- Both sides at the start: the server has sent its version. -/
def handshakeStart (env : AuthEnv) (host : VtunHost) (sbuf cbuf : List Byte) : Handshake where
  server := ⟨greeting, sbuf, 0, false⟩
  client := ⟨authStart host, cbuf, 0, false⟩
  toServer := []
  toClient := serverBytes env.ver greeting.sent

/-! ### Messages on their way -/

theorem length_printP (text : List Byte) : (printP text).length = mesgSize := by
  rw [printP, List.length_append, List.length_replicate, List.length_take]
  simp only [mesgSize]
  omega

theorem Reply.length_text (ver : List Byte) (r : Reply) : (r.text ver).length = mesgSize := by
  cases r <;> exact length_printP _

/-- The next message of those on their way. -/
theorem take_messages {mesgs : List (List Byte)} (hall : ∀ m ∈ mesgs, m.length = mesgSize) {k : ℕ}
    {m : List Byte} {rest : List (List Byte)} (hk : mesgs.drop k = m :: rest) :
    ¬ (mesgs.drop k).flatten.length < mesgSize ∧ (mesgs.drop k).flatten.take mesgSize = m ∧
      (mesgs.drop k).flatten.drop mesgSize = (mesgs.drop (k + 1)).flatten := by
  have hm : m.length = mesgSize := by
    refine hall m (List.mem_of_mem_drop (i := k) ?_)
    rw [hk]
    exact List.mem_cons_self
  have hnext : mesgs.drop (k + 1) = rest := by
    rw [← List.drop_drop, hk]
    rfl
  rw [hk, hnext, List.flatten_cons]
  refine ⟨?_, ?_, ?_⟩
  · rw [List.length_append]
    omega
  · rw [← hm, List.take_left]
  · rw [← hm, List.drop_left]

/-- What can be read is a message. -/
theorem exists_message {mesgs : List (List Byte)} {k : ℕ}
    (hlen : ¬ (mesgs.drop k).flatten.length < mesgSize) : ∃ m rest, mesgs.drop k = m :: rest := by
  rcases hdrop : mesgs.drop k with _ | ⟨m, rest⟩
  · rw [hdrop] at hlen
    exact absurd (by decide) hlen
  · exact ⟨m, rest, rfl⟩

/-- What is in a list stays at its place when more is put behind it. -/
theorem getElem?_more {α : Type*} {l l' : List α} (h : l <+: l') {i : ℕ} {a : α}
    (hi : l[i]? = some a) : l'[i]? = some a := by
  obtain ⟨more, rfl⟩ := h
  rw [List.getElem?_append_left (List.getElem?_eq_some_iff.mp hi).1, hi]

theorem take_store_mesg (buf : List Byte) {m : List Byte} (hm : m.length = mesgSize) :
    (store buf m).take mesgSize = m := by
  rw [← hm, take_store]

/-- The string in a buffer depends on the message alone. -/
theorem mesgText_congr {buf buf' : List Byte} (h : buf.take mesgSize = buf'.take mesgSize) :
    mesgText buf = mesgText buf' := by
  have hcut : ∀ b : List Byte, b.take (mesgSize - 1) = (b.take mesgSize).take (mesgSize - 1) := by
    intro b
    rw [List.take_take]
    rfl
  rw [mesgText, mesgText, hcut buf, h, ← hcut]

/-- The client finds the version of the server in its first message. -/
theorem mesgText_version {ver buf : List Byte}
    (hbuf : buf.take mesgSize = (Reply.version).text ver) :
    (mesgText buf).take 4 = lit "VTUN" := by
  have hcut : buf.take (mesgSize - 1) = (buf.take mesgSize).take (mesgSize - 1) := by
    rw [List.take_take]
    rfl
  rw [mesgText, hcut, hbuf]
  rfl

theorem mesgText_err {ver buf : List Byte} (hbuf : buf.take mesgSize = (Reply.err).text ver) :
    mesgText buf = lit "ERR\n" :=
  mesgText_whole hbuf (by decide) (by decide)

/-- The string the client reads its flags from. -/
def okText (env : AuthEnv) (h : VtunHost) : List Byte := mesgText ((Reply.okFlags h).text env.ver)

theorem okText_take (env : AuthEnv) (h : VtunHost) : (okText env h).take 2 = lit "OK" := rfl

/-! ### The invariant -/

section Inv

variable (env : AuthEnv) (cenv : ClientEnv) (host : VtunHost)

/-- The response of the client to the challenge of the server. -/
def response : Chal := cenv.encryptChal host.passwd (env.rand 0)

/-- The server once it has examined the response. -/
def examined : AuthState :=
  (examine env (waiting env (host.host.take nameRoom)) (response env cenv host)).close

/-- How far the server has come. -/
inductive ServerPhase : AuthParty AuthState → Prop
  | greeted (buf : List Byte) : ServerPhase ⟨greeting, buf, 0, false⟩
  /-- given up before the client has asked -/
  | unasked (buf : List Byte) : ServerPhase ⟨greeting.close, buf, 0, true⟩
  | asked (buf : List Byte) : ServerPhase ⟨waiting env (host.host.take nameRoom), buf, 1, false⟩
  /-- given up before the response -/
  | unanswered (buf : List Byte) :
      ServerPhase ⟨(waiting env (host.host.take nameRoom)).close, buf, 1, true⟩
  | examined (buf : List Byte) : ServerPhase ⟨examined env cenv host, buf, 2, true⟩

/-- How far the client has come, when the server is in the state `s`. -/
inductive ClientPhase (s : AuthState) : AuthParty AuthClient → Prop
  | started (buf : List Byte) (ended : Bool) : ClientPhase s ⟨authStart host, buf, 0, ended⟩
  | asked (buf : List Byte) (ended : Bool) : ClientPhase s ⟨authAsked host, buf, 1, ended⟩
  /-- the server has given up before the challenge -/
  | refused (buf : List Byte) (hs : s.sent[1]? = some .err) :
      ClientPhase s ⟨authAsked host, buf, 2, true⟩
  | answered (buf : List Byte) (ended : Bool) (hs : s.sent[1]? = some (.okChal (env.rand 0))) :
      ClientPhase s ⟨authAnswered cenv host (env.rand 0), buf, 2, ended⟩
  /-- the server has given up, or refused the response -/
  | denied (buf : List Byte) (hs : .err ∈ s.sent) :
      ClientPhase s ⟨authAnswered cenv host (env.rand 0), buf, 3, true⟩
  | done (buf : List Byte) (h : VtunHost) (hs : s = Vtun.examined env cenv host)
      (hh : s.h = some h) :
      ClientPhase s ⟨authDone cenv host (env.rand 0) (okText env h), buf, 3, true⟩

/-- The invariant of a handshake: where both sides are, and what they have sent and not yet
read is on its way. -/
structure Handshaking (t : Handshake) : Prop where
  server : ServerPhase env cenv host t.server
  client : ClientPhase env cenv host t.server.state t.client
  toServer : t.toServer = (t.client.state.sent.drop t.server.turn).flatten
  toClient :
    t.toClient = ((t.server.state.sent.map (Reply.text env.ver)).drop t.client.turn).flatten
  read : t.server.turn ≤ t.client.state.sent.length
  heard : t.client.turn ≤ t.server.state.sent.length

variable {env cenv host}

/-- What the client has sent is a start of its two messages. -/
theorem ClientPhase.sent {s : AuthState} {p : AuthParty AuthClient}
    (h : ClientPhase env cenv host s p) :
    p.state.sent <+: [hostMesg host, chalMesg (response env cenv host)] := by
  cases h with
  | started => exact List.nil_prefix
  | asked => exact ⟨_, rfl⟩
  | refused => exact ⟨_, rfl⟩
  | answered => exact List.prefix_rfl
  | denied => exact List.prefix_rfl
  | done => exact List.prefix_rfl

/-- A message of the client has the size of one. -/
theorem ClientPhase.whole {s : AuthState} {p : AuthParty AuthClient}
    (h : ClientPhase env cenv host s p) : ∀ m ∈ p.state.sent, m.length = mesgSize := by
  intro m hm
  rcases List.mem_pair.mp (h.sent.subset hm) with rfl | rfl
  · exact length_printP _
  · exact length_printP _

/-- As long as the client has not heard the flags, the server's state does not matter to it. -/
theorem ClientPhase.congr {s s' : AuthState} {p : AuthParty AuthClient}
    (h : ClientPhase env cenv host s p) (hs : s.h = none) (hsent : s.sent <+: s'.sent) :
    ClientPhase env cenv host s' p := by
  cases h with
  | started buf ended => exact .started buf ended
  | asked buf ended => exact .asked buf ended
  | refused buf hs => exact .refused buf (getElem?_more hsent hs)
  | answered buf ended hs => exact .answered buf ended (getElem?_more hsent hs)
  | denied buf hs => exact .denied buf (hsent.subset hs)
  | done buf h _ hh => exact absurd (hs.symm.trans hh) (by simp)

/-- A response that is refused is not answered. -/
theorem examine_sent (s : AuthState) (chalRes : Chal) (h : (examine env s chalRes).h = none) :
    (examine env s chalRes).sent = s.sent := by
  unfold examine at h ⊢
  dsimp only at h ⊢
  split
  · rfl
  · split
    · split
      · rfl
      · simp_all
    · rfl

/-- **What the server makes of the response**: it serves the session that was asked for, or
says that there was an error. -/
theorem examined_cases (env : AuthEnv) (cenv : ClientEnv) (host : VtunHost) :
    (∃ h, findHost env.hosts (some (host.host.take nameRoom)) = some h ∧
        env.rand 0 = env.decryptChal h.passwd (response env cenv host) ∧
        0 ≤ (lockHost h.multi env.ans).1 ∧ (examined env cenv host).h = some h ∧
        (examined env cenv host).took = (lockHost h.multi env.ans).2 ∧
        (examined env cenv host).sent = [.version, .okChal (env.rand 0), .okFlags h]) ∨
      (∀ h, findHost env.hosts (some (host.host.take nameRoom)) = some h →
          env.rand 0 = env.decryptChal h.passwd (response env cenv host) →
            (lockHost h.multi env.ans).1 < 0) ∧
        (examined env cenv host).h = none ∧ (examined env cenv host).took = false ∧
        (examined env cenv host).sent = [.version, .okChal (env.rand 0), .err] := by
  rcases examine_cases env (host.host.take nameRoom) (response env cenv host) with
    ⟨h, hfind, hres, hlock, heq⟩ | ⟨href, hnone⟩
  · left
    refine ⟨h, hfind, hres, hlock, ?_⟩
    rw [examined, heq]
    exact ⟨rfl, rfl, rfl⟩
  · right
    refine ⟨hnone, ?_⟩
    rw [examined, AuthState.close, if_pos href.h]
    refine ⟨href.h, href.took, ?_⟩
    show (examine env _ _).sent ++ [.err] = _
    rw [examine_sent _ _ href.h]
    rfl

/-- The server's state, seen from what it has sent. -/
theorem ServerPhase.sent {p : AuthParty AuthState} (hp : ServerPhase env cenv host p) :
    (p.state.h = none ∧ (p.state.sent <+: [.version, .okChal (env.rand 0), .err] ∨
        p.state.sent = [.version, .err])) ∨
      ∃ h, p.state = Vtun.examined env cenv host ∧ p.state.h = some h ∧ p.ended = true ∧
        p.state.sent = [.version, .okChal (env.rand 0), .okFlags h] := by
  cases hp with
  | greeted => exact .inl ⟨rfl, .inl ⟨_, rfl⟩⟩
  | unasked => exact .inl ⟨rfl, .inr rfl⟩
  | asked => exact .inl ⟨rfl, .inl ⟨_, rfl⟩⟩
  | unanswered => exact .inl ⟨rfl, .inl List.prefix_rfl⟩
  | examined =>
    rcases examined_cases env cenv host with ⟨h, -, -, -, hh, -, hsent⟩ | ⟨-, hh, -, hsent⟩
    · exact .inr ⟨h, rfl, hh, rfl, hsent⟩
    · exact .inl ⟨hh, .inl (hsent ▸ List.prefix_rfl)⟩

/-! ### Turns -/

/-- The server is asked for a session. -/
theorem authBody_hostMesg (env : AuthEnv) (hname : IsName host.host) {buf : List Byte}
    (hbuf : buf.take mesgSize = hostMesg host) :
    authBody env 0 greeting buf = (waiting env (host.host.take nameRoom), true) := by
  rw [authBody, authTokens_hostMesg hname hbuf]
  rfl

/-- The server is answered. -/
theorem authBody_chalMesg (env : AuthEnv) (turn : ℕ) (name : List Byte) {buf : List Byte}
    {chal : Chal} (hbuf : buf.take mesgSize = chalMesg chal) :
    authBody env turn (waiting env name) buf = (examine env (waiting env name) chal, false) := by
  have hread : cs2cl (cl2cs chal) = some chal := by
    have hall := cs2cl_cl2cs chal [] (by simp) []
    rwa [List.nil_append, List.append_nil] at hall
  rw [authBody, authTokens_chalMesg hbuf]
  simp only [waiting, if_true, hread]

/-- The client is greeted. -/
theorem authClientBody_version {ver buf : List Byte}
    (hbuf : buf.take mesgSize = (Reply.version).text ver) :
    authClientBody cenv (authStart host) buf = (authAsked host, true) := by
  rw [authClientBody]
  simp only [authStart, if_pos (mesgText_version hbuf)]
  rfl

/-- The client is sent a challenge. -/
theorem authClientBody_okChal {ver buf : List Byte} {chal : Chal}
    (hbuf : buf.take mesgSize = (Reply.okChal chal).text ver) :
    authClientBody cenv (authAsked host) buf = (authAnswered cenv host chal, true) := by
  obtain ⟨hread, hok⟩ := cs2cl_okChal hbuf
  rw [authClientBody]
  simp only [authAsked, if_pos hok, hread]
  rfl

/-- The client is sent the flags. -/
theorem authClientBody_okFlags {buf : List Byte} {chal : Chal} {h : VtunHost}
    (hbuf : buf.take mesgSize = (Reply.okFlags h).text env.ver) :
    authClientBody cenv (authAnswered cenv host chal) buf =
      (authDone cenv host chal (okText env h), false) := by
  have htext : mesgText buf = okText env h := by
    refine mesgText_congr (hbuf.trans ?_)
    rw [← Reply.length_text env.ver (.okFlags h), List.take_length]
  rw [authClientBody]
  simp only [authAnswered, htext, if_pos (okText_take env h)]
  rfl

/-- The client is told of an error. -/
theorem authClientBody_err {c : AuthClient} {ver buf : List Byte}
    (hbuf : buf.take mesgSize = (Reply.err).text ver)
    (hc : c.stage = .host ∨ c.stage = .chal) : authClientBody cenv c buf = (c, false) := by
  have hno : ¬ (lit "ERR\n").take 2 = lit "OK" := by decide
  rw [authClientBody, mesgText_err hbuf]
  rcases hc with hstage | hstage
  · simp only [hstage, if_neg hno]
  · simp only [hstage, if_neg hno]

/-! ### Steps -/

/-- Bytes behind those on their way. -/
theorem drop_flatten_append {α : Type*} {front l : List (List α)} {k : ℕ}
    (hfront : front <+: l) (hk : k ≤ front.length) :
    (front.drop k).flatten ++ (l.drop front.length).flatten = (l.drop k).flatten := by
  obtain ⟨more, rfl⟩ := hfront
  rw [List.drop_left, List.drop_append_of_le_length hk, List.flatten_append]

/-- The server goes on, as far as the bytes on their way are concerned. -/
theorem Handshaking.serverNext {t : Handshake} (hinv : Handshaking env cenv host t)
    {p : AuthParty AuthState} (hp : ServerPhase env cenv host p) (hnone : t.server.state.h = none)
    (hsent : t.server.state.sent <+: p.state.sent) {bytes : List Byte}
    (hbytes : bytes = (t.client.state.sent.drop p.turn).flatten)
    (hread : p.turn ≤ t.client.state.sent.length) :
    Handshaking env cenv host (({ t with toServer := bytes } : Handshake).serverNext env p) where
  server := hp
  client := hinv.client.congr hnone hsent
  toServer := hbytes
  toClient := by
    have hmap : t.server.state.sent.map (Reply.text env.ver) <+:
        p.state.sent.map (Reply.text env.ver) := hsent.map _
    have hmore := drop_flatten_append (k := t.client.turn) hmap (by
      rw [List.length_map]
      exact hinv.heard)
    refine Eq.trans ?_ hmore
    show t.toClient ++ serverBytes env.ver (p.state.sent.drop t.server.state.sent.length) = _
    rw [hinv.toClient, serverBytes, List.length_map, List.map_drop]
  read := hread
  heard := hinv.heard.trans hsent.length_le

/-- The client goes on. -/
theorem Handshaking.clientNext {t : Handshake} (hinv : Handshaking env cenv host t)
    {p : AuthParty AuthClient} (hp : ClientPhase env cenv host t.server.state p)
    (hsent : t.client.state.sent <+: p.state.sent) {bytes : List Byte}
    (hbytes : bytes = ((t.server.state.sent.map (Reply.text env.ver)).drop p.turn).flatten)
    (hheard : p.turn ≤ t.server.state.sent.length) :
    Handshaking env cenv host (({ t with toClient := bytes } : Handshake).clientNext p) where
  server := hinv.server
  client := hp
  toServer := by
    show t.toServer ++ (p.state.sent.drop t.client.state.sent.length).flatten = _
    rw [hinv.toServer]
    exact drop_flatten_append hsent hinv.read
  toClient := hbytes
  read := hinv.read.trans hsent.length_le
  heard := hheard

theorem AuthState.sent_close (s : AuthState) : s.sent <+: s.close.sent := by
  rw [AuthState.close]
  split
  · exact List.prefix_append _ _
  · exact List.prefix_rfl

/-- A turn of the server; it ends the loop with the second message. -/
theorem ServerPhase.turn {p : AuthParty AuthState} (hname : IsName host.host)
    (hp : ServerPhase env cenv host p) (hended : p.ended = false) {m : List Byte}
    (hm : [hostMesg host, chalMesg (response env cenv host)][p.turn]? = some m) :
    ServerPhase env cenv host (serverTurn env p m) ∧
      ((serverTurn env p m).ended = true → (serverTurn env p m).turn = 2) := by
  cases hp with
  | greeted buf =>
    obtain rfl : hostMesg host = m := Option.some.inj hm
    have hbuf : (store buf (hostMesg host)).take mesgSize = hostMesg host :=
      take_store_mesg buf (length_printP _)
    simp only [serverTurn, authBody_hostMesg env hname hbuf]
    exact ⟨.asked _, by simp⟩
  | unasked => exact absurd hended (by simp)
  | asked buf =>
    obtain rfl : chalMesg (response env cenv host) = m := Option.some.inj hm
    have hbuf : (store buf (chalMesg (response env cenv host))).take mesgSize =
        chalMesg (response env cenv host) := take_store_mesg buf (length_printP _)
    simp only [serverTurn, authBody_chalMesg env _ _ hbuf]
    exact ⟨.examined _, by simp⟩
  | unanswered => exact absurd hended (by simp)
  | examined => exact absurd hended (by simp)

/-- The server gives up. -/
theorem ServerPhase.giveUp {p : AuthParty AuthState} (hp : ServerPhase env cenv host p)
    (hended : p.ended = false) :
    ServerPhase env cenv host { p with state := p.state.close, ended := true } := by
  cases hp with
  | greeted buf => exact .unasked buf
  | unasked => exact absurd hended (by simp)
  | asked buf => exact .unanswered buf
  | unanswered => exact absurd hended (by simp)
  | examined => exact absurd hended (by simp)

/-- A server that goes on serves no session yet. -/
theorem ServerPhase.h_none {p : AuthParty AuthState} (hp : ServerPhase env cenv host p)
    (hended : p.ended = false) : p.state.h = none := by
  cases hp with
  | greeted => rfl
  | unasked => exact absurd hended (by simp)
  | asked => rfl
  | unanswered => exact absurd hended (by simp)
  | examined => exact absurd hended (by simp)

/-- What can come first, second and third from the server. -/
theorem ServerPhase.reply {p : AuthParty AuthState} (hp : ServerPhase env cenv host p) {k : ℕ}
    {r : Reply} (hr : p.state.sent[k]? = some r) :
    (k = 0 ∧ r = .version) ∨ (k = 1 ∧ (r = .okChal (env.rand 0) ∨ r = .err)) ∨
      k = 2 ∧ (r = .err ∨ ∃ h, p.state = Vtun.examined env cenv host ∧ p.state.h = some h ∧
        r = .okFlags h) := by
  have hk : k < p.state.sent.length := (List.getElem?_eq_some_iff.mp hr).1
  rcases hp.sent with ⟨-, hpre | hsent⟩ | ⟨h, hstate, hh, -, hsent⟩
  · have hlen : p.state.sent.length ≤ 3 := hpre.length_le
    have hall : [Reply.version, .okChal (env.rand 0), .err][k]? = some r :=
      getElem?_more hpre hr
    obtain rfl | rfl | rfl : k = 0 ∨ k = 1 ∨ k = 2 := by omega
    · exact .inl ⟨rfl, (Option.some.inj hall).symm⟩
    · exact .inr (.inl ⟨rfl, .inl (Option.some.inj hall).symm⟩)
    · exact .inr (.inr ⟨rfl, .inl (Option.some.inj hall).symm⟩)
  · rw [hsent] at hr hk
    obtain rfl | rfl : k = 0 ∨ k = 1 := by
      simp only [List.length_cons, List.length_nil] at hk
      omega
    · exact .inl ⟨rfl, (Option.some.inj hr).symm⟩
    · exact .inr (.inl ⟨rfl, .inr (Option.some.inj hr).symm⟩)
  · rw [hsent] at hr hk
    obtain rfl | rfl | rfl : k = 0 ∨ k = 1 ∨ k = 2 := by
      simp only [List.length_cons, List.length_nil] at hk
      omega
    · exact .inl ⟨rfl, (Option.some.inj hr).symm⟩
    · exact .inr (.inl ⟨rfl, .inl (Option.some.inj hr).symm⟩)
    · exact .inr (.inr ⟨rfl, .inr ⟨h, hstate, hh, (Option.some.inj hr).symm⟩⟩)

/-- A turn of the client; it ends the loop with the third message, or with an error. -/
theorem ClientPhase.turn {s : AuthParty AuthState} {p : AuthParty AuthClient}
    (hs : ServerPhase env cenv host s) (hp : ClientPhase env cenv host s.state p)
    (hended : p.ended = false) {r : Reply} (hr : s.state.sent[p.turn]? = some r) :
    ClientPhase env cenv host s.state (clientTurn cenv p (r.text env.ver)) ∧
      ((clientTurn cenv p (r.text env.ver)).ended = true →
        (clientTurn cenv p (r.text env.ver)).turn = 3 ∨ s.state.sent[1]? = some .err) := by
  have hbuf : ∀ buf : List Byte, (store buf (r.text env.ver)).take mesgSize = r.text env.ver :=
    fun buf => take_store_mesg buf (r.length_text _)
  have hreply := hs.reply hr
  cases hp with
  | started buf ended =>
    obtain rfl : r = .version := by
      rcases hreply with ⟨-, h⟩ | ⟨h, -⟩ | ⟨h, -⟩
      · exact h
      · exact absurd h (by simp)
      · exact absurd h (by simp)
    simp only [clientTurn, authClientBody_version (hbuf buf)]
    exact ⟨.asked _ _, by simp⟩
  | asked buf ended =>
    have hcase : r = .okChal (env.rand 0) ∨ r = .err := by
      rcases hreply with ⟨h, -⟩ | ⟨-, h⟩ | ⟨h, -⟩
      · exact absurd h (by simp)
      · exact h
      · exact absurd h (by simp)
    rcases hcase with rfl | rfl
    · simp only [clientTurn, authClientBody_okChal (hbuf buf)]
      exact ⟨.answered _ _ hr, by simp⟩
    · simp only [clientTurn, authClientBody_err (c := authAsked host) (hbuf buf) (.inl rfl)]
      exact ⟨.refused _ hr, fun _ => .inr hr⟩
  | refused => exact absurd hended (by simp)
  | answered buf ended =>
    rcases hreply with ⟨h, -⟩ | ⟨h, -⟩ | ⟨-, rfl | ⟨h, hstate, hh, rfl⟩⟩
    · exact absurd h (by simp)
    · exact absurd h (by simp)
    · simp only [clientTurn,
        authClientBody_err (c := authAnswered cenv host (env.rand 0)) (hbuf buf) (.inr rfl)]
      exact ⟨.denied _ (List.mem_of_getElem? hr), by simp⟩
    · simp only [clientTurn, authClientBody_okFlags (hbuf buf)]
      exact ⟨.done _ h hstate hh, by simp⟩
  | denied => exact absurd hended (by simp)
  | done => exact absurd hended (by simp)

/-- The client gives up. -/
theorem ClientPhase.giveUp {s : AuthState} {p : AuthParty AuthClient}
    (hp : ClientPhase env cenv host s p) (hended : p.ended = false) :
    ClientPhase env cenv host s { p with ended := true } := by
  cases hp with
  | started buf => exact .started buf true
  | asked buf => exact .asked buf true
  | refused => exact absurd hended (by simp)
  | answered buf _ hs => exact .answered buf true hs
  | denied => exact absurd hended (by simp)
  | done => exact absurd hended (by simp)

/-- What the server has said stays said. -/
theorem serverTurn_sent (env : AuthEnv) (p : AuthParty AuthState) (m : List Byte) :
    p.state.sent <+: (serverTurn env p m).state.sent := by
  have hexamine : ∀ chalRes, p.state.sent <+: (examine env p.state chalRes).sent := by
    intro chalRes
    unfold examine
    split
    · exact List.prefix_rfl
    · dsimp only
      repeat' split
      all_goals first | exact List.prefix_rfl | exact List.prefix_append _ _
  have hbody : p.state.sent <+: (authBody env p.turn p.state (store p.buf m)).1.sent := by
    unfold authBody
    repeat' split
    all_goals first | exact List.prefix_rfl | exact List.prefix_append _ _ | exact hexamine _
  simp only [serverTurn]
  split
  · exact hbody
  · exact hbody.trans (AuthState.sent_close _)

theorem clientTurn_sent (env : ClientEnv) (p : AuthParty AuthClient) (m : List Byte) :
    p.state.sent <+: (clientTurn env p m).state.sent := by
  simp only [clientTurn]
  unfold authClientBody
  dsimp only
  repeat' split
  all_goals first | exact List.prefix_rfl | exact List.prefix_append _ _

/-- The message the server reads next. -/
theorem Handshaking.forServer {t : Handshake} (hinv : Handshaking env cenv host t)
    (hlen : ¬ t.toServer.length < mesgSize) :
    ∃ m, [hostMesg host, chalMesg (response env cenv host)][t.server.turn]? = some m ∧
      t.toServer.take mesgSize = m ∧
      t.toServer.drop mesgSize = (t.client.state.sent.drop (t.server.turn + 1)).flatten ∧
      t.server.turn + 1 ≤ t.client.state.sent.length := by
  rw [hinv.toServer] at hlen ⊢
  obtain ⟨m, rest, hdrop⟩ := exists_message hlen
  obtain ⟨-, htake, hnext⟩ := take_messages hinv.client.whole hdrop
  have hget : t.client.state.sent[t.server.turn]? = some m := by
    rw [← List.head?_drop, hdrop]
    rfl
  obtain ⟨hlt, -⟩ := List.getElem?_eq_some_iff.mp hget
  exact ⟨m, getElem?_more hinv.client.sent hget, htake, hnext, hlt⟩

/-- The message the client reads next. -/
theorem Handshaking.forClient {t : Handshake} (hinv : Handshaking env cenv host t)
    (hlen : ¬ t.toClient.length < mesgSize) :
    ∃ r, t.server.state.sent[t.client.turn]? = some r ∧
      t.toClient.take mesgSize = r.text env.ver ∧
      t.toClient.drop mesgSize =
        ((t.server.state.sent.map (Reply.text env.ver)).drop (t.client.turn + 1)).flatten ∧
      t.client.turn + 1 ≤ t.server.state.sent.length := by
  rw [hinv.toClient] at hlen ⊢
  have hwhole : ∀ m ∈ t.server.state.sent.map (Reply.text env.ver), m.length = mesgSize := by
    intro m hm
    obtain ⟨r, -, rfl⟩ := List.mem_map.mp hm
    exact r.length_text _
  obtain ⟨m, rest, hdrop⟩ := exists_message hlen
  obtain ⟨-, htake, hnext⟩ := take_messages hwhole hdrop
  have hget : (t.server.state.sent.map (Reply.text env.ver))[t.client.turn]? = some m := by
    rw [← List.head?_drop, hdrop]
    rfl
  rw [List.getElem?_map, Option.map_eq_some_iff] at hget
  obtain ⟨r, hr, rfl⟩ := hget
  exact ⟨r, hr, htake, hnext, (List.getElem?_eq_some_iff.mp hr).1⟩

/-- **Every step keeps the invariant.** -/
theorem handshaking_step (hname : IsName host.host) {t t' : Handshake} {e : HandshakeEv}
    (hinv : Handshaking env cenv host t) (hstep : handshakeStep env cenv t e = some t') :
    Handshaking env cenv host t' := by
  cases e with
  | serverReads =>
    simp only [handshakeStep, Option.ite_none_left_eq_some, not_or, Bool.not_eq_true,
      Option.some.injEq] at hstep
    obtain ⟨⟨hended, hlen⟩, rfl⟩ := hstep
    obtain ⟨m, hmesg, htake, hnext, hread⟩ := hinv.forServer hlen
    rw [htake, hnext]
    exact hinv.serverNext (hinv.server.turn hname hended hmesg).1 (hinv.server.h_none hended)
      (serverTurn_sent env _ _) rfl hread
  | serverGivesUp =>
    simp only [handshakeStep, Option.ite_none_left_eq_some, Bool.not_eq_true,
      Option.some.injEq] at hstep
    obtain ⟨hended, rfl⟩ := hstep
    exact hinv.serverNext (hinv.server.giveUp hended) (hinv.server.h_none hended)
      (AuthState.sent_close _) hinv.toServer hinv.read
  | clientReads =>
    simp only [handshakeStep, Option.ite_none_left_eq_some, not_or, Bool.not_eq_true,
      Option.some.injEq] at hstep
    obtain ⟨⟨hended, hlen⟩, rfl⟩ := hstep
    obtain ⟨r, hr, htake, hnext, hheard⟩ := hinv.forClient hlen
    rw [htake, hnext]
    exact hinv.clientNext (hinv.client.turn hinv.server hended hr).1 (clientTurn_sent cenv _ _)
      rfl hheard
  | clientGivesUp =>
    simp only [handshakeStep, Option.ite_none_left_eq_some, Bool.not_eq_true,
      Option.some.injEq] at hstep
    obtain ⟨hended, rfl⟩ := hstep
    exact hinv.clientNext (hinv.client.giveUp hended) List.prefix_rfl hinv.toClient hinv.heard

/-- **The invariant of every run.** -/
theorem handshaking_exec (hname : IsName host.host) {sbuf cbuf : List Byte}
    {es : List HandshakeEv} {t : Handshake}
    (hrun : Run.exec (handshakeStep env cenv) (handshakeStart env host sbuf cbuf) es = some t) :
    Handshaking env cenv host t := by
  refine Run.exec_preserves (fun s e s' h hstep => handshaking_step hname h hstep) ?_ hrun
  exact ⟨.greeted _, .started _ _, rfl, rfl, Nat.zero_le _, Nat.zero_le _⟩

/-! ### Agreement -/

/-- The string with the flags is the one they are read back from. -/
theorem okText_eq {h : VtunHost} (hfit : (bf2cf h).length < bf2cfSize) :
    okText env h = cstr (flagsMesg h) := by
  have hnul : (0 : Byte) ∉ lit "OK FLAGS: " ++ bf2cf h ++ lit "\n" := by
    simp only [List.mem_append, nul_notMem_bf2cf, or_false, not_or]
    decide
  have hlen : (lit "OK FLAGS: " ++ bf2cf h ++ lit "\n").length ≤ mesgSize - 2 := by
    simp only [List.length_append, show (lit "OK FLAGS: ").length = 10 from rfl,
      show (lit "\n").length = 1 from rfl]
    simp only [bf2cfSize, mesgSize] at hfit ⊢
    omega
  have hall : (flagsMesg h).take mesgSize = printP (lit "OK FLAGS: " ++ bf2cf h ++ lit "\n") :=
    List.take_of_length_le (length_printP _).le
  rw [cstr_flagsMesg hfit, ← List.append_assoc]
  exact mesgText_whole hall hnul hlen

/-- The client that reads the flags of `h` agrees with it. -/
theorem agree_okText (pf : Platform) {h : VtunHost} (hn : Negotiable h) (he : NoErange h)
    (c : VtunHost) :
    (cf2bf pf (okText env h) (clientClear c)).1 = true ∧
      Agree h (cf2bf pf (okText env h) (clientClear c)).2 := by
  obtain ⟨c', hread, hagree, -⟩ := flags_round_trip pf h c hn he
  rw [okText_eq hn.fits, hread]
  exact ⟨rfl, hagree⟩

/-- What the server's state says, in any phase. -/
theorem ServerPhase.serves {p : AuthParty AuthState} (hp : ServerPhase env cenv host p)
    {h : VtunHost} (hh : p.state.h = some h) :
    p.ended = true ∧ p.turn = 2 ∧ findHost env.hosts (some (host.host.take nameRoom)) = some h ∧
      env.rand 0 = env.decryptChal h.passwd (response env cenv host) ∧
      0 ≤ (lockHost h.multi env.ans).1 ∧ p.state.took = (lockHost h.multi env.ans).2 := by
  cases hp with
  | greeted => exact absurd hh (by simp [greeting])
  | unasked => exact absurd hh (by simp [greeting, AuthState.close])
  | asked => exact absurd hh (by simp [waiting])
  | unanswered => exact absurd hh (by simp [waiting, AuthState.close])
  | examined =>
    dsimp only at hh
    rcases examined_cases env cenv host with
      ⟨h', hfind, hres, hlock, hh', htook, -⟩ | ⟨-, hnone, -⟩
    · obtain rfl : h' = h := Option.some.inj (hh'.symm.trans hh)
      exact ⟨rfl, rfl, hfind, hres, hlock, htook⟩
    · exact absurd (hh.symm.trans hnone) (by simp)

theorem ServerPhase.free {p : AuthParty AuthState} (hp : ServerPhase env cenv host p)
    (hh : p.state.h = none) : p.state.took = false := by
  cases hp with
  | greeted => rfl
  | unasked => rfl
  | asked => rfl
  | unanswered => rfl
  | examined =>
    dsimp only at hh
    rcases examined_cases env cenv host with ⟨h, -, -, -, hsome, -⟩ | ⟨-, -, hfree, -⟩
    · exact absurd (hsome.symm.trans hh) (by simp)
    · exact hfree

/-- A client that has two messages behind it has sent its response. -/
theorem ClientPhase.answered_of_length {s : AuthState} {p : AuthParty AuthClient}
    (hp : ClientPhase env cenv host s p) (hlen : 2 ≤ p.state.sent.length) :
    p.state.sent = [hostMesg host, chalMesg (response env cenv host)] :=
  hp.sent.eq_of_length_le hlen

/-- The client takes over the flags of the session the server serves, or none. -/
theorem ClientPhase.record {s : AuthState} {p : AuthParty AuthClient}
    (hp : ClientPhase env cenv host s p) :
    (p.state.success = false ∧ p.state.host = host) ∨
      ∃ h, s.h = some h ∧ p.ended = true ∧ p.turn = 3 ∧
        p.state.success = (cf2bf cenv.pf (okText env h) host).1 ∧
        p.state.host = (cf2bf cenv.pf (okText env h) host).2 := by
  cases hp with
  | started => exact .inl ⟨rfl, rfl⟩
  | asked => exact .inl ⟨rfl, rfl⟩
  | refused => exact .inl ⟨rfl, rfl⟩
  | answered => exact .inl ⟨rfl, rfl⟩
  | denied => exact .inl ⟨rfl, rfl⟩
  | done buf h _ hh =>
    refine .inr ⟨h, hh, rfl, rfl, ?_, ?_⟩
    · simp only [authDone]
    · simp only [authDone]

end Inv

/-- **Agreement.**  Whatever the two sides lose to time, and however their turns interleave:

* a server that serves a session serves the one the client asked for, whose password
  decrypts the response that the client has sent, and holds its lock; any other server holds
  none;
* a client whose record is changed has a server that serves a session, and its record is what
  the flags of that session make of it; it succeeds if `cf2bf` does, and where the flags can be
  negotiated the two ends agree. -/
theorem handshake_agreement (env : AuthEnv) (cenv : ClientEnv) (host : VtunHost)
    (hname : IsName host.host) (sbuf cbuf : List Byte) (es : List HandshakeEv) (t : Handshake)
    (hrun : Run.exec (handshakeStep env cenv) (handshakeStart env host sbuf cbuf) es = some t) :
    (∀ h, t.server.state.h = some h →
        t.server.ended = true ∧ findHost env.hosts (some (host.host.take nameRoom)) = some h ∧
          (∃ chalRes, t.client.state.sent = [hostMesg host, chalMesg chalRes] ∧
            env.decryptChal h.passwd chalRes = env.rand 0) ∧
          0 ≤ (lockHost h.multi env.ans).1 ∧
          t.server.state.took = (lockHost h.multi env.ans).2) ∧
      (t.server.state.h = none → t.server.state.took = false) ∧
      (t.client.state.success = true ∨ t.client.state.host ≠ host →
        ∃ h, t.server.state.h = some h ∧ t.client.ended = true ∧
          t.client.state.success = (cf2bf cenv.pf (okText env h) host).1 ∧
          t.client.state.host = (cf2bf cenv.pf (okText env h) host).2 ∧
          ∀ c, host = clientClear c → Negotiable h → NoErange h →
            t.client.state.success = true ∧ Agree h t.client.state.host) := by
  have hinv := handshaking_exec hname hrun
  refine ⟨fun h hh => ?_, hinv.server.free, fun hclient => ?_⟩
  · obtain ⟨hended, hturn, hfind, hres, hlock, htook⟩ := hinv.server.serves hh
    have hread := hinv.read
    rw [hturn] at hread
    exact ⟨hended, hfind, ⟨_, hinv.client.answered_of_length hread, hres.symm⟩, hlock, htook⟩
  · rcases hinv.client.record with ⟨hno, hsame⟩ | ⟨h, hh, hended, -, hsuccess, hrecord⟩
    · rcases hclient with hyes | hchanged
      · exact absurd (hno.symm.trans hyes) (by simp)
      · exact absurd hsame hchanged
    · refine ⟨h, hh, hended, hsuccess, hrecord, ?_⟩
      intro c hc hn he
      rw [hsuccess, hrecord, hc]
      exact agree_okText cenv.pf hn he c

/-- The events of a handshake that nobody gives up. -/
def readsInTurn : List HandshakeEv :=
  [.clientReads, .serverReads, .clientReads, .serverReads, .clientReads]

/-- Without SSL, the session `lion`. -/
theorem exec_readsInTurn :
    ∃ t, Run.exec (handshakeStep (oneHostEnv (lit "lion")) xorEnv)
        (handshakeStart (oneHostEnv (lit "lion")) (namedHost (lit "lion")) [] []) readsInTurn =
          some t ∧ t.client.state.success = true ∧ t.server.ended = true := by
  have hall : (Run.exec (handshakeStep (oneHostEnv (lit "lion")) xorEnv)
      (handshakeStart (oneHostEnv (lit "lion")) (namedHost (lit "lion")) [] [])
        readsInTurn).map (fun t => (t.client.state.success, t.server.ended)) =
          some (true, true) := by
    decide +kernel
  obtain ⟨t, hrun, hpair⟩ := Option.map_eq_some_iff.mp hall
  exact ⟨t, hrun, congrArg Prod.fst hpair, congrArg Prod.snd hpair⟩

theorem isName_lion : IsName (namedHost (lit "lion")).host :=
  ⟨by decide, forall_mem_of_all (by decide)⟩

theorem handshake_agreement_lion :
    ∃ t, Run.exec (handshakeStep (oneHostEnv (lit "lion")) xorEnv)
          (handshakeStart (oneHostEnv (lit "lion")) (namedHost (lit "lion")) [] []) readsInTurn =
            some t ∧
        ∃ h, t.server.state.h = some h ∧ t.client.ended = true := by
  obtain ⟨t, hrun, hyes, -⟩ := exec_readsInTurn
  obtain ⟨h, hh, hended, -⟩ := (handshake_agreement (oneHostEnv (lit "lion")) xorEnv
    (namedHost (lit "lion")) isName_lion [] [] readsInTurn t hrun).2.2 (.inl hyes)
  exact ⟨t, hrun, h, hh, hended⟩

end Vtun
