/-
The end of the authentication (`auth.c`).

* `handshake_completes` — when neither side gives up one of them can always go on, and both
  succeed exactly if the name, the response, the lock and the flags are good;
* `handshake_refines` — each of them ends as its own loop does on the bytes it was sent.
-/
import Vtun.Handshake

namespace Vtun

/-! ### Completion -/

section Prompt

variable {env : AuthEnv} {cenv : ClientEnv} {host : VtunHost}

/-- Neither side has given up, and each step was the turn of one of them. -/
structure InTurn (n : ℕ) (t : Handshake) : Prop where
  server : t.server.ended = true → t.server.turn = 2
  client : t.client.ended = true → t.client.turn = 3
  steps : n = t.server.turn + t.client.turn

/-- How far the server is when it has not given up. -/
theorem ServerPhase.prompt {p : AuthParty AuthState} (hp : ServerPhase env cenv host p)
    (hprompt : p.ended = true → p.turn = 2) :
    (p.ended = false ∧ p.turn ≤ 1 ∨ p.turn = 2 ∧ p.ended = true ∧
      p.state = Vtun.examined env cenv host) ∧
      p.state.sent.length = p.turn + 1 ∧ p.state.sent[1]? ≠ some .err := by
  cases hp with
  | greeted => exact ⟨.inl ⟨rfl, by simp⟩, rfl, by simp [greeting]⟩
  | unasked => exact absurd (hprompt rfl) (by simp)
  | asked => exact ⟨.inl ⟨rfl, by simp⟩, rfl, by simp [waiting]⟩
  | unanswered => exact absurd (hprompt rfl) (by simp)
  | examined =>
    refine ⟨.inr ⟨rfl, rfl, rfl⟩, ?_⟩
    dsimp only
    rcases examined_cases env cenv host with ⟨h, -, -, -, -, -, hsent⟩ | ⟨-, -, -, hsent⟩
    · rw [hsent]
      exact ⟨rfl, by simp⟩
    · rw [hsent]
      exact ⟨rfl, by simp⟩

/-- How far the client is when it has not given up. -/
theorem ClientPhase.prompt {s : AuthState} {p : AuthParty AuthClient}
    (hp : ClientPhase env cenv host s p) (hprompt : p.ended = true → p.turn = 3) :
    p.ended = false ∧ p.turn ≤ 2 ∧ p.state.sent.length = p.turn ∨
      p.turn = 3 ∧ p.ended = true ∧ p.state.sent.length = 2 := by
  cases hp with
  | started buf ended =>
    cases ended with
    | false => exact .inl ⟨rfl, by simp, rfl⟩
    | true => exact absurd (hprompt rfl) (by simp)
  | asked buf ended =>
    cases ended with
    | false => exact .inl ⟨rfl, by simp, rfl⟩
    | true => exact absurd (hprompt rfl) (by simp)
  | refused => exact absurd (hprompt rfl) (by simp)
  | answered buf ended =>
    cases ended with
    | false => exact .inl ⟨rfl, by simp, rfl⟩
    | true => exact absurd (hprompt rfl) (by simp)
  | denied => exact .inr ⟨rfl, rfl, rfl⟩
  | done => exact .inr ⟨rfl, rfl, rfl⟩

/-- A turn of one side. -/
def HandshakeEv.Reads (e : HandshakeEv) : Prop := e = .serverReads ∨ e = .clientReads

/-- **A turn of either side**, when neither has given up. -/
theorem inTurn_step (hname : IsName host.host) {n : ℕ} {t t' : Handshake} {e : HandshakeEv}
    (he : e.Reads) (hinv : Handshaking env cenv host t) (hturn : InTurn n t)
    (hstep : handshakeStep env cenv t e = some t') : InTurn (n + 1) t' := by
  have hsteps := hturn.steps
  rcases he with rfl | rfl
  · simp only [handshakeStep, Option.ite_none_left_eq_some, not_or, Bool.not_eq_true,
      Option.some.injEq] at hstep
    obtain ⟨⟨hended, hlen⟩, rfl⟩ := hstep
    obtain ⟨m, hmesg, htake, -⟩ := hinv.forServer hlen
    rw [htake]
    refine ⟨(hinv.server.turn hname hended hmesg).2, hturn.client, ?_⟩
    show n + 1 = t.server.turn + 1 + t.client.turn
    omega
  · simp only [handshakeStep, Option.ite_none_left_eq_some, not_or, Bool.not_eq_true,
      Option.some.injEq] at hstep
    obtain ⟨⟨hended, hlen⟩, rfl⟩ := hstep
    obtain ⟨r, hr, htake, -⟩ := hinv.forClient hlen
    rw [htake]
    refine ⟨hturn.server, fun hend => ?_, ?_⟩
    · rcases (hinv.client.turn hinv.server hended hr).2 hend with hthree | herr
      · exact hthree
      · exact absurd herr (hinv.server.prompt hturn.server).2.2
    · show n + 1 = t.server.turn + (t.client.turn + 1)
      omega

theorem inTurn_start (env : AuthEnv) (host : VtunHost) (sbuf cbuf : List Byte) :
    InTurn 0 (handshakeStart env host sbuf cbuf) where
  server := fun h => absurd h (by simp [handshakeStart])
  client := fun h => absurd h (by simp [handshakeStart])
  steps := rfl

theorem inTurn_exec (hname : IsName host.host) {n : ℕ} {t t' : Handshake} {es : List HandshakeEv}
    (hreads : ∀ e ∈ es, e.Reads) (hinv : Handshaking env cenv host t) (hturn : InTurn n t)
    (hrun : Run.exec (handshakeStep env cenv) t es = some t') : InTurn (n + es.length) t' := by
  induction es generalizing n t with
  | nil =>
    obtain rfl := Option.some.inj hrun
    exact hturn
  | cons e es ih =>
    obtain ⟨s, hone, hrest⟩ := Run.exec_cons.mp hrun
    obtain ⟨he, hreads⟩ := List.forall_mem_cons.mp hreads
    have hlen : n + (e :: es).length = n + 1 + es.length := by
      rw [List.length_cons]
      omega
    rw [hlen]
    exact ih hreads (handshaking_step hname hinv hone) (inTurn_step hname he hinv hturn hone)
      hrest

/-- The client that has heard all the messages of a server that serves a session. -/
theorem Handshaking.client_done {t : Handshake} (hinv : Handshaking env cenv host t)
    (hturn : t.client.turn = 3) {h : VtunHost} (hh : t.server.state.h = some h) :
    t.client.state.success = (cf2bf cenv.pf (okText env h) host).1 := by
  have hnoerr : Reply.err ∉ t.server.state.sent := by
    rcases hinv.server.sent with ⟨hnone, -⟩ | ⟨h', -, -, -, hsent⟩
    · exact absurd (hnone.symm.trans hh) (by simp)
    · rw [hsent]
      simp
  have hphase := hinv.client
  generalize t.client = p at hphase hturn
  cases hphase with
  | started => exact absurd hturn (by simp)
  | asked => exact absurd hturn (by simp)
  | refused => exact absurd hturn (by simp)
  | answered => exact absurd hturn (by simp)
  | denied buf hs => exact absurd hs hnoerr
  | done buf h' _ hh' =>
    obtain rfl : h' = h := Option.some.inj (hh'.symm.trans hh)
    simp only [authDone]

/-- A message that has been sent and not been read can be. -/
theorem length_messages {mesgs : List (List Byte)} (hall : ∀ m ∈ mesgs, m.length = mesgSize)
    {k : ℕ} (hk : k < mesgs.length) : ¬ (mesgs.drop k).flatten.length < mesgSize := by
  rw [List.drop_eq_getElem_cons hk, List.flatten_cons, List.length_append,
    hall _ (List.getElem_mem hk)]
  omega

/-- **There is no deadlock.** -/
theorem InTurn.progress {n : ℕ} {t : Handshake} (hinv : Handshaking env cenv host t)
    (hturn : InTurn n t) (hmore : t.server.ended = false ∨ t.client.ended = false) :
    ∃ e, HandshakeEv.Reads e ∧ (handshakeStep env cenv t e).isSome = true := by
  obtain ⟨hserver, hsent, -⟩ := hinv.server.prompt hturn.server
  have hclient := hinv.client.prompt hturn.client
  have hwhole : ∀ m ∈ t.server.state.sent.map (Reply.text env.ver), m.length = mesgSize := by
    intro m hm
    obtain ⟨r, -, rfl⟩ := List.mem_map.mp hm
    exact r.length_text _
  by_cases hread : t.server.ended = false ∧ t.server.turn < t.client.state.sent.length
  · refine ⟨.serverReads, .inl rfl, ?_⟩
    have hlen : ¬ t.toServer.length < mesgSize := by
      rw [hinv.toServer]
      exact length_messages hinv.client.whole hread.2
    simp [handshakeStep, hread.1, hlen]
  -- the server has nothing to read, so it is the client that is behind
  · have hbehind : t.client.ended = false ∧ t.client.turn < t.server.state.sent.length := by
      rcases hclient with ⟨hgoes, hle, hlen⟩ | ⟨hthree, hended, hlen⟩
      · refine ⟨hgoes, ?_⟩
        rcases hserver with ⟨hgoes', hle'⟩ | ⟨htwo, -, -⟩
        · have hnot : ¬ t.server.turn < t.client.state.sent.length := fun h => hread ⟨hgoes', h⟩
          omega
        · omega
      · rcases hserver with ⟨hgoes', hle'⟩ | ⟨-, hended', -⟩
        · exact absurd ⟨hgoes', by omega⟩ hread
        · rw [hended, hended'] at hmore
          simp at hmore
    refine ⟨.clientReads, .inr rfl, ?_⟩
    have hlen : ¬ t.toClient.length < mesgSize := by
      rw [hinv.toClient]
      refine length_messages hwhole ?_
      rw [List.length_map]
      exact hbehind.2
    simp [handshakeStep, hbehind.1, hlen]

end Prompt

/-- **Completion.**  As long as neither side gives up, one of them can go on until both have
ended, after five turns.  Then a session is served exactly if the server has a record of the
name, the response decrypts to the challenge under its password and the lock was free; and the
client succeeds exactly if it reads the flags of that session. -/
theorem handshake_completes (env : AuthEnv) (cenv : ClientEnv) (host : VtunHost)
    (hname : IsName host.host) (sbuf cbuf : List Byte) (es : List HandshakeEv)
    (hreads : ∀ e ∈ es, e.Reads) (t : Handshake)
    (hrun : Run.exec (handshakeStep env cenv) (handshakeStart env host sbuf cbuf) es = some t) :
    es.length ≤ 5 ∧
      (es.length < 5 → ∃ e, HandshakeEv.Reads e ∧ (handshakeStep env cenv t e).isSome = true) ∧
      (es.length = 5 → t.server.ended = true ∧ t.client.ended = true ∧
        (∀ h, t.server.state.h = some h ↔
          findHost env.hosts (some (host.host.take nameRoom)) = some h ∧
            env.decryptChal h.passwd (cenv.encryptChal host.passwd (env.rand 0)) = env.rand 0 ∧
            0 ≤ (lockHost h.multi env.ans).1) ∧
        (t.client.state.success = true ↔
          ∃ h, t.server.state.h = some h ∧ (cf2bf cenv.pf (okText env h) host).1 = true)) := by
  have hinv := handshaking_exec hname hrun
  have hstart : Handshaking env cenv host (handshakeStart env host sbuf cbuf) :=
    ⟨.greeted _, .started _ _, rfl, rfl, Nat.zero_le _, Nat.zero_le _⟩
  have hturn := inTurn_exec hname hreads hstart
    (inTurn_start env host sbuf cbuf) hrun
  have hsteps := hturn.steps
  obtain ⟨hserver, hsent, -⟩ := hinv.server.prompt hturn.server
  have hclient := hinv.client.prompt hturn.client
  refine ⟨?_, fun hlt => ?_, fun hfive => ?_⟩
  · rcases hserver with ⟨-, h⟩ | ⟨h, -⟩ <;> rcases hclient with ⟨-, h', -⟩ | ⟨h', -⟩ <;> omega
  · refine hturn.progress hinv ?_
    rcases hserver with ⟨h, -⟩ | ⟨h, -⟩
    · exact .inl h
    · rcases hclient with ⟨h', -⟩ | ⟨h', -⟩
      · exact .inr h'
      · omega
  · obtain ⟨hended, hstate⟩ : t.server.ended = true ∧ t.server.state = examined env cenv host := by
      rcases hserver with ⟨-, h⟩ | ⟨-, h⟩
      · rcases hclient with ⟨-, h', -⟩ | ⟨h', -⟩ <;> omega
      · exact h
    have hthree : t.client.ended = true ∧ t.client.turn = 3 := by
      rcases hclient with ⟨-, h, -⟩ | ⟨h, h', -⟩
      · rcases hserver with ⟨-, h'⟩ | ⟨h', -⟩ <;> omega
      · exact ⟨h', h⟩
    refine ⟨hended, hthree.1, fun h => ?_, ?_⟩
    · constructor
      · intro hh
        obtain ⟨-, -, hfind, hres, hlock, -⟩ := hinv.server.serves hh
        exact ⟨hfind, hres.symm, hlock⟩
      · rintro ⟨hfind, hres, hlock⟩
        rw [hstate]
        rcases examined_cases env cenv host with ⟨h', hfind', -, -, hh, -⟩ | ⟨hno, -⟩
        · rw [hh, ← hfind, hfind']
        · exact absurd (hno h hfind hres.symm) (by omega)
    · constructor
      · intro hyes
        rcases hinv.client.record with ⟨hno, -⟩ | ⟨h, hh, -, -, hsuccess, -⟩
        · exact absurd (hno.symm.trans hyes) (by simp)
        · exact ⟨h, hh, hsuccess ▸ hyes⟩
      · rintro ⟨h, hh, hread⟩
        exact (hinv.client_done hthree.2 hh).trans hread

theorem handshake_completes_lion :
    ∃ t, Run.exec (handshakeStep (oneHostEnv (lit "lion")) xorEnv)
          (handshakeStart (oneHostEnv (lit "lion")) (namedHost (lit "lion")) [] []) readsInTurn =
            some t ∧
        ∃ h, t.server.state.h = some h ∧
          (cf2bf .lp64 (okText (oneHostEnv (lit "lion")) h) (namedHost (lit "lion"))).1 = true := by
  obtain ⟨t, hrun, hyes, -⟩ := exec_readsInTurn
  have hreads : ∀ e ∈ readsInTurn, e.Reads := by
    simp [readsInTurn, HandshakeEv.Reads]
  exact ⟨t, hrun, ((handshake_completes (oneHostEnv (lit "lion")) xorEnv
    (namedHost (lit "lion")) isName_lion [] [] readsInTurn hreads t hrun).2.2 rfl).2.2.2.mp hyes⟩

/-! ### Each side by itself -/

section Refines

variable {env : AuthEnv} {cenv : ClientEnv} {host : VtunHost}

/-- The side that gives up before its turn `k`. -/
def readyUntil (k : ℕ) (turn : ℕ) : Bool := decide (turn < k)

/-- A message is read whole, however it comes. -/
theorem clientMesg_quiet (ready : ℕ → Bool) (turn : ℕ) (hready : ready turn = true)
    {m : List Byte} (hm : m.length = mesgSize) (rest buf : List Byte) {sched : List IoEvent}
    (hq : Quiet sched) :
    ∃ sched', Quiet sched' ∧ clientMesg ready turn ⟨m ++ rest, sched, false⟩ buf =
      some (store buf m, ⟨rest, sched', false⟩) := by
  have hlen : mesgSize ≤ (m ++ rest).length := by
    rw [List.length_append, hm]
    exact Nat.le_add_right _ _
  have hfd : Input.Quiet ⟨m ++ rest, sched, false⟩ := ⟨rfl, hq⟩
  obtain ⟨fd', ⟨hcanceled, hq'⟩, hdata, hread⟩ := readN_eq hfd mesgSize hlen
  dsimp only at hdata hread
  rw [← hm, List.take_left] at hread
  rw [← hm, List.drop_left] at hdata
  refine ⟨fd'.sched, hq', ?_⟩
  have hpos : (0 : ℤ) < (m.length : ℕ) := by
    rw [hm]
    decide
  rw [clientMesg, if_pos hready, ← hm, hread]
  simp only [gt_iff_lt, if_pos hpos, ← hdata, ← hcanceled]

/-- The texts of the messages that are waited for. -/
theorem clientTexts_quiet (k : ℕ) {mesgs : List (List Byte)}
    (hall : ∀ m ∈ mesgs, m.length = mesgSize) (n turn : ℕ) (buf : List Byte)
    {sched : List IoEvent} (hq : Quiet sched) (hk : k - turn ≤ mesgs.length) :
    clientTexts (readyUntil k) n turn ⟨mesgs.flatten, sched, false⟩ buf =
      (mesgs.map mesgText).take (min n (k - turn)) := by
  induction n generalizing turn mesgs buf sched with
  | zero => rw [Nat.zero_min, List.take_zero, clientTexts]
  | succ n ih =>
    rw [clientTexts]
    by_cases hturn : turn < k
    · obtain ⟨m, mesgs, rfl⟩ : ∃ m rest, mesgs = m :: rest := by
        cases mesgs with
        | nil =>
          rw [List.length_nil] at hk
          omega
        | cons m rest => exact ⟨m, rest, rfl⟩
      obtain ⟨hm, hall⟩ := List.forall_mem_cons.mp hall
      obtain ⟨sched', hq', hread⟩ :=
        clientMesg_quiet (readyUntil k) turn (decide_eq_true hturn) hm mesgs.flatten buf hq
      have htext : mesgText (store buf m) = mesgText m :=
        mesgText_congr ((take_store_mesg buf hm).trans (by rw [← hm, List.take_length]))
      have hmin : min (n + 1) (k - turn) = min n (k - (turn + 1)) + 1 := by omega
      rw [List.length_cons] at hk
      rw [List.flatten_cons, hread, hmin, List.map_cons, List.take_succ_cons]
      dsimp only
      rw [htext, ih hall (turn + 1) _ hq' (by omega)]
    · have hnone : clientMesg (readyUntil k) turn ⟨mesgs.flatten, sched, false⟩ buf = none := by
        rw [clientMesg, if_neg]
        simpa [readyUntil] using hturn
      have hmin : min (n + 1) (k - turn) = 0 := by omega
      rw [hnone, hmin, List.take_zero]

theorem Reply.take_text (ver : List Byte) (r : Reply) : (r.text ver).take mesgSize = r.text ver :=
  List.take_of_length_le (r.length_text ver).le

/-- The strings a client finds in the first `k` messages of the server. -/
def heard (ver : List Byte) (sent : List Reply) (k : ℕ) : List (List Byte) :=
  ((sent.map (Reply.text ver)).map mesgText).take k

theorem hears_version (l : List Reply) :
    clientHears cenv host (heard env.ver (.version :: l) 1) = authAsked host := by
  have hver : (mesgText (Reply.version.text env.ver)).take 4 = lit "VTUN" :=
    mesgText_version (Reply.take_text _ _)
  simp only [heard, List.map_cons, List.take_succ_cons, List.take_zero, clientHears, if_pos hver,
    hearsChal]

theorem hears_refusal (l : List Reply) :
    clientHears cenv host (heard env.ver (.version :: .err :: l) 2) = authAsked host := by
  have hver : (mesgText (Reply.version.text env.ver)).take 4 = lit "VTUN" :=
    mesgText_version (Reply.take_text _ _)
  have herr : mesgText (Reply.err.text env.ver) = lit "ERR\n" := mesgText_err (Reply.take_text _ _)
  have hno : ¬ (lit "ERR\n").take 2 = lit "OK" := by decide
  simp only [heard, List.map_cons, List.take_succ_cons, List.take_zero, clientHears, if_pos hver,
    hearsChal, herr, if_neg hno]

/-- What is heard behind the challenge. -/
theorem hears_chal (chal : Chal) (l : List Reply) (k : ℕ) :
    clientHears cenv host (heard env.ver (.version :: .okChal chal :: l) (k + 2)) =
      hearsFlags cenv host chal (heard env.ver l k) := by
  have hver : (mesgText (Reply.version.text env.ver)).take 4 = lit "VTUN" :=
    mesgText_version (Reply.take_text _ _)
  obtain ⟨hread, hok⟩ := cs2cl_okChal (Reply.take_text env.ver (.okChal chal))
  simp only [heard, List.map_cons, List.take_succ_cons, clientHears, if_pos hver, hearsChal,
    if_pos hok, hread]

theorem hears_denial (chal : Chal) (l : List Reply) :
    hearsFlags cenv host chal (heard env.ver (.err :: l) 1) = authAnswered cenv host chal := by
  have herr : mesgText (Reply.err.text env.ver) = lit "ERR\n" := mesgText_err (Reply.take_text _ _)
  have hno : ¬ (lit "ERR\n").take 2 = lit "OK" := by decide
  simp only [heard, List.map_cons, List.take_succ_cons, hearsFlags, herr, if_neg hno]

theorem hears_flags (chal : Chal) (h : VtunHost) (l : List Reply) :
    hearsFlags cenv host chal (heard env.ver (.okFlags h :: l) 1) =
      authDone cenv host chal (okText env h) := by
  simp only [heard, List.map_cons, List.take_succ_cons, hearsFlags]
  exact if_pos (okText_take env h)

/-- The stages of the client are those of its loop on what it has heard. -/
theorem ClientPhase.hears {s : AuthParty AuthState} (hs : ServerPhase env cenv host s)
    {p : AuthParty AuthClient} (hp : ClientPhase env cenv host s.state p)
    (hheard : p.turn ≤ s.state.sent.length) :
    p.state = clientHears cenv host (heard env.ver s.state.sent p.turn) := by
  have hfirst : ∃ l, 1 ≤ p.turn → s.state.sent = .version :: l := by
    rcases hsent : s.state.sent with _ | ⟨r, l⟩
    · exact ⟨[], fun h => absurd (h.trans hheard) (by simp [hsent])⟩
    · refine ⟨l, fun _ => ?_⟩
      rcases hs.reply (k := 0) (by rw [hsent]; rfl) with ⟨-, rfl⟩ | ⟨h, -⟩ | ⟨h, -⟩
      · rfl
      · exact absurd h (by simp)
      · exact absurd h (by simp)
  obtain ⟨l, hfirst⟩ := hfirst
  cases hp with
  | started => rfl
  | asked => rw [hfirst (by simp), hears_version]
  | refused buf hsecond =>
    have hsent := hfirst (by simp)
    rw [hsent, List.getElem?_cons_succ, ← List.head?_eq_getElem?] at hsecond
    rw [hsent]
    obtain ⟨l, rfl⟩ : ∃ l', l = .err :: l' := List.head?_eq_some_iff.mp hsecond
    rw [hears_refusal]
  | answered buf ended hsecond =>
    have hsent := hfirst (by simp)
    rw [hsent, List.getElem?_cons_succ, ← List.head?_eq_getElem?] at hsecond
    rw [hsent]
    obtain ⟨l, rfl⟩ : ∃ l', l = .okChal (env.rand 0) :: l' := List.head?_eq_some_iff.mp hsecond
    rw [hears_chal]
    rfl
  | denied buf herr =>
    rcases hs.sent with ⟨-, hpre | hsent⟩ | ⟨h, -, -, -, hsent⟩
    · rw [hpre.eq_of_length_le hheard, hears_chal, hears_denial]
    · rw [hsent] at hheard
      exact absurd hheard (by simp)
    · rw [hsent] at herr
      exact absurd herr (by simp)
  | done buf h hstate hh =>
    rcases hs.sent with ⟨hnone, -⟩ | ⟨h', -, hh', -, hsent⟩
    · exact absurd (hnone.symm.trans hh) (by simp)
    · obtain rfl : h' = h := Option.some.inj (hh'.symm.trans hh)
      rw [hsent, hears_chal, hears_flags]

/-- The server that gives up after as many messages. -/
def AuthEnv.until (env : AuthEnv) (k : ℕ) : AuthEnv := { env with ready := readyUntil k }

/-- The first message, and what is made of it. -/
theorem authServer_asked (env : AuthEnv) (hname : IsName host.host) {k : ℕ} (hk : 0 < k)
    (more : List Byte) {sched : List IoEvent} (hq : Quiet sched) (buf : List Byte) :
    ∃ n sched' buf', Quiet sched' ∧
      authServer (env.until k) ⟨hostMesg host ++ more, sched, false⟩ buf =
        (authLoop (env.until k) (n + 1) 1 ⟨more, sched', false⟩ buf'
          (waiting env (host.host.take nameRoom))).close := by
  have hm : (hostMesg host).length = mesgSize := length_printP _
  obtain ⟨sched', hq', hread⟩ := clientMesg_quiet (readyUntil k) 0
    (decide_eq_true hk) hm more buf hq
  have hmesg : mesgNext (env.until k) 0 ⟨hostMesg host ++ more, sched, false⟩ buf =
      some (store buf (hostMesg host), ⟨more, sched', false⟩) := hread
  have hbody := authBody_hostMesg (env.until k) hname (take_store_mesg buf hm)
  refine ⟨(hostMesg host ++ more).length, sched', store buf (hostMesg host), hq', ?_⟩
  have hloop : authLoop (env.until k) ((hostMesg host ++ more).length + 2) 0
      ⟨hostMesg host ++ more, sched, false⟩ buf greeting =
        authLoop (env.until k) ((hostMesg host ++ more).length + 1) 1 ⟨more, sched', false⟩
          (store buf (hostMesg host)) (waiting env (host.host.take nameRoom)) := by
    rw [authLoop, hmesg]
    dsimp only
    rw [hbody]
    rfl
  rw [authServer]
  dsimp only
  rw [hloop]
  rfl

/-- The server is where its loop is on what the client has sent. -/
theorem ServerPhase.refines (hname : IsName host.host) {p : AuthParty AuthState}
    (hp : ServerPhase env cenv host p) (hended : p.ended = true) {l : List (List Byte)}
    (hpre : l <+: [hostMesg host, chalMesg (response env cenv host)]) (hread : p.turn ≤ l.length)
    {sched : List IoEvent} (hq : Quiet sched) (buf : List Byte) :
    p.state = authServer (env.until p.turn) ⟨l.flatten, sched, false⟩ buf := by
  have hnone : ∀ turn fd buf, mesgNext (env.until turn) turn fd buf = none := by
    intro turn fd buf
    rw [mesgNext, if_neg]
    simp [AuthEnv.until, readyUntil]
  cases hp with
  | greeted => exact absurd hended (by simp)
  | unasked =>
    rw [authServer, authLoop, hnone]
    rfl
  | asked => exact absurd hended (by simp)
  | unanswered =>
    obtain ⟨m, l, rfl⟩ := List.exists_cons_of_length_pos hread
    obtain ⟨rfl, -⟩ := List.cons_prefix_cons.mp hpre
    rw [List.flatten_cons]
    obtain ⟨n, sched', buf', -, heq⟩ := authServer_asked env hname Nat.one_pos l.flatten hq buf
    dsimp only
    rw [heq, authLoop, hnone]
  | examined =>
    obtain rfl := hpre.eq_of_length_le hread
    rw [List.flatten_cons]
    obtain ⟨n, sched', buf', hq', heq⟩ :=
      authServer_asked env hname Nat.two_pos [chalMesg (response env cenv host)].flatten hq buf
    have hm : (chalMesg (response env cenv host)).length = mesgSize := length_printP _
    obtain ⟨sched'', -, hread⟩ := clientMesg_quiet (readyUntil 2) 1 rfl hm [] buf' hq'
    have hmesg : mesgNext (env.until 2) 1
        ⟨[chalMesg (response env cenv host)].flatten, sched', false⟩ buf' =
          some (store buf' (chalMesg (response env cenv host)), ⟨[], sched'', false⟩) := hread
    have hbody := authBody_chalMesg (env.until 2) 1 (host.host.take nameRoom)
      (take_store_mesg buf' hm)
    dsimp only
    rw [heq, authLoop, hmesg]
    dsimp only
    have hwaiting : waiting env (host.host.take nameRoom) =
        waiting (env.until 2) (host.host.take nameRoom) := rfl
    rw [hwaiting, hbody]
    rfl

end Refines

/-- **Refinement.**  However their turns interleave, and whenever they give up, each side that
has ended is where `auth_server` and `auth_client` end by themselves on the messages they were
sent, in whatever pieces these come. -/
theorem handshake_refines (env : AuthEnv) (cenv : ClientEnv) (host : VtunHost)
    (hname : IsName host.host) (sbuf cbuf : List Byte) (es : List HandshakeEv) (t : Handshake)
    (hrun : Run.exec (handshakeStep env cenv) (handshakeStart env host sbuf cbuf) es = some t)
    (sched : List IoEvent) (hq : Quiet sched) :
    (t.server.ended = true → t.server.state =
        authServer { env with ready := readyUntil t.server.turn }
          ⟨t.client.state.sent.flatten, sched, false⟩ sbuf) ∧
      (t.client.ended = true → t.client.state =
        authClient { cenv with ready := readyUntil t.client.turn } host
          ⟨serverBytes env.ver t.server.state.sent, sched, false⟩ cbuf) := by
  have hinv := handshaking_exec hname hrun
  refine ⟨fun hended => ?_, fun _ => ?_⟩
  · exact hinv.server.refines hname hended hinv.client.sent hinv.read hq sbuf
  · have hwhole : ∀ m ∈ t.server.state.sent.map (Reply.text env.ver), m.length = mesgSize := by
      intro m hm
      obtain ⟨r, -, rfl⟩ := List.mem_map.mp hm
      exact r.length_text _
    have hloop := authClientLoop_hears { cenv with ready := readyUntil t.client.turn } host 3
      ⟨serverBytes env.ver t.server.state.sent, sched, false⟩ cbuf
    have htexts := clientTexts_quiet t.client.turn hwhole 3 0 cbuf hq
      (by rw [List.length_map]; exact hinv.heard)
    have hthree : min 3 (t.client.turn - 0) = t.client.turn := by
      have hclient := hinv.client
      generalize t.client = p at hclient
      cases hclient <;> rfl
    rw [hthree] at htexts
    refine (hinv.client.hears hinv.server hinv.heard).trans (Eq.trans ?_ hloop.symm)
    dsimp only
    rw [serverBytes, htexts]
    rfl

theorem handshake_refines_lion :
    ∃ t, Run.exec (handshakeStep (oneHostEnv (lit "lion")) xorEnv)
          (handshakeStart (oneHostEnv (lit "lion")) (namedHost (lit "lion")) [] []) readsInTurn =
            some t ∧
        t.server.state =
          authServer { oneHostEnv (lit "lion") with ready := readyUntil t.server.turn }
            ⟨t.client.state.sent.flatten, [.chunk 6, .again], false⟩ [] := by
  obtain ⟨t, hrun, -, hended⟩ := exec_readsInTurn
  exact ⟨t, hrun, (handshake_refines (oneHostEnv (lit "lion")) xorEnv (namedHost (lit "lion"))
    isName_lion [] [] readsInTurn t hrun [.chunk 6, .again] (by decide)).1 hended⟩

end Vtun
