/-
The keep-alive of the linker loop (`linkfd.c`).

A verification is a turn of the loop that finds `ka_need_verify` set.  The log of a
run has its verifications, each with the `VTUN_ECHO_REQ` it has sent, and the
frames taken from the network; it is read off the calls of the loop, not off `idle`.

* `turnEvents`, `keepAliveLog` — what one turn adds to the log, and the log of a run;
* `unanswered` — the verifications since the last frame, for each value of `idle`;
* `Counts.linkerRun` — `idle` counts them in every run;
* `keepalive_timeout` — when the network times out.
-/
import Vtun.LinkerStream
import Mathlib.Data.List.Chain

namespace Vtun

/-! ### The log -/

/-- What matters for the keep-alive. -/
inductive KaEv
  /-- a verification, with the number of `VTUN_ECHO_REQ` sent by it -/
  | verify (echoes : ℕ)
  /-- a frame taken from the network -/
  | frame
  deriving DecidableEq, Repr

def KaEv.isVerify : KaEv → Bool
  | .verify _ => true
  | .frame => false

def KaEv.echoes : KaEv → ℕ
  | .verify n => n
  | .frame => 0

/-- The part of a log after its last frame, the latest verification first. -/
def sinceFrame (log : List KaEv) : List KaEv := log.reverse.takeWhile KaEv.isVerify

/-- The requests sent by the verifications of a log. -/
def echoesIn (log : List KaEv) : ℕ := (log.map KaEv.echoes).sum

/-- After every `VTUN_ECHO_REQ`, a frame is taken before the next verification. -/
def Answered (log : List KaEv) : Prop :=
  log.IsChain fun a b => 0 < a.echoes → b = .frame

instance (log : List KaEv) : Decidable (Answered log) :=
  inferInstanceAs (Decidable (log.IsChain _))

/-- `proto_read`, with whatever it has returned. -/
def LinkEv.isNet : LinkEv → Bool
  | .net _ => true
  | _ => false

def LinkEv.isEchoReq : LinkEv → Bool
  | .proto _ len => len = echoReq
  | _ => false

section Log

variable {ε σ ν : Type} (S : Session ε σ) (P : Ports ε ν)

/-- The calls made between two states. -/
def newCalls (s t : Linker σ ν) : List LinkEv := t.trace.drop s.trace.length

/-- The value of `ka_need_verify` where it is checked. -/
def needVerify (s : Linker σ ν) : Bool := s.kaNeedVerify || (P.alarm s.io).1

/-- The state in which a turn of the loop checks `ka_need_verify`, if it gets there. -/
def atCheck (s : Linker σ ν) : Option (Linker σ ν) :=
  match (P.select s.io).1 with
  | .failed _ => none
  | .ready _ _ => some { s with io := (P.select s.io).2 }

/-- A verification takes place in the turn that starts in `s`. -/
def verifies (s : Linker σ ν) : Bool := (atCheck P s).any (needVerify P)

/-- The turn that starts in `s` takes the break of the network timeout. -/
def timesOut (s : Linker σ ν) : Bool :=
  (atCheck P s).any fun s => needVerify P s && decide (s.idle > S.kaMaxfail)

/-- What a turn of the loop adds to the log: the check comes before the frame. -/
def turnEvents (s : Linker σ ν) : List KaEv :=
  (match atCheck P s with
  | none => []
  | some t =>
    if needVerify P t then
      [.verify ((newCalls t (keepAlive S P t).1).countP LinkEv.isEchoReq)]
    else []) ++
  if (newCalls s (linkerPass S P s).1).any LinkEv.isNet then [.frame] else []

/-- The log of at most `n` turns of the loop. -/
def keepAliveLog : ℕ → Linker σ ν → List KaEv
  | 0, _ => []
  | n + 1, s =>
    if (P.term s.io).isSome then []
    else
      let r := linkerPass S P s
      turnEvents S P s ++ if r.2 = .stop then [] else keepAliveLog n r.1

/-- Where `lfd_linker` enters its loop, from the state in which it is called. -/
def linkerStart (natHack : Bool) (termZero : ν → ν) (s : Linker σ ν) : Linker σ ν :=
  let s := { s with idle := 0 }
  let s := if natHack then s else (putProto P s s.buf echoReq).2
  { s with io := termZero s.io }

theorem linkerStart_idle (natHack : Bool) (termZero : ν → ν) (s : Linker σ ν) :
    (linkerStart P natHack termZero s).idle = 0 := by
  rw [linkerStart]
  cases natHack with
  | false => rfl
  | true => rfl

end Log

/-! ### The verifications since the last frame -/

@[simp] theorem sinceFrame_nil : sinceFrame [] = [] := rfl

theorem sinceFrame_frame (log : List KaEv) : sinceFrame (log ++ [.frame]) = [] := by
  rw [sinceFrame, List.reverse_append]
  rfl

theorem sinceFrame_verify (log : List KaEv) (n : ℕ) :
    sinceFrame (log ++ [.verify n]) = .verify n :: sinceFrame log := by
  rw [sinceFrame, List.reverse_append]
  rfl

/-- The verifications that have raised `idle` to `k`, the latest first: all but the
first one have sent a request. -/
def unanswered : ℕ → List KaEv
  | 0 => []
  | k + 1 => .verify (if 0 < k then 1 else 0) :: unanswered k

theorem unanswered_length (k : ℕ) : (unanswered k).length = k := by
  induction k with
  | zero => rfl
  | succ k ih => rw [unanswered, List.length_cons, ih]

theorem unanswered_echoes (k : ℕ) : echoesIn (unanswered (k + 1)) = k := by
  induction k with
  | zero => rfl
  | succ k ih =>
    rw [unanswered, if_pos (Nat.succ_pos k), echoesIn, List.map_cons, List.sum_cons]
    show 1 + echoesIn (unanswered (k + 1)) = k + 1
    omega

/-! ### What the parts of a turn do to the count -/

/-- A part of the loop body that resets `idle` where it takes a frame and leaves it
alone otherwise. -/
def ResetsIdle {σ ν : Type} (f : Linker σ ν → Linker σ ν × Flow) : Prop :=
  ∀ s, ∃ out, (f s).1.trace = s.trace ++ out ∧
    (f s).1.idle = if out.any LinkEv.isNet then 0 else s.idle

theorem ResetsIdle.seqFlow {σ ν : Type} {f g : Linker σ ν → Linker σ ν × Flow}
    (hf : ResetsIdle f) (hg : ResetsIdle g) : ResetsIdle fun s => seqFlow (f s) g := by
  intro s
  obtain ⟨out, htr, hidle⟩ := hf s
  show ∃ out', (Vtun.seqFlow (f s) g).1.trace = s.trace ++ out' ∧
    (Vtun.seqFlow (f s) g).1.idle = if out'.any LinkEv.isNet then 0 else s.idle
  generalize f s = r at htr hidle ⊢
  obtain ⟨t, flow⟩ := r
  cases flow with
  | next => exact ⟨out, htr, hidle⟩
  | stop => exact ⟨out, htr, hidle⟩
  | fall =>
    obtain ⟨out', htr', hidle'⟩ := hg t
    refine ⟨out ++ out', by rw [seqFlow_fall, htr', htr, List.append_assoc], ?_⟩
    rw [seqFlow_fall, hidle', hidle, List.any_append]
    cases out.any LinkEv.isNet <;> cases out'.any LinkEv.isNet <;> rfl

/-- What is sent is no frame that has been taken. -/
theorem sent_noNet {out : List LinkEv} (hout : ∀ e ∈ out, e.sent = true) :
    out.any LinkEv.isNet = false := by
  refine List.any_eq_false.mpr fun e he => ?_
  have hsent := hout e he
  cases e with
  | net => cases hsent
  | _ => exact Bool.false_ne_true

theorem OnlySends.resetsIdle {σ ν : Type} {f : Linker σ ν → Linker σ ν × Flow}
    (h : OnlySends f) (hidle : ∀ s, (f s).1.idle = s.idle) : ResetsIdle f := by
  intro s
  obtain ⟨out, htr, hout⟩ := h s
  exact ⟨out, htr, by rw [sent_noNet hout, if_neg Bool.false_ne_true, hidle]⟩

section Parts

variable {ε σ ν : Type} (S : Session ε σ) (P : Ports ε ν)

theorem sendDown_idle (s : Linker σ ν) (frame : Span) :
    (sendDown S P s frame).1.idle = s.idle := by
  unfold sendDown putProto
  dsimp only
  repeat' split
  all_goals rfl

theorem sendPacket_resets : ResetsIdle (sendPacket S P) := by
  refine (sendPacket_sends S P).resetsIdle fun s => ?_
  rw [sendPacket]
  split
  · exact sendDown_idle S P _ _
  · rfl

theorem devFrame_resets (ready : Bool) : ResetsIdle (devFrame S P ready) := by
  refine (devFrame_sends S P ready).resetsIdle fun s => ?_
  unfold devFrame
  dsimp only
  repeat' split
  all_goals first | rfl | exact sendDown_idle S P _ _

/-- A frame that has been taken is recorded; its flags do not touch the count. -/
theorem handleFlags_net (s : Linker σ ν) (len : ℕ) : ∃ out,
    (handleFlags S P s len).1.trace = s.trace ++ out ∧ out.any LinkEv.isNet = true ∧
      (handleFlags S P s len).1.idle = s.idle := by
  have hdeliver : ∃ out, (deliverUp S P s (frameLen len)).1.trace = s.trace ++ out ∧
      out.any LinkEv.isNet = true ∧ (deliverUp S P s (frameLen len)).1.idle = s.idle := by
    unfold deliverUp
    dsimp only
    repeat' split
    all_goals
      try rw [List.append_assoc]
      exact ⟨_, rfl, rfl, rfl⟩
  unfold handleFlags putProto
  dsimp only
  repeat' split
  all_goals
    first
    | exact hdeliver
    | (try rw [List.append_assoc]
       exact ⟨_, rfl, rfl, rfl⟩)

theorem netFrame_resets (ready : Bool) : ResetsIdle (netFrame S P ready) := by
  intro s
  have hnone : ∃ out, s.trace = s.trace ++ out ∧
      s.idle = if out.any LinkEv.isNet then 0 else s.idle :=
    ⟨[], (List.append_nil _).symm, rfl⟩
  rw [netFrame]
  split
  · dsimp only
    split
    · exact hnone
    · split
      · exact ⟨[.net none], rfl, rfl⟩
      · obtain ⟨out, htr, hnet, hidle⟩ := handleFlags_net S P
          { s with
            idle := 0
            kaNeedVerify := false
            buf := _
            io := _
            mods := _ } _
        exact ⟨out, htr, by rw [hidle, hnet, if_pos rfl]⟩
  · exact hnone

/-- The part of a turn after the check. -/
def afterCheck (net dev : Bool) (s : Linker σ ν) : Linker σ ν × Flow :=
  seqFlow (seqFlow (sendPacket S P s) (netFrame S P net)) (devFrame S P dev)

theorem afterCheck_resets (net dev : Bool) : ResetsIdle (afterCheck S P net dev) :=
  ((sendPacket_resets S P).seqFlow (netFrame_resets S P net)).seqFlow (devFrame_resets S P dev)

variable {S P} {s t : Linker σ ν}

theorem newCalls_append {out : List LinkEv} (htr : t.trace = s.trace ++ out) :
    newCalls s t = out := by
  rw [newCalls, htr, List.drop_left]

theorem linkerPass_check (hcheck : atCheck P s = some t) :
    ∃ net dev, linkerPass S P s = seqFlow (keepAlive S P t) (afterCheck S P net dev) := by
  rw [atCheck] at hcheck
  unfold linkerPass
  dsimp only
  split at hcheck
  · exact absurd hcheck (by simp)
  · rename_i net dev hsel
    obtain rfl := Option.some.inj hcheck
    refine ⟨net, dev, ?_⟩
    rw [hsel]
    show seqFlow (seqFlow (seqFlow (keepAlive S P _) _) _) _ = _
    generalize keepAlive S P { s with io := (P.select s.io).2 } = r
    obtain ⟨u, flow⟩ := r
    cases flow with
    | fall => rfl
    | next => rfl
    | stop => rfl

/-- Without the check nothing happens in a turn. -/
theorem linkerPass_noCheck (hcheck : atCheck P s = none) :
    (linkerPass S P s).1.trace = s.trace ∧ (linkerPass S P s).1.idle = s.idle := by
  rw [atCheck] at hcheck
  unfold linkerPass
  dsimp only
  split at hcheck
  · rename_i again hsel
    rw [hsel]
    cases again with
    | false => exact ⟨rfl, rfl⟩
    | true => exact ⟨rfl, rfl⟩
  · exact absurd hcheck (by simp)

theorem atCheck_trace (hcheck : atCheck P s = some t) : t.trace = s.trace ∧ t.idle = s.idle := by
  rw [atCheck] at hcheck
  split at hcheck
  · exact absurd hcheck (by simp)
  · obtain rfl := Option.some.inj hcheck
    exact ⟨rfl, rfl⟩

/-- Without the flag the check falls through. -/
theorem keepAlive_idle (hneed : needVerify P s = false) :
    (keepAlive S P s).1.idle = s.idle := by
  rw [needVerify] at hneed
  unfold keepAlive
  dsimp only
  rw [hneed, if_neg Bool.false_ne_true]

/-- The break of the network timeout: nothing is sent. -/
theorem keepAlive_timeout (hneed : needVerify P s = true) (hidle : s.idle > S.kaMaxfail) :
    (keepAlive S P s).2 = .stop ∧ (keepAlive S P s).1.trace = s.trace := by
  rw [needVerify] at hneed
  unfold keepAlive
  dsimp only
  rw [hneed, if_pos rfl, if_pos hidle]
  exact ⟨rfl, rfl⟩

/-- A verification that does not time out: it is counted, and every one but the first
sends a request. -/
theorem keepAlive_verify (hneed : needVerify P s = true) (hidle : ¬ s.idle > S.kaMaxfail) :
    (newCalls s (keepAlive S P s).1).countP LinkEv.isEchoReq = (if 0 < s.idle then 1 else 0) ∧
      (keepAlive S P s).1.idle = s.idle + 1 := by
  rw [needVerify] at hneed
  have hecho : (newCalls s (putProto P
      { s with io := (P.alarm s.io).2, kaNeedVerify := true, idle := s.idle + 1 } s.buf
      echoReq).2).countP LinkEv.isEchoReq = 1 := by
    rw [newCalls_append rfl]
    rfl
  unfold keepAlive
  dsimp only
  rw [hneed, if_pos rfl, if_neg hidle]
  split
  · split
    · exact ⟨hecho, rfl⟩
    · exact ⟨hecho, rfl⟩
  · exact ⟨by rw [newCalls, List.drop_length]; rfl, rfl⟩

/-- A turn ends with the count of the check, or with none where a frame is taken. -/
theorem linkerPass_idle (hcheck : atCheck P s = some t) :
    (linkerPass S P s).1.idle =
      if (newCalls s (linkerPass S P s).1).any LinkEv.isNet then 0
      else (keepAlive S P t).1.idle := by
  obtain ⟨net, dev, hpass⟩ := linkerPass_check (S := S) hcheck
  obtain ⟨out, htr, hsent⟩ := keepAlive_sends S P t
  have hout := sent_noNet hsent
  have htrace : (keepAlive S P t).1.trace = s.trace ++ out := by
    rw [htr, (atCheck_trace hcheck).1]
  rw [hpass]
  generalize keepAlive S P t = r at htrace ⊢
  obtain ⟨u, flow⟩ := r
  have hstay : u.idle = if (newCalls s u).any LinkEv.isNet then 0 else u.idle := by
    rw [newCalls_append htrace, hout, if_neg Bool.false_ne_true]
  cases flow with
  | next => exact hstay
  | stop => exact hstay
  | fall =>
    obtain ⟨out', htr', hidle'⟩ := afterCheck_resets S P net dev u
    have htrace' : (afterCheck S P net dev u).1.trace = s.trace ++ (out ++ out') := by
      rw [htr', htrace, List.append_assoc]
    rw [seqFlow_fall, hidle', newCalls_append htrace', List.any_append, hout, Bool.false_or]

end Parts

/-! ### The count of a run -/

section Count

variable {ε σ ν : Type} {S : Session ε σ} {P : Ports ε ν} {s t : Linker σ ν} {log : List KaEv}

/-- `idle` counts the verifications of the log since its last frame. -/
structure Counts (S : Session ε σ) (log : List KaEv) (s : Linker σ ν) : Prop where
  since : sinceFrame log = unanswered s.idle.toNat
  nonneg : 0 ≤ s.idle
  le : s.idle ≤ S.kaMaxfail + 1

/-- A turn that takes a frame starts the count anew. -/
theorem Counts.frame (hk : 0 ≤ S.kaMaxfail) (h : t.idle = 0) :
    Counts S (log ++ [.frame]) t where
  since := by rw [sinceFrame_frame, h]; rfl
  nonneg := by omega
  le := by omega

/-- One turn of the loop, unless the network times out in it. -/
theorem Counts.linkerPass (hk : 0 ≤ S.kaMaxfail) (h : Counts S log s)
    (hin : timesOut S P s = false) :
    Counts S (log ++ turnEvents S P s) (linkerPass S P s).1 := by
  rw [turnEvents]
  cases hcheck : atCheck P s with
  | none =>
    -- an interrupted `select`
    obtain ⟨htr, hidle⟩ := linkerPass_noCheck (S := S) hcheck
    have hnew : newCalls s (Vtun.linkerPass S P s).1 = [] := by rw [newCalls, htr, List.drop_length]
    rw [hnew]
    show Counts S (log ++ []) _
    rw [List.append_nil]
    exact ⟨hidle ▸ h.since, hidle ▸ h.nonneg, hidle ▸ h.le⟩
  | some t =>
    obtain ⟨-, hidle⟩ := atCheck_trace hcheck
    rw [timesOut, hcheck] at hin
    dsimp only
    cases hneed : needVerify P t with
    | false =>
      have hpass := linkerPass_idle (S := S) hcheck
      rw [if_neg Bool.false_ne_true, List.nil_append]
      split at hpass
      · rename_i htook
        rw [if_pos htook]
        exact Counts.frame hk hpass
      · rename_i htook
        rw [if_neg htook, List.append_nil]
        have hsame : (Vtun.linkerPass S P s).1.idle = s.idle := by
          rw [hpass, keepAlive_idle hneed, hidle]
        exact ⟨hsame ▸ h.since, hsame ▸ h.nonneg, hsame ▸ h.le⟩
    | true =>
      have hle : ¬ t.idle > S.kaMaxfail := by simpa [hneed] using hin
      obtain ⟨hechoes, hka⟩ := keepAlive_verify hneed hle
      have hpass := linkerPass_idle (S := S) hcheck
      rw [if_pos rfl, hechoes, ← List.append_assoc]
      split at hpass
      · rename_i htook
        rw [if_pos htook]
        exact Counts.frame hk hpass
      · rename_i htook
        rw [if_neg htook, List.append_nil]
        have hnext : (Vtun.linkerPass S P s).1.idle = s.idle + 1 := by rw [hpass, hka, hidle]
        have hnonneg := h.nonneg
        refine ⟨?_, by omega, by omega⟩
        -- the verification joins those the count stood for
        have hnat : (s.idle + 1).toNat = s.idle.toNat + 1 := by omega
        have hfirst : (0 < t.idle) = (0 < s.idle.toNat) := by
          rw [hidle]
          exact propext ⟨fun h => by omega, fun h => by omega⟩
        rw [sinceFrame_verify, h.since, hnext, hnat, unanswered]
        simp only [hfirst]

/-- A frame that is taken starts the count anew. -/
theorem turnEvents_frame (htook : .frame ∈ turnEvents S P s) :
    (linkerPass S P s).1.idle = 0 := by
  have hnet : (newCalls s (linkerPass S P s).1).any LinkEv.isNet = true := by
    rw [turnEvents, List.mem_append] at htook
    rcases htook with hver | hnet
    · exfalso
      revert hver
      cases atCheck P s with
      | none => simp
      | some t => cases needVerify P t <;> simp
    · by_contra hno
      rw [if_neg hno] at hnet
      exact List.not_mem_nil hnet
  cases hcheck : atCheck P s with
  | none =>
    rw [newCalls, (linkerPass_noCheck (S := S) hcheck).1, List.drop_length] at hnet
    exact absurd hnet Bool.false_ne_true
  | some t => rw [linkerPass_idle hcheck, if_pos hnet]

/-- The network timeout ends the loop, and nothing has been called in that turn. -/
theorem timesOut_stop (hout : timesOut S P s = true) :
    (linkerPass S P s).2 = .stop ∧ (linkerPass S P s).1.trace = s.trace := by
  rw [timesOut, Option.any_eq_true] at hout
  obtain ⟨t, hcheck, ht⟩ := hout
  rw [Bool.and_eq_true, decide_eq_true_eq] at ht
  obtain ⟨hstop, htr⟩ := keepAlive_timeout ht.1 ht.2
  obtain ⟨net, dev, hpass⟩ := linkerPass_check (S := S) hcheck
  rw [hpass]
  rw [(atCheck_trace hcheck).1] at htr
  generalize keepAlive S P t = r at hstop htr ⊢
  obtain ⟨u, flow⟩ := r
  obtain rfl : flow = .stop := hstop
  exact ⟨rfl, htr⟩

/-- What is counted at the start of a run is counted as long as the loop runs. -/
theorem Counts.linkerRun (hk : 0 ≤ S.kaMaxfail) (n : ℕ) (h : Counts S log s)
    (hrun : (linkerRun S P n s).2 = true) :
    Counts S (log ++ keepAliveLog S P n s) (linkerRun S P n s).1 := by
  -- On the turns; the log so far is carried along.
  induction n generalizing s log with
  | zero =>
    rw [keepAliveLog, List.append_nil]
    exact h
  | succ n ih =>
    rw [Vtun.linkerRun] at hrun ⊢
    rw [keepAliveLog]
    split at hrun
    · exact absurd hrun Bool.false_ne_true
    · rename_i hterm
      dsimp only at hrun
      split at hrun
      · exact absurd hrun Bool.false_ne_true
      · rename_i hgoes
        have hin : timesOut S P s = false := by
          rw [← Bool.not_eq_true]
          exact fun hout => hgoes (timesOut_stop hout).1
        rw [if_neg hterm, if_neg hterm]
        dsimp only
        rw [if_neg hgoes, if_neg hgoes, ← List.append_assoc]
        exact ih (h.linkerPass hk hin) hrun

/-- The log of one turn more. -/
theorem keepAliveLog_succ (n : ℕ) (hrun : (linkerRun S P n s).2 = true) :
    keepAliveLog S P (n + 1) s =
      keepAliveLog S P n s ++ turnEvents S P (linkerRun S P n s).1 := by
  induction n generalizing s with
  | zero =>
    have hterm : ¬ (P.term s.io).isSome = true := by
      rw [Vtun.linkerRun] at hrun
      simpa using hrun
    rw [keepAliveLog, keepAliveLog, if_neg hterm]
    dsimp only
    rw [keepAliveLog, ite_self, List.append_nil]
    rfl
  | succ n ih =>
    rw [Vtun.linkerRun] at hrun ⊢
    rw [keepAliveLog, keepAliveLog]
    split at hrun
    · exact absurd hrun Bool.false_ne_true
    · rename_i hterm
      dsimp only at hrun
      split at hrun
      · exact absurd hrun Bool.false_ne_true
      · rename_i hgoes
        rw [if_neg hterm, if_neg hterm, if_neg hterm]
        dsimp only
        rw [if_neg hgoes, if_neg hgoes, if_neg hgoes, ih hrun, List.append_assoc]

/-- A verification that takes place is the first event of its turn. -/
theorem turnEvents_verify (hver : verifies P s = true) :
    ∃ n rest, turnEvents S P s = .verify n :: rest := by
  rw [verifies, Option.any_eq_true] at hver
  obtain ⟨t, hcheck, hneed⟩ := hver
  rw [turnEvents, hcheck]
  dsimp only
  rw [if_pos hneed]
  exact ⟨_, _, rfl⟩

/-- In an answered log a request is not followed by a verification. -/
theorem Answered.next {a b : KaEv} {since rest : List KaEv}
    (h : Answered (log ++ b :: rest)) (hlast : sinceFrame log = a :: since)
    (hasked : 0 < a.echoes) : b = .frame := by
  have hrev : log.reverse.head? = some a := by
    rw [sinceFrame] at hlast
    cases hcases : log.reverse with
    | nil => rw [hcases] at hlast; cases hlast
    | cons c older =>
      rw [hcases, List.takeWhile_cons] at hlast
      split at hlast
      · rw [List.head?_cons, (List.cons.inj hlast).1]
      · cases hlast
  obtain ⟨older, holder⟩ := List.head?_eq_some_iff.mp hrev
  have hlog : log = older.reverse ++ [a] := by
    rw [← List.reverse_reverse log, holder, List.reverse_cons]
  rw [Answered, hlog, List.append_assoc] at h
  exact (List.isChain_append_cons_cons.mp h).2.1 hasked

/-- The count decides about the timeout. -/
theorem Counts.timesOut_iff (h : Counts S log s) :
    timesOut S P s = true ↔
      verifies P s = true ∧ ((sinceFrame log).length : ℤ) + 1 = S.kaMaxfail + 2 := by
  have hnonneg := h.nonneg
  have hle := h.le
  have hlen : ((sinceFrame log).length : ℤ) = s.idle := by
    rw [h.since, unanswered_length]
    omega
  rw [hlen, timesOut, verifies]
  cases hcheck : atCheck P s with
  | none => simp
  | some t =>
    obtain ⟨-, hidle⟩ := atCheck_trace hcheck
    rw [Option.any_some, Option.any_some, Bool.and_eq_true, decide_eq_true_eq, hidle]
    exact and_congr_right fun _ => ⟨fun h => by omega, fun h => by omega⟩

end Count

/-- **The network timeout.**  In every run, a turn of the loop takes the break of the
timeout if and only if it is the verification with number `ka_maxfail + 2` since the
last frame was taken, or since the start; those before it have sent `ka_maxfail`
`VTUN_ECHO_REQ`, and the loop ends there without another call.  The count starts anew
with every frame.  Where a frame is taken between every request and the next
verification, and `ka_maxfail` is not 0, the network never times out.  `idle` stays
between 0 and `ka_maxfail + 1`. -/
theorem keepalive_timeout {ε σ ν : Type} (S : Session ε σ) (P : Ports ε ν) (natHack : Bool)
    (termZero : ν → ν) (s : Linker σ ν) (n : ℕ) (hk : 0 ≤ S.kaMaxfail)
    (hrun : (linkerRun S P n (linkerStart P natHack termZero s)).2 = true) :
    let start := linkerStart P natHack termZero s
    let t := (linkerRun S P n start).1
    let since := sinceFrame (keepAliveLog S P n start)
    (timesOut S P t = true ↔ verifies P t = true ∧ (since.length : ℤ) + 1 = S.kaMaxfail + 2) ∧
    (timesOut S P t = true → (echoesIn since : ℤ) = S.kaMaxfail ∧
      (linkerPass S P t).2 = .stop ∧ (linkerPass S P t).1.trace = t.trace) ∧
    (.frame ∈ turnEvents S P t → (linkerPass S P t).1.idle = 0) ∧
    (1 ≤ S.kaMaxfail → Answered (keepAliveLog S P (n + 1) start) → timesOut S P t = false) ∧
    0 ≤ t.idle ∧ t.idle ≤ S.kaMaxfail + 1 := by
  intro start t since
  have hstart : Counts S [] start := by
    have hzero : start.idle = 0 := linkerStart_idle P natHack termZero s
    exact ⟨by rw [hzero]; rfl, by omega, by omega⟩
  have hcounts : Counts S (keepAliveLog S P n start) t := hstart.linkerRun hk n hrun
  have hiff : timesOut S P t = true ↔ _ := hcounts.timesOut_iff (P := P)
  have hsince : since = unanswered t.idle.toNat := hcounts.since
  refine ⟨hiff, fun hout => ?_, turnEvents_frame, fun hone hans => ?_, hcounts.nonneg, hcounts.le⟩
  · have hlen := (hiff.mp hout).2
    rw [hcounts.since, unanswered_length] at hlen
    have hidle : t.idle.toNat = S.kaMaxfail.toNat + 1 := by omega
    refine ⟨?_, timesOut_stop hout⟩
    rw [hsince, hidle, unanswered_echoes]
    omega
  · rw [← Bool.not_eq_true]
    intro hout
    obtain ⟨hver, hlen⟩ := hiff.mp hout
    rw [hcounts.since, unanswered_length] at hlen
    -- the verification before this one has sent a request
    obtain ⟨k, hk'⟩ : ∃ k, t.idle.toNat = k + 2 := ⟨t.idle.toNat - 2, by omega⟩
    rw [hk', unanswered, if_pos (Nat.succ_pos k)] at hsince
    obtain ⟨m, rest, hturn⟩ := turnEvents_verify (S := S) hver
    rw [keepAliveLog_succ n hrun, hturn] at hans
    exact absurd (hans.next hsince Nat.one_pos) (by simp)

/-! ### No retries -/

/-- One turn of a session on the wire: whether the alarm has come, and whether there is
an answer to read. -/
abbrev Turns := List (Bool × Bool)

/-- A world that plays the turns it is given; every frame is an answer. -/
def turnPorts : Ports Unit Turns where
  select w := match w with
    | [] => (.failed true, [])
    | (_, net) :: _ => (.ready net false, w)
  alarm w := match w with
    | [] => (false, [])
    | (alarm, _) :: w => (alarm, w)
  protoRead w buf := (echoRep, buf, w)
  protoWrite w _ _ := (0, w)
  devRead w := (.failed true, w)
  devWrite w _ := (.done, w)
  modEnv w := ((), w)
  term _ := none

/-- A session without modules that tries `k` times. -/
def retrySession (k : ℤ) : Session Unit Unit := { bareSession with kaMaxfail := k }

/-- The linker in front of the turns. -/
def turnStart (turns : Turns) : Linker Unit Turns :=
  linkerStart turnPorts false id ⟨[], 0, false, (), turns, []⟩

/-- One retry: the first verification sends nothing, the second asks, the third one is
the timeout. -/
theorem keepalive_timeout_third :
    timesOut (retrySession 1) turnPorts
        (linkerRun (retrySession 1) turnPorts 2
          (turnStart [(true, false), (true, false), (true, false)])).1 = true ∧
      echoesIn (sinceFrame (keepAliveLog (retrySession 1) turnPorts 2
        (turnStart [(true, false), (true, false), (true, false)]))) = 1 := by
  obtain ⟨hiff, hechoes, -⟩ := keepalive_timeout (retrySession 1) turnPorts false id
    ⟨[], 0, false, (), [(true, false), (true, false), (true, false)], []⟩ 2 (by decide) (by decide)
  have hout := hiff.mpr (by decide)
  exact ⟨hout, Int.ofNat_inj.mp (hechoes hout).1⟩

/-- With `ka_maxfail` 0 the network times out although the one `VTUN_ECHO_REQ` there is,
that of the start, has been answered: the second verification asks nothing any more. -/
theorem keepalive_no_retry :
    (turnStart [(false, true), (true, false), (true, false)]).trace = [.proto [] echoReq] ∧
      keepAliveLog (retrySession 0) turnPorts 3
          (turnStart [(false, true), (true, false), (true, false)]) =
        [.frame, .verify 0, .verify 0] ∧
      Answered (keepAliveLog (retrySession 0) turnPorts 3
        (turnStart [(false, true), (true, false), (true, false)])) ∧
      timesOut (retrySession 0) turnPorts
        (linkerRun (retrySession 0) turnPorts 2
          (turnStart [(false, true), (true, false), (true, false)])).1 = true := by
  decide

end Vtun
