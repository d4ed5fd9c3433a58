/-
The descriptors of a client (`client.c`, `tunnel.c`, `netlib.c`, `linkfd.c`).

A client that stays opens a socket, a device and what a session needs besides in every pass of
its loop.  Some of these it closes twice, as `rmt_fd` and as `s`, as `fd[0]` and as `loc_fd`, or
the second end of a pipe; and a descriptor that is free again may be given to the next open.

* `tunnelFds`, `fdStep` — the opens and closes of `tunnel` and of the loop of `client`;
* `tunnelFds_spec` — what a session leaves open;
* `descriptors_balanced` — every close hits what it is meant for or nothing, and what stays open
  behind a pass is the interface that is kept and one descriptor for each pass that leaks one.
-/
import Vtun.FlagsAlike
import Vtun.KeepIf
import Vtun.UdpSession
import Vtun.Lib.Handles

namespace Vtun

open Handles

/-! ### One session -/

/-- -1. -/
def noFd : Handle := ⟨-1, 0⟩

/-- The record of the session, with the fields of `vtun_host` that hold descriptors. -/
structure FdHost where
  host : VtunHost
  persist : ℤ
  locFd : Handle
  rmtFd : Handle
  /-- the descriptor of `stat.file`, unless it is `NULL` -/
  statFile : Option Handle

/-- `interface_already_open`. -/
def FdHost.kept (h : FdHost) : Bool := h.persist = persistKeepIf ∧ 0 ≤ h.locFd.num

/-- What the calls of `tunnel` come to.  Nothing is a failure. -/
structure FdCalls where
  /-- the descriptors of the device, of which only a pipe has two -/
  device : Option (ℕ × ℕ)
  /-- the master `pty_open` leaves open where it fails behind `getpt` -/
  master : Option ℕ
  udp : UdpCalls
  /-- what `udp_session` finds -/
  setup : UdpSetup
  fork : Bool
  /-- `lfd_alloc_mod` finds memory -/
  alloc : Bool
  /-- `fopen` of the file for the statistics -/
  stats : Option ℕ
  /-- the value of `linker_term`, and whether `lfd_linker` has cleared `persist` -/
  linkfd : TermFlag
  persistOff : Bool

/-- The flags name a device. -/
def hasDevice (flags : BitVec 32) : Bool :=
  flags &&& Flag.typeMask ∈ [Flag.tty, Flag.pipe, Flag.ether, Flag.tun]

/-- The device is opened: `fd`, or nothing where this fails. -/
def openFds (flags : BitVec 32) (c : FdCalls) (t : Table) :
    Option (Option (Handle × Handle) × Table) :=
  let type := flags &&& Flag.typeMask
  if hasDevice flags then
    match c.device with
    | some (n, m) => do
      let (fd₀, t) ← t.openAt n
      if type = Flag.pipe then
        let (fd₁, t) ← t.openAt m
        some (some (fd₀, fd₁), t)
      else some (some (fd₀, noFd), t)
    | none =>
      if type = Flag.tty then
        match c.master with
        | some n => (t.openAt n).map fun r => (none, r.2)
        | none => some (none, t)
      else some (none, t)
  else some (some (noFd, noFd), t)

/-- `udp_session` goes well. -/
def FdCalls.udpOk (c : FdCalls) (flags : BitVec 32) : Bool :=
  (udpSession c.udp { c.setup with host := { c.setup.host with flags := flags } }).1 ≠ -1

/-- `udp_session` gets a socket. -/
def FdCalls.udpSocket (c : FdCalls) (flags : BitVec 32) : Bool :=
  flags &&& Flag.protMask = Flag.udp ∧ c.udp.socket.isSome

/-- The protocol is initialized; false where `udp_session` fails. -/
def protoFds (h : FdHost) (c : FdCalls) (t : Table) : Option (Bool × FdHost × Table) :=
  if h.host.flags &&& Flag.protMask = Flag.udp then
    match c.udp.socket with
    | none => some (false, h, t)
    | some n => do
      let (s, t) ← t.openAt n
      if c.udpOk h.host.flags then some (true, { h with rmtFd := s }, t.close h.rmtFd)
      else some (false, h, t)
  else some (true, h, t)

/-- The file for the statistics is opened. -/
def statFds (h : FdHost) (c : FdCalls) (t : Table) : Option (FdHost × Table) :=
  if hasFlag h.host.flags Flag.stat then
    match c.stats with
    | some n => (t.openAt n).map fun r => ({ h with statFile := some r.1 }, r.2)
    | none => some ({ h with statFile := none }, t)
  else some (h, t)

/-- `linkfd`. -/
def linkFds (h : FdHost) (c : FdCalls) (t : Table) : Option (TermFlag × FdHost × Table) :=
  if ¬ c.alloc then some (.zero, h, t)
  else
    (statFds h c t).map fun r =>
      let h := if c.persistOff then { r.1 with persist := 0 } else r.1
      -- `stat.file` is closed and not cleared
      let t :=
        if hasFlag h.host.flags (Flag.stat ||| Flag.keepAlive) then h.statFile.elim r.2 r.2.close
        else r.2
      (c.linkfd, h, t)

/-- The closes at the end of `tunnel`. -/
def endCloses (h : FdHost) (fd₀ fd₁ : Handle) : List Handle :=
  let type := h.host.flags &&& Flag.typeMask
  (if h.persist = persistKeepIf then []
  else (if type = Flag.tun ∨ type = Flag.ether then [fd₀] else []) ++ [h.locFd]) ++ [h.rmtFd, fd₁]

/-- `tunnel` behind `fork`. -/
def linkedFds (h : FdHost) (c : FdCalls) (fd₀ fd₁ : Handle) (t : Table) :
    Option (TermFlag × FdHost × Table) :=
  let t := if h.host.flags &&& Flag.typeMask = Flag.pipe then t.close fd₁ else t
  (linkFds h c t).map fun r =>
    (r.1, r.2.1, (endCloses r.2.1 fd₀ fd₁).foldl Table.close r.2.2)

/-- `tunnel` behind the device. -/
def runFds (h : FdHost) (c : FdCalls) (fd₀ fd₁ : Handle) (t : Table) :
    Option (TermFlag × FdHost × Table) := do
  let keep := if h.persist = persistKeepIf then [] else [fd₀]
  let (ok, h, t) ← protoFds h c t
  if ¬ ok then some (.zero, h, (fd₁ :: keep).foldl Table.close t)
  else if ¬ c.fork then some (.zero, h, (keep ++ [fd₁]).foldl Table.close t)
  else linkedFds h c fd₀ fd₁ t

/-- `tunnel`. -/
def tunnelFds (h : FdHost) (c : FdCalls) (t : Table) : Option (TermFlag × FdHost × Table) :=
  if h.kept then runFds h c noFd noFd t
  else do
    let (fds, t) ← openFds h.host.flags c t
    match fds with
    | none => some (.error, h, t)
    | some (fd₀, fd₁) => runFds { h with locFd := fd₀ } c fd₀ fd₁ t

/-! ### The client -/

/-- A client between two passes of its loop. -/
structure FdClient where
  host : FdHost
  table : Table
  clientTerm : TermFlag
  reconnect : Bool
  vtunPersist : ℤ

/-- One turn of the loop of `client`, or a signal. -/
inductive FdEv
  /-- an address or the socket fails: `continue` -/
  | noSocket
  /-- `bind` fails: `continue` -/
  | noBind (n : ℕ)
  /-- `connect_t`, and the flags that `auth_client` has got, if it gets there -/
  | pass (n : ℕ) (connect : Bool) (mesg : Option (List Byte)) (c : FdCalls)
  | sigTerm

/-- The loop goes on. -/
def FdClient.loops (s : FdClient) : Bool :=
  (s.clientTerm = .zero ∨ s.clientTerm = .hup) ∧
    (s.reconnect = false ∨ s.clientTerm = .hup ∨ s.vtunPersist ≠ 0 ∨ s.host.persist ≠ 0)

/-- The record in a pass of the loop, whether `auth_client` succeeds, and the answer of `tunnel`
where it does. -/
def passFds (pf : Platform) (h : FdHost) (s : Handle) (connect : Bool) (mesg : Option (List Byte))
    (c : FdCalls) (t : Table) : Option (Option TermFlag × FdHost × Table) :=
  let h := { h with host := clientClear h.host }
  if ¬ connect then some (none, h, t)
  else
    match mesg with
    | none => some (none, h, t)
    | some mesg =>
      let r := cf2bf pf mesg h.host
      if r.1 then
        (tunnelFds { h with host := r.2, rmtFd := s } c t).map fun out => (some out.1, out.2)
      else some (none, { h with host := r.2 }, t)

/-- One turn of the loop of `client`. -/
def fdStep (pf : Platform) (s : FdClient) : FdEv → Option FdClient
  | .noSocket => if s.loops then some { s with reconnect := true } else none
  | .noBind n =>
    if s.loops then
      (s.table.openAt n).map fun r => { s with reconnect := true, table := r.2 }
    else none
  | .pass n connect mesg c =>
    if s.loops then do
      let (fd, t) ← s.table.openAt n
      let (ret, h, t) ← passFds pf s.host fd connect mesg c t
      some { s with
        host := h
        table := t.close fd
        clientTerm := ret.getD s.clientTerm
        reconnect := true }
    else none
  | .sigTerm => some { s with clientTerm := .term }

/-- The client before its loop. -/
def fdStart (host : VtunHost) (persist vtunPersist : ℤ) (opened : ℕ) : FdClient where
  host := ⟨host, persist, noFd, noFd, none⟩
  table := ⟨[], opened, []⟩
  clientTerm := .zero
  reconnect := false
  vtunPersist := vtunPersist

/-! ### What leaks -/

/-- The descriptors `tunnel` loses: the master of a pseudo terminal, or the socket of
`udp_session`, where this fails behind it or the process cannot fork. -/
def tunnelLeaks (h : FdHost) (c : FdCalls) : ℕ :=
  if ¬ h.kept ∧ hasDevice h.host.flags ∧ c.device.isNone then
    if h.host.flags &&& Flag.typeMask = Flag.tty ∧ c.master.isSome then 1 else 0
  else if c.udpSocket h.host.flags ∧ ¬ (c.udpOk h.host.flags ∧ c.fork) then 1
  else 0

/-- The record that a pass hands to `tunnel`, if it gets there. -/
def passHost (pf : Platform) (h : FdHost) (connect : Bool) (mesg : Option (List Byte)) :
    Option FdHost :=
  if connect then
    mesg.bind fun mesg =>
      let r := cf2bf pf mesg (clientClear h.host)
      if r.1 then some { h with host := r.2 } else none
  else none

/-- The descriptors a pass loses. -/
def passLeaks (pf : Platform) (s : FdClient) : FdEv → ℕ
  | .noBind _ => 1
  | .pass _ connect mesg c => ((passHost pf s.host connect mesg).map (tunnelLeaks · c)).getD 0
  | _ => 0

/-! ### What stays open -/

/-- What a variable stands for: a descriptor, or nothing if it is negative. -/
def ofFd (x : Handle) : List Handle := if 0 ≤ x.num then [x] else []

theorem mem_ofFd {x y : Handle} : y ∈ ofFd x ↔ y = x ∧ 0 ≤ x.num := by
  rw [ofFd]
  split
  · rename_i hx
    rw [List.mem_singleton, and_iff_left hx]
  · rename_i hx
    exact iff_of_false List.not_mem_nil fun h => hx h.2

/-- The interface that a session leaves open for the next. -/
def keptFd (h : FdHost) : List Handle := if h.persist = persistKeepIf then ofFd h.locFd else []

section Session

variable {t t' : Table} {h h' : FdHost} {c : FdCalls} {x fd₀ fd₁ : Handle} {L R S ys : List Handle}
  {ret : TermFlag}

/-- A variable that is -1 stands for nothing. -/
theorem mem_or_gone (hopen : t.Holds S) (y : Handle) : y ∈ ofFd y ∨ Gone S y := by
  by_cases hnum : 0 ≤ y.num
  · exact .inl (mem_ofFd.mpr ⟨rfl, hnum⟩)
  · exact .inr (hopen.gone_of_neg (not_le.mp hnum))

/-- **The closes of a session**: all of `R`, and the device unless this is kept. -/
theorem closes_keep (h : FdHost) (ys : List Handle)
    (hopen : t.Holds (ofFd h.locFd ++ (R ++ L)))
    (hall : ∀ y ∈ R, y ∈ ys) (hdevice : h.persist ≠ persistKeepIf → h.locFd ∈ ys)
    (honly : ∀ y ∈ ys, y ∈ R ∨ (h.persist ≠ persistKeepIf ∧ y = h.locFd) ∨
      Gone (ofFd h.locFd ++ (R ++ L)) y) :
    (ys.foldl Table.close t).Holds (keptFd h ++ L) := by
  have hloc := mem_or_gone hopen h.locFd
  by_cases hkeep : h.persist = persistKeepIf
  · rw [keptFd, if_pos hkeep]
    have hperm : (ofFd h.locFd ++ (R ++ L)).Perm (R ++ (ofFd h.locFd ++ L)) :=
      List.perm_append_comm_assoc _ _ _
    refine (hopen.of_perm hperm).closeAll hall fun y hy => ?_
    rcases honly y hy with hR | ⟨hne, -⟩ | hgone
    · exact .inl hR
    · exact absurd hkeep hne
    · exact .inr (hgone.mono fun z hz => hperm.mem_iff.mpr hz)
  · rw [keptFd, if_neg hkeep, List.nil_append]
    rw [← List.append_assoc] at hopen hloc
    refine hopen.closeAll (fun y hy => ?_) fun y hy => ?_
    · rcases List.mem_append.mp hy with hy | hy
      · rw [(mem_ofFd.mp hy).1]
        exact hdevice hkeep
      · exact hall y hy
    · rcases honly y hy with hR | ⟨-, rfl⟩ | hgone
      · exact .inl (List.mem_append_right _ hR)
      · exact hloc.imp_left (List.mem_append_left R)
      · rw [← List.append_assoc] at hgone
        exact .inr hgone

/-- The device. -/
theorem openFds_spec {flags : BitVec 32} {fds : Option (Handle × Handle)} (hopen : t.Holds S)
    (hrun : openFds flags c t = some (fds, t')) :
    (fds = none ∧ hasDevice flags = true ∧ c.device = none ∧
      ∃ lost, t'.Holds (lost ++ S) ∧
        lost.length = if flags &&& Flag.typeMask = Flag.tty ∧ c.master.isSome then 1 else 0) ∨
    ∃ fd₀ fd₁, fds = some (fd₀, fd₁) ∧ ¬ (hasDevice flags = true ∧ c.device = none) ∧
      t'.Holds (ofFd fd₁ ++ (ofFd fd₀ ++ S)) := by
  have hfd : ∀ {t t' : Table} {S : List Handle} {n : ℕ} {x : Handle}, t.Holds S →
      t.openAt n = some (x, t') → t'.Holds (ofFd x ++ S) := by
    intro t t' S n x hopen hat
    obtain ⟨hnew, hnum, -⟩ := hopen.opens hat
    rwa [ofFd, if_pos (by omega)]
  rw [openFds] at hrun
  dsimp only at hrun
  by_cases hdev : hasDevice flags = true
  swap
  · rw [if_neg hdev] at hrun
    obtain ⟨rfl, rfl⟩ := Prod.mk.inj (Option.some.inj hrun)
    exact .inr ⟨noFd, noFd, rfl, fun h => hdev h.1, hopen⟩
  rw [if_pos hdev] at hrun
  cases hdevice : c.device with
  | some fds =>
    obtain ⟨n, m⟩ := fds
    simp only [hdevice] at hrun
    obtain ⟨⟨fd₀, t₁⟩, hat, hrun⟩ := Option.bind_eq_some_iff.mp hrun
    have hopen₁ := hfd hopen hat
    dsimp only at hrun
    split at hrun
    · obtain ⟨⟨fd₁, t₂⟩, hat', hrun⟩ := Option.bind_eq_some_iff.mp hrun
      obtain ⟨rfl, rfl⟩ := Prod.mk.inj (Option.some.inj hrun)
      exact .inr ⟨fd₀, fd₁, rfl, (fun h => by cases h.2), hfd hopen₁ hat'⟩
    · obtain ⟨rfl, rfl⟩ := Prod.mk.inj (Option.some.inj hrun)
      exact .inr ⟨fd₀, noFd, rfl, (fun h => by cases h.2), hopen₁⟩
  | none =>
    simp only [hdevice] at hrun
    refine .inl ?_
    by_cases htty : flags &&& Flag.typeMask = Flag.tty
    · rw [if_pos htty] at hrun
      cases hmaster : c.master with
      | some n =>
        simp only [hmaster] at hrun
        obtain ⟨⟨x, t₁⟩, hat, hrun⟩ := Option.map_eq_some_iff.mp hrun
        obtain ⟨rfl, rfl⟩ := Prod.mk.inj hrun
        refine ⟨rfl, hdev, rfl, [x], (hopen.opens hat).1, ?_⟩
        rw [if_pos ⟨htty, rfl⟩]
        rfl
      | none =>
        simp only [hmaster] at hrun
        obtain ⟨rfl, rfl⟩ := Prod.mk.inj (Option.some.inj hrun)
        refine ⟨rfl, hdev, rfl, [], hopen, ?_⟩
        rw [if_neg fun h => Bool.false_ne_true h.2]
        rfl
    · rw [if_neg htty] at hrun
      obtain ⟨rfl, rfl⟩ := Prod.mk.inj (Option.some.inj hrun)
      refine ⟨rfl, hdev, rfl, [], hopen, ?_⟩
      rw [if_neg fun h => htty h.1]
      rfl

/-- The flag for the statistics belongs to the client, and without it there has been no file. -/
def StatKept (h : FdHost) : Prop :=
  h.statFile ≠ none → hasFlag h.host.flags Flag.stat = true

theorem hasFlag_statOr {flags : BitVec 32} (hstat : hasFlag flags Flag.stat = true) :
    hasFlag flags (Flag.stat ||| Flag.keepAlive) = true := by
  rw [hasFlag, bne_iff_ne] at hstat ⊢
  intro hzero
  refine hstat ?_
  rw [show Flag.stat = (Flag.stat ||| Flag.keepAlive) &&& Flag.stat by decide, ← BitVec.and_assoc,
    hzero]
  exact BitVec.zero_and

/-- The statistics: what is open but for the file, and the file. -/
theorem statFds_spec (hopen : t.Holds S) (hstat : StatKept h)
    (hrun : statFds h c t = some (h', t')) :
    ∃ file, h' = { h with statFile := file } ∧ StatKept h' ∧
      t'.Holds (file.toList ++ S) := by
  rw [statFds] at hrun
  by_cases hflag : hasFlag h.host.flags Flag.stat = true
  · rw [if_pos hflag] at hrun
    cases hfile : c.stats with
    | some n =>
      simp only [hfile] at hrun
      obtain ⟨⟨x, t₁⟩, hat, hrun⟩ := Option.map_eq_some_iff.mp hrun
      obtain ⟨rfl, rfl⟩ := Prod.mk.inj hrun
      exact ⟨some x, rfl, fun _ => hflag, (hopen.opens hat).1⟩
    | none =>
      simp only [hfile] at hrun
      obtain ⟨rfl, rfl⟩ := Prod.mk.inj (Option.some.inj hrun)
      exact ⟨none, rfl, fun _ => hflag, hopen⟩
  · rw [if_neg hflag] at hrun
    obtain ⟨rfl, rfl⟩ := Prod.mk.inj (Option.some.inj hrun)
    have hnone : h.statFile = none := by
      by_contra hne
      exact hflag (hstat hne)
    refine ⟨none, ?_, hstat, hopen⟩
    rw [← hnone]

/-- The file for the statistics is closed behind the linker, and it is the one that was opened. -/
theorem linkFds_spec (hopen : t.Holds S) (hstat : StatKept h)
    (hrun : linkFds h c t = some (ret, h', t')) :
    t'.Holds S ∧ h'.host = h.host ∧ h'.locFd = h.locFd ∧ h'.rmtFd = h.rmtFd ∧
      (h.persist ≠ persistKeepIf → h'.persist ≠ persistKeepIf) ∧ StatKept h' := by
  by_cases halloc : c.alloc = true
  swap
  · rw [linkFds, if_pos halloc] at hrun
    obtain ⟨-, hrun⟩ := Prod.mk.inj (Option.some.inj hrun)
    obtain ⟨rfl, rfl⟩ := Prod.mk.inj hrun
    exact ⟨hopen, rfl, rfl, rfl, id, hstat⟩
  rw [linkFds, if_neg (not_not_intro halloc)] at hrun
  obtain ⟨⟨h₁, t₁⟩, hfile, hrun⟩ := Option.map_eq_some_iff.mp hrun
  obtain ⟨-, hrun⟩ := Prod.mk.inj hrun
  obtain ⟨rfl, rfl⟩ := Prod.mk.inj hrun
  obtain ⟨file, rfl, hstat₁, hopen₁⟩ := statFds_spec hopen hstat hfile
  have hclosed : (if hasFlag h.host.flags (Flag.stat ||| Flag.keepAlive) = true then
      file.elim t₁ t₁.close else t₁).Holds S := by
    cases file with
    | none =>
      rw [Option.elim_none, ite_self]
      exact hopen₁
    | some x =>
      rw [if_pos (hasFlag_statOr (hstat₁ (by simp)))]
      exact hopen₁.closes.1
  by_cases hoff : c.persistOff = true
  · simp only [if_pos hoff]
    exact ⟨hclosed, trivial, trivial, trivial, fun _ => by decide, hstat₁⟩
  · simp only [if_neg hoff]
    exact ⟨hclosed, trivial, trivial, trivial, id, hstat₁⟩

/-- The sockets of a session. -/
theorem protoFds_spec {ok : Bool} (hopen : t.Holds (h.rmtFd :: S))
    (hrun : protoFds h c t = some (ok, h', t')) :
    (¬ (c.udpSocket h.host.flags = true ∧ c.udpOk h.host.flags = true) ∧ h' = h ∧
      (ok = true → c.udpSocket h.host.flags = false) ∧
      ∃ lost, t'.Holds (h.rmtFd :: (lost ++ S)) ∧
        lost.length = if c.udpSocket h.host.flags then 1 else 0) ∨
    (c.udpSocket h.host.flags = true ∧ c.udpOk h.host.flags = true ∧ ok = true ∧
      ∃ s, h' = { h with rmtFd := s } ∧ t'.Holds (s :: S) ∧ Gone (s :: S) h.rmtFd) := by
  rw [protoFds] at hrun
  by_cases hudp : h.host.flags &&& Flag.protMask = Flag.udp
  swap
  · rw [if_neg hudp] at hrun
    obtain ⟨rfl, hrest⟩ := Prod.mk.inj (Option.some.inj hrun)
    obtain ⟨rfl, rfl⟩ := Prod.mk.inj hrest
    have hnot : c.udpSocket h.host.flags = false := decide_eq_false fun h => hudp h.1
    refine .inl ⟨fun h => ?_, rfl, fun _ => hnot, [], hopen, ?_⟩
    · exact Bool.false_ne_true (hnot.symm.trans h.1)
    · rw [hnot]
      rfl
  rw [if_pos hudp] at hrun
  cases hsocket : c.udp.socket with
  | none =>
    simp only [hsocket] at hrun
    obtain ⟨rfl, hrest⟩ := Prod.mk.inj (Option.some.inj hrun)
    obtain ⟨rfl, rfl⟩ := Prod.mk.inj hrest
    have hnot : c.udpSocket h.host.flags = false :=
      decide_eq_false fun h => by simp [hsocket] at h
    refine .inl ⟨fun h => ?_, rfl, fun _ => hnot, [], hopen, ?_⟩
    · exact Bool.false_ne_true (hnot.symm.trans h.1)
    · rw [hnot]
      rfl
  | some n =>
    have hyes : c.udpSocket h.host.flags = true :=
      decide_eq_true ⟨hudp, by rw [hsocket]; rfl⟩
    simp only [hsocket] at hrun
    obtain ⟨⟨s, t₁⟩, hat, hrun⟩ := Option.bind_eq_some_iff.mp hrun
    obtain ⟨hopen₁, -, hgone⟩ := hopen.opens hat
    by_cases hok : c.udpOk h.host.flags = true
    · simp only [if_pos hok] at hrun
      obtain ⟨rfl, hrest⟩ := Prod.mk.inj (Option.some.inj hrun)
      obtain ⟨rfl, rfl⟩ := Prod.mk.inj hrest
      obtain ⟨hclosed, hgone₁⟩ := (hopen₁.of_perm (List.Perm.swap h.rmtFd s S)).closes
      exact .inr ⟨hyes, hok, rfl, s, rfl, hclosed, hgone₁⟩
    · simp only [if_neg hok] at hrun
      obtain ⟨rfl, hrest⟩ := Prod.mk.inj (Option.some.inj hrun)
      obtain ⟨rfl, rfl⟩ := Prod.mk.inj hrest
      refine .inl ⟨fun h => hok h.2, rfl, (fun h => by cases h), [s], ?_, ?_⟩
      · exact hopen₁.of_perm (List.Perm.swap h.rmtFd s S)
      · rw [if_pos hyes]
        rfl

/-- A session that ends before the linker. -/
theorem early_keep (hopen : t.Holds (ofFd h.locFd ++ ((ofFd fd₁ ++ R) ++ L)))
    (hfd : h.persist ≠ persistKeepIf → fd₀ = h.locFd)
    (hR : R = [x] ∨ R = [] ∧ Gone (ofFd h.locFd ++ (ofFd fd₁ ++ R ++ L)) x)
    (hys : ∀ y, y ∈ ys ↔ y = fd₁ ∨ (h.persist ≠ persistKeepIf ∧ y = fd₀)) :
    ((ys.foldl Table.close t).close x).Holds (keptFd h ++ L) := by
  have hall := closes_keep h (ys ++ [x]) hopen (fun y hy => ?_) (fun hne => ?_) fun y hy => ?_
  · rwa [List.foldl_append] at hall
  · rcases List.mem_append.mp hy with hy | hy
    · exact List.mem_append_left _ ((hys y).mpr (.inl (mem_ofFd.mp hy).1))
    · rcases hR with rfl | ⟨rfl, -⟩
      · exact List.mem_append_right _ hy
      · exact absurd hy List.not_mem_nil
  · exact List.mem_append_left _ ((hys _).mpr (.inr ⟨hne, (hfd hne).symm⟩))
  · rcases List.mem_append.mp hy with hy | hy
    · rcases (hys y).mp hy with rfl | ⟨hne, rfl⟩
      · exact (mem_or_gone hopen y).imp (List.mem_append_left R) .inr
      · exact .inr (.inl ⟨hne, hfd hne⟩)
    · obtain rfl := List.mem_singleton.mp hy
      rcases hR with rfl | ⟨-, hgone⟩
      · exact .inl (List.mem_append_right _ hy)
      · exact .inr (.inr hgone)

/-- The closes behind the linker name the socket, the second end of the pipe, and the device
unless it is kept. -/
theorem mem_endCloses {y : Handle} :
    (y ∈ endCloses h fd₀ fd₁ → y = h.rmtFd ∨ y = fd₁ ∨
      (h.persist ≠ persistKeepIf ∧ (y = fd₀ ∨ y = h.locFd))) ∧
    (y = h.rmtFd ∨ y = fd₁ ∨ (h.persist ≠ persistKeepIf ∧ y = h.locFd) →
      y ∈ endCloses h fd₀ fd₁) := by
  rw [endCloses]
  by_cases hkeep : h.persist = persistKeepIf
  · simp [hkeep]
  · rw [if_neg hkeep]
    constructor
    · intro hy
      simp only [List.mem_append, List.mem_cons, List.not_mem_nil, or_false] at hy
      rcases hy with (hy | hy) | hy | hy
      · split at hy
        · exact .inr (.inr ⟨hkeep, .inl (List.mem_singleton.mp hy)⟩)
        · exact absurd hy List.not_mem_nil
      · exact .inr (.inr ⟨hkeep, .inr hy⟩)
      · exact .inl hy
      · exact .inr (.inl hy)
    · rintro (rfl | rfl | ⟨-, rfl⟩)
      · simp
      · simp
      · simp

/-- The second end of a pipe is closed before the linker. -/
theorem pipeClose_spec (pipe : Prop) [Decidable pipe] (hopen : t.Holds (S ++ (ofFd fd₁ ++ L))) :
    ∃ P, (∀ y ∈ P, y = fd₁) ∧ (fd₁ ∈ P ∨ Gone (S ++ (P ++ L)) fd₁) ∧
      (if pipe then t.close fd₁ else t).Holds (S ++ (P ++ L)) ∧
      ∀ y ∈ S ++ (P ++ L), y ∈ S ++ (ofFd fd₁ ++ L) := by
  by_cases hpipe : pipe
  · have hclosed : (t.close fd₁).Holds (S ++ L) ∧ Gone (S ++ L) fd₁ := by
      by_cases hnum : 0 ≤ fd₁.num
      · rw [ofFd, if_pos hnum] at hopen
        exact (hopen.of_perm List.perm_middle).closes
      · rw [ofFd, if_neg hnum, List.nil_append] at hopen
        have hgone := hopen.gone_of_neg (not_le.mp hnum)
        exact ⟨hopen.stale hgone, hgone⟩
    refine ⟨[], List.forall_mem_nil _, .inr hclosed.2, ?_, fun y hy => ?_⟩
    · rw [if_pos hpipe]
      exact hclosed.1
    · rw [List.mem_append] at hy ⊢
      exact hy.imp_right (List.mem_append_right _)
  · refine ⟨ofFd fd₁, fun y hy => (mem_ofFd.mp hy).1, mem_or_gone hopen fd₁, ?_, fun y hy => hy⟩
    rwa [if_neg hpipe]

/-- A session that has come to the linker. -/
theorem linkedFds_spec (hopen : t.Holds (ofFd h.locFd ++ (ofFd fd₁ ++ (h.rmtFd :: L))))
    (hfd : fd₀ = h.locFd ∨ fd₀.num < 0)
    (hx : x = h.rmtFd ∨ Gone (ofFd h.locFd ++ (ofFd fd₁ ++ (h.rmtFd :: L))) x) (hstat : StatKept h)
    (hrun : linkedFds h c fd₀ fd₁ t = some (ret, h', t')) :
    (t'.close x).Holds (keptFd h' ++ L) ∧ StatKept h' ∧ h'.host = h.host := by
  obtain ⟨⟨ret₁, h₁, t₁⟩, hlink, hrun⟩ := Option.map_eq_some_iff.mp hrun
  obtain ⟨-, hrun⟩ := Prod.mk.inj hrun
  obtain ⟨rfl, rfl⟩ := Prod.mk.inj hrun
  dsimp only
  obtain ⟨P, hP, hpipe, hmid, hsub⟩ :=
    pipeClose_spec (h.host.flags &&& Flag.typeMask = Flag.pipe) hopen
  obtain ⟨hopen₁, hhost, hloc, hrmt, -, hstat₁⟩ := linkFds_spec hmid hstat hlink
  refine ⟨?_, hstat₁, hhost⟩
  have hgone : ∀ y, Gone (ofFd h.locFd ++ (ofFd fd₁ ++ (h.rmtFd :: L))) y →
      Gone (ofFd h₁.locFd ++ ((P ++ [h₁.rmtFd]) ++ L)) y := by
    intro y hy
    rw [hloc, hrmt, ← List.append_cons]
    exact hy.mono hsub
  rw [← hloc, ← hrmt, List.append_cons P] at hopen₁
  have hall := closes_keep h₁ (endCloses h₁ fd₀ fd₁ ++ [x]) hopen₁ (fun y hy => ?_)
    (fun hne => ?_) fun y hy => ?_
  · rwa [List.foldl_append] at hall
  · refine List.mem_append_left _ (mem_endCloses.2 ?_)
    rcases List.mem_append.mp hy with hy | hy
    · exact .inr (.inl (hP y hy))
    · exact .inl (List.mem_singleton.mp hy)
  · exact List.mem_append_left _ (mem_endCloses.2 (.inr (.inr ⟨hne, rfl⟩)))
  · have hrmtFd : h₁.rmtFd ∈ P ++ [h₁.rmtFd] := List.mem_append_right P (List.mem_singleton_self _)
    rcases List.mem_append.mp hy with hy | hy
    · rcases mem_endCloses.1 hy with rfl | rfl | ⟨hne, rfl | rfl⟩
      · exact .inl hrmtFd
      · rw [← hloc, ← hrmt, List.append_cons P] at hpipe
        exact hpipe.imp (List.mem_append_left _) .inr
      · rcases hfd with hfd | hneg
        · exact .inr (.inl ⟨hne, hfd.trans hloc.symm⟩)
        · exact .inr (.inr (hgone _ (hopen.gone_of_neg hneg)))
      · exact .inr (.inl ⟨hne, rfl⟩)
    · obtain rfl := List.mem_singleton.mp hy
      rcases hx with rfl | hx
      · exact .inl (hrmt ▸ hrmtFd)
      · exact .inr (.inr (hgone _ hx))

/-- **What a session leaves open** behind the device. -/
theorem runFds_spec (hopen : t.Holds (ofFd h.locFd ++ (ofFd fd₁ ++ (h.rmtFd :: L))))
    (hfd : fd₀ = h.locFd ∨ h.persist = persistKeepIf ∧ fd₀.num < 0) (hstat : StatKept h)
    (hrun : runFds h c fd₀ fd₁ t = some (ret, h', t')) :
    ∃ lost, (t'.close h.rmtFd).Holds (keptFd h' ++ (lost ++ L)) ∧
      lost.length =
        (if c.udpSocket h.host.flags ∧ ¬ (c.udpOk h.host.flags ∧ c.fork) then 1 else 0) ∧
      StatKept h' ∧ h'.host = h.host := by
  obtain ⟨⟨ok, h₁, t₁⟩, hproto, hrun⟩ := Option.bind_eq_some_iff.mp hrun
  have hfd' : h.persist ≠ persistKeepIf → fd₀ = h.locFd := fun hne =>
    hfd.resolve_right fun hkeep => hne hkeep.1
  -- the socket that is put behind the device, and what is lost behind all
  have hperm : ∀ (y : Handle) (lost : List Handle),
      (y :: (lost ++ (ofFd h.locFd ++ (ofFd fd₁ ++ L)))).Perm
        (ofFd h.locFd ++ (ofFd fd₁ ++ (y :: (lost ++ L)))) := by
    intro y lost
    refine List.perm_iff_count.mpr fun z => ?_
    simp only [List.count_append, List.count_cons]
    omega
  have hkeep : ∀ y, y ∈ (if h.persist = persistKeepIf then [] else [fd₀]) ↔
      h.persist ≠ persistKeepIf ∧ y = fd₀ := by
    intro y
    split
    · rename_i hkeep
      exact iff_of_false List.not_mem_nil fun hne => hne.1 hkeep
    · rename_i hne
      rw [List.mem_singleton, and_iff_right hne]
  rcases protoFds_spec (hopen.of_perm (hperm h.rmtFd []).symm) hproto with
    ⟨hnot, rfl, hok, lost, hopen₁, hlen⟩ | ⟨hsocket, hudp, rfl, s, rfl, hopen₁, hgone⟩
  · have hmid := hopen₁.of_perm (hperm h₁.rmtFd lost)
    have hearly : t₁.Holds (ofFd h₁.locFd ++ ((ofFd fd₁ ++ [h₁.rmtFd]) ++ (lost ++ L))) := by
      rwa [List.append_assoc, List.singleton_append]
    cases ok with
    | false =>
      dsimp only at hrun
      rw [if_pos Bool.false_ne_true] at hrun
      obtain ⟨-, hrun⟩ := Prod.mk.inj (Option.some.inj hrun)
      obtain ⟨rfl, rfl⟩ := Prod.mk.inj hrun
      refine ⟨lost, early_keep hearly hfd' (.inl rfl) (fun y => ?_), ?_, hstat, rfl⟩
      · rw [List.mem_cons, hkeep]
      · rw [hlen]
        refine if_congr ⟨fun h => ⟨h, fun hok => hnot ⟨h, hok.1⟩⟩, fun h => h.1⟩ rfl rfl
    | true =>
      have hno : c.udpSocket h₁.host.flags = false := hok rfl
      rw [hno, if_neg Bool.false_ne_true] at hlen
      obtain rfl := List.eq_nil_of_length_eq_zero hlen
      have hlost : (if c.udpSocket h₁.host.flags = true ∧
          ¬ (c.udpOk h₁.host.flags = true ∧ c.fork = true) then 1 else 0) = 0 := by
        rw [if_neg fun h => Bool.false_ne_true (hno.symm.trans h.1)]
      refine ⟨[], ?_⟩
      rw [hlost]
      dsimp only at hrun
      rw [if_neg (not_not_intro rfl)] at hrun
      by_cases hfork : c.fork = true
      · rw [if_neg (not_not_intro hfork)] at hrun
        obtain ⟨hend, hstat', hhost⟩ :=
          linkedFds_spec hmid (hfd.imp_right And.right) (.inl rfl) hstat hrun
        exact ⟨hend, rfl, hstat', hhost⟩
      · rw [if_pos hfork] at hrun
        obtain ⟨-, hrun⟩ := Prod.mk.inj (Option.some.inj hrun)
        obtain ⟨rfl, rfl⟩ := Prod.mk.inj hrun
        refine ⟨early_keep hearly hfd' (.inl rfl) (fun y => ?_), rfl, hstat, rfl⟩
        rw [List.mem_append, List.mem_singleton, hkeep, or_comm]
  · have hmid := hopen₁.of_perm (hperm s [])
    have hgone' : Gone (ofFd h.locFd ++ (ofFd fd₁ ++ (s :: L))) h.rmtFd :=
      hgone.mono fun y hy => (hperm s []).mem_iff.mpr hy
    dsimp only at hrun
    rw [if_neg (not_not_intro rfl)] at hrun
    by_cases hfork : c.fork = true
    · rw [if_neg (not_not_intro hfork)] at hrun
      obtain ⟨hend, hstat', hhost⟩ := linkedFds_spec (h := { h with rmtFd := s }) hmid
        (hfd.imp_right And.right) (.inr hgone') hstat hrun
      refine ⟨[], hend, ?_, hstat', hhost⟩
      rw [if_neg fun h => h.2 ⟨hudp, hfork⟩]
      rfl
    · rw [if_pos hfork] at hrun
      obtain ⟨-, hrun⟩ := Prod.mk.inj (Option.some.inj hrun)
      obtain ⟨rfl, rfl⟩ := Prod.mk.inj hrun
      have hearly : t₁.Holds (ofFd h.locFd ++ ((ofFd fd₁ ++ []) ++ ([s] ++ L))) := by
        rwa [List.append_nil]
      refine ⟨[s], early_keep hearly hfd' (.inr ⟨rfl, ?_⟩) (fun y => ?_), ?_, hstat, rfl⟩
      · rwa [List.append_nil]
      · rw [List.mem_append, List.mem_singleton, hkeep, or_comm]
      · rw [if_pos ⟨hsocket, fun h => hfork h.2⟩]
        rfl

/-- **What a session leaves open**: the interface that is kept, and what it loses. -/
theorem tunnelFds_spec (hopen : t.Holds (keptFd h ++ (h.rmtFd :: L))) (hstat : StatKept h)
    (hrun : tunnelFds h c t = some (ret, h', t')) :
    ∃ lost, (t'.close h.rmtFd).Holds (keptFd h' ++ (lost ++ L)) ∧
      lost.length = tunnelLeaks h c ∧ StatKept h' ∧ h'.host = h.host := by
  rw [tunnelFds] at hrun
  rw [tunnelLeaks]
  by_cases hkept : h.kept = true
  · -- the interface is open already
    rw [if_pos hkept] at hrun
    obtain ⟨hpersist, hloc⟩ := of_decide_eq_true hkept
    rw [keptFd, if_pos hpersist] at hopen
    rw [if_neg fun h => h.1 hkept]
    exact runFds_spec hopen (.inr ⟨hpersist, by decide⟩) hstat hrun
  · rw [if_neg hkept] at hrun
    -- nothing is kept, for `loc_fd` is -1 where it could be
    have hnothing : keptFd h = [] := by
      rw [keptFd]
      split
      · rename_i hpersist
        rw [ofFd, if_neg fun hloc => hkept (decide_eq_true ⟨hpersist, hloc⟩)]
      · rfl
    rw [hnothing, List.nil_append] at hopen
    obtain ⟨⟨fds, t₁⟩, hdev, hrun⟩ := Option.bind_eq_some_iff.mp hrun
    rcases openFds_spec hopen hdev with ⟨rfl, hhas, hnone, lost, hopen₁, hlen⟩ |
      ⟨fd₀, fd₁, rfl, hnot, hopen₁⟩
    · obtain ⟨-, hrun⟩ := Prod.mk.inj (Option.some.inj hrun)
      obtain ⟨rfl, rfl⟩ := Prod.mk.inj hrun
      refine ⟨lost, ?_, ?_, hstat, rfl⟩
      · rw [hnothing, List.nil_append]
        exact (hopen₁.of_perm List.perm_middle).closes.1
      · rw [if_pos ⟨hkept, hhas, by rw [hnone]; rfl⟩, hlen]
    · have hhas : ¬ (¬ h.kept = true ∧ hasDevice h.host.flags = true ∧ c.device.isNone = true) :=
        fun h => hnot ⟨h.2.1, Option.isNone_iff_eq_none.mp h.2.2⟩
      rw [if_neg hhas]
      have hmid : t₁.Holds (ofFd fd₀ ++ (ofFd fd₁ ++ (h.rmtFd :: L))) :=
        hopen₁.of_perm (List.perm_append_comm_assoc _ _ _)
      exact runFds_spec (h := { h with locFd := fd₀ }) hmid (.inl rfl) hstat hrun

end Session

/-! ### Runs of the client -/

/-- What stays open between two passes, with `n` descriptors that are lost. -/
def FdClient.Balanced (s : FdClient) (n : ℕ) : Prop :=
  StatKept s.host ∧ ∃ lost, s.table.Holds (keptFd s.host ++ lost) ∧ lost.length = n

variable {pf : Platform} {s s' : FdClient} {e : FdEv} {h h' : FdHost} {t t' : Table} {x : Handle}
  {L : List Handle} {connect : Bool} {mesg : Option (List Byte)} {c : FdCalls}
  {ret : Option TermFlag} {n : ℕ}

/-- The server cannot switch the statistics of the client. -/
theorem StatKept.of_mask {host : VtunHost} (hstat : StatKept h)
    (hmask : host.flags &&& Flag.clntMask = h.host.flags &&& Flag.clntMask) :
    StatKept { h with host := host } := by
  have hsplit : ∀ flags : BitVec 32,
      flags &&& Flag.stat = flags &&& Flag.clntMask &&& Flag.stat := by
    intro flags
    rw [BitVec.and_assoc]
    rfl
  intro hfile
  have hflag := hstat hfile
  rw [hasFlag, hsplit] at hflag ⊢
  rwa [hmask]

theorem clientClear_mask (host : VtunHost) :
    (clientClear host).flags &&& Flag.clntMask = host.flags &&& Flag.clntMask := by
  show host.flags &&& Flag.clntMask &&& Flag.clntMask = _
  rw [BitVec.and_assoc, BitVec.and_self]

/-- The socket of a pass is closed at its end, whatever `auth_client` and `tunnel` have done. -/
theorem passFds_spec (hopen : t.Holds (keptFd h ++ (x :: L))) (hstat : StatKept h)
    (hrun : passFds pf h x connect mesg c t = some (ret, h', t')) :
    ∃ lost, (t'.close x).Holds (keptFd h' ++ (lost ++ L)) ∧
      lost.length = ((passHost pf h connect mesg).map (tunnelLeaks · c)).getD 0 ∧ StatKept h' := by
  have hclosed : (t.close x).Holds (keptFd h ++ ([] ++ L)) :=
    (hopen.of_perm List.perm_middle).closes.1
  unfold passFds at hrun
  dsimp only at hrun
  rw [passHost]
  by_cases hconnect : connect = true
  swap
  · rw [if_pos hconnect] at hrun
    obtain ⟨-, hrun⟩ := Prod.mk.inj (Option.some.inj hrun)
    obtain ⟨rfl, rfl⟩ := Prod.mk.inj hrun
    rw [if_neg hconnect]
    exact ⟨[], hclosed, rfl, hstat.of_mask (clientClear_mask h.host)⟩
  rw [if_neg (not_not_intro hconnect)] at hrun
  rw [if_pos hconnect]
  cases mesg with
  | none =>
    obtain ⟨-, hrun⟩ := Prod.mk.inj (Option.some.inj hrun)
    obtain ⟨rfl, rfl⟩ := Prod.mk.inj hrun
    exact ⟨[], hclosed, rfl, hstat.of_mask (clientClear_mask h.host)⟩
  | some mesg =>
    dsimp only at hrun
    rw [Option.bind_some]
    have hmask := (cf2bf_mask pf mesg (clientClear h.host)).trans (clientClear_mask h.host)
    by_cases hauth : (cf2bf pf mesg (clientClear h.host)).1 = true
    swap
    · rw [if_neg hauth] at hrun
      obtain ⟨-, hrun⟩ := Prod.mk.inj (Option.some.inj hrun)
      obtain ⟨rfl, rfl⟩ := Prod.mk.inj hrun
      dsimp only
      rw [if_neg hauth]
      exact ⟨[], hclosed, rfl, hstat.of_mask hmask⟩
    rw [if_pos hauth] at hrun
    dsimp only
    rw [if_pos hauth]
    obtain ⟨⟨out, h₁, t₁⟩, htunnel, hrun⟩ := Option.map_eq_some_iff.mp hrun
    obtain ⟨-, hrun⟩ := Prod.mk.inj hrun
    obtain ⟨rfl, rfl⟩ := Prod.mk.inj hrun
    obtain ⟨lost, hend, hlen, hstat', -⟩ := tunnelFds_spec
      (h := { h with host := (cf2bf pf mesg (clientClear h.host)).2, rmtFd := x }) hopen
      (hstat.of_mask hmask) htunnel
    exact ⟨lost, hend, hlen, hstat'⟩

/-- **One turn of the loop.** -/
theorem fdStep_balanced (hs : s.Balanced n) (hstep : fdStep pf s e = some s') :
    s'.Balanced (n + passLeaks pf s e) := by
  obtain ⟨hstat, lost, hopen, rfl⟩ := hs
  cases e with
  | noSocket =>
    obtain ⟨-, hstep⟩ := Option.ite_none_right_eq_some.mp hstep
    obtain rfl := Option.some.inj hstep
    exact ⟨hstat, lost, hopen, rfl⟩
  | noBind m =>
    obtain ⟨-, hstep⟩ := Option.ite_none_right_eq_some.mp hstep
    obtain ⟨⟨x, t⟩, hat, rfl⟩ := Option.map_eq_some_iff.mp hstep
    refine ⟨hstat, x :: lost, ?_, rfl⟩
    exact (hopen.opens hat).1.of_perm List.perm_middle.symm
  | pass m connect mesg c =>
    obtain ⟨-, hstep⟩ := Option.ite_none_right_eq_some.mp hstep
    obtain ⟨⟨x, t⟩, hat, hstep⟩ := Option.bind_eq_some_iff.mp hstep
    obtain ⟨⟨ret, h, t'⟩, hpass, hstep⟩ := Option.bind_eq_some_iff.mp hstep
    obtain rfl := Option.some.inj hstep
    have hmid := (hopen.opens hat).1.of_perm List.perm_middle.symm
    obtain ⟨more, hend, hlen, hstat'⟩ := passFds_spec hmid hstat hpass
    refine ⟨hstat', more ++ lost, hend, ?_⟩
    rw [List.length_append, hlen, Nat.add_comm]
    rfl
  | sigTerm =>
    obtain rfl := Option.some.inj hstep
    exact ⟨hstat, lost, hopen, rfl⟩

theorem fdStart_balanced (host : VtunHost) (persist vtunPersist : ℤ) (opened : ℕ) :
    (fdStart host persist vtunPersist opened).Balanced 0 := by
  refine ⟨fun hne => absurd rfl hne, [], ?_, rfl⟩
  have hnothing : keptFd (fdStart host persist vtunPersist opened).host = [] := by
    rw [keptFd]
    split
    · rfl
    · rfl
  rw [hnothing]
  exact holds_empty opened

/-- **Descriptors of a client.**  However often it connects, whatever its devices, its sessions
and the servers do, and whatever numbers the opens get: no close of the client ever hits a
descriptor that has got the number of a closed one, and what is open behind a pass is the
interface that is kept and one descriptor for every pass that has lost one. -/
theorem descriptors_balanced {host : VtunHost} {persist vtunPersist : ℤ} {opened : ℕ}
    {evs : List FdEv}
    (hrun : Run.exec (fdStep pf) (fdStart host persist vtunPersist opened) evs = some s) :
    s.table.Clean ∧
      s.table.live.length = (keptFd s.host).length +
        Run.total (fdStep pf) (passLeaks pf) (fdStart host persist vtunPersist opened) evs := by
  obtain ⟨-, lost, hopen, hlen⟩ := Run.exec_total (I := FdClient.Balanced)
    (fun s n e s' hs hstep => fdStep_balanced hs hstep)
    (fdStart_balanced host persist vtunPersist opened) hrun
  refine ⟨hopen.clean, ?_⟩
  rw [hopen.perm.length_eq, List.length_append, hlen, Nat.zero_add]

/-- A session over a new `tun` device, whose calls for UDP answer `udp`. -/
def fdCalls (udp : UdpCalls) (stats : ℕ) : FdCalls :=
  ⟨some (6, 0), none, udp, closedSetup, true, true, some stats, .zero, false⟩

/-- `bind` fails; the interface is opened and kept; a UDP session fails behind its socket; and one
goes well, in which the file for the statistics gets the number of the TCP socket. -/
def fdRun : List FdEv :=
  [.noBind 3, .pass 4 true (some (lit "OK FLAGS: <Tu>")) (fdCalls closedCalls 7),
    .pass 4 true (some (lit "OK FLAGS: <Uu>")) (fdCalls { closedCalls with bind := false } 7),
    .pass 4 true (some (lit "OK FLAGS: <Uu>")) (fdCalls { closedCalls with socket := some 7 } 4)]

theorem descriptors_balanced_kept :
    ∃ s, Run.exec (fdStep .lp64) (fdStart clientHost persistKeepIf 1 0) fdRun = some s ∧
      s.table.Clean ∧ s.table.live.length = (keptFd s.host).length +
        Run.total (fdStep .lp64) (passLeaks .lp64) (fdStart clientHost persistKeepIf 1 0) fdRun ∧
      s.table.live.map Handle.num = [5, 6, 3] := by
  have hrun : (Run.exec (fdStep .lp64) (fdStart clientHost persistKeepIf 1 0) fdRun).map
      (fun s => s.table.live.map Handle.num) = some [5, 6, 3] := by decide
  obtain ⟨s, hs, hlive⟩ := Option.map_eq_some_iff.mp hrun
  obtain ⟨hclean, hlen⟩ := descriptors_balanced hs
  exact ⟨s, hs, hclean, hlen, hlive⟩

end Vtun
