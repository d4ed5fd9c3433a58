/-
The name of a kept interface (`tunnel.c`, `client.c`, `lib.c`).

With `persist keep` an interface outlives its session: `loc_fd` stays open, and the
next session uses it again.  The name the driver has given it stays in an array of
the call of `tunnel` that opened it.

* `tunnel` — one session: the device, the commands and the close;
* `clientPass` — one turn of the loop of `client`;
* `tunnel_names_iff` — when the commands of one session see the real name;
* `device_name_iff` — the same for all the sessions of a client.
-/
import Vtun.Client
import Vtun.Linker
import Vtun.SubstOpt

namespace Vtun

/-! ### The session -/

/-- `VTUN_PERSIST_KEEPIF`. -/
def persistKeepIf : ℤ := 2

/-- `VTUN_DEV_LEN`. -/
def devLen : ℕ := 20

/-- The fields of `vtun_host` that decide about the device. -/
structure TunnelHost where
  dev : Option CStr
  flags : BitVec 32
  persist : ℤ
  locFd : ℤ
  /-- `sopt.dev` -/
  soptDev : Option CStr

/-- The names of the network interfaces that are open, by descriptor. -/
abbrev Ifaces := ℤ → Option CStr

/-- `close`. -/
def Ifaces.close (ifaces : Ifaces) (fd : ℤ) : Ifaces :=
  if fd < 0 then ifaces else Function.update ifaces fd none

/-- What the calls of `tunnel` come to. -/
structure TunnelIn where
  /-- the driver, for what stands in `dev`: the descriptor and the name it stores there,
  which is that of the interface -/
  devOpen : CStr → Option (ℕ × CStr)
  /-- `strdup` finds memory -/
  strdup : Bool
  udpSession : Bool
  fork : Bool
  /-- the slave of the pseudo terminal can be opened -/
  slave : Bool
  /-- the signal that ends the linker, if any -/
  linkfd : Option Sig
  /-- the other fields of `host->sopt`, when the commands are run -/
  sopt : Sopt

/-- Up or down commands: the options they see, and the interface that is open as
`host->loc_fd`. -/
structure CmdRun where
  opt : Sopt
  iface : Option CStr

/-- The value of `tunnel` and what it leaves behind, with the commands it has run. -/
structure TunnelOut where
  ret : TermFlag
  host : TunnelHost
  ifaces : Ifaces
  cmds : List CmdRun

/-- `interface_already_open`. -/
def TunnelHost.kept (h : TunnelHost) : Bool := h.persist = persistKeepIf ∧ 0 ≤ h.locFd

/-- `dev`, filled from `host->dev`. -/
def cutDev (dev : Option CStr) : CStr :=
  match dev with
  | none => ⟨[], List.not_mem_nil⟩
  | some d => ⟨d.1.take (devLen - 1), fun h => d.2 (List.mem_of_mem_take h)⟩

/-- `fd[0]`, `dev` and the interface, once the device is open. -/
structure Opened where
  fd : ℤ
  dev : CStr
  iface : Option CStr

/-- The device is opened. -/
def openDev (flags : BitVec 32) (inp : TunnelIn) (dev : CStr) : Option Opened :=
  let type := flags &&& Flag.typeMask
  if type = Flag.tty then (inp.devOpen dev).map fun r => ⟨r.1, r.2, none⟩
  else if type = Flag.pipe then (inp.devOpen dev).map fun r => ⟨r.1, dev, none⟩
  else if type = Flag.ether ∨ type = Flag.tun then
    (inp.devOpen dev).map fun r => ⟨r.1, r.2, some r.2⟩
  else some ⟨-1, dev, none⟩

/-- The session gets past `udp_session` and `fork`, to the commands. -/
def TunnelIn.reaches (inp : TunnelIn) (flags : BitVec 32) : Bool :=
  (flags &&& Flag.protMask ≠ Flag.udp ∨ inp.udpSession) ∧ inp.fork

/-- `tunnel` behind the device, with `fd[0]` and `dev`. -/
def tunnelOpened (h : TunnelHost) (ifaces : Ifaces) (inp : TunnelIn) (fd : ℤ) (dev : CStr)
    (already : Bool) : TunnelOut :=
  let h := { h with soptDev := if inp.strdup then some dev else none }
  if ¬ inp.reaches h.flags then
    { ret := .zero
      host := h
      ifaces := if h.persist = persistKeepIf then ifaces else ifaces.close fd
      cmds := [] }
  else
    let run : CmdRun := ⟨{ inp.sopt with dev := h.soptDev }, ifaces h.locFd⟩
    -- the child gives up where it cannot open the slave
    let up := if ¬ already ∧ h.flags &&& Flag.typeMask = Flag.tty ∧ ¬ inp.slave then [] else [run]
    -- `lfd_linker` clears `persist` on SIGTERM
    let h := if inp.linkfd = some .term then { h with persist := 0 } else h
    { ret := match inp.linkfd with
        | none => .zero
        | some .term => .term
        | some .hup => .hup
      host := h
      ifaces := if h.persist = persistKeepIf then ifaces else (ifaces.close fd).close h.locFd
      cmds := up ++ [run] }

/-- `tunnel`. -/
def tunnel (h : TunnelHost) (ifaces : Ifaces) (inp : TunnelIn) : TunnelOut :=
  let dev := cutDev h.dev
  if h.kept then tunnelOpened h ifaces inp (-1) dev true
  else
    match openDev h.flags inp dev with
    | none => ⟨.error, h, ifaces, []⟩
    | some o =>
      tunnelOpened { h with locFd := o.fd } (Function.update ifaces o.fd o.iface) inp o.fd o.dev
        false

/-- `free_sopt`; the other fields are set anew before the next commands. -/
def freeSopt (h : TunnelHost) : TunnelHost := { h with soptDev := none }

/-! ### The client -/

/-- A client process: the record of its session, the interfaces, and the commands it has
run so far. -/
structure KeepClient where
  host : TunnelHost
  ifaces : Ifaces
  clientTerm : TermFlag
  reconnect : Bool
  vtunPersist : ℤ
  cmds : List CmdRun

/-- One turn of the loop of `client`, or a signal. -/
inductive PassEv
  /-- an address, the socket or `bind` fails: `continue` -/
  | noAddress
  /-- `connect_t` or `auth_client` fails -/
  | noSession
  /-- a session with the flags from the server -/
  | session (flags : BitVec 32) (inp : TunnelIn)
  | sigTerm

/-- The loop goes on. -/
def KeepClient.loops (s : KeepClient) : Bool :=
  (s.clientTerm = .zero ∨ s.clientTerm = .hup) ∧
    (s.reconnect = false ∨ s.clientTerm = .hup ∨ s.vtunPersist ≠ 0 ∨ s.host.persist ≠ 0)

/-- One turn of the loop of `client`. -/
def clientPass (s : KeepClient) : PassEv → Option KeepClient
  | .noAddress => if s.loops then some { s with reconnect := true } else none
  | .noSession =>
    if s.loops then
      let h := { s.host with flags := s.host.flags &&& Flag.clntMask }
      some { s with reconnect := true, host := freeSopt h }
    else none
  | .session flags inp =>
    if s.loops then
      let out := tunnel { s.host with flags := flags } s.ifaces inp
      some { s with
        reconnect := true
        clientTerm := out.ret
        host := freeSopt out.host
        ifaces := out.ifaces
        cmds := s.cmds ++ out.cmds }
    else none
  | .sigTerm => some { s with clientTerm := .term }

/-- The client before its loop: no descriptor is open yet. -/
def keepStart (dev : Option CStr) (flags : BitVec 32) (persist vtunPersist : ℤ) :
    KeepClient where
  host := ⟨dev, flags, persist, -1, none⟩
  ifaces _ := none
  clientTerm := .zero
  reconnect := false
  vtunPersist := vtunPersist
  cmds := []

/-! ### Names -/

/-- The commands see the name of the interface that is open. -/
def CmdRun.Real (c : CmdRun) : Prop := ∀ name ∈ c.iface, c.opt.dev = some name

/-- `%d` stands for the device. -/
theorem expand_device (opt : Sopt) : expand opt (lit "%d") = (opt.dev.map Subtype.val).getD [] := by
  have hd : opt.optr 'd'.toUInt8 = some opt.dev := by rw [Sopt.optr, if_pos (by decide)]
  show expand opt ('%'.toUInt8 :: ['d'.toUInt8]) = _
  rw [expand_pair, hd]
  cases opt.dev with
  | none => rfl
  | some v => exact List.append_nil _

/-- The name is at hand where it is needed: the commands of a session with an interface
get a copy of it, and an interface that is kept has the configured name. -/
def NameKnown (h : TunnelHost) (ifaces : Ifaces) (inp : TunnelIn) : Prop :=
  if ¬ inp.reaches h.flags then True
  else if h.kept then
    ∀ name ∈ ifaces h.locFd, inp.strdup = true ∧ cutDev h.dev = name
  else
    ∀ o ∈ openDev h.flags inp (cutDev h.dev), o.iface.isSome = true → inp.strdup = true

instance (h : TunnelHost) (ifaces : Ifaces) (inp : TunnelIn) :
    Decidable (NameKnown h ifaces inp) :=
  inferInstanceAs (Decidable (if ¬ inp.reaches h.flags then True
    else if h.kept then ∀ name ∈ ifaces h.locFd, inp.strdup = true ∧ cutDev h.dev = name
    else ∀ o ∈ openDev h.flags inp (cutDev h.dev), o.iface.isSome = true → inp.strdup = true))

/-- What a driver has stored is the name of the interface. -/
theorem openDev_iface {flags : BitVec 32} {inp : TunnelIn} {dev : CStr} {o : Opened}
    (h : openDev flags inp dev = some o) : ∀ name ∈ o.iface, o.dev = name := by
  intro name hname
  rw [openDev] at h
  split at h
  · obtain ⟨r, -, rfl⟩ := Option.map_eq_some_iff.mp h
    cases hname
  split at h
  · obtain ⟨r, -, rfl⟩ := Option.map_eq_some_iff.mp h
    cases hname
  split at h
  · obtain ⟨r, -, rfl⟩ := Option.map_eq_some_iff.mp h
    exact Option.some.inj hname
  · obtain rfl := Option.some.inj h
    cases hname

/-- The commands of a session see what stands in `dev`. -/
theorem tunnelOpened_names_iff (h : TunnelHost) (ifaces : Ifaces) (inp : TunnelIn) (fd : ℤ)
    (dev : CStr) (already : Bool) :
    (∀ c ∈ (tunnelOpened h ifaces inp fd dev already).cmds, c.Real) ↔
      (inp.reaches h.flags = true → ∀ name ∈ ifaces h.locFd, inp.strdup = true ∧ dev = name) := by
  rw [tunnelOpened]
  cases hreach : inp.reaches h.flags with
  | false =>
    rw [if_pos Bool.false_ne_true]
    exact iff_of_true (List.forall_mem_nil _) fun h => absurd h Bool.false_ne_true
  | true =>
    rw [if_neg (not_not_intro rfl)]
    set run : CmdRun :=
      ⟨{ inp.sopt with dev := if inp.strdup then some dev else none }, ifaces h.locFd⟩ with hrun
    -- the up commands and the down commands see the same
    have hall : ∀ up : List CmdRun, up = [] ∨ up = [run] →
        ((∀ c ∈ up ++ [run], c.Real) ↔ run.Real) := by
      rintro up (rfl | rfl)
      · exact List.forall_mem_singleton
      · rw [List.forall_mem_append, List.forall_mem_singleton, and_self]
    refine (hall _ (by split <;> simp)).trans ?_
    refine (forall₂_congr fun name _ => ?_).trans ⟨fun h _ => h, fun h => h rfl⟩
    show (if inp.strdup then some dev else none) = some name ↔ _
    cases inp.strdup with
    | false => simp
    | true => simp

/-- **One session**: its commands see the real name exactly if the name is at hand. -/
theorem tunnel_names_iff (h : TunnelHost) (ifaces : Ifaces) (inp : TunnelIn) :
    (∀ c ∈ (tunnel h ifaces inp).cmds, c.Real) ↔ NameKnown h ifaces inp := by
  rw [tunnel, NameKnown]
  cases hkept : h.kept with
  | true =>
    rw [if_pos rfl, tunnelOpened_names_iff]
    cases hreach : inp.reaches h.flags with
    | false => simp
    | true => simp
  | false =>
    rw [if_neg Bool.false_ne_true]
    cases hopen : openDev h.flags inp (cutDev h.dev) with
    | none => simp
    | some o =>
      dsimp only
      rw [tunnelOpened_names_iff]
      dsimp only
      rw [Function.update_self]
      have hname := openDev_iface hopen
      cases hreach : inp.reaches h.flags with
      | false => simp
      | true =>
        rw [if_neg (not_not_intro rfl), if_neg Bool.false_ne_true]
        cases hiface : o.iface with
        | none => simp [hiface]
        | some name =>
          have hdev : o.dev = name := hname name (by rw [hiface]; rfl)
          simp [hiface, hdev]

/-! ### The sessions of a client -/

/-- The condition for one turn of the loop. -/
def KeepClient.NameKnown (s : KeepClient) : PassEv → Prop
  | .session flags inp => Vtun.NameKnown { s.host with flags := flags } s.ifaces inp
  | _ => True

instance (s : KeepClient) : ∀ ev, Decidable (s.NameKnown ev)
  | .noAddress => .isTrue trivial
  | .noSession => .isTrue trivial
  | .session flags inp =>
    inferInstanceAs (Decidable (Vtun.NameKnown { s.host with flags := flags } s.ifaces inp))
  | .sigTerm => .isTrue trivial

theorem clientPass_names_iff {s s' : KeepClient} {ev : PassEv} (h : clientPass s ev = some s') :
    (∀ c ∈ s'.cmds, c.Real) ↔ (∀ c ∈ s.cmds, c.Real) ∧ s.NameKnown ev := by
  cases ev with
  | noAddress =>
    rw [clientPass] at h
    split at h
    · obtain rfl := Option.some.inj h
      exact (Iff.of_eq (and_true _)).symm
    · cases h
  | noSession =>
    rw [clientPass] at h
    split at h
    · obtain rfl := Option.some.inj h
      exact (Iff.of_eq (and_true _)).symm
    · cases h
  | session flags inp =>
    rw [clientPass] at h
    split at h
    · obtain rfl := Option.some.inj h
      rw [List.forall_mem_append, tunnel_names_iff]
      rfl
    · cases h
  | sigTerm =>
    obtain rfl := Option.some.inj h
    exact (Iff.of_eq (and_true _)).symm

/-- **The device name in the commands.**  In every run of a client, all the up and down
commands see the name of the interface that is open if and only if the name is at hand
in every session: an interface that is kept has the configured name, and the copies of
the name find memory.  `%d` stands for that name then. -/
theorem device_name_iff (dev : Option CStr) (flags : BitVec 32) (persist vtunPersist : ℤ)
    (evs : List PassEv) (s : KeepClient)
    (hrun : Run.exec clientPass (keepStart dev flags persist vtunPersist) evs = some s) :
    ((∀ c ∈ s.cmds, c.Real) ↔
      Run.Meets clientPass KeepClient.NameKnown (keepStart dev flags persist vtunPersist) evs) ∧
    ((∀ c ∈ s.cmds, c.Real) →
      ∀ c ∈ s.cmds, ∀ name ∈ c.iface, expand c.opt (lit "%d") = name.1) := by
  have hstart : ∀ c ∈ (keepStart dev flags persist vtunPersist).cmds, c.Real :=
    List.forall_mem_nil _
  refine ⟨?_, fun hreal c hc name hname => ?_⟩
  · rw [Run.exec_iff_meets (fun _ _ _ h => clientPass_names_iff h) hrun]
    exact and_iff_right hstart
  · rw [expand_device, hreal c hc name hname]
    rfl

theorem nul_notMem_tun0 : (0 : Byte) ∉ lit "tun0" := by decide

/-- A session over a driver that takes the name it is given and allocates `tun0` without
one. -/
def tunIn : TunnelIn where
  devOpen dev := some (5, if dev.1 = [] then ⟨lit "tun0", nul_notMem_tun0⟩ else dev)
  strdup := true
  udpSession := true
  fork := true
  slave := true
  linkfd := none
  sopt := noOpt

/-- A session, a pass without one, and a session with the interface that was kept. -/
def keepRun : List PassEv :=
  [.session (Flag.tun ||| Flag.tcp) tunIn, .noSession, .session (Flag.tun ||| Flag.tcp) tunIn]

/-- What the commands of `keepRun` see, and what is open. -/
def keepSeen (dev : Option CStr) : Option (List (List Byte × Option (List Byte))) :=
  (Run.exec clientPass (keepStart dev Flag.tun persistKeepIf 0) keepRun).map fun s =>
    s.cmds.map fun c => (expand c.opt (lit "%d"), c.iface.map Subtype.val)

def tun3 : CStr := ⟨lit "tun3", by decide⟩

/-- With a configured device. -/
theorem device_name_configured : ∃ s,
    Run.exec clientPass (keepStart (some tun3) Flag.tun persistKeepIf 0) keepRun = some s ∧
      s.cmds.length = 4 ∧ ∀ c ∈ s.cmds, c.Real := by
  have hval : (Run.exec clientPass (keepStart (some tun3) Flag.tun persistKeepIf 0) keepRun).map
      (fun s => s.cmds.length) = some 4 := by decide
  obtain ⟨s, hrun, hlen⟩ := Option.map_eq_some_iff.mp hval
  exact ⟨s, hrun, hlen, (device_name_iff _ _ _ _ _ s hrun).1.mpr (by decide)⟩

/-- Without one the second session sees no name. -/
theorem device_name_lost :
    keepSeen none = some [(lit "tun0", some (lit "tun0")), (lit "tun0", some (lit "tun0")),
      ([], some (lit "tun0")), ([], some (lit "tun0"))] ∧
    ¬ ∀ s, Run.exec clientPass (keepStart none Flag.tun persistKeepIf 0) keepRun = some s →
      ∀ c ∈ s.cmds, c.Real := by
  refine ⟨by decide, fun hreal => ?_⟩
  have hval : (Run.exec clientPass (keepStart none Flag.tun persistKeepIf 0) keepRun).isSome =
      true := by decide
  obtain ⟨s, hrun⟩ := Option.isSome_iff_exists.mp hval
  have hmeets := ((Run.exec_iff_meets (fun _ _ _ h => clientPass_names_iff h) hrun).mp
    (hreal s hrun)).2
  exact absurd hmeets (by decide)

end Vtun
