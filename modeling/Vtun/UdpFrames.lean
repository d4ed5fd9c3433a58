/-
What comes out of a tunnel over UDP (`netlib.c`, `linkfd.c`, `generic/udp_proto.c`).

* `EndSound` — what holds of one end: its socket is connected to that of the other or to
  nothing, and what arrives there carries frames of the other end;
* `sound_step` — every step keeps it, at both ends;
* `udp_tunnel_frames` — the frames for the device are frames of the other end, in their order
  if the network keeps it.
-/
import Vtun.UdpTunnel
import Vtun.Lib.Arrivals
import Vtun.Lib.Run

namespace Vtun

variable {ε σ : Type}

/-! ### One end -/

/-- What holds of one end.  `far` is the address of the other and `farPort` what its socket is
bound to; the items of either end are what its datagrams carry. -/
structure EndSound (I : σ → Prop) (G : List Byte → List Byte → Prop) (far : BitVec 32)
    (farPort : Option Port) (items farItems : List (Option (List Byte))) (e : UdpEnd ε σ) :
    Prop where
  /-- the other end is told the port of our socket -/
  told : e.setup.out.sent <+: e.own.elim [] Port.bytes
  unbound : e.pc = .opening → e.own = none
  knows : ∀ own, e.pc = .reading own → ∀ p ∈ e.calls.getpeername, p.addr = far
  /-- the socket is connected to that of the other end -/
  peer : e.setup.peer ≠ none → e.setup.peer = farPort.map fun port => ⟨far, port⟩
  /-- before it is connected, what has arrived is from there -/
  sources : e.setup.peer = none →
    ∀ src ∈ e.sources, farPort.map (fun port => ⟨far, port⟩) = some src
  waiting : e.link.io.dev.sock.connected = false → e.setup.peer = none
  idle : (∀ pc closed, e.pc ≠ .linked pc closed) → e.link.io.dev.sock.connected = false
  rport : ∀ pc closed, e.pc = .linked pc closed →
    ∃ port, farPort = some port ∧ e.setup.host.rport = port.number
  numbers : ∀ i ∈ e.arrived, i < farItems.length
  mods : I e.link.mods
  out : List.Forall₂ (Posted G) e.link.io.out.sent items ∧
    items.reduceOption.Sublist e.link.io.dev.read
  inc : Lossy.Tracks (Posted G) (Arrivals.arrived farItems e.arrived) (devs e.link.trace)
    e.link.io.dev.sock.queue

section End

variable {I : σ → Prop} {G : List Byte → List Byte → Prop} {far : BitVec 32}
  {farPort : Option Port} {items farItems : List (Option (List Byte))} {e : UdpEnd ε σ}

/-- The other end sends more. -/
theorem EndSound.more (h : EndSound I G far farPort items farItems e)
    (more : List (Option (List Byte))) :
    EndSound I G far farPort items (farItems ++ more) e := by
  refine { h with numbers := ?_, inc := ?_ }
  · intro i hi
    rw [List.length_append]
    exact Nat.lt_add_right _ (h.numbers i hi)
  · rw [Arrivals.arrived_append h.numbers]
    exact h.inc

/-- The other end binds its socket. -/
theorem EndSound.bound (h : EndSound I G far none items farItems e) (farPort : Option Port) :
    EndSound I G far farPort items farItems e := by
  refine { h with peer := ?_, sources := ?_, rport := ?_ }
  · exact fun hpeer => absurd (h.peer hpeer) hpeer
  · exact fun hpeer src hsrc => absurd (h.sources hpeer src hsrc) (by simp)
  · intro pc closed hpc
    obtain ⟨port, hnone, -⟩ := h.rport pc closed hpc
    cases hnone

/-- The linker of one end, as the parts of its turn find it. -/
theorem EndSound.posting (h : EndSound I G far farPort items farItems e) (inp : DgramIn ε) :
    Posting I G items (Arrivals.arrived farItems e.arrived) (e.ready inp) :=
  ⟨h.mods, ⟨[], by rw [List.append_nil]; exact h.out⟩, h.inc⟩

/-- **An end that has run a part.** -/
theorem EndSound.ran (h : EndSound I G far farPort items farItems e) {pc : LinkPc} {closed : Bool}
    (hpc : e.pc = .linked pc closed) {link : DgramLinker ε σ}
    (hlink : Posting I G items (Arrivals.arrived farItems e.arrived) link)
    (hconn : e.link.io.dev.sock.connected = true → link.io.dev.sock.connected = true)
    (pc' : LinkPc) (closed' : Bool) :
    ∃ more, EndSound I G far farPort (items ++ more) farItems (e.ran link pc' closed') := by
  obtain ⟨more, hout⟩ := hlink.out
  obtain ⟨port, hport, hrport⟩ := h.rport pc closed hpc
  -- a late `connect` takes a sender, and all of them are the other end
  have hlate : (e.ran link pc' closed').setup.peer = e.setup.peer ∨
      e.link.io.dev.sock.connected = false ∧ link.io.dev.sock.connected = true ∧
        (e.ran link pc' closed').setup.peer = e.sources.head? := by
    rw [UdpEnd.ran]
    dsimp only
    split
    · rename_i hlate
      rw [Bool.and_eq_true, Bool.not_eq_true'] at hlate
      exact .inr ⟨hlate.1, hlate.2, rfl⟩
    · exact .inl rfl
  refine ⟨more, h.told, fun h0 => UdpPc.noConfusion h0, fun _ h0 => UdpPc.noConfusion h0, ?_, ?_,
    ?_, fun hnot => absurd rfl (hnot pc' closed'), fun _ _ _ => ⟨port, hport, hrport⟩, h.numbers,
    hlink.mods, hout, hlink.inc⟩
  · rcases hlate with hpeer | ⟨hoff, -, hpeer⟩
    · rw [hpeer]
      exact h.peer
    · rw [hpeer]
      intro hne
      obtain ⟨src, hsrc⟩ := Option.ne_none_iff_exists'.mp hne
      rw [hsrc, h.sources (h.waiting hoff) src (List.mem_of_head? hsrc)]
  · intro hnone src hsrc
    have hin : src ∈ e.sources := List.mem_of_mem_drop hsrc
    rcases hlate with hpeer | ⟨hoff, -, -⟩
    · exact h.sources (hpeer ▸ hnone) src hin
    · exact h.sources (h.waiting hoff) src hin
  · intro hoff'
    change link.io.dev.sock.connected = false at hoff'
    have hoff : e.link.io.dev.sock.connected = false := by
      rw [← Bool.not_eq_true]
      exact fun hon => absurd ((hconn hon).symm.trans hoff') (by decide)
    rcases hlate with hpeer | ⟨-, hon, -⟩
    · exact hpeer.trans (h.waiting hoff)
    · exact absurd (hon.symm.trans hoff') (by decide)

/-- **A datagram arrives** from the other end; `i` is its number. -/
theorem EndSound.arrive (h : EndSound I G far farPort items farItems e) {src : SockAddr}
    (hsrc : farPort.map (fun port => ⟨far, port⟩) = some src) {d : List Byte} {i : ℕ}
    {o : Option (List Byte)} (hi : farItems[i]? = some o) (hd : Posted G d o) {e' : UdpEnd ε σ}
    (he : e.receive src d = some e') :
    EndSound I G far farPort items farItems { e' with arrived := e'.arrived ++ [i] } := by
  obtain ⟨-, he⟩ := Option.ite_none_right_eq_some.mp he
  obtain rfl := Option.some.inj he
  refine { h with sources := ?_, numbers := ?_, inc := ?_ }
  · intro hnone s hs
    rcases List.mem_append.mp hs with hs | hs
    · exact h.sources hnone s hs
    · rw [List.mem_singleton.mp hs, hsrc]
  · intro j hj
    rcases List.mem_append.mp hj with hj | hj
    · exact h.numbers j hj
    · rw [List.mem_singleton.mp hj]
      exact (List.getElem?_eq_some_iff.mp hi).1
  · rw [Arrivals.arrived_snoc, hi]
    exact h.inc.send hd

/-- A connected socket takes nothing from anywhere else. -/
theorem EndSound.no_stray (h : EndSound I G far farPort items farItems e)
    (hpeer : e.setup.peer ≠ none) {src : SockAddr}
    (hsrc : farPort.map (fun port => ⟨far, port⟩) ≠ some src) (d : List Byte) :
    e.receive src d = none := by
  refine if_neg ?_
  rintro ⟨-, hnone | hsome⟩
  · exact hpeer hnone
  · exact hsrc ((h.peer hpeer).symm.trans hsome)

/-- The end has told its port. -/
theorem EndSound.tell (h : EndSound I G far farPort items farItems e) (hpc : e.pc = .opening)
    {calls : UdpCalls} (hcalls : ∀ p ∈ calls.getpeername, p.addr = far) (writes : List IoEvent) :
    let r := tellPort calls { e.setup with out := { e.setup.out with sched := writes } }
    EndSound I G far farPort items farItems { e with
      calls := calls
      setup := r.2
      own := calls.own
      pc := match r.1 with
        | none => .failed
        | some own => .reading own } := by
  have hnone : e.setup.out.sent = [] := by
    have htold := h.told
    rw [h.unbound hpc] at htold
    exact List.prefix_nil.mp htold
  obtain ⟨⟨front, hfront, hsent⟩, hpeer, -⟩ :=
    tellPort_spec calls { e.setup with out := { e.setup.out with sched := writes } }
  have hoff := h.idle fun pc closed hlinked => by rw [hpc] at hlinked; cases hlinked
  intro r
  have hnot : ∀ pc closed, (match r.1 with
      | none => UdpPc.failed
      | some own => .reading own) ≠ .linked pc closed := by
    intro pc closed
    cases r.1 <;> simp
  refine { h with told := ?_, unbound := ?_, knows := ?_, peer := ?_, sources := ?_, waiting := ?_,
                  idle := ?_, rport := ?_ }
  · rw [hnone, List.nil_append] at hsent
    exact hsent ▸ hfront
  · intro hopening
    dsimp only at hopening
    cases hr : r.1 <;> rw [hr] at hopening <;> cases hopening
  · exact fun _ _ => hcalls
  · intro hne
    exact absurd (hpeer.trans (h.waiting hoff)) hne
  · exact fun _ => h.sources (h.waiting hoff)
  · exact fun _ => hpeer.trans (h.waiting hoff)
  · exact fun _ => hoff
  · exact fun pc closed hlinked => absurd hlinked (hnot pc closed)

/-- The end has taken the port of the other. -/
theorem EndSound.take (h : EndSound I G far farPort items farItems e) {own : Port}
    (hpc : e.pc = .reading own) {net : Input} (hnet : net.data <+: farPort.elim [] Port.bytes)
    (hends : ¬ Input.EndsEarly { net with canceled := e.setup.canceled } 2) (inp : DgramIn ε) :
    let r := takePort e.calls (e.calls.socket.getD 0) own { e.setup with net := net }
    let e' := { e with setup := r.2 }
    ∃ more, EndSound I G far farPort (items ++ more) farItems
      (if r.1 = -1 then { e' with pc := .failed } else e'.enter inp) := by
  have hoff := h.idle fun pc closed hlinked => by rw [hpc] at hlinked; cases hlinked
  have hpeer := h.waiting hoff
  obtain ⟨hout, hfail, htaken⟩ := @takePort_spec e.calls { e.setup with net := net }
    (e.calls.socket.getD 0) own
  intro r e'
  have htold : r.2.out.sent <+: e.own.elim [] Port.bytes := by
    rw [hout]
    exact h.told
  split
  · rename_i hret
    refine ⟨[], ?_⟩
    rw [List.append_nil]
    have hnone : r.2.peer = none := (hfail hret).trans hpeer
    exact { h with
      told := htold
      unbound := fun h0 => by cases h0
      knows := fun _ h0 => by cases h0
      peer := fun hne => absurd hnone hne
      sources := fun _ => h.sources hpeer
      waiting := fun _ => hnone
      idle := fun _ => hoff
      rport := fun _ _ h0 => by cases h0 }
  · rename_i hret
    obtain ⟨port, saddr, hsaddr, hport, hrport, hconn⟩ := htaken hret hends
    have hbound : farPort = some port := by
      have hall := hport.trans hnet
      cases hfar : farPort with
      | none =>
        rw [hfar] at hall
        exact absurd (List.prefix_nil.mp hall) (by simp [Port.bytes])
      | some q =>
        rw [hfar] at hall
        have hbytes : port.bytes = q.bytes := hall.eq_of_length rfl
        obtain ⟨hi, lo⟩ := port
        obtain ⟨hi', lo'⟩ := q
        simp only [Port.bytes, List.cons.injEq, and_true] at hbytes
        rw [hbytes.1, hbytes.2]
    have haddr : saddr.addr = far := h.knows own hpc saddr hsaddr
    -- the linker before the echo request, and behind it
    set l : DgramLinker ε σ := { e'.ready inp with io := { (e'.ready inp).io with
      dev := { (e'.ready inp).io.dev with
        sock := { (e'.ready inp).io.dev.sock with connected := r.2.connected } } } } with hl
    have hstart : Posting I G items (Arrivals.arrived farItems e.arrived) l :=
      ⟨h.mods, ⟨[], by rw [List.append_nil]; exact h.out⟩, h.inc⟩
    have hentered : ∃ l', Posting I G items (Arrivals.arrived farItems e.arrived) l' ∧
        l'.io.dev.sock.connected = r.2.connected ∧
        e'.enter inp = { e' with
          pc := .linked .top false, link := { l' with io := l'.io.termZero } } := by
      rw [UdpEnd.enter]
      dsimp only
      split
      · exact ⟨l, hstart, rfl, rfl⟩
      · exact ⟨(putProto dgramLink l l.buf echoReq).2, hstart.putCtl l.buf .echoReq, rfl, rfl⟩
    obtain ⟨l', hposting, hsame, henter⟩ := hentered
    obtain ⟨more, hmore⟩ := hposting.out
    refine ⟨more, ?_⟩
    rw [henter]
    refine ⟨htold, fun h0 => UdpPc.noConfusion h0,
      fun _ h0 => UdpPc.noConfusion h0, ?_, ?_, ?_,
      fun hnot => absurd rfl (hnot .top false), fun _ _ _ => ⟨port, hbound, hrport⟩, h.numbers,
      hposting.mods, hmore, hposting.inc⟩
    · intro hne
      rcases hconn with ⟨hkept, -⟩ | ⟨hset, -⟩
      · exact absurd (hkept.trans hpeer) hne
      · dsimp only
        rw [hset, hbound, Option.map_some, ← haddr]
    · exact fun _ => h.sources hpeer
    · intro hoff'
      rcases hconn with ⟨hkept, -⟩ | ⟨-, hon⟩
      · exact hkept.trans hpeer
      · exact absurd ((hsame.symm.trans hoff').symm.trans hon) (by decide)

end End

/-! ### Both ends -/

section Runs

variable {S : Side → Session ε σ} {addr : Side → BitVec 32} {I : σ → Prop}
  {G : List Byte → List Byte → Prop} {t : UdpTunnel ε σ}

/-- The invariant of a tunnel. -/
def UdpTunnel.Sound (I : σ → Prop) (G : List Byte → List Byte → Prop) (addr : Side → BitVec 32)
    (t : UdpTunnel ε σ) : Prop :=
  ∃ items : Side → List (Option (List Byte)), ∀ a,
    EndSound I G (addr a.other) (t a.other).own (items a) (items a.other) (t a)

/-- A step in which the read of a port does not end early, and nothing comes from anywhere else
to a socket that is not connected yet. -/
def ProperUdp (t : UdpTunnel ε σ) : UdpTunnelEv ε → Prop
  | .take a reads _ =>
    ¬ Input.EndsEarly ⟨(t a.other).setup.out.sent, reads, (t a).setup.canceled⟩ 2
  | .stray a _ _ => (t a).setup.peer ≠ none
  | _ => True

instance (t : UdpTunnel ε σ) (ev : UdpTunnelEv ε) : Decidable (ProperUdp t ev) :=
  match ev with
  | .take _ _ _ => inferInstanceAs (Decidable (¬ _))
  | .stray _ _ _ => inferInstanceAs (Decidable (_ ≠ _))
  | .tell _ _ _ | .part _ _ | .signal _ _ | .close _ _ | .arrive _ _ => .isTrue trivial

/-- An end goes on as `e`, and sends more. -/
theorem sound_update {items : Side → List (Option (List Byte))}
    (h : ∀ a, EndSound I G (addr a.other) (t a.other).own (items a) (items a.other) (t a))
    {a : Side} {e : UdpEnd ε σ} (hown : (t a).own = none ∨ e.own = (t a).own)
    {more : List (Option (List Byte))}
    (he : EndSound I G (addr a.other) (t a.other).own (items a ++ more) (items a.other) e) :
    UdpTunnel.Sound I G addr (Function.update t a e) := by
  refine ⟨Function.update items a (items a ++ more), fun b => ?_⟩
  rcases Side.eq_or_eq_other a b with hb | hb
  · subst hb
    rw [Function.update_self, Function.update_self, Function.update_of_ne (Side.other_ne b),
      Function.update_of_ne (Side.other_ne b)]
    exact he
  · subst hb
    have hfar := h a.other
    rw [Side.other_other] at hfar ⊢
    rw [Function.update_self, Function.update_self, Function.update_of_ne (Side.other_ne a),
      Function.update_of_ne (Side.other_ne a)]
    rcases hown with hnone | hsame
    · rw [hnone] at hfar
      exact (hfar.bound e.own).more more
    · rw [hsame]
      exact hfar.more more

/-- **Every step keeps it**, at both ends. -/
theorem sound_step (hS : ∀ a, (S a).Carries I G) (h : t.Sound I G addr) {ev : UdpTunnelEv ε}
    (hok : ProperUdp t ev) {t' : UdpTunnel ε σ} (hstep : udpTunnelStep S addr t ev = some t') :
    t'.Sound I G addr := by
  obtain ⟨items, h⟩ := h
  have hnone : ∀ {a : Side} {e : UdpEnd ε σ}, ((t a).own = none ∨ e.own = (t a).own) →
      EndSound I G (addr a.other) (t a.other).own (items a) (items a.other) e →
      UdpTunnel.Sound I G addr (Function.update t a e) := by
    intro a e hown he
    have he' : EndSound I G (addr a.other) (t a.other).own (items a ++ []) (items a.other) e := by
      rwa [List.append_nil]
    exact sound_update h hown he'
  cases ev with
  | tell a calls writes =>
    obtain ⟨⟨hpc, hcalls⟩, hstep⟩ := Option.ite_none_right_eq_some.mp hstep
    obtain rfl := Option.some.inj hstep
    exact hnone (.inl ((h a).unbound hpc)) ((h a).tell hpc hcalls writes)
  | take a reads inp =>
    rw [udpTunnelStep] at hstep
    split at hstep
    · rename_i own hpc
      obtain rfl := Option.some.inj hstep
      set net : Input := ⟨(t a.other).setup.out.sent, reads, false⟩ with hnet
      have htold : net.data <+: (t a.other).own.elim [] Port.bytes := (h a.other).told
      obtain ⟨more, hmore⟩ := (h a).take hpc htold hok inp
      refine sound_update h (.inr ?_) hmore
      split
      · rfl
      · rw [UdpEnd.enter]
    · cases hstep
  | part a inp =>
    rw [udpTunnelStep] at hstep
    split at hstep
    · rename_i pc closed hpc
      dsimp only at hstep
      split at hstep
      · cases hstep
      · obtain rfl := Option.some.inj hstep
        obtain ⟨more, hmore⟩ := (h a).ran hpc
          (posting_linkerPart (hS a) pc ((h a).posting inp))
          (fun hon => connected_linkerPart (S a) pc hon)
          (linkerPart (S a) dgramLink pc ((t a).ready inp)).2 closed
        exact sound_update h (.inr rfl) hmore
    · cases hstep
  | signal a x =>
    rw [udpTunnelStep] at hstep
    split at hstep
    · obtain rfl := Option.some.inj hstep
      have hend := h a
      exact hnone (.inr rfl) { hend with }
    · cases hstep
  | close a inp =>
    rw [udpTunnelStep] at hstep
    split at hstep
    · rename_i hpc
      obtain rfl := Option.some.inj hstep
      obtain ⟨more, hmore⟩ := (h a).ran hpc
        (((h a).posting inp).putCtl ((t a).ready inp).buf .connClose) (fun hon => hon) .left true
      exact sound_update h (.inr rfl) hmore
    · cases hstep
  | arrive a i =>
    rw [udpTunnelStep] at hstep
    split at hstep
    · rename_i dgram src hdgram hsrc
      obtain ⟨-, hstep⟩ := Option.ite_none_right_eq_some.mp hstep
      obtain ⟨e, he, rfl⟩ := Option.map_eq_some_iff.mp hstep
      have hown : e.own = (t a).own := by
        obtain ⟨-, he⟩ := Option.ite_none_right_eq_some.mp he
        obtain rfl := Option.some.inj he
        rfl
      -- the number of the datagram is that of what it carries
      have hsent := (h a.other).out.1
      obtain ⟨hi, hget⟩ := List.getElem?_eq_some_iff.mp hdgram
      have hi' : i < (items a.other).length := hsent.length_eq ▸ hi
      have hposted := (List.forall₂_iff_get.mp hsent).2 i hi hi'
      rw [List.get_eq_getElem] at hposted
      exact hnone (.inr hown) ((h a).arrive hsrc (List.getElem?_eq_getElem hi')
        (hget ▸ hposted) he)
    · cases hstep
  | stray a src dgram =>
    obtain ⟨hsrc, hstep⟩ := Option.ite_none_right_eq_some.mp hstep
    rw [(h a).no_stray hok hsrc dgram] at hstep
    cases hstep

theorem sound_start {mods : Side → σ} (hmods : ∀ a, I (mods a)) (host : Side → UdpHost)
    (calls : UdpCalls) (inp : DgramIn ε) :
    (udpTunnelStart mods host calls inp).Sound I G addr := by
  refine ⟨fun _ => [], fun a => ⟨List.nil_prefix, fun _ => rfl, fun _ h0 => UdpPc.noConfusion h0,
    fun hne => absurd rfl hne, fun _ => List.forall_mem_nil _, fun _ => rfl, fun _ => rfl,
    fun _ _ h0 => UdpPc.noConfusion h0, List.forall_mem_nil _, hmods a,
    ⟨.nil, List.Sublist.refl _⟩, Lossy.Tracks.nil⟩⟩

/-- What the invariant says of the frames. -/
theorem UdpTunnel.Sound.frames (h : t.Sound I G addr) (a : Side) :
    (∀ x ∈ t.written a, x ∈ t.read a.other) ∧
      ((t a).arrived.Pairwise (· < ·) → (t.written a).Sublist (t.read a.other)) := by
  obtain ⟨items, h⟩ := h
  have hwritten := (h a).inc.sublist
  have hread := (h a.other).out.2
  exact ⟨fun x hx => hread.subset (Arrivals.mem_of_mem_arrived (hwritten.subset hx)),
    fun hup => hwritten.trans ((Arrivals.arrived_sublist (h a).numbers hup).trans hread)⟩

/-- What it says of the sockets. -/
theorem UdpTunnel.Sound.sockets (h : t.Sound I G addr) (a : Side) :
    ((t a).setup.peer ≠ none → (t a).setup.peer = t.sockAddr addr a.other) ∧
      ∀ pc closed, (t a).pc = .linked pc closed →
        ∃ port, (t a.other).own = some port ∧ (t a).setup.host.rport = port.number := by
  obtain ⟨items, h⟩ := h
  exact ⟨(h a).peer, (h a).rport⟩

end Runs

/-! ### The daemon -/

/-- The invariant holds in every run of two ends of the daemon. -/
theorem daemon_sound {X : OpenSsl} {pf : Platform} {now : Side → EncEnv → TimeVal}
    {kaMaxfail : Side → ℤ} {host : Side → VtunHost} (halone : CipherAlone X (host .server))
    (hshares : ∀ a, Shares (host .server) (host a)) (seq : Side → UInt32)
    (buf : Side → List Byte) (last : Side → Shaper) (udp : Side → UdpHost)
    (addr : Side → BitVec 32) (calls : UdpCalls) (inp : DgramIn EncEnv)
    {es : List (UdpTunnelEv EncEnv)} {t : UdpTunnel EncEnv (∀ mod, ModuleState X mod)}
    (hok : Run.Meets
      (udpTunnelStep (fun a => daemonSession pf X (now a) (kaMaxfail a) (host a)) addr) ProperUdp
      (udpTunnelStart (fun a => daemonStart pf X (host a) (seq a) (buf a) false (last a)) udp calls
        inp) es)
    (hrun : Run.exec
      (udpTunnelStep (fun a => daemonSession pf X (now a) (kaMaxfail a) (host a)) addr)
      (udpTunnelStart (fun a => daemonStart pf X (host a) (seq a) (buf a) false (last a)) udp calls
        inp) es = some t) :
    t.Sound (fun s => ∀ mod, ModuleReady X (host .server) mod (s mod))
      (CarriedBy (ModulePacket X (host .server)) (codecs (host .server))) addr := by
  have hS : ∀ a, (daemonSession pf X (now a) (kaMaxfail a) (host a)).Carries
      (fun s => ∀ mod, ModuleReady X (host .server) mod (s mod))
      (CarriedBy (ModulePacket X (host .server)) (codecs (host .server))) :=
    fun a => daemon_carries halone (hshares a).codecs
  exact Run.exec_invariant (fun _ _ _ hI he hs => sound_step hS hI he hs)
    (sound_start (fun a => ready_start halone (hshares a) _ _ _) udp calls inp) hok hrun

/-- A host whose cipher is AES in ECB mode. -/
def shapedEcb : VtunHost := { shapedAes with cipher := 9 }

/-- The calls of one end: its socket is bound to the port `hi * 256`. -/
def portCalls (hi : Byte) (far : BitVec 32) : UdpCalls :=
  ⟨some 5, true, some ⟨hi, 0⟩, fun _ => 1, some ⟨far, ⟨0x13, 0x88⟩⟩, true⟩

/-- A part in which the network or the device is ready. -/
def dgramIn (net : Bool) (frame : List Byte) : DgramIn EncEnv :=
  ⟨[0], .ready net (!net), false, .data frame, .done, fun _ => calmEnv, fun _ => none, [.again],
    [.again], true⟩

/-- The server has address 1, the client 2. -/
def sideAddr (a : Side) : BitVec 32 := if a = .server then 1 else 2

/-- The frame of the client comes before its echo request, and then once more. -/
def repeatedRun : List (UdpTunnelEv EncEnv) :=
  [.tell .server (portCalls 40 2) [.chunk 0], .tell .client (portCalls 50 1) [],
    .take .client [.chunk 0] (dgramIn true []), .take .server [] (dgramIn true [])] ++
    List.replicate 4 (.part .client (dgramIn false [5, 6])) ++
    [.arrive .server 1, .arrive .server 0, .arrive .server 1] ++
    List.replicate 10 (.part .server (dgramIn true [])) ++ [.signal .server .term]

end Vtun
