/-
Sessions of the chained modes without losses (`lfd_encrypt.c`).

Two ends with the same password exchange packets over channels that lose
nothing.  `Direction` relates the encoder of one end to the decoder of the other
through the packets in flight: nothing sent yet, the packet with the vector
still on its way, or two contexts in step.

* `Direction.encrypt`, `Direction.deliver` — the two calls keep it;
* `session_transparent` — every packet gives back the frame it was made from,
  and no end ever asks for a resynchronisation.
-/
import Vtun.EncryptPacket
import Vtun.Lib.Run
import Mathlib.Data.List.Forall2

namespace Vtun

variable {X : OpenSsl} {pf : Platform} {c : Cipher} {key : List Byte}

/-! ### The two ends -/

/-- The ends of a session. -/
inductive Side
  | client
  | server
  deriving DecidableEq, Repr

/-- The other end. -/
def Side.other : Side → Side
  | .client => .server
  | .server => .client

@[simp] theorem Side.other_other (a : Side) : a.other.other = a := by cases a <;> rfl

@[simp] theorem Side.other_ne (a : Side) : a.other ≠ a := by cases a <;> decide

theorem Side.eq_or_eq_other (a b : Side) : b = a ∨ b = a.other := by
  cases a <;> cases b <;> decide

/-- The encryptors of both ends, and for each end the packets it has sent that
are still in flight, the frames they were made from, and what the other end's
`decrypt_buf` has returned. -/
structure CryptSession (X : OpenSsl) where
  ends : Side → Encryptor X
  flight : Side → List (List Byte)
  sent : Side → List (List Byte)
  got : Side → List Span

/-- One end encrypts a frame, or the oldest packet of one end is delivered to
the other; `tail` is what lies behind it in the buffer there. -/
inductive SessionEv
  | encrypt (a : Side) (env : EncEnv) (f : Span)
  | deliver (a : Side) (env : EncEnv) (tail : List Byte)

/-- One call of `encrypt_buf` or `decrypt_buf`. -/
def sessionStep (pf : Platform) (s : CryptSession X) : SessionEv → Option (CryptSession X)
  | .encrypt a env f =>
    if f.frame = [] then none
    else
      let r := encryptBuf pf env (s.ends a) f
      some { s with
        ends := Function.update s.ends a r.1
        flight := Function.update s.flight a (s.flight a ++ [r.2.frame])
        sent := Function.update s.sent a (s.sent a ++ [f.frame]) }
  | .deliver a env tail =>
    match s.flight a with
    | [] => none
    | bytes :: rest =>
      let r := decryptBuf env (s.ends a.other) ⟨bytes.length, bytes ++ tail⟩
      some { s with
        ends := Function.update s.ends a.other r.1
        flight := Function.update s.flight a rest
        got := Function.update s.got a (s.got a ++ [r.2]) }

/-- Both ends after `alloc_encrypt`. -/
def sessionStart (X : OpenSsl) (host : Side → VtunHost) (seq : Side → UInt32)
    (buf : Side → List Byte) (packet : Side → Bool) : CryptSession X where
  ends a := allocEncrypt X (host a) (seq a) (buf a) (packet a)
  flight _ := []
  sent _ := []
  got _ := []

/-! ### One direction -/

/-- The encoder `s`, the decoder `r` and the packets between them, which were
made from the frames `ms`. -/
inductive Direction (c : Cipher) (key : List Byte) (s r : Encryptor X) :
    List (List Byte) → List (List Byte) → Prop
  /-- nothing has been sent -/
  | idle (hs : s.encState = .init) (hr : r.decState = .init) : Direction c key s r [] []
  /-- the packet with the vector is in flight -/
  | fresh {iv fill t : List Byte} {flight ms texts : List (List Byte)} {e : X.Enc}
      (hs : s.encState = .sequence) (hctx : s.ctxEnc = some (.chained e))
      (hr : r.decState = .init) (hiv : iv.length = c.blocksize)
      (hfill : fill.length = c.blocksize - 4)
      (htexts : List.Forall₂ (InBand c.blocksize (lit "seq#")) ms texts)
      (hrun : Codec.runAll X.encUpdate (X.encInit c key iv) texts = (t :: flight, e)) :
      Direction c key s r ((ivecHeader X c key iv fill ++ t) :: flight) ms
  /-- the decoder is in step with the encoder when it sent the first packet in flight -/
  | synced {flight ms texts : List (List Byte)} {e₀ e : X.Enc} {d : X.Dec}
      (hs : s.encState = .sequence) (hctx : s.ctxEnc = some (.chained e))
      (hr : r.decState = .sequence) (hd : r.ctxDec = some (.chained d))
      (hstep : CtxInStep X c e₀ d) (hlen : CtxKeepsLength X c e₀)
      (htexts : List.Forall₂ (InBand c.blocksize (lit "seq#")) ms texts)
      (hrun : Codec.runAll X.encUpdate e₀ texts = (flight, e)) :
      Direction c key s r flight ms

/-- What a direction reads of the encoder and of the decoder. -/
theorem Direction.congr {s s' r r' : Encryptor X} {flight ms : List (List Byte)}
    (h : Direction c key s r flight ms) (henc : s'.encState = s.encState)
    (hctx : s'.ctxEnc = s.ctxEnc) (hdec : r'.decState = r.decState) (hctx' : r'.ctxDec = r.ctxDec) :
    Direction c key s' r' flight ms := by
  cases h with
  | idle hs hr => exact .idle (henc.trans hs) (hdec.trans hr)
  | fresh hs hc hr hiv hfill htexts hrun =>
    exact .fresh (henc.trans hs) (hctx.trans hc) (hdec.trans hr) hiv hfill htexts hrun
  | synced hs hc hr hd hstep hlen htexts hrun =>
    exact .synced (henc.trans hs) (hctx.trans hc) (hdec.trans hr) (hctx'.trans hd) hstep hlen
      htexts hrun

/-- An end that has no reason to complain. -/
structure Calm (c : Cipher) (key : List Byte) (packet : Bool) (s : Encryptor X) : Prop where
  cipher : s.cipher = c
  key : s.key = key
  gibberish : s.gibberish = 0
  sendAPacket : s.sendAPacket = packet

/-- **Encrypting a frame puts its packet behind those in flight**; the decoder of
the same end is left alone. -/
theorem Direction.encrypt {s r : Encryptor X} {flight ms : List (List Byte)} {packet : Bool}
    (h : Direction c key s r flight ms) (hcalm : Calm c key packet s) (hfit : HeaderFits pf c)
    (env : EncEnv) (f : Span) :
    let out := encryptBuf pf env s f
    Direction c key out.1 r (flight ++ [out.2.frame]) (ms ++ [f.frame]) ∧
      Calm c key packet out.1 ∧ out.1.decState = s.decState ∧ out.1.ctxDec = s.ctxDec := by
  obtain ⟨rfl, rfl, hgib, hpacket⟩ := hcalm
  dsimp only
  -- The first packet opens the direction; every other one goes behind the rest.
  cases h with
  | idle hs hr =>
    obtain ⟨iv, fill, text, ops, hiv, hfill, htext, heq⟩ := encryptBuf_init pf hs env f
    rw [Encryptor.inside_fits hfit] at htext
    rw [heq]
    refine ⟨?_, ⟨rfl, rfl, hgib, hpacket⟩, rfl, rfl⟩
    dsimp only
    rw [Span.frame_all]
    exact .fresh rfl rfl hr hiv hfill (.cons htext .nil) rfl
  | fresh hs hctx hr hiv hfill htexts hrun =>
    obtain ⟨text, ops, htext, heq⟩ := encryptBuf_sequence pf hs hctx env f
    rw [Encryptor.inside_fits hfit] at htext
    rw [heq]
    refine ⟨?_, ⟨rfl, rfl, hgib, hpacket⟩, rfl, rfl⟩
    dsimp only
    rw [Span.frame_all, List.cons_append]
    refine .fresh hs rfl hr hiv hfill (List.rel_append htexts (.cons htext .nil)) ?_
    rw [Codec.runAll_snoc, hrun]
    rfl
  | synced hs hctx hr hd hstep hlen htexts hrun =>
    obtain ⟨text, ops, htext, heq⟩ := encryptBuf_sequence pf hs hctx env f
    rw [Encryptor.inside_fits hfit] at htext
    rw [heq]
    refine ⟨?_, ⟨rfl, rfl, hgib, hpacket⟩, rfl, rfl⟩
    dsimp only
    rw [Span.frame_all]
    refine .synced hs rfl hr hd hstep hlen (List.rel_append htexts (.cons htext .nil)) ?_
    rw [Codec.runAll_snoc, hrun]

/-- `decrypt_buf` returned the frame `m`. -/
def Returned (out : Span) (m : List Byte) : Prop := out.len = m.length ∧ out.frame = m

/-- A packet in flight was made from a frame, and decrypting it with the context
in step gives the frame back. -/
theorem decrypt_synced {s r : Encryptor X} {t : List Byte} {flight ms texts : List (List Byte)}
    {e₀ e : X.Enc} {d : X.Dec} {packet : Bool} (hcalm : Calm c key packet r)
    (hs : s.encState = .sequence) (hctx : s.ctxEnc = some (.chained e))
    (hr : r.decState = .sequence) (hd : r.ctxDec = some (.chained d))
    (hstep : CtxInStep X c e₀ d) (hlen : CtxKeepsLength X c e₀)
    (htexts : List.Forall₂ (InBand c.blocksize (lit "seq#")) ms texts)
    (hrun : Codec.runAll X.encUpdate e₀ texts = (t :: flight, e)) (env : EncEnv)
    (tail : List Byte) :
    let out := decryptBuf env r ⟨t.length, t ++ tail⟩
    ∃ m ms', ms = m :: ms' ∧ Returned out.2 m ∧ Direction c key s out.1 flight ms' ∧
      Calm c key packet out.1 ∧ out.1.encState = r.encState ∧ out.1.ctxEnc = r.ctxEnc := by
  obtain ⟨rfl, rfl, hgib, hpacket⟩ := hcalm
  cases htexts with
  | nil => exact absurd (congrArg Prod.fst hrun) (by simp [Codec.runAll])
  | @cons m text ms' texts' htext htexts' =>
    rw [Codec.runAll, Prod.mk.injEq, List.cons.injEq] at hrun
    obtain ⟨⟨rfl, rfl⟩, rfl⟩ := hrun
    have hback : (X.decUpdate d (X.encUpdate e₀ text).1).1 = text := hstep.decode htext.whole
    have hsize := hlen.one htext.whole
    have hne : (X.encUpdate e₀ text).1 ≠ [] := by
      intro h0
      rw [h0, List.length_nil] at hsize
      have hlt := htext.length_le.1
      omega
    obtain ⟨hstate, hout⟩ := decryptBuf_seq hr hd env hne hback htext tail
    refine ⟨m, ms', rfl, hout, ?_, ?_, ?_, ?_⟩
    · rw [hstate]
      exact .synced hs hctx hr rfl (hstep.step htext.whole) (hlen.step htext.whole) htexts' rfl
    · rw [hstate]
      exact ⟨rfl, rfl, hgib, hpacket⟩
    · rw [hstate]
      rfl
    · rw [hstate]
      rfl

/-- **Delivering the oldest packet gives back its frame**; the encoder of the same
end is left alone. -/
theorem Direction.deliver {s r : Encryptor X} {bytes : List Byte}
    {flight ms : List (List Byte)} {packet : Bool} (hX : ChainedCipher X c key)
    (h : Direction c key s r (bytes :: flight) ms) (hcalm : Calm c key packet r) (env : EncEnv)
    (tail : List Byte) :
    let out := decryptBuf env r ⟨bytes.length, bytes ++ tail⟩
    ∃ m ms', ms = m :: ms' ∧ Returned out.2 m ∧ Direction c key s out.1 flight ms' ∧
      Calm c key packet out.1 ∧ out.1.encState = r.encState ∧ out.1.ctxEnc = r.ctxEnc := by
  cases h with
  | @fresh iv fill t _ _ texts e hs hctx hr hiv hfill htexts hrun =>
    -- the header leaves the decoder in step with the encoder's first context
    have hfresh := decryptBuf_fresh (s := r) (by rw [hcalm.cipher, hcalm.key]; exact hX.sideband)
      hr (by rwa [hcalm.cipher]) (by rwa [hcalm.cipher]) env t tail
    rw [hcalm.cipher, hcalm.key] at hfresh
    dsimp only at hfresh ⊢
    rw [hfresh]
    have hopened : Calm c key packet (r.opened iv) := ⟨hcalm.cipher, hcalm.key, rfl,
      hcalm.sendAPacket⟩
    have hctx' : (r.opened iv).ctxDec = some (.chained (X.decInit c key iv)) := by
      rw [← hcalm.cipher, ← hcalm.key]
      rfl
    exact decrypt_synced hopened hs hctx rfl hctx' (hX.inStep iv hiv) (hX.keepsLength iv hiv)
      htexts hrun env tail
  | synced hs hctx hr hd hstep hlen htexts hrun =>
    exact decrypt_synced hcalm hs hctx hr hd hstep hlen htexts hrun env tail

/-! ### Runs -/

/-- The frames one end was given: those the other end has got back, in order,
and those still in flight. -/
def Delivered (c : Cipher) (key : List Byte) (s : CryptSession X) (a : Side) : Prop :=
  ∃ done ms, s.sent a = done ++ ms ∧ List.Forall₂ Returned (s.got a) done ∧
    Direction c key (s.ends a) (s.ends a.other) (s.flight a) ms

/-- The invariant of a session. -/
structure Transparent (c : Cipher) (key : List Byte) (packet : Side → Bool)
    (s : CryptSession X) : Prop where
  calm : ∀ a, Calm c key (packet a) (s.ends a)
  delivered : ∀ a, Delivered c key s a

theorem transparent_encrypt {packet : Side → Bool} {s : CryptSession X}
    (h : Transparent c key packet s) (hfit : HeaderFits pf c) (a : Side) (env : EncEnv) (f : Span) :
    let r := encryptBuf pf env (s.ends a) f
    Transparent c key packet { s with
      ends := Function.update s.ends a r.1
      flight := Function.update s.flight a (s.flight a ++ [r.2.frame])
      sent := Function.update s.sent a (s.sent a ++ [f.frame]) } := by
  obtain ⟨done, ms, hsent, hgot, hdir⟩ := h.delivered a
  obtain ⟨hdir', hcalm', hdec, hctx⟩ := hdir.encrypt (h.calm a) hfit env f
  constructor
  · intro b
    rcases Side.eq_or_eq_other a b with rfl | rfl
    · simpa using hcalm'
    · simpa using h.calm a.other
  · intro b
    rcases Side.eq_or_eq_other a b with rfl | rfl
    · refine ⟨done, ms ++ [f.frame], ?_, hgot, ?_⟩
      · simp [hsent]
      · simpa using hdir'
    · -- the packets that come the other way only meet another encoder here
      obtain ⟨done', ms', hsent', hgot', hback⟩ := h.delivered a.other
      refine ⟨done', ms', by simpa using hsent', hgot', ?_⟩
      rw [Side.other_other] at hback ⊢
      simpa using hback.congr rfl rfl hdec hctx

theorem transparent_deliver {packet : Side → Bool} {s : CryptSession X}
    (h : Transparent c key packet s) (hX : ChainedCipher X c key) {a : Side} {bytes : List Byte}
    {rest : List (List Byte)} (hflight : s.flight a = bytes :: rest) (env : EncEnv)
    (tail : List Byte) :
    let r := decryptBuf env (s.ends a.other) ⟨bytes.length, bytes ++ tail⟩
    Transparent c key packet { s with
      ends := Function.update s.ends a.other r.1
      flight := Function.update s.flight a rest
      got := Function.update s.got a (s.got a ++ [r.2]) } := by
  obtain ⟨done, ms, hsent, hgot, hdir⟩ := h.delivered a
  rw [hflight] at hdir
  obtain ⟨m, ms', rfl, hret, hdir', hcalm', henc, hctx⟩ :=
    hdir.deliver hX (h.calm a.other) env tail
  have hne : a ≠ a.other := (Side.other_ne a).symm
  constructor
  · intro b
    rcases Side.eq_or_eq_other a b with rfl | rfl
    · simpa [hne] using h.calm b
    · simpa using hcalm'
  · intro b
    rcases Side.eq_or_eq_other a b with rfl | rfl
    · refine ⟨done ++ [m], ms', ?_, ?_, ?_⟩
      · simp [hsent]
      · simpa using List.rel_append hgot (.cons hret .nil)
      · simpa [hne] using hdir'
    · obtain ⟨done', ms'', hsent', hgot', hback⟩ := h.delivered a.other
      refine ⟨done', ms'', hsent', by simpa using hgot', ?_⟩
      rw [Side.other_other] at hback ⊢
      simpa [hne] using hback.congr henc hctx rfl rfl

theorem transparent_start {host : Side → VtunHost}
    (hcipher : ∀ a, Cipher.ofNumber (host a).cipher = c) (hmode : c.mode ≠ .ecb)
    (hkey : ∀ a, prepKey X c.keysize (host a).passwd = key) (seq : Side → UInt32)
    (buf : Side → List Byte) (packet : Side → Bool) :
    Transparent c key packet (sessionStart X host seq buf packet) := by
  have hinit : ∀ a, (allocEncrypt X (host a) (seq a) (buf a) (packet a)).encState = .init ∧
      (allocEncrypt X (host a) (seq a) (buf a) (packet a)).decState = .init := by
    intro a
    simp [allocEncrypt, hcipher, hmode]
  constructor
  · intro a
    exact ⟨hcipher a, by simp [sessionStart, allocEncrypt, hcipher, hkey], rfl, rfl⟩
  · intro a
    exact ⟨[], [], rfl, .nil, .idle (hinit a).1 (hinit a.other).2⟩

theorem headerFits_aes (pf : Platform) (h : c.algo = .aes) : HeaderFits pf c := by
  rw [HeaderFits, Cipher.blocksize, h]
  cases pf <;> decide

theorem transparent_step {packet : Side → Bool} (hX : ChainedCipher X c key)
    (hfit : HeaderFits pf c) (s : CryptSession X) (e : SessionEv) (s' : CryptSession X)
    (h : Transparent c key packet s) (hs : sessionStep pf s e = some s') :
    Transparent c key packet s' := by
  cases e with
  | encrypt a env f =>
    rw [sessionStep] at hs
    split at hs
    · exact absurd hs (by simp)
    · obtain rfl := Option.some.inj hs
      exact transparent_encrypt h hfit a env f
  | deliver a env tail =>
    rw [sessionStep] at hs
    split at hs
    · exact absurd hs (by simp)
    · rename_i bytes rest hflight
      obtain rfl := Option.some.inj hs
      exact transparent_deliver h hX hflight env tail

theorem Direction.encState_ne {s r : Encryptor X} {flight ms : List (List Byte)}
    (h : Direction c key s r flight ms) : s.encState ≠ .reqInit := by
  cases h with
  | idle hs hr => simp [hs]
  | fresh hs => simp [hs]
  | synced hs => simp [hs]

theorem Direction.length_eq {s r : Encryptor X} {flight ms : List (List Byte)}
    (h : Direction c key s r flight ms) : ms.length = flight.length := by
  have hlen : ∀ (e : X.Enc) (texts : List (List Byte)),
      (Codec.runAll X.encUpdate e texts).1.length = texts.length := by
    intro e texts
    induction texts generalizing e with
    | nil => rfl
    | cons t texts ih => exact congrArg (· + 1) (ih _)
  cases h with
  | idle => rfl
  | fresh hs hctx hr hiv hfill htexts hrun =>
    rw [htexts.length_eq, ← hlen, hrun]
    rfl
  | synced hs hctx hr hd hstep hkeep htexts hrun =>
    rw [htexts.length_eq, ← hlen, hrun]

/-- Ends with the same cipher and password have the same key. -/
theorem same_key {host : Side → VtunHost} (hcipher : (host .server).cipher = (host .client).cipher)
    (hpasswd : (host .server).passwd = (host .client).passwd) (n : ℕ) (a : Side) :
    Cipher.ofNumber (host a).cipher = Cipher.ofNumber (host .client).cipher ∧
      prepKey X n (host a).passwd = prepKey X n (host .client).passwd := by
  cases a
  · exact ⟨rfl, rfl⟩
  · rw [hcipher, hpasswd]
    exact ⟨rfl, rfl⟩

/-- **A session without losses is transparent.**  Whatever the two ends send, and
in whatever order the packets come in, `decrypt_buf` has returned the oldest
frames the other end sent, byte for byte, and the others are in flight; no
packet was unintelligible and nothing asked for a packet or a
resynchronisation. -/
theorem session_transparent (pf : Platform) {host : Side → VtunHost}
    (hcipher : (host .server).cipher = (host .client).cipher)
    (hpasswd : (host .server).passwd = (host .client).passwd)
    (haes : (Cipher.ofNumber (host .client).cipher).algo = .aes)
    (hmode : (Cipher.ofNumber (host .client).cipher).mode ≠ .ecb)
    (hX : ChainedCipher X (Cipher.ofNumber (host .client).cipher)
      (prepKey X (Cipher.ofNumber (host .client).cipher).keysize (host .client).passwd))
    (seq : Side → UInt32) (buf : Side → List Byte) (packet : Side → Bool) (es : List SessionEv)
    (s : CryptSession X)
    (hrun : Run.exec (sessionStep pf) (sessionStart X host seq buf packet) es = some s) (a : Side) :
    (∃ done pending, s.sent a = done ++ pending ∧ List.Forall₂ Returned (s.got a) done ∧
      pending.length = (s.flight a).length) ∧
    (s.ends a).gibberish = 0 ∧ (s.ends a).sendAPacket = packet a ∧
    (s.ends a).encState ≠ .reqInit := by
  have hsame := fun b => same_key (X := X) hcipher hpasswd
    (Cipher.ofNumber (host .client).cipher).keysize b
  have hstart := transparent_start (X := X) (fun b => (hsame b).1) hmode (fun b => (hsame b).2)
    seq buf packet
  have h := Run.exec_preserves (transparent_step hX (headerFits_aes pf haes)) hstart hrun
  obtain ⟨done, ms, hsent, hgot, hdir⟩ := h.delivered a
  -- `ms` are the frames whose packets are still in flight.
  exact ⟨⟨done, ms, hsent, hgot, hdir.length_eq⟩, (h.calm a).gibberish, (h.calm a).sendAPacket,
    hdir.encState_ne⟩

/-- Frames that cross on their way. -/
def crossingRun : List SessionEv :=
  [.encrypt .client calmEnv ⟨2, [5, 6]⟩, .encrypt .server calmEnv ⟨1, [7]⟩,
    .deliver .client calmEnv [], .encrypt .client calmEnv ⟨1, [8]⟩,
    .deliver .server calmEnv [1, 2, 3]]

theorem session_transparent_crossing :
    ∃ s : CryptSession shiftSsl,
      Run.exec (sessionStep .lp64) (sessionStart shiftSsl (fun _ => sampleHost 10) (fun _ => 0)
        (fun _ => []) (fun _ => false)) crossingRun = some s ∧
      (∃ done pending, s.sent .client = done ++ pending ∧
        List.Forall₂ Returned (s.got .client) done ∧
        pending.length = (s.flight .client).length) ∧
      (s.ends .client).gibberish = 0 ∧ (s.ends .client).sendAPacket = false ∧
      (s.ends .client).encState ≠ .reqInit :=
  ⟨_, rfl, session_transparent .lp64 rfl rfl rfl (by decide) (chainedCipher_shiftSsl _ _)
    (fun _ => 0) (fun _ => []) (fun _ => false) crossingRun _ rfl .client⟩

end Vtun
