/-
What comes out of a tunnel (`linkfd.c` over `lfd_encrypt.c`).

The packets in flight are genuine: each was made from a frame that one end
handed to `lfd_run_down`.  As long as no end takes a packet for its own that was
not made with the context it decrypts with, a packet gives back its frame or
nothing.

* `encryptBuf_genuine` — the encoder makes genuine packets, in every state;
* `decryptBuf_genuine` — the decoder returns the frame of a genuine packet, or
  nothing;
* `tunnel_frames` — over every run, the frames for the device are, in order and
  byte for byte, among those the other end has handed down;
* `filler_written` — these need not come from the other end's device.
-/
import Vtun.Tunnel
import Vtun.Lib.Lossy

namespace Vtun

variable {X : OpenSsl} {pf : Platform} {c : Cipher} {key : List Byte}

/-! ### Genuine packets -/

/-- An encryptor of a chained cipher. -/
structure Sound (c : Cipher) (key : List Byte) (s : Encryptor X) : Prop where
  cipher : s.cipher = c
  key : s.key = key
  encState : s.encState ≠ .code
  ctxEnc : ∀ ctx, s.ctxEnc = some ctx → ∃ e, ctx = .chained e ∧ CtxKeepsLength X c e
  dec : s.decState = .init ∨ s.decState = .sequence ∧ ∃ d, s.ctxDec = some (.chained d)

/-- The bytes of a packet were made from the frame `m`, in the way the packet
says; nothing is known of those made without a context. -/
def MadeFrom (c : Cipher) (key m bytes : List Byte) : Made X → Prop
  | .control => False
  | .fresh => ∃ iv fill text, iv.length = c.blocksize ∧ fill.length = c.blocksize - 4 ∧
      InBand c.blocksize (lit "seq#") m text ∧
      bytes = ivecHeader X c key iv fill ++ (X.encUpdate (X.encInit c key iv) text).1
  | .carried e => ∃ tag text, (tag = lit "seq#" ∨ tag = lit "rsyn") ∧
      InBand c.blocksize tag m text ∧ CtxKeepsLength X c e ∧ bytes = (X.encUpdate e text).1
  | .dead => True

/-- A packet with the frame `m`. -/
structure Genuine (c : Cipher) (key : List Byte) (p : Packet X) (m : List Byte) : Prop where
  len : p.len = p.bytes.length
  pos : 0 < p.len
  short : p.len < 4096
  frame : m ≠ []
  made : MadeFrom c key m p.bytes p.made

/-- What a packet in flight carries. -/
def Carries (c : Cipher) (key : List Byte) (p : Packet X) : Option (List Byte) → Prop
  | none => p.len = echoReq ∨ p.len = echoRep
  | some m => Genuine c key p m

theorem Cipher.blocksize_le (c : Cipher) : c.blocksize ≤ 16 := c.algo.blocksize_le

theorem makes_carried {s : Encryptor X} {e : X.Enc} (hs : s.encState ≠ .init)
    (he : s.ctxEnc = some (.chained e)) : s.makes = .carried e := by
  rw [Encryptor.makes, he]
  cases hst : s.encState with
  | init => exact absurd hst hs
  | code => rfl
  | sequence => rfl
  | reqInit => rfl

theorem makes_dead {s : Encryptor X} (hs : s.encState ≠ .init) (he : s.ctxEnc = none) :
    s.makes = .dead := by
  rw [Encryptor.makes, he]
  cases hst : s.encState with
  | init => exact absurd hst hs
  | code => rfl
  | sequence => rfl
  | reqInit => rfl

/-- The packet of an encoder without a context. -/
theorem encryptBuf_dead {s : Encryptor X} (hfit : HeaderFits pf s.cipher)
    (hs : s.encState = .sequence ∨ s.encState = .reqInit) (hctx : s.ctxEnc = none) (env : EncEnv)
    (f : Span) :
    ∃ bytes packet ops, f.frame.length < bytes.length ∧
      bytes.length ≤ f.frame.length + 2 * s.cipher.blocksize ∧
      encryptBuf pf env s f =
        ({ s with
          encState := .sequence
          sendAPacket := packet
          sequenceNum := s.sequenceNum + 1
          encOps := ops }, ⟨bytes.length, bytes⟩) := by
  have hmsg : sendMsg env s = ([], s) := by
    rcases hs with hs | hs <;> rw [sendMsg, hs]
  obtain ⟨tag, packet, htag, hib⟩ : ∃ tag packet, List.length tag = 4 ∧
      sendIbMesg pf s f.frame = (tagged pf s.blocksize tag s.sequenceNum f.frame,
        { s with encState := .sequence, sendAPacket := packet }) := by
    rcases hs with hs | hs
    · refine ⟨lit "seq#", s.sendAPacket, rfl, ?_⟩
      rw [sendIbMesg, hs]
      simp [← hs]
    · refine ⟨lit "rsyn", true, rfl, ?_⟩
      rw [sendIbMesg, hs]
  obtain ⟨block, hblock, htake, heq⟩ := tagged_eq pf s.cipher tag htag s.sequenceNum f.frame
  rw [Encryptor.blocksize, heq, hfit.overwritten] at hib
  set text := block ++ f.frame ++ padding env s.cipher.blocksize (block ++ f.frame).length
    with htext
  have hinBand : InBand s.cipher.blocksize tag f.frame text :=
    ⟨block, env, hblock, htake, by rw [htext, List.append_assoc]⟩
  have hlen := hinBand.length_le
  refine ⟨draw env.junk text.length, packet, s.encOps ++ [.update], ?_, ?_, ?_⟩
  · rw [length_draw]
    exact hlen.1
  · rw [length_draw]
    exact hlen.2
  · rw [encryptBuf_eq hmsg hib (append_ne_nil_of_block hblock)]
    simp only [Encryptor.encUpdate, hctx, Encryptor.blocksize, List.nil_append, htext]

/-- Packets made from frames of the device are far shorter than the size field. -/
theorem genuine_of_bounds {p : Packet X} {m : List Byte} (hlen : p.len = p.bytes.length)
    (hlow : m.length < p.len) (hhigh : p.len ≤ m.length + 4 * c.blocksize) (hne : m ≠ [])
    (hframe : m.length ≤ frameSize) (hmade : MadeFrom c key m p.bytes p.made) :
    Genuine c key p m := by
  have h16 := c.blocksize_le
  have h2048 : frameSize = 2048 := rfl
  exact ⟨hlen, by omega, by omega, hne, hmade⟩

/-- The packet of a live context, in `CIPHER_SEQUENCE` and `CIPHER_REQ_INIT`. -/
theorem genuine_live {s : Encryptor X} (h : Sound c key s) {e : X.Enc}
    (he : s.ctxEnc = some (.chained e)) (hs : s.encState ≠ .init) {tag text m : List Byte}
    (htag : tag = lit "seq#" ∨ tag = lit "rsyn") (htext : InBand c.blocksize tag m text)
    (hne : m ≠ []) (hframe : m.length ≤ frameSize) :
    Genuine c key ⟨(X.encUpdate e text).1.length, (X.encUpdate e text).1, s.makes⟩ m ∧
      CtxKeepsLength X c (X.encUpdate e text).2 := by
  obtain ⟨e', he', hkeeps⟩ := h.ctxEnc _ he
  obtain rfl : e = e' := EncCtx.chained.inj he'
  have hsize := hkeeps.one htext.whole
  have hbound := htext.length_le
  refine ⟨genuine_of_bounds rfl (by dsimp only; omega) (by dsimp only; omega) hne hframe ?_,
    hkeeps.step htext.whole⟩
  dsimp only
  rw [makes_carried hs he]
  exact ⟨tag, text, htag, htext, hkeeps, rfl⟩

/-- The packet with a new vector. -/
theorem genuine_fresh {s : Encryptor X} (hX : ChainedCipher X c key) (hs : s.encState = .init)
    {iv fill text m : List Byte} (hiv : iv.length = c.blocksize)
    (hfill : fill.length = c.blocksize - 4) (htext : InBand c.blocksize (lit "seq#") m text)
    (hne : m ≠ []) (hframe : m.length ≤ frameSize) :
    let bytes := ivecHeader X c key iv fill ++ (X.encUpdate (X.encInit c key iv) text).1
    Genuine c key ⟨bytes.length, bytes, s.makes⟩ m := by
  have hsize := (hX.keepsLength iv hiv).one htext.whole
  have hbound := htext.length_le
  have hheader := length_ivecHeader hX.sideband hiv hfill
  have hmakes : s.makes = .fresh := by rw [Encryptor.makes, hs]
  refine genuine_of_bounds rfl ?_ ?_ hne hframe ?_
  · dsimp only
    rw [List.length_append]
    omega
  · dsimp only
    rw [List.length_append]
    omega
  · dsimp only
    rw [hmakes]
    exact ⟨iv, fill, text, hiv, hfill, htext, rfl⟩

theorem Sound.encoded {s : Encryptor X} (h : Sound c key s) {ctx : Option (EncCtx X)}
    {state : CipherState} (hctx : ∀ e, ctx = some e → ∃ e', e = .chained e' ∧ CtxKeepsLength X c e')
    (hstate : state ≠ .code) (packet : Bool) (seq : UInt32) (ops : List CtxOp) :
    Sound c key { s with
      encState := state
      sendAPacket := packet
      ctxEnc := ctx
      sequenceNum := seq
      encOps := ops } :=
  ⟨h.cipher, h.key, hstate, hctx, h.dec⟩

theorem chained_of_keepsLength {e : X.Enc} (hkeeps : CtxKeepsLength X c e) :
    ∀ ctx, some (EncCtx.chained e) = some ctx →
      ∃ e', ctx = .chained e' ∧ CtxKeepsLength X c e' := by
  intro ctx h
  exact ⟨e, (Option.some.inj h).symm, hkeeps⟩

/-- **The encoder makes genuine packets**, in every state. -/
theorem encryptBuf_genuine {s : Encryptor X} (hX : ChainedCipher X c key)
    (hfit : HeaderFits pf c) (h : Sound c key s) (env : EncEnv) {f : Span} (hne : f.frame ≠ [])
    (hlen : f.frame.length ≤ frameSize) :
    ∃ bytes, (encryptBuf pf env s f).2 = ⟨bytes.length, bytes⟩ ∧
      Genuine c key ⟨bytes.length, bytes, s.makes⟩ f.frame ∧
      Sound c key (encryptBuf pf env s f).1 := by
  obtain rfl := h.cipher
  obtain rfl := h.key
  -- In both states with an in-band block the context may be gone or never made.
  have hdead : s.encState = .sequence ∨ s.encState = .reqInit → s.ctxEnc = none →
      ∃ bytes, (encryptBuf pf env s f).2 = ⟨bytes.length, bytes⟩ ∧
        Genuine s.cipher s.key ⟨bytes.length, bytes, s.makes⟩ f.frame ∧
        Sound s.cipher s.key (encryptBuf pf env s f).1 := by
    intro hs hnone
    obtain ⟨bytes, packet, ops, hlow, hhigh, heq⟩ := encryptBuf_dead hfit hs hnone env f
    have hinit : s.encState ≠ .init := by
      rcases hs with hs | hs <;> simp [hs]
    have hmade : MadeFrom s.cipher s.key f.frame bytes s.makes := by
      rw [makes_dead hinit hnone]
      trivial
    rw [heq]
    exact ⟨bytes, rfl, genuine_of_bounds rfl hlow (by dsimp only; omega) hne hlen hmade,
      h.encoded h.ctxEnc (by simp) packet _ ops⟩
  cases hs : s.encState with
  | init =>
    obtain ⟨iv, fill, text, ops, hiv, hfill, htext, heq⟩ := encryptBuf_init pf hs env f
    rw [Encryptor.inside_fits hfit] at htext
    have hkeeps := (hX.keepsLength iv hiv).step htext.whole
    rw [heq]
    exact ⟨_, rfl, genuine_fresh hX hs hiv hfill htext hne hlen,
      h.encoded (chained_of_keepsLength hkeeps) (by simp) s.sendAPacket _ ops⟩
  | code => exact absurd hs h.encState
  | sequence =>
    cases he : s.ctxEnc with
    | none => exact hdead (Or.inl hs) he
    | some ctx =>
      obtain ⟨e, rfl, -⟩ := h.ctxEnc ctx he
      obtain ⟨text, ops, htext, heq⟩ := encryptBuf_sequence pf hs he env f
      rw [Encryptor.inside_fits hfit] at htext
      obtain ⟨hgen, hkeeps⟩ := genuine_live h he (by simp [hs]) (Or.inl rfl) htext hne hlen
      rw [heq]
      exact ⟨_, rfl, hgen,
        h.encoded (chained_of_keepsLength hkeeps) h.encState s.sendAPacket _ ops⟩
  | reqInit =>
    cases he : s.ctxEnc with
    | none => exact hdead (Or.inr hs) he
    | some ctx =>
      obtain ⟨e, rfl, -⟩ := h.ctxEnc ctx he
      obtain ⟨text, ops, htext, heq⟩ := encryptBuf_reqInit pf hs he env f
      rw [Encryptor.inside_fits hfit] at htext
      obtain ⟨hgen, hkeeps⟩ := genuine_live h he (by simp [hs]) (Or.inr rfl) htext hne hlen
      rw [heq]
      exact ⟨_, rfl, hgen, h.encoded (chained_of_keepsLength hkeeps) (by simp) true _ ops⟩

/-! ### The decoder -/

theorem sound_dropEncoder {s : Encryptor X} (h : Sound c key s) : Sound c key s.dropEncoder := by
  rw [Encryptor.dropEncoder]
  split
  · exact ⟨h.cipher, h.key, by simp, by simp [Encryptor.cleanupEnc], h.dec⟩
  · exact h

theorem sound_countGibberish {s : Encryptor X} (h : Sound c key s) (env : EncEnv) :
    Sound c key (countGibberish env s) := by
  have hcount : ∀ (count : ℕ) (start : ℤ) (state : CipherState) (packet : Bool),
      state ≠ .code → Sound c key { s with
        gibberish := count
        gibTimeStart := start
        encState := state
        sendAPacket := packet } :=
    fun _ _ _ _ hstate => ⟨h.cipher, h.key, hstate, h.ctxEnc, h.dec⟩
  unfold countGibberish
  dsimp only
  generalize (if s.gibberish + 1 = 1 then env.time₁ else s.gibTimeStart) = start
  by_cases hmin : s.gibberish + 1 = minGibberish
  · rw [if_pos hmin]
    split
    · exact sound_dropEncoder (hcount 0 0 .reqInit true (by simp))
    · exact hcount _ _ .reqInit true (by simp)
  · rw [if_neg hmin]
    split
    · exact sound_dropEncoder (hcount 0 0 s.encState true h.encState)
    · exact hcount _ _ s.encState s.sendAPacket h.encState

theorem sound_recvMsg {s : Encryptor X} (h : Sound c key s) (env : EncEnv) (f : Span) :
    Sound c key (recvMsg env s f).2 := by
  rcases h.dec with hs | ⟨hs, hctx⟩
  · by_cases hhead : (sidebandHead s f.mem).take 4 = lit "ivec"
    · rw [recvMsg_ivec hs hhead]
      exact ⟨h.cipher, h.key, h.encState, h.ctxEnc, Or.inr ⟨rfl, _, rfl⟩⟩
    · rw [recvMsg_gibberish hs hhead]
      exact sound_countGibberish h env
  · rw [recvMsg, hs]
    exact h

theorem sound_decUpdate {s : Encryptor X} (h : Sound c key s) (env : EncEnv) (len : ℤ)
    (mem buf : List Byte) :
    Sound c key { (s.decUpdate env len mem).2 with decBuf := buf } := by
  have hsame : ∀ (ctx : Option (DecCtx X)) (ops : List CtxOp),
      (s.decState = .init ∨ s.decState = .sequence ∧ ∃ d, ctx = some (.chained d)) →
      Sound c key { s with ctxDec := ctx, decOps := ops, decBuf := buf } :=
    fun _ _ hdec => ⟨h.cipher, h.key, h.encState, h.ctxEnc, hdec⟩
  simp only [Encryptor.decUpdate]
  split
  · exact hsame _ _ h.dec
  · split
    · rename_i rest hctx
      refine hsame _ _ (Or.inl ?_)
      rcases h.dec with hs | ⟨-, d, hd⟩
      · exact hs
      · exact absurd (hctx.symm.trans hd) (by simp)
    · exact hsame _ _ (h.dec.imp_right fun hs => ⟨hs.1, _, rfl⟩)
    · exact hsame _ _ h.dec

theorem sound_recvIbMesg {s : Encryptor X} (h : Sound c key s) (len : ℤ) :
    Sound c key (recvIbMesg s len).2 := by
  unfold recvIbMesg
  split
  · split
    · exact h
    · split
      · exact sound_dropEncoder h
      · dsimp only
        split
        · exact ⟨h.cipher, h.key, by simp, h.ctxEnc, Or.inl rfl⟩
        · exact h
  · exact h

theorem sound_decryptBuf {s : Encryptor X} (h : Sound c key s) (env : EncEnv) (f : Span) :
    Sound c key (decryptBuf env s f).1 := by
  have hmsg := sound_recvMsg h env f
  simp only [decryptBuf]
  split
  · exact hmsg
  · exact sound_recvIbMesg (sound_decUpdate hmsg env _ _ _) _

/-- The decoder takes a packet for its own only where it is: the vector in front
is one, and a text that begins like the in-band block was made with a context in
step with its own. -/
structure NotFooled (c : Cipher) (s : Encryptor X) (p : Packet X) (mem : List Byte) : Prop where
  ivec : s.decState = .init → (sidebandHead s mem).take 4 = lit "ivec" → p.made = .fresh
  inBand : ∀ d, s.decState = .sequence → s.ctxDec = some (.chained d) →
    let head := (store s.decBuf (X.decUpdate d p.bytes).1).take 4
    head = lit "seq#" ∨ head = lit "rsyn" → ∃ e, p.made = .carried e ∧ CtxInStep X c e d

/-- A packet with a new vector opens the context its text was made with. -/
theorem decryptBuf_made_fresh {s : Encryptor X} (hX : ChainedCipher X c key)
    (h : Sound c key s) (hs : s.decState = .init) {m bytes : List Byte}
    (hmade : MadeFrom (X := X) c key m bytes .fresh) (env : EncEnv) (tail : List Byte) :
    Returned (decryptBuf env s ⟨bytes.length, bytes ++ tail⟩).2 m := by
  obtain rfl := h.cipher
  obtain rfl := h.key
  obtain ⟨iv, fill, text, hiv, hfill, htext, rfl⟩ := hmade
  have hstep := hX.inStep iv hiv
  have hsize := (hX.keepsLength iv hiv).one htext.whole
  have hbound := htext.length_le
  set t := (X.encUpdate (X.encInit s.cipher s.key iv) text).1 with ht
  have hne : t ≠ [] := by
    intro h0
    rw [h0, List.length_nil] at hsize
    omega
  have hfresh := decryptBuf_fresh hX.sideband hs hiv hfill env t tail
  dsimp only at hfresh
  rw [hfresh]
  exact (decryptBuf_seq (s := s.opened iv) rfl rfl env hne (hstep.decode htext.whole) htext tail).2

/-- A packet of the decoder's own context decrypts to what it was made from. -/
theorem decryptBuf_made_carried {s : Encryptor X} (h : Sound c key s) (hs : s.decState = .sequence)
    {e : X.Enc} {d : X.Dec} (hd : s.ctxDec = some (.chained d)) (hstep : CtxInStep X c e d)
    {m bytes : List Byte} (hne : bytes ≠ []) (hmade : MadeFrom c key m bytes (.carried e))
    (env : EncEnv) (tail : List Byte) :
    Returned (decryptBuf env s ⟨bytes.length, bytes ++ tail⟩).2 m := by
  obtain rfl := h.cipher
  obtain ⟨tag, text, htag, htext, -, rfl⟩ := hmade
  have hback := hstep.decode htext.whole
  rcases htag with rfl | rfl
  · exact (decryptBuf_seq hs hd env hne hback htext tail).2
  · exact (decryptBuf_rsyn hs hd env hne hback htext tail).2

/-- **The decoder returns the frame of a genuine packet, or nothing.** -/
theorem decryptBuf_genuine {s : Encryptor X} (hX : ChainedCipher X c key) (h : Sound c key s)
    {p : Packet X} {m : List Byte} (hp : Genuine c key p m) (tail : List Byte)
    (hok : NotFooled c s p (p.bytes ++ tail)) (env : EncEnv) :
    let out := (decryptBuf env s ⟨p.len, p.bytes ++ tail⟩).2
    out.len = 0 ∨ Returned out m := by
  obtain ⟨hlen, hpos, -, -, hmade⟩ := hp
  have hne : p.bytes ≠ [] := by
    intro h0
    rw [hlen, h0, List.length_nil] at hpos
    omega
  dsimp only
  rw [hlen]
  rcases h.dec with hs | ⟨hs, d, hd⟩
  -- Without a context only a new vector is listened to.
  · by_cases hhead : (sidebandHead s (p.bytes ++ tail)).take 4 = lit "ivec"
    · rw [hok.ivec hs hhead] at hmade
      exact Or.inr (decryptBuf_made_fresh hX h hs hmade env tail)
    · rw [decryptBuf, recvMsg_gibberish hs hhead]
      exact Or.inl rfl
  · set s' := s.decrypted (X.decUpdate d p.bytes).2 (X.decUpdate d p.bytes).1 with hs'
    by_cases hhead : s'.decBuf.take 4 = lit "seq#" ∨ s'.decBuf.take 4 = lit "rsyn"
    · obtain ⟨e, hcarried, hstep⟩ := hok.inBand d hs hd hhead
      rw [hcarried] at hmade
      exact Or.inr (decryptBuf_made_carried h hs hd hstep hne hmade env tail)
    · -- neither tag: `recv_ib_mesg` leaves nothing of the text
      obtain ⟨hseq, hrsyn⟩ := not_or.mp hhead
      have hopen := decryptBuf_open hs hd env hne tail
      have hother := recvIbMesg_other (s := s') hs hseq hrsyn (X.decUpdate d p.bytes).1.length
      dsimp only at hopen
      rw [hopen, ← hs', hother, takePadding, if_pos rfl]
      exact Or.inl rfl

/-! ### One part -/

/-- The decoder that reads the next packet is not fooled by it. -/
def StaysTrue (c : Cipher) (t : Tunnel X) : TunnelEv → Prop
  | .part a inp => ∀ dev p, (t.peer a).pc = .net true dev → (t.flight a.other).head? = some p →
      frameFlags p.len = 0 → NotFooled c (t.peer a).link.mods p (store inp.buf p.bytes)
  | .lose _ => True

/-- The invariant of a tunnel. -/
structure TunnelOk (c : Cipher) (key : List Byte) (t : Tunnel X) : Prop where
  sound : ∀ a, Sound c key (t.peer a).link.mods
  tracks : ∀ a, Lossy.Tracks (Carries c key) ((t.down a).map Prod.snd) (t.written a.other)
    (t.flight a)
  filler : ∀ a m, (Origin.filler, m) ∈ t.down a → m.length = 1
  read : ∀ a, ((t.down a).filter fun d => d.1 = .device).map Prod.snd = t.read a

/-- Clearing `send_a_packet` changes nothing about the packets. -/
theorem sound_packetSent {s s' : Encryptor X} (h : Sound c key s)
    (hs : s' = s ∨ s' = { s with sendAPacket := false }) :
    Sound c key s' ∧ s'.makes = s.makes := by
  rcases hs with rfl | rfl
  · exact ⟨h, rfl⟩
  · exact ⟨⟨h.cipher, h.key, h.encState, h.ctxEnc, h.dec⟩, rfl⟩

theorem given_zero {α : Type} {out : Span} (h : out.len = 0) (a : α) : given out a = [] := by
  rw [given, if_pos (Or.inr h)]

theorem given_pos {α : Type} {out : Span} (h : 0 < out.len) (a : α) : given out a = [a] := by
  rw [given, if_neg (by omega)]

theorem Genuine.flags {p : Packet X} {m : List Byte} (h : Genuine c key p m) :
    frameFlags p.len = 0 ∧ frameLen p.len = p.len := by
  have hshort := h.short
  rw [frameFlags_eq (by omega), frameLen_eq, Nat.div_eq_of_lt hshort, Nat.mod_eq_of_lt hshort]
  exact ⟨rfl, rfl⟩

section Part

variable {pc : LinkPc} {s : Encryptor X} {packet : Option (Packet X)} {inp : PartIn}
  {out : PartOut X} {handed written : List (List Byte)} {flight : List (Packet X)}

theorem PartCase.sound (hX : ChainedCipher X c key) (hfit : HeaderFits pf c)
    (hcase : PartCase pf pc s packet inp out) (h : Sound c key s) : Sound c key out.mods := by
  cases hcase with
  | quiet => exact h
  | echo => exact h
  | taken => exact h
  | up p hp hpc hflags r hr =>
    rw [hr]
    exact sound_decryptBuf h inp.env _
  | down s' f hs hne hlen hfiller r hr =>
    obtain ⟨bytes, -, -, hsound⟩ :=
      encryptBuf_genuine hX hfit (sound_packetSent h hs).1 inp.env hne hlen
    rw [hr]
    exact hsound

/-- The frames one end hands down, and its packets. -/
theorem PartCase.sends (hX : ChainedCipher X c key) (hfit : HeaderFits pf c)
    (hcase : PartCase pf pc s packet inp out) (h : Sound c key s)
    (ht : Lossy.Tracks (Carries c key) handed written flight) :
    Lossy.Tracks (Carries c key) (handed ++ out.handed) written
      (flight ++ out.sent.map (packetOf s.makes)) := by
  have hnone : ∀ call : List Byte × ℕ, call.2 = echoReq ∨ call.2 = echoRep →
      Lossy.Tracks (Carries c key) (handed ++ []) written
        (flight ++ [call].map (packetOf s.makes)) := by
    intro call hcall
    exact ht.send (b := packetOf s.makes call) (o := none) hcall
  cases hcase with
  | quiet => simpa using ht
  | echo buf => exact hnone (buf, echoReq) (Or.inl rfl)
  | taken sent hsent =>
    rcases hsent with rfl | ⟨buf, rfl⟩
    · simpa using ht
    · exact hnone (buf, echoRep) (Or.inr rfl)
  | up => simpa using ht
  | down s' f hs hne hlen hfiller r hr =>
    obtain ⟨h', hmakes⟩ := sound_packetSent h hs
    obtain ⟨bytes, hout, hgen, -⟩ := encryptBuf_genuine hX hfit h' inp.env hne hlen
    rw [hmakes] at hgen
    have hpos : 0 < bytes.length := hgen.pos
    have hpacket : packetOf s.makes (bytes, bytes.length) = ⟨bytes.length, bytes, s.makes⟩ := by
      obtain ⟨hflags, hsize⟩ := hgen.flags
      dsimp only at hflags hsize
      simp only [packetOf, hflags, hsize, if_pos, List.take_length]
    have hgiven : given r.2 (r.2.mem, r.2.len.toNat) = [(bytes, bytes.length)] := by
      rw [hr, hout, given_pos (by dsimp only; omega), Int.toNat_natCast]
    rw [hgiven, List.map_singleton, hpacket]
    exact ht.send (o := some f.frame) hgen

/-- The packets one end takes, and the frames for its device. -/
theorem PartCase.receives (hX : ChainedCipher X c key)
    (hcase : PartCase pf pc s flight.head? inp out) (h : Sound c key s)
    (hok : ∀ dev p, pc = .net true dev → flight.head? = some p → frameFlags p.len = 0 →
      NotFooled c s p (store inp.buf p.bytes))
    (ht : Lossy.Tracks (Carries c key) handed written flight) :
    Lossy.Tracks (Carries c key) handed (written ++ out.wrote) (flight.drop out.taken) := by
  cases hcase with
  | quiet => simpa using ht
  | echo => simpa using ht
  | down => simpa using ht
  | taken =>
    cases flight with
    | nil => simpa using ht
    | cons p rest => simpa using ht.lose
  | up p hp hpc hflags r hr =>
    cases flight with
    | nil => exact absurd hp (by simp)
    | cons p' rest =>
      obtain rfl : p' = p := by simpa using hp
      obtain ⟨o, hcarries, hlost, hcame⟩ := ht.deliver
      cases o with
      | none =>
        -- an echo is never handed up
        rcases hcarries with hreq | hrep
        · exact absurd (by rw [hreq]; rfl) hflags.1
        · exact absurd (by rw [hrep]; rfl) hflags.2
      | some m =>
        have hgen : Genuine c key p' m := hcarries
        obtain ⟨hzero, hsize⟩ := hgen.flags
        obtain ⟨dev, hdev⟩ := hpc
        have hback := decryptBuf_genuine hX h hgen (inp.buf.drop p'.bytes.length)
          (hok dev p' hdev rfl hzero) inp.env
        rw [hsize] at hr
        dsimp only at hback
        change (decryptBuf inp.env s ⟨p'.len, store inp.buf p'.bytes⟩).2.len = 0 ∨
          Returned (decryptBuf inp.env s ⟨p'.len, store inp.buf p'.bytes⟩).2 m at hback
        rw [← hr] at hback
        rcases hback with hnothing | ⟨hlen, hframe⟩
        · rw [given_zero hnothing]
          simpa using hlost
        · have hpos : 0 < r.2.len := by
            rw [hlen]
            exact_mod_cast List.length_pos_iff.mpr hgen.frame
          rw [given_pos hpos, hframe]
          simpa using hcame m rfl

theorem PartCase.filler (hcase : PartCase pf pc s packet inp out) (hpc : pc.origin = .filler)
    {m : List Byte} (hm : m ∈ out.handed) : m.length = 1 := by
  cases hcase with
  | quiet => exact absurd hm List.not_mem_nil
  | echo => exact absurd hm List.not_mem_nil
  | taken => exact absurd hm List.not_mem_nil
  | up => exact absurd hm List.not_mem_nil
  | down s' f hs hne hlen hfiller =>
    rw [List.mem_singleton.mp hm]
    exact hfiller hpc

theorem PartCase.read_eq (hcase : PartCase pf pc s packet inp out) :
    out.read = if pc.origin = .device then out.handed else [] := by
  cases hcase <;> simp

end Part

/-! ### Runs -/

theorem tunnelOk_advance (hX : ChainedCipher X c key) (hfit : HeaderFits pf c) {t : Tunnel X}
    (h : TunnelOk c key t) {a : Side} {inp : PartIn} {peer : Peer X} {out : PartOut X}
    (hcase : PartCase pf (t.peer a).pc (t.peer a).link.mods (t.flight a.other).head? inp out)
    (hmods : peer.link.mods = out.mods)
    (hok : StaysTrue c t (.part a inp)) : TunnelOk c key (t.advance a peer out) := by
  have hne : a ≠ a.other := (Side.other_ne a).symm
  have hhanded : ((out.handed.map fun m => ((t.peer a).pc.origin, m)).map Prod.snd) =
      out.handed := by
    rw [List.map_map]
    exact List.map_id _
  -- For each part of the invariant: the end that has moved, and the other one.
  constructor
  · intro b
    rcases Side.eq_or_eq_other a b with rfl | rfl
    · simpa [Tunnel.advance, hmods] using hcase.sound hX hfit (h.sound b)
    · simpa [Tunnel.advance] using h.sound a.other
  · intro b
    rcases Side.eq_or_eq_other a b with rfl | rfl
    · have hsends := hcase.sends hX hfit (h.sound b) (h.tracks b)
      simpa [Tunnel.advance, hhanded] using hsends
    · have hrecv := hcase.receives hX (h.sound a) hok (by simpa using h.tracks a.other)
      simpa [Tunnel.advance] using hrecv
  · intro b m hm
    rcases Side.eq_or_eq_other a b with rfl | rfl
    · simp only [Tunnel.advance, Function.update_self, List.mem_append, List.mem_map] at hm
      rcases hm with hold | ⟨m', hm', heq⟩
      · exact h.filler b m hold
      · obtain ⟨horigin, rfl⟩ := Prod.mk.inj heq
        exact hcase.filler horigin hm'
    · exact h.filler a.other m (by simpa [Tunnel.advance] using hm)
  · intro b
    rcases Side.eq_or_eq_other a b with rfl | rfl
    · simp only [Tunnel.advance, Function.update_self, List.filter_append, List.map_append,
        h.read b, hcase.read_eq]
      congr 1
      by_cases horigin : (t.peer b).pc.origin = .device
      · rw [if_pos horigin, List.filter_eq_self.mpr (by simp [horigin])]
        exact hhanded
      · rw [if_neg horigin, List.filter_eq_nil_iff.mpr (by simp [horigin]), List.map_nil]
    · simpa [Tunnel.advance] using h.read a.other

theorem tunnelOk_lose {t : Tunnel X} (h : TunnelOk c key t) {a : Side} {p : Packet X}
    {rest : List (Packet X)} (hflight : t.flight a = p :: rest) :
    TunnelOk c key { t with flight := Function.update t.flight a rest } := by
  refine ⟨h.sound, ?_, h.filler, h.read⟩
  intro b
  rcases Side.eq_or_eq_other a b with rfl | rfl
  · have htracks := h.tracks b
    rw [hflight] at htracks
    simpa using htracks.lose
  · simpa using h.tracks a.other

theorem tunnelOk_step (hX : ChainedCipher X c key) (hfit : HeaderFits pf c)
    {kaMaxfail : Side → ℤ} (t : Tunnel X) (e : TunnelEv) (t' : Tunnel X) (h : TunnelOk c key t)
    (hok : StaysTrue c t e) (hs : tunnelStep pf kaMaxfail t e = some t') : TunnelOk c key t' := by
  cases e with
  | part a inp =>
    obtain rfl := Option.some.inj hs
    have hready : Ready (t.ready a inp) (t.peer a).link.mods (t.flight a.other).head? inp :=
      ⟨rfl, rfl, rfl, rfl⟩
    exact tunnelOk_advance hX hfit h (linkerPart_cases hready (t.peer a).pc) rfl hok
  | lose a =>
    rw [tunnelStep] at hs
    split at hs
    · exact absurd hs (by simp)
    · rename_i p rest hflight
      obtain rfl := Option.some.inj hs
      exact tunnelOk_lose h hflight

theorem tunnelOk_start {host : Side → VtunHost}
    (hcipher : ∀ a, Cipher.ofNumber (host a).cipher = c) (hmode : c.mode ≠ .ecb)
    (hkey : ∀ a, prepKey X c.keysize (host a).passwd = key) (natHack : Side → Bool)
    (seq : Side → UInt32) (buf : Side → List Byte) (packet : Side → Bool) :
    TunnelOk c key (tunnelStart X host natHack seq buf packet) := by
  refine ⟨fun a => ⟨hcipher a, ?_, ?_, ?_, Or.inl ?_⟩, ?_, ?_, fun a => rfl⟩
  · simp [tunnelStart, allocEncrypt, hcipher, hkey]
  · simp [tunnelStart, allocEncrypt, hcipher, hmode]
  · simp [tunnelStart, allocEncrypt, hcipher, hmode]
  · simp [tunnelStart, allocEncrypt, hcipher, hmode]
  · intro a
    simp only [tunnelStart]
    split
    · exact .nil
    · exact Lossy.Tracks.nil.send (o := none) (Or.inl rfl)
  · intro a m hm
    exact absurd hm List.not_mem_nil

/-- **Only frames that were handed down come out of a tunnel**, in every run of
two linkers whose decoders are never fooled.  The frames one end writes to its
device are, in order and byte for byte, among those the other end has handed to
`lfd_run_down`: the frames read from its device, and packets of one byte sent
because `send_a_packet` was set. -/
theorem tunnel_frames (pf : Platform) (host : Side → VtunHost)
    (hcipher : (host .server).cipher = (host .client).cipher)
    (hpasswd : (host .server).passwd = (host .client).passwd)
    (hmode : (Cipher.ofNumber (host .client).cipher).mode ≠ .ecb)
    (hfit : HeaderFits pf (Cipher.ofNumber (host .client).cipher))
    (hX : ChainedCipher X (Cipher.ofNumber (host .client).cipher)
      (prepKey X (Cipher.ofNumber (host .client).cipher).keysize (host .client).passwd))
    (kaMaxfail : Side → ℤ) (natHack : Side → Bool) (seq : Side → UInt32)
    (buf : Side → List Byte) (packet : Side → Bool) (es : List TunnelEv)
    (hok : Run.Meets (tunnelStep pf kaMaxfail)
      (StaysTrue (Cipher.ofNumber (host .client).cipher))
      (tunnelStart X host natHack seq buf packet) es)
    (t : Tunnel X)
    (hrun : Run.exec (tunnelStep pf kaMaxfail) (tunnelStart X host natHack seq buf packet) es =
      some t) (a : Side) :
    (∃ frames : List (Origin × List Byte), frames.Sublist (t.down a) ∧
        t.written a.other = frames.map Prod.snd) ∧
      ((t.down a).filter fun d => d.1 = .device).map Prod.snd = t.read a ∧
      ∀ m, (Origin.filler, m) ∈ t.down a → m.length = 1 := by
  have hsame := fun b => same_key (X := X) hcipher hpasswd
    (Cipher.ofNumber (host .client).cipher).keysize b
  have hstart := tunnelOk_start (X := X) (fun b => (hsame b).1) hmode (fun b => (hsame b).2)
    natHack seq buf packet
  have h := Run.exec_invariant (tunnelOk_step hX hfit) hstart hok hrun
  refine ⟨?_, h.read a, h.filler a⟩
  obtain ⟨frames, hsub, heq⟩ := List.sublist_map_iff.mp (h.tracks a).sublist
  exact ⟨frames, hsub, heq⟩

/-! ### A run with a loss -/

/-- The packet is new, or made with the byte the decoder holds, or not taken for
a new one. -/
def ownPacket (s : Encryptor shiftSsl) (p : Packet shiftSsl) (mem : List Byte) : Bool :=
  match s.decState, s.ctxDec, p.made with
  | .init, _, .fresh => true
  | .init, _, _ => (sidebandHead s mem).take 4 ≠ lit "ivec"
  | _, some (.chained d), .carried e => (show Byte from e) = (show Byte from d)
  | _, _, _ => false

/-- The next packet is the decoder's own. -/
def staysOwn (t : Tunnel shiftSsl) : TunnelEv → Bool
  | .part a inp =>
    match (t.peer a).pc, (t.flight a.other).head? with
    | .net true _, some p => ownPacket (t.peer a).link.mods p (store inp.buf p.bytes)
    | _, _ => true
  | .lose _ => true

theorem notFooled_of_own (c : Cipher) {s : Encryptor shiftSsl} {p : Packet shiftSsl}
    {mem : List Byte} (h : ownPacket s p mem = true) : NotFooled c s p mem := by
  constructor
  · intro hs hhead
    unfold ownPacket at h
    rw [hs] at h
    cases hmade : p.made with
    | fresh => rfl
    | control => simp [hmade, hhead] at h
    | carried e => simp [hmade, hhead] at h
    | dead => simp [hmade, hhead] at h
  · intro d hs hd _ _
    unfold ownPacket at h
    rw [hs, hd] at h
    cases hmade : p.made with
    | fresh => simp [hmade] at h
    | control => simp [hmade] at h
    | dead => simp [hmade] at h
    | carried e =>
      rw [hmade] at h
      have heq : (show Byte from e) = (show Byte from d) := of_decide_eq_true h
      obtain rfl : e = d := heq
      exact ⟨e, rfl, fun as _ => (runAll_shiftSsl e as).1⟩

theorem staysTrue_of_own (c : Cipher) (t : Tunnel shiftSsl) (e : TunnelEv)
    (h : staysOwn t e = true) : StaysTrue c t e := by
  cases e with
  | part a inp =>
    intro dev p hpc hp _
    rw [staysOwn, hpc, hp] at h
    exact notFooled_of_own c h
  | lose a => trivial

/-- One turn gets a descriptor ready, and some bytes of the device. -/
def turnIn (net dev : Bool) (bytes : List Byte) : PartIn where
  buf := [3]
  buf_ne := by simp
  term := none
  select := .ready net dev
  alarm := false
  wrote := 0
  dev := .data bytes
  devOut := .done
  env := calmEnv

/-- Some parts of one turn. -/
def turn (n : ℕ) (a : Side) (net dev : Bool) (bytes : List Byte) : List TunnelEv :=
  List.replicate n (.part a (turnIn net dev bytes))

/-- The first packet of the client is lost; the server, which has sent one frame,
cannot understand the second, and asks for a resynchronisation. -/
def lossyRun : List TunnelEv :=
  turn 4 .server false true [7] ++ turn 4 .client true true [5] ++ [.lose .client] ++
    turn 4 .client false true [6] ++ turn 4 .server true false [] ++
    turn 2 .server false false [] ++ turn 3 .client true false []

/-- Two ends with AES 128 CBC. -/
def cbcTunnel : Tunnel shiftSsl :=
  tunnelStart shiftSsl (fun _ => sampleHost 10) (fun _ => true) (fun _ => 0) (fun _ => [])
    (fun _ => false)

theorem lossyRun_staysTrue (c : Cipher) :
    Run.Meets (tunnelStep .lp64 fun _ => 3) (StaysTrue c) cbcTunnel lossyRun := by
  have hown : Run.Meets (tunnelStep .lp64 fun _ => 3) (fun t e => staysOwn t e = true) cbcTunnel
      lossyRun := by
    decide
  exact hown.mono (staysTrue_of_own c)

theorem tunnel_frames_lossy :
    ∃ t : Tunnel shiftSsl,
      Run.exec (tunnelStep .lp64 fun _ => 3) cbcTunnel lossyRun = some t ∧
      (∃ frames : List (Origin × List Byte), frames.Sublist (t.down .server) ∧
        t.written .client = frames.map Prod.snd) ∧
      ((t.down .server).filter fun d => d.1 = .device).map Prod.snd = t.read .server ∧
      ∀ m, (Origin.filler, m) ∈ t.down .server → m.length = 1 :=
  ⟨_, rfl, tunnel_frames .lp64 (fun _ => sampleHost 10) rfl rfl (by decide)
    (headerFits_aes .lp64 rfl) (chainedCipher_shiftSsl _ _) (fun _ => 3) (fun _ => true)
    (fun _ => 0) (fun _ => [])
    (fun _ => false) lossyRun (lossyRun_staysTrue _) _ rfl .server⟩

/-- The byte of the packet that asks for the resynchronisation is written to the
client's device, though the server has not read it from its own. -/
theorem filler_written :
    ¬ ∀ (pf : Platform) (X : OpenSsl) (host : Side → VtunHost) (kaMaxfail : Side → ℤ)
        (natHack : Side → Bool) (seq : Side → UInt32) (buf : Side → List Byte)
        (packet : Side → Bool) (es : List TunnelEv) (t : Tunnel X) (a : Side),
      (host .server).cipher = (host .client).cipher →
      (host .server).passwd = (host .client).passwd →
      (Cipher.ofNumber (host .client).cipher).mode ≠ .ecb →
      HeaderFits pf (Cipher.ofNumber (host .client).cipher) →
      (∀ c key, ChainedCipher X c key) →
      Run.Meets (tunnelStep pf kaMaxfail) (StaysTrue (Cipher.ofNumber (host .client).cipher))
        (tunnelStart X host natHack seq buf packet) es →
      Run.exec (tunnelStep pf kaMaxfail) (tunnelStart X host natHack seq buf packet) es =
        some t →
      (t.written a.other).Sublist (t.read a) := by
  intro hall
  have hrun : (Run.exec (tunnelStep .lp64 fun _ => 3) cbcTunnel lossyRun).map
      (fun t => (t.written .client, t.read .server)) = some ([[7], [3]], [[7]]) := by
    decide
  obtain ⟨t, ht, hlogs⟩ := Option.map_eq_some_iff.mp hrun
  have hsub := hall .lp64 shiftSsl (fun _ => sampleHost 10) (fun _ => 3) (fun _ => true)
    (fun _ => 0) (fun _ => []) (fun _ => false) lossyRun t .server rfl rfl (by decide)
    (headerFits_aes .lp64 rfl) chainedCipher_shiftSsl (lossyRun_staysTrue _) ht
  obtain ⟨hwritten, hread⟩ := Prod.mk.inj hlogs
  have hlen := hsub.length_le
  rw [hread] at hlen
  change (t.written .client).length ≤ _ at hlen
  rw [hwritten] at hlen
  exact absurd hlen (by decide)

end Vtun
