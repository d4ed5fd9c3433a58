/-
The lifetimes of the cipher contexts (`lfd_encrypt.c`).

The encryptor never updates a context that is not initialised, as long as no
call of `decrypt_buf` forces the encoder out of `CIPHER_INIT` by asking for a
resynchronisation: `recv_msg` does so for the first unintelligible frame without
looking whether the encoder has a context at all, where `recv_ib_mesg` does look.

* `Alive` — the invariant: the states of the encryptor tell which contexts live;
* `alive_encryptBuf`, `alive_decryptBuf` — both callbacks keep it;
* `contexts_live` — it holds in every run without such a call;
* `dead_context_used` — with one, an update meets a dead context.
-/
import Vtun.Encrypt
import Vtun.Lib.Run

namespace Vtun

variable {X : OpenSsl}

/-! ### Calls on one context -/

/-- Whether a context is initialised after some calls. -/
def liveAfter (ops : List CtxOp) : Bool :=
  ops.foldl (fun live op =>
    match op with
    | .init => true
    | .update => live
    | .cleanup => false) false

/-- Every update comes when the context is initialised. -/
def UpdatesLive (ops : List CtxOp) : Prop :=
  ∀ pre post, ops = pre ++ .update :: post → liveAfter pre = true

/-- The calls are in order, and `live` is the state they leave. -/
structure OpsOk (ops : List CtxOp) (live : Bool) : Prop where
  after : liveAfter ops = live
  updates : UpdatesLive ops

theorem liveAfter_snoc (ops : List CtxOp) (op : CtxOp) :
    liveAfter (ops ++ [op]) = match op with
      | .init => true
      | .update => liveAfter ops
      | .cleanup => false := by
  rw [liveAfter, List.foldl_append]
  rfl

theorem opsOk_nil : OpsOk [] false := by
  refine ⟨rfl, ?_⟩
  intro pre post h
  simp at h

theorem UpdatesLive.snoc {ops : List CtxOp} {op : CtxOp} (h : UpdatesLive ops)
    (hop : op = .update → liveAfter ops = true) : UpdatesLive (ops ++ [op]) := by
  intro pre post heq
  rcases List.eq_nil_or_concat post with rfl | ⟨post', op', rfl⟩
  · -- the update is the last call
    obtain ⟨rfl, hlast⟩ := List.append_inj' heq rfl
    exact hop (List.cons.inj hlast).1
  · have hshift : ops ++ [op] = (pre ++ .update :: post') ++ [op'] := by simpa using heq
    exact h pre post' (List.append_inj' hshift rfl).1

theorem OpsOk.init {ops : List CtxOp} {live : Bool} (h : OpsOk ops live) :
    OpsOk (ops ++ [.init]) true :=
  ⟨liveAfter_snoc ops .init, h.updates.snoc (by simp)⟩

theorem OpsOk.cleanup {ops : List CtxOp} {live : Bool} (h : OpsOk ops live) :
    OpsOk (ops ++ [.cleanup]) false :=
  ⟨liveAfter_snoc ops .cleanup, h.updates.snoc (by simp)⟩

theorem OpsOk.update {ops : List CtxOp} (h : OpsOk ops true) : OpsOk (ops ++ [.update]) true :=
  ⟨(liveAfter_snoc ops .update).trans h.after, h.updates.snoc fun _ => h.after⟩

/-! ### The invariant -/

/-- The part of the invariant that does not depend on the encoder's state. -/
structure AliveDec (s : Encryptor X) : Prop where
  encOps : OpsOk s.encOps s.ctxEnc.isSome
  decOps : OpsOk s.decOps s.ctxDec.isSome
  decLive : s.decState = .sequence → s.ctxDec.isSome = true
  decChained : s.decState = .init ∨ s.decState = .sequence

/-- The states of an encryptor in a chained mode tell which contexts live. -/
structure Alive (s : Encryptor X) : Prop extends AliveDec s where
  encLive : s.encState = .sequence ∨ s.encState = .reqInit → s.ctxEnc.isSome = true
  encChained : s.encState ≠ .code

theorem alive_allocEncrypt {host : VtunHost} (hmode : (Cipher.ofNumber host.cipher).mode ≠ .ecb)
    (seq : UInt32) (buf : List Byte) (packet : Bool) :
    Alive (allocEncrypt X host seq buf packet) := by
  refine ⟨⟨?_, ?_, ?_, ?_⟩, ?_, ?_⟩ <;> simp [allocEncrypt, hmode, opsOk_nil]

theorem Alive.encLive_of_ne {s : Encryptor X} (h : Alive s) (hinit : s.encState ≠ .init) :
    s.ctxEnc.isSome = true := by
  have hcode := h.encChained
  cases hs : s.encState with
  | init => exact absurd hs hinit
  | code => exact absurd hs hcode
  | sequence => exact h.encLive (Or.inl hs)
  | reqInit => exact h.encLive (Or.inr hs)

/-- Whatever state it was in, an encoder put back into `CIPHER_INIT` is in order. -/
theorem alive_dropEncoder {s : Encryptor X} (h : AliveDec s) : Alive s.dropEncoder := by
  unfold Encryptor.dropEncoder
  split
  -- `AliveDec` suffices: what the encoder's state promised before is not asked for.
  · exact ⟨⟨h.encOps.cleanup, h.decOps, h.decLive, h.decChained⟩, by simp, by simp⟩
  · rename_i hinit
    have hinit : s.encState = .init := not_not.mp hinit
    exact ⟨h, by simp [hinit], by simp [hinit]⟩

/-- After `send_msg` the encoder has a context. -/
theorem alive_sendMsg {s : Encryptor X} (h : Alive s) (env : EncEnv) :
    Alive (sendMsg env s).2 ∧ (sendMsg env s).2.ctxEnc.isSome = true := by
  unfold sendMsg
  split
  · exact ⟨⟨⟨h.encOps.init, h.decOps, h.decLive, h.decChained⟩, fun _ => rfl, by simp⟩, rfl⟩
  · rename_i hstate
    exact ⟨h, h.encLive_of_ne hstate⟩

theorem alive_sendIbMesg {s : Encryptor X} (h : Alive s) (pf : Platform) (frame : List Byte) :
    Alive (sendIbMesg pf s frame).2 ∧ (sendIbMesg pf s frame).2.ctxEnc = s.ctxEnc := by
  unfold sendIbMesg
  split
  · exact ⟨h, rfl⟩
  · rename_i hstate
    exact ⟨⟨⟨h.encOps, h.decOps, h.decLive, h.decChained⟩, fun _ => h.encLive (Or.inr hstate),
      by simp⟩, rfl⟩
  · exact ⟨h, rfl⟩

theorem alive_encUpdate {s : Encryptor X} (h : Alive s) (hctx : s.ctxEnc.isSome = true)
    (env : EncEnv) (input : List Byte) : Alive (s.encUpdate env input).2 := by
  have hops : OpsOk (s.encOps ++ [.update]) true := by
    have hok := h.encOps
    rw [hctx] at hok
    exact hok.update
  unfold Encryptor.encUpdate
  dsimp only
  split
  · exact ⟨⟨hops, h.decOps, h.decLive, h.decChained⟩, fun _ => rfl, h.encChained⟩
  · exact ⟨⟨hops, h.decOps, h.decLive, h.decChained⟩, fun _ => rfl, h.encChained⟩
  · rename_i hnone
    simp [hnone] at hctx

/-- **`encrypt_buf` keeps the invariant**, for every frame. -/
theorem alive_encryptBuf {s : Encryptor X} (h : Alive s) (pf : Platform) (env : EncEnv)
    (f : Span) : Alive (encryptBuf pf env s f).1 := by
  obtain ⟨hmsg, hctx⟩ := alive_sendMsg h env
  obtain ⟨hib, hkeep⟩ := alive_sendIbMesg hmsg pf f.frame
  unfold encryptBuf
  dsimp only
  split
  · exact hib
  · have hupd := alive_encUpdate hib (by rw [hkeep, hctx]) env
      ((sendIbMesg pf (sendMsg env s).2 f.frame).1 ++
        padding env (sendIbMesg pf (sendMsg env s).2 f.frame).2.blocksize
          (sendIbMesg pf (sendMsg env s).2 f.frame).1.length)
    exact ⟨⟨hupd.encOps, hupd.decOps, hupd.decLive, hupd.decChained⟩, hupd.encLive,
      hupd.encChained⟩

/-- A frame on which `recv_msg` finds no initialisation vector. -/
def Unintelligible (s : Encryptor X) (f : Span) : Prop :=
  (Blocks.mapBlocks (X.blkDec s.cipher.algo s.key) s.blocksize
    (f.mem.take (s.blocksize * 2))).take 4 ≠ lit "ivec"

/-- The call forces an encoder without a context out of `CIPHER_INIT`: the first
unintelligible frame comes while neither direction is initialised, and the time
threshold does not put the encoder back. -/
def ForcesInit (env : EncEnv) (s : Encryptor X) (f : Span) : Prop :=
  s.decState = .init ∧ Unintelligible s f ∧ s.gibberish = 0 ∧ s.encState = .init ∧
    env.time₂ - env.time₁ < maxGibberishTime

theorem alive_countGibberish {s : Encryptor X} (h : Alive s) {env : EncEnv}
    (hok : ¬ (s.gibberish = 0 ∧ s.encState = .init ∧ env.time₂ - env.time₁ < maxGibberishTime)) :
    Alive (countGibberish env s) := by
  unfold countGibberish
  dsimp only
  by_cases hfirst : s.gibberish + 1 = 1
  · -- the first unintelligible frame: the encoder is to ask for a resynchronisation
    have hzero : s.gibberish = 0 := by omega
    have hmin : s.gibberish + 1 = minGibberish := hfirst
    rw [if_pos hfirst, if_pos hmin]
    split
    · exact alive_dropEncoder ⟨h.encOps, h.decOps, h.decLive, h.decChained⟩
    · rename_i hthreshold
      have htime : env.time₂ - env.time₁ < maxGibberishTime := by
        have := (not_or.mp hthreshold).2
        omega
      have hinit : s.encState ≠ .init := fun hi => hok ⟨hzero, hi, htime⟩
      have hlive := h.encLive_of_ne hinit
      exact ⟨⟨h.encOps, h.decOps, h.decLive, h.decChained⟩, fun _ => hlive, by simp⟩
  · have hmin : ¬ s.gibberish + 1 = minGibberish := hfirst
    rw [if_neg hfirst, if_neg hmin]
    split
    · exact alive_dropEncoder ⟨h.encOps, h.decOps, h.decLive, h.decChained⟩
    · exact ⟨⟨h.encOps, h.decOps, h.decLive, h.decChained⟩, h.encLive, h.encChained⟩

/-- After `recv_msg` there is a context for whatever is left of the frame. -/
theorem alive_recvMsg {s : Encryptor X} (h : Alive s) {env : EncEnv} {f : Span}
    (hok : ¬ ForcesInit env s f) :
    Alive (recvMsg env s f).2 ∧
      ((recvMsg env s f).1.len ≠ 0 → (recvMsg env s f).2.ctxDec.isSome = true) := by
  unfold recvMsg
  dsimp only
  split
  · rename_i hinit
    split
    · refine ⟨⟨⟨h.encOps, h.decOps.init, fun _ => rfl, Or.inr rfl⟩, h.encLive, h.encChained⟩, ?_⟩
      exact fun _ => rfl
    · rename_i hhead
      refine ⟨alive_countGibberish h ?_, fun hne => absurd rfl hne⟩
      rintro ⟨hzero, henc, htime⟩
      exact hok ⟨hinit, hhead, hzero, henc, htime⟩
  · rename_i hinit
    exact ⟨h, fun _ => h.decLive (h.decChained.resolve_left hinit)⟩

theorem alive_decUpdate {s : Encryptor X} (h : Alive s) (hctx : s.ctxDec.isSome = true)
    (env : EncEnv) (len : ℤ) (mem : List Byte) : Alive (s.decUpdate env len mem).2 := by
  have hops : OpsOk (s.decOps ++ [.update]) true := by
    have hok := h.decOps
    rw [hctx] at hok
    exact hok.update
  unfold Encryptor.decUpdate
  dsimp only
  split
  · exact ⟨⟨h.encOps, by rw [hctx]; exact hops, h.decLive, h.decChained⟩, h.encLive,
      h.encChained⟩
  split
  · exact ⟨⟨h.encOps, hops, fun _ => rfl, h.decChained⟩, h.encLive, h.encChained⟩
  · exact ⟨⟨h.encOps, hops, fun _ => rfl, h.decChained⟩, h.encLive, h.encChained⟩
  · rename_i hnone
    simp [hnone] at hctx

theorem alive_recvIbMesg {s : Encryptor X} (h : Alive s) (len : ℤ) :
    Alive (recvIbMesg s len).2 := by
  unfold recvIbMesg
  split
  · split
    · exact h
    · split
      · exact alive_dropEncoder h.toAliveDec
      · dsimp only
        split
        · rename_i hstate
          -- only an encoder with a context is told to ask for a resynchronisation
          have hlive := h.encLive_of_ne hstate.2
          exact ⟨⟨h.encOps, h.decOps.cleanup, by simp, Or.inl rfl⟩, fun _ => hlive, by simp⟩
        · exact h
  · exact h

/-- **`decrypt_buf` keeps the invariant**, unless it forces the encoder out of
`CIPHER_INIT`. -/
theorem alive_decryptBuf {s : Encryptor X} (h : Alive s) {env : EncEnv} {f : Span}
    (hok : ¬ ForcesInit env s f) : Alive (decryptBuf env s f).1 := by
  obtain ⟨hmsg, hctx⟩ := alive_recvMsg h hok
  unfold decryptBuf
  dsimp only
  split
  · exact hmsg
  · rename_i hlen
    have hupd := alive_decUpdate hmsg (hctx hlen) env (recvMsg env s f).1.len
      (recvMsg env s f).1.mem
    have hbuf : ∀ buf, Alive { ((recvMsg env s f).2.decUpdate env (recvMsg env s f).1.len
        (recvMsg env s f).1.mem).2 with decBuf := buf } := fun buf =>
      ⟨⟨hupd.encOps, hupd.decOps, hupd.decLive, hupd.decChained⟩, hupd.encLive, hupd.encChained⟩
    exact alive_recvIbMesg (hbuf _) _

/-! ### Runs -/

/-- A call of one of the callbacks, with a frame and what the system provides. -/
inductive CryptEv
  | encrypt (env : EncEnv) (f : Span)
  | decrypt (env : EncEnv) (f : Span)

/-- One call. -/
def cryptStep (pf : Platform) (s : Encryptor X) : CryptEv → Option (Encryptor X)
  | .encrypt env f => some (encryptBuf pf env s f).1
  | .decrypt env f => some (decryptBuf env s f).1

/-- The call does not force the encoder out of `CIPHER_INIT`. -/
def KeepsInit (s : Encryptor X) : CryptEv → Prop
  | .encrypt _ _ => True
  | .decrypt env f => ¬ ForcesInit env s f

/-- **Contexts are never used uninitialised** in a run without a call that forces
the encoder out of `CIPHER_INIT`, and the states of the encryptor tell which
contexts live. -/
theorem contexts_live (pf : Platform) (X : OpenSsl) (host : VtunHost)
    (hmode : (Cipher.ofNumber host.cipher).mode ≠ .ecb) (seq : UInt32) (buf : List Byte)
    (packet : Bool) (es : List CryptEv)
    (hok : Run.Meets (cryptStep pf) KeepsInit (allocEncrypt X host seq buf packet) es)
    (s : Encryptor X)
    (hrun : Run.exec (cryptStep pf) (allocEncrypt X host seq buf packet) es = some s) :
    UpdatesLive s.encOps ∧ UpdatesLive s.decOps ∧
      (s.encState = .sequence ∨ s.encState = .reqInit → liveAfter s.encOps = true) ∧
      (s.decState = .sequence → liveAfter s.decOps = true) := by
  -- One call keeps `Alive`; the run lemma carries it from `alloc_encrypt` on.
  have hstep : ∀ (s : Encryptor X) e s', Alive s → KeepsInit s e → cryptStep pf s e = some s' →
      Alive s' := by
    intro s e s' h hkeep hs'
    cases e with
    | encrypt env f =>
      obtain rfl := Option.some.inj hs'
      exact alive_encryptBuf h pf env f
    | decrypt env f =>
      obtain rfl := Option.some.inj hs'
      exact alive_decryptBuf h hkeep
  have h : Alive s := Run.exec_invariant hstep (alive_allocEncrypt hmode seq buf packet) hok hrun
  refine ⟨h.encOps.updates, h.decOps.updates, ?_, ?_⟩
  · intro henc
    rw [h.encOps.after]
    exact h.encLive henc
  · intro hdec
    rw [h.decOps.after]
    exact h.decLive hdec

/-- A frame is sent before an unintelligible one comes: the encoder asks for a
resynchronisation with the context it has. -/
def answeredRun : List CryptEv :=
  [.encrypt calmEnv ⟨1, [5]⟩, .decrypt calmEnv ⟨48, List.replicate 48 9⟩,
    .encrypt calmEnv ⟨2, [5, 6]⟩]

theorem contexts_live_answered :
    ∃ s : Encryptor shiftSsl,
      Run.exec (cryptStep .lp64) (allocEncrypt shiftSsl (sampleHost 10) 0 [] false) answeredRun =
          some s ∧
        UpdatesLive s.encOps ∧ UpdatesLive s.decOps ∧
        (s.encState = .sequence ∨ s.encState = .reqInit → liveAfter s.encOps = true) ∧
        (s.decState = .sequence → liveAfter s.decOps = true) := by
  refine ⟨_, rfl, contexts_live .lp64 shiftSsl (sampleHost 10) (by decide) 0 [] false answeredRun
    ?_ _ rfl⟩
  refine ⟨trivial, ?_, trivial, trivial⟩
  rintro ⟨-, -, -, hinit, -⟩
  exact absurd hinit (by decide)

/-- The first frame of the other end is lost and the second comes before this end
has sent anything: the next frame is encrypted with a context that was never
initialised. -/
def forcedRun : List CryptEv :=
  [.decrypt calmEnv ⟨48, List.replicate 48 9⟩, .encrypt calmEnv ⟨1, [5]⟩]

theorem dead_context_used :
    ¬ ∀ (pf : Platform) (X : OpenSsl) (host : VtunHost) (seq : UInt32) (buf : List Byte)
        (packet : Bool) (es : List CryptEv) (s : Encryptor X),
      (Cipher.ofNumber host.cipher).mode ≠ .ecb →
      Run.exec (cryptStep pf) (allocEncrypt X host seq buf packet) es = some s →
      UpdatesLive s.encOps := by
  intro hall
  have hlive := hall .lp64 shiftSsl (sampleHost 10) 0 [] false forcedRun _ (by decide) rfl
  exact absurd (hlive [] [] rfl) (by decide)

end Vtun
