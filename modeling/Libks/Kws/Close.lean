import Libks.Tls.Close
import Libks.Kws.Handshake

/-!
# The TLS shutdown of a connection

The part of `kws_close` that shuts a TLS session down before the socket is
closed, one call to the TLS library at a time, as in `Libks.Tls.Close`. The
peer may not answer, and `n` counts up to `WS_SOFT_BLOCK / 10` then. But data
that `SSL_read` drains is not counted, nor is a close notification, behind which
`SSL_shutdown` is called again (`drains`): the calls are bounded if and only if
these answers are (`shutdown_bounded`), and a peer that keeps sending is never
closed (`shutdown_endless`).

The world of a connection holds a list of answers, and the loops of
`Libks.Kws.Handshake` take theirs from it: they are the runs of these calls in
that world (`closeTls_shutsDown`).
-/

namespace Libks

open Base

namespace Kws

/-- `end:`, where the socket is closed. -/
def closeEnd (k : Kws) : Kws := { k with sock := false }

/-- `kws_close` from its look at `kws->ssl` up to the first call to the TLS library. -/
def shutdownStart (k : Kws) : ClosePhase ⊕ Kws :=
  if ¬k.ssl ∨ ¬k.sock then .inr k.closeEnd
  else if ¬k.secureEstablished ∨ k.sslIoError then .inr k.closeEnd
  else .inl .sent

/-- `++n == block_n`, or on after a sleep. -/
def softBlock (k : Kws) (blockN n : ℕ) (phase : ℕ → ClosePhase) : ClosePhase ⊕ Kws :=
  if n + 1 = blockN then .inr k.closeEnd else .inl (phase (n + 1))

/-- What `kws_close` does with an answer of the TLS library. -/
def shutdownStep (k : Kws) (blockN : ℕ) : ClosePhase → TlsAnswer → ClosePhase ⊕ Kws
  | .sent, a => if a.isSet then .inr k.closeEnd else .inl .received
  | .received, a => if a.isSet then .inl .reply else .inl (.shutdown 0)
  | .reply, _ => .inr k.closeEnd
  | .shutdown n, a => .inl (.shutdownError a.result n)
  | .shutdownError code n, a =>
    if code ≤ 0 ∧ a.error = IoError.wantRead.code then .inl (.read n)
    else if code = 0 ∨ (code < 0 ∧ a.error = IoError.wantWrite.code) then
      k.softBlock blockN n .shutdown
    else .inr k.closeEnd
  -- What has been read is thrown away, and the next read follows at once.
  | .read n, a => if a.result ≤ 0 then .inl (.readError n) else .inl (.read n)
  | .readError n, a =>
    if a.error = IoError.zeroReturn.code then .inl (.shutdown n)
    else if a.error = IoError.syscall.code ∨ a.error = IoError.ssl.code then .inr k.closeEnd
    else if a.error = IoError.wantRead.code then k.softBlock blockN n .read
    else .inr k.closeEnd

/-- `kws_close` behind `n` calls to the TLS library, which answers with `o`. -/
def shutdown (k : Kws) (o : ℕ → TlsAnswer) (n : ℕ) : ClosePhase ⊕ Kws :=
  driven (k.shutdownStep (wsSoftBlock / 10).toNat) o k.shutdownStart n

end Kws

/-- The answers that `kws_close` does not count: data to drain, and the close
    notification of the peer. -/
def ClosePhase.drains : ClosePhase → TlsAnswer → Bool
  | read _, a => 0 < a.result
  | readError _, a => a.error = IoError.zeroReturn.code
  | _, _ => false

/-- How many of these the peer has sent when `kws_close` has made `n` calls. -/
def Kws.drained (k : Kws) (o : ℕ → TlsAnswer) (n : ℕ) : ℕ :=
  spent (k.shutdownStep (wsSoftBlock / 10).toNat) ClosePhase.drains o k.shutdownStart n

/-! ## The calls are bounded by what is drained -/

namespace ClosePhase

/-- The count of `kws_close`, which stays below its bound. -/
def Counts (blockN : ℕ) : ClosePhase → Prop
  | shutdown n | shutdownError _ n | read n | readError n => n < blockN
  | _ => True

/-- How many calls may still come before a count. -/
def patience (blockN : ℕ) : ClosePhase → ℕ
  | sent => 2 * blockN + 4
  | received => 2 * blockN + 3
  | reply => 0
  | shutdown n => 2 * (blockN - n) + 2
  | shutdownError _ n => 2 * (blockN - n) + 1
  | read n => 2 * (blockN - n)
  | readError n => 2 * (blockN - n) - 1

end ClosePhase

namespace Kws

variable {k : Kws} {blockN : ℕ}

theorem softBlock_inl {n : ℕ} {phase : ℕ → ClosePhase} {p : ClosePhase} (hn : n < blockN)
    (h : k.softBlock blockN n phase = .inl p) : n + 1 < blockN ∧ p = phase (n + 1) := by
  rw [softBlock] at h
  split_ifs at h with heq
  exact ⟨Nat.lt_of_le_of_ne hn heq, (Sum.inl.inj h).symm⟩

/-- Every answer takes the patience down, but for those that are not counted. -/
theorem patience_shutdownStep (hb : 0 < blockN) {p p' : ClosePhase} {a : TlsAnswer}
    (hp : p.Counts blockN) (h : k.shutdownStep blockN p a = .inl p') :
    p'.Counts blockN ∧
      p'.patience blockN + 1 ≤ p.patience blockN + if p.drains a then 4 else 0 := by
  cases p with
  | sent =>
    rw [shutdownStep] at h
    split_ifs at h
    obtain rfl := Sum.inl.inj h
    exact ⟨trivial, le_rfl⟩
  | received =>
    rw [shutdownStep] at h
    split_ifs at h
    · obtain rfl := Sum.inl.inj h
      exact ⟨trivial, Nat.succ_le_succ (Nat.zero_le _)⟩
    · obtain rfl := Sum.inl.inj h
      exact ⟨hb, le_rfl⟩
  | reply => cases h
  | shutdown n =>
    obtain rfl := Sum.inl.inj h
    exact ⟨hp, le_rfl⟩
  | shutdownError code n =>
    rw [shutdownStep] at h
    split_ifs at h
    · obtain rfl := Sum.inl.inj h
      exact ⟨hp, le_rfl⟩
    · obtain ⟨hn, rfl⟩ := softBlock_inl hp h
      refine ⟨hn, ?_⟩
      dsimp only [ClosePhase.patience, ClosePhase.drains]
      omega
  | read n =>
    have hn : n < blockN := hp
    rw [shutdownStep] at h
    split_ifs at h with ha
    · obtain rfl := Sum.inl.inj h
      refine ⟨hp, ?_⟩
      dsimp only [ClosePhase.patience]
      omega
    · obtain rfl := Sum.inl.inj h
      rw [ClosePhase.drains, if_pos (decide_eq_true (lt_of_not_ge ha))]
      exact ⟨hp, Nat.add_le_add_left (by decide) _⟩
  | readError n =>
    have hn : n < blockN := hp
    rw [shutdownStep] at h
    split_ifs at h with hz
    · obtain rfl := Sum.inl.inj h
      rw [ClosePhase.drains, if_pos (decide_eq_true hz)]
      refine ⟨hp, ?_⟩
      dsimp only [ClosePhase.patience]
      omega
    · obtain ⟨hn', rfl⟩ := softBlock_inl hp h
      refine ⟨hn', ?_⟩
      dsimp only [ClosePhase.patience]
      omega

theorem patience_shutdownStart {p : ClosePhase} (h : k.shutdownStart = .inl p) :
    p.Counts blockN ∧ p.patience blockN ≤ 2 * blockN + 4 := by
  rw [shutdownStart] at h
  split_ifs at h
  obtain rfl := Sum.inl.inj h
  exact ⟨trivial, le_rfl⟩

/-- `kws_close` is left with the socket closed. -/
theorem shutdown_post {k k' : Kws} {o : ℕ → TlsAnswer} {n : ℕ} (h : k.shutdown o n = .inr k') :
    k' = k.closeEnd := by
  have hblock (blockN n : ℕ) (phase : ℕ → ClosePhase) :
      (k.softBlock blockN n phase).elim (fun _ => True) (· = k.closeEnd) := by
    rw [softBlock]
    split_ifs
    · rfl
    · trivial
  suffices hpost : (k.shutdown o n).elim (fun _ => True) (· = k.closeEnd) by
    rwa [h] at hpost
  refine driven_post ?_ (fun p a _ => ?_) n
  · rw [shutdownStart]
    split_ifs <;> trivial
  · cases p with
    | sent | received | read =>
      rw [shutdownStep]
      split_ifs <;> trivial
    | reply => rfl
    | shutdown => trivial
    | shutdownError code n =>
      rw [shutdownStep]
      split_ifs
      · trivial
      · exact hblock _ _ _
      · rfl
    | readError n =>
      rw [shutdownStep]
      split_ifs
      · trivial
      · rfl
      · exact hblock _ _ _
      · rfl

end Kws

/-- `kws_close` shuts the TLS session down in a bounded number of calls, over
    the ways `S` the TLS library may answer, if and only if the data and the
    close notifications it drains are bounded. Where these are none, two calls
    for each count and five more close the socket. -/
theorem Kws.shutdown_bounded (k : Kws) (S : Set (ℕ → TlsAnswer)) :
    ((∃ N, ∀ o ∈ S, ∃ k', k.shutdown o N = .inr k' ∧ k'.sock = false) ↔
      ∃ F, ∀ o ∈ S, ∀ n, k.drained o n ≤ F) ∧
    ∀ o F, (∀ n, k.drained o n ≤ F) →
      ∃ k', k.shutdown o (2 * (wsSoftBlock / 10).toNat + 4 + 4 * F + 1) = .inr k' ∧
        k'.sock = false := by
  have hb : 0 < (wsSoftBlock / 10).toNat := by decide
  have hclosed {o : ℕ → TlsAnswer} {n : ℕ} (h : ∃ k', k.shutdown o n = .inr k') :
      ∃ k', k.shutdown o n = .inr k' ∧ k'.sock = false := by
    obtain ⟨k', hk'⟩ := h
    refine ⟨k', hk', ?_⟩
    rw [shutdown_post hk']
    rfl
  refine ⟨Iff.trans ?_ (bounded_iff (fun _ => patience_shutdownStart)
      (fun _ _ _ => patience_shutdownStep hb) S),
    fun o F hF => hclosed (ended_of_spent (fun _ => patience_shutdownStart)
      (fun _ _ _ => patience_shutdownStep hb) hF)⟩
  exact exists_congr fun N => forall₂_congr fun o _ =>
    ⟨fun ⟨k', hk', _⟩ => ⟨k', hk'⟩, fun h => hclosed h⟩

/-- A peer that answers the close notification with data, and goes on so. -/
def keepsSending : ℕ → TlsAnswer
  -- `SSL_shutdown` has sent its notification.
  | 2 => ⟨0, IoError.syscall.code, false⟩
  | 3 => ⟨0, IoError.syscall.code, false⟩
  -- It waits for the one of the peer, but there is data.
  | 4 => ⟨-1, IoError.wantRead.code, false⟩
  | 5 => ⟨-1, IoError.wantRead.code, false⟩
  | _ => ⟨9, IoError.none.code, false⟩

/-- A connection with a TLS session. -/
def tlsConnection : Kws := { ssl := true, secureEstablished := true }

/-- Against this peer `kws_close` makes one call after the other and never
    closes the socket. -/
theorem Kws.shutdown_endless :
    (∀ n, ∃ p, tlsConnection.shutdown keepsSending n = .inl p) ∧
      ¬ ∃ N, ∀ o, ∃ k', tlsConnection.shutdown o N = .inr k' := by
  have hread (n : ℕ) (hn : 6 ≤ n) :
      ∃ p, tlsConnection.shutdown keepsSending n = .inl p ∧ p = .read 1 := by
    refine driven_of_invariant ⟨_, rfl, rfl⟩ ?_ hn
    rintro m hm _ rfl
    have hsends : keepsSending m = ⟨9, IoError.none.code, false⟩ := by
      obtain ⟨m, rfl⟩ := Nat.exists_eq_add_of_le' hm
      rfl
    exact ⟨_, by rw [hsends]; rfl, rfl⟩
  have hrun (n : ℕ) : ∃ p, tlsConnection.shutdown keepsSending n = .inl p := by
    match n with
    | 0 | 1 | 2 | 3 | 4 | 5 => exact ⟨_, rfl⟩
    | n + 6 => exact (hread (n + 6) (Nat.le_add_left 6 n)).imp fun _ => And.left
  refine ⟨hrun, fun ⟨N, hN⟩ => ?_⟩
  obtain ⟨p, hp⟩ := hrun N
  obtain ⟨k', hk'⟩ := hN keepsSending
  cases hp.symm.trans hk'

/-! ## In the world of a connection -/

theorem IoError.code_inj {e e' : IoError} : e.code = e'.code ↔ e = e' := by
  refine ⟨fun h => ?_, fun h => h ▸ rfl⟩
  cases e <;> cases e' <;> first | rfl | cases h

/-- What `SSL_get_error` returns behind `SSL_read`. -/
def ReadEvent.err : ReadEvent → IoError
  | data _ => .none
  | closed err | failed err => err

namespace World

/-- The answer to the next `SSL_shutdown`. -/
def nextShutdown (w : World) : ShutdownEvent := w.shutdowns.headD ⟨-1, .syscall⟩

/-- The answer to the next `SSL_read`. -/
def nextRead (w : World) : ReadEvent := w.reads.headD (.closed .zeroReturn)

/-- What the TLS library answers in the world `w`, and the world behind that. The error of a
    call is asked for behind its result, and uses the answer up. -/
def tlsCall : ClosePhase → World → TlsAnswer × World
  | .sent, w => (⟨0, IoError.none.code, w.sentShutdown⟩, w)
  | .received, w => (⟨0, IoError.none.code, w.receivedShutdown⟩, w)
  | .reply, w =>
    (⟨w.nextShutdown.code, IoError.none.code, false⟩, { w with shutdowns := w.shutdowns.tail })
  | .shutdown _, w => (⟨w.nextShutdown.code, IoError.none.code, false⟩, w)
  | .shutdownError code _, w =>
    (⟨code, w.nextShutdown.err.code, false⟩, { w with shutdowns := w.shutdowns.tail })
  | .read _, w =>
    match w.nextRead with
    -- Nine bytes are asked for, and what has come with them stays.
    | .data (c :: bs) =>
      (⟨min 9 (bs.length + 1), IoError.none.code, false⟩, { w with
        reads := if (c :: bs).length ≤ 9 then w.reads.tail
          else .data ((c :: bs).drop 9) :: w.reads.tail })
    | .data [] | .closed _ => (⟨0, IoError.none.code, false⟩, w)
    | .failed _ => (⟨-1, IoError.none.code, false⟩, w)
  | .readError _, w =>
    (⟨0, w.nextRead.err.code, false⟩, { w with reads := w.reads.tail })

end World

namespace Kws

variable {k : Kws} {blockN : ℕ} {w w' : World}

/-- `kws_close` goes on in the world `w` until it closes the socket, and leaves `w'`. -/
abbrev ShutsDown (k : Kws) (blockN : ℕ) (p : ClosePhase) (w w' : World) : Prop :=
  Served (k.shutdownStep blockN) World.tlsCall p w k.closeEnd w'

/-- Where the loop that drains the transport is left: for `SSL_shutdown`, or for `end:`. -/
def Resumes (k : Kws) (blockN : ℕ) (w w' : World) : Bool × ℕ × Mem × List ReadEvent → Prop
  | (true, n, _, es) => k.ShutsDown blockN (.shutdown n) { w with reads := es } w'
  | (false, _, _, es) => w' = { w with reads := es }

theorem shutdownStep_readError (n : ℕ) (err : IoError) :
    k.shutdownStep blockN (.readError n) ⟨0, err.code, false⟩ =
      if err = .zeroReturn then .inl (.shutdown n)
      else if err.isIoError then .inr k.closeEnd
      else if err = .wantRead then k.softBlock blockN n .read
      else .inr k.closeEnd := by
  cases err <;> rfl

/-- The loop is the run from its `SSL_read` on. Each turn takes from the reads to come. -/
theorem shutsDown_read {fuel n : ℕ} {buffer : Mem} {es : List ReadEvent}
    (hfuel : readSize es < fuel) (h : k.Resumes blockN w w' (drainLoop blockN fuel n buffer es)) :
    k.ShutsDown blockN (.read n) { w with reads := es } w' := by
  induction fuel generalizing n buffer es with
  | zero => cases hfuel
  | succ fuel ih =>
    -- A call that gives nothing, by its error.
    have herror (e : ReadEvent) (es : List ReadEvent) (hsize : readSize es < fuel)
        (h : k.Resumes blockN w w' (if e.err = .zeroReturn then (true, n, buffer, es)
          else if e.err.isIoError then (false, n, buffer, es)
          else if e.err = .wantRead then
            if n + 1 = blockN then (false, n + 1, buffer, es)
            else drainLoop blockN fuel (n + 1) buffer es
          else (false, n, buffer, es))) :
        k.ShutsDown blockN (.readError n) { w with reads := e :: es } w' := by
      have hstep := @shutdownStep_readError k blockN n e.err
      split_ifs at h hstep with hzero hio hwant hlast
      · exact .next hstep h
      · subst h
        exact .last hstep
      · subst h
        exact .last (hstep.trans (if_pos hlast))
      · exact .next (hstep.trans (if_neg hlast)) (ih hsize h)
      · subst h
        exact .last hstep
    cases es with
    | nil => exact .next rfl (.next rfl h)
    | cons e es =>
      cases e with
      | data bs =>
        have hsize : bs.length + 1 + readSize es < fuel + 1 := hfuel
        cases bs with
        | nil =>
          subst h
          exact .next rfl (.last rfl)
        | cons c bs =>
          have hpos : ¬min 9 ((bs.length : ℤ) + 1) ≤ 0 := by omega
          have hread : k.shutdownStep blockN (.read n)
              ⟨min 9 (bs.length + 1), IoError.none.code, false⟩ = .inl (.read n) := if_neg hpos
          refine .next hread (ih ?_ h)
          rw [List.length_cons] at hsize
          split_ifs with hlen
          · dsimp only [List.tail_cons]
            omega
          · have hrest : readSize (.data ((c :: bs).drop 9) :: es) =
                ((c :: bs).drop 9).length + 1 + readSize es := rfl
            rw [List.length_drop, List.length_cons] at hrest
            rw [List.length_cons] at hlen
            exact Nat.lt_of_le_of_lt hrest.le (by omega)
      | closed err =>
        have hsize : 1 + readSize es < fuel + 1 := hfuel
        exact .next rfl (herror (.closed err) es (by omega) h)
      | failed err =>
        have hsize : 1 + readSize es < fuel + 1 := hfuel
        exact .next rfl (herror (.failed err) es (by omega) h)

theorem shutdownStep_shutdownError (n : ℕ) (s : ShutdownEvent) (code : ℤ) :
    k.shutdownStep blockN (.shutdownError s.code n) ⟨code, s.err.code, false⟩ =
      if s.code ≤ 0 ∧ s.err = .wantRead then .inl (.read n)
      else if s.code = 0 ∨ (s.code < 0 ∧ s.err = .wantWrite) then k.softBlock blockN n .shutdown
      else .inr k.closeEnd := by
  simp only [shutdownStep, IoError.code_inj]

/-- The outer loop is the run from its `SSL_shutdown` on, answer by answer. -/
theorem shutsDown_shutdown {n : ℕ} {buffer buffer' : Mem} {es es' : List ReadEvent}
    {ss ss' : List ShutdownEvent}
    (h : shutdownLoop blockN n buffer es ss = (buffer', es', ss')) :
    k.ShutsDown blockN (.shutdown n) { w with reads := es, shutdowns := ss }
      { w with reads := es', shutdowns := ss' } := by
  induction ss generalizing n buffer es with
  | nil =>
    cases h
    exact .next rfl (.last rfl)
  | cons s ss ih =>
    have hstep := @shutdownStep_shutdownError k blockN n s s.code
    rw [shutdownLoop] at h
    refine .next rfl ?_
    split_ifs at h hstep with hread hwait hlast
    · have hdrain : k.Resumes blockN { w with shutdowns := ss }
          { w with reads := es', shutdowns := ss' }
          (drainLoop blockN (readSize es + 1) n buffer es) := by
        generalize drainLoop blockN (readSize es + 1) n buffer es = r at h ⊢
        obtain ⟨goOn, n', buffer₁, es₁⟩ := r
        cases goOn with
        | true => exact ih h
        | false =>
          cases h
          rfl
      exact .next hstep (shutsDown_read (Nat.lt_succ_self _) hdrain)
    · cases h
      exact .last (hstep.trans (if_pos hlast))
    · exact .next (hstep.trans (if_neg hlast)) (ih h)
    · cases h
      exact .last hstep

/-- `closeTls` leaves the world of `k` as the calls of `shutdown` do that this world answers. -/
theorem closeTls_shutsDown {p : ClosePhase} (h : k.shutdownStart = .inl p) :
    k.ShutsDown (wsSoftBlock / 10).toNat p k.world k.closeTls.world := by
  rw [shutdownStart] at h
  rw [closeTls]
  split_ifs at h ⊢ with hssl hio hsent hreceived
  · obtain rfl := Sum.inl.inj h
    exact .last (if_pos hsent)
  · obtain rfl := Sum.inl.inj h
    exact .next (if_neg hsent) (.next (if_pos hreceived) (.last rfl))
  · obtain rfl := Sum.inl.inj h
    exact .next (if_neg hsent) (.next (if_neg hreceived) (shutsDown_shutdown rfl))

/-- So in the world of a connection `kws_close` closes the socket behind finitely many calls:
    `closeTls` is total because a world holds finitely many answers. -/
theorem shutdown_replies {p : ClosePhase} (h : k.shutdownStart = .inl p) :
    ∃ n, k.shutdown (replies (k.shutdownStep (wsSoftBlock / 10).toNat) World.tlsCall p k.world) n =
      .inr k.closeEnd := by
  obtain ⟨n, hn⟩ := (closeTls_shutsDown h).driven
  exact ⟨n, by rw [shutdown, h, hn]⟩

end Kws

end Libks
