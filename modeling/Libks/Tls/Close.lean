import Libks.Base.Driven
import Libks.Kws.Transport

/-!
# Closing a TLS connection

`ks_tls_close` of `ks_tls.c`. The TLS library may answer each call as it likes,
so the function is given one call at a time (`closeStep`): where it stands is the
call it makes next, with the retries it has counted (`ClosePhase`). Its two
nested loops share the counter, and every way round either of them counts, so
the retries left and the place within a round are a potential
(`ClosePhase.potential`) that every call takes down.
-/

namespace Libks

open Base

/-- What the TLS library answers at one point: the result of `SSL_shutdown`,
    `SSL_read` or `SSL_read_ex`, the error of `SSL_get_error`, or whether
    `SSL_get_shutdown` has the bit that is looked at. -/
structure TlsAnswer where
  result : ℤ
  error : ℤ
  isSet : Bool
  deriving DecidableEq, Repr

/-- `KS_TLS_SHUTDOWN_RETRY_MS`. -/
def ksTlsShutdownRetryMs : ℕ := 10

/-- `KS_TLS_SHUTDOWN_TIMEOUT_MS`. -/
def ksTlsShutdownTimeoutMs : ℕ := 2000

/-- The part of `ks_tls_t` that `ks_tls_close` looks at. Only `ks_tls_close` and
    `ks_tls_destroy` set `down`, and the socket is gone when they do. -/
structure KsTls where
  down : ℕ
  /-- `none` for `KS_SOCK_INVALID`. -/
  sock : Option ℕ
  ssl : Bool
  secureEstablished : Bool
  sslIoError : Bool
  sock_of_down : down ≠ 0 → sock = none

/-- The next call to the TLS library, and what is known from the ones before. -/
inductive ClosePhase
  | sent
  | received
  | reply
  | shutdown (retry : ℕ)
  | shutdownError (code : ℤ) (retry : ℕ)
  | read (retry : ℕ)
  | readError (retry : ℕ)
  deriving DecidableEq, Repr

namespace KsTls

/-- `close_end`: the connection without its socket, and the sockets closed. -/
def closeEnd (t : KsTls) : KsTls × List ℕ :=
  ({ t with down := 1, sock := none, sock_of_down := fun _ => rfl }, t.sock.toList)

/-- `ks_tls_close` up to its first call to the TLS library. -/
def closeStart (t : KsTls) : ClosePhase ⊕ (KsTls × List ℕ) :=
  if t.down ≠ 0 then .inr (t, [])
  else if t.sock = none then .inr t.closeEnd
  -- `ks_tls_init` may close a connection that has no `ssl` yet.
  else if ¬t.ssl then .inr t.closeEnd
  else if ¬t.secureEstablished ∨ t.sslIoError then .inr t.closeEnd
  else .inl .sent

/-- `++retry > num_retries`, or on with one retry more. -/
def retry (t : KsTls) (numRetries retry : ℕ) (phase : ℕ → ClosePhase) :
    ClosePhase ⊕ (KsTls × List ℕ) :=
  if numRetries < retry + 1 then .inr t.closeEnd else .inl (phase (retry + 1))

/-- What `ks_tls_close` does with an answer. -/
def closeStep (t : KsTls) (numRetries : ℕ) :
    ClosePhase → TlsAnswer → ClosePhase ⊕ (KsTls × List ℕ)
  | .sent, a => if a.isSet then .inr t.closeEnd else .inl .received
  | .received, a => if a.isSet then .inl .reply else .inl (.shutdown 0)
  | .reply, _ => .inr t.closeEnd
  | .shutdown n, a => if 0 < a.result then .inr t.closeEnd else .inl (.shutdownError a.result n)
  | .shutdownError code n, a =>
    if code = 0 ∨ a.error = IoError.wantRead.code then .inl (.read n)
    else if a.error ≠ IoError.wantWrite.code then .inr t.closeEnd
    else t.retry numRetries n .shutdown
  | .read n, a =>
    -- Out of retries, the inner loop is left, and the outer one behind it.
    if a.result ≠ 0 then t.retry numRetries n .read else .inl (.readError n)
  | .readError n, a =>
    if a.error = IoError.wantRead.code then t.retry numRetries n .read
    else if a.error = IoError.zeroReturn.code ∨ a.error = IoError.wantWrite.code then
      t.retry numRetries n .shutdown
    else .inr t.closeEnd

/-- `ks_tls_close` behind `n` calls to the TLS library, which answers with `o`. -/
def close (t : KsTls) (o : ℕ → TlsAnswer) (n : ℕ) : ClosePhase ⊕ (KsTls × List ℕ) :=
  driven (t.closeStep (ksTlsShutdownTimeoutMs / ksTlsShutdownRetryMs)) o t.closeStart n

end KsTls

/-! ## Termination -/

/-- How many calls may still come: four for each retry that is left, and those
    of the round under way. -/
def ClosePhase.potential (numRetries : ℕ) : ClosePhase → ℕ
  | sent => 4 * numRetries + 6
  | received => 4 * numRetries + 5
  | reply => 0
  | shutdown n => 4 * (numRetries - n) + 4
  | shutdownError _ n => 4 * (numRetries - n) + 3
  | read n => 4 * (numRetries - n) + 2
  | readError n => 4 * (numRetries - n) + 1

namespace KsTls

variable {t : KsTls} {numRetries : ℕ}

theorem potential_closeStart {p : ClosePhase} (h : t.closeStart = .inl p) :
    p.potential numRetries ≤ 4 * numRetries + 6 := by
  rw [closeStart] at h
  split_ifs at h
  obtain rfl := Sum.inl.inj h
  exact le_rfl

/-- A retry is worth a whole round. -/
theorem potential_retry {n : ℕ} {phase : ℕ → ClosePhase} {p : ClosePhase}
    (h : t.retry numRetries n phase = .inl p)
    (hp : ∀ n, (phase n).potential numRetries ≤ 4 * (numRetries - n) + 4) :
    p.potential numRetries ≤ 4 * (numRetries - n) := by
  rw [retry] at h
  split_ifs at h with hn
  obtain rfl := Sum.inl.inj h
  have := hp (n + 1)
  omega

/-- Every answer takes the potential down. -/
theorem potential_closeStep {p p' : ClosePhase} {a : TlsAnswer}
    (h : t.closeStep numRetries p a = .inl p') :
    p'.potential numRetries < p.potential numRetries := by
  have hshut (n : ℕ) : (ClosePhase.shutdown n).potential numRetries ≤ 4 * (numRetries - n) + 4 :=
    le_rfl
  have hread (n : ℕ) : (ClosePhase.read n).potential numRetries ≤ 4 * (numRetries - n) + 4 :=
    Nat.add_le_add_left (by decide) _
  cases p with
  | sent =>
    rw [closeStep] at h
    split_ifs at h
    obtain rfl := Sum.inl.inj h
    exact Nat.lt_succ_self _
  | received =>
    rw [closeStep] at h
    split_ifs at h
    · obtain rfl := Sum.inl.inj h
      exact Nat.succ_pos _
    · obtain rfl := Sum.inl.inj h
      exact Nat.lt_succ_self _
  | reply => cases h
  | shutdown n =>
    rw [closeStep] at h
    split_ifs at h
    obtain rfl := Sum.inl.inj h
    exact Nat.lt_succ_self _
  | shutdownError code n =>
    rw [closeStep] at h
    split_ifs at h
    · obtain rfl := Sum.inl.inj h
      exact Nat.lt_succ_self _
    · exact (potential_retry h hshut).trans_lt (Nat.lt_add_of_pos_right (by decide))
  | read n =>
    rw [closeStep] at h
    split_ifs at h
    · exact (potential_retry h hread).trans_lt (Nat.lt_add_of_pos_right (by decide))
    · obtain rfl := Sum.inl.inj h
      exact Nat.lt_succ_self _
  | readError n =>
    rw [closeStep] at h
    split_ifs at h
    · exact (potential_retry h hread).trans_lt (Nat.lt_succ_self _)
    · exact (potential_retry h hshut).trans_lt (Nat.lt_succ_self _)

theorem closeLoop_ended (t : KsTls) (numRetries : ℕ) (o : ℕ → TlsAnswer) :
    ∃ b, driven (t.closeStep numRetries) o t.closeStart (4 * numRetries + 7) = .inr b :=
  ended_of_potential (fun _ => potential_closeStart) fun _ _ _ => potential_closeStep

/-! ## The socket -/

theorem retry_ends (n : ℕ) (phase : ℕ → ClosePhase) :
    (t.retry numRetries n phase).elim (fun _ => True) (· = t.closeEnd) := by
  rw [retry]
  split_ifs
  · rfl
  · trivial

/-- Once the TLS library is called, `ks_tls_close` is left through `close_end`. -/
theorem closeStep_ends (t : KsTls) (numRetries : ℕ) (p : ClosePhase) (a : TlsAnswer) :
    (t.closeStep numRetries p a).elim (fun _ => True) (· = t.closeEnd) := by
  cases p with
  | sent | received | shutdown n =>
    rw [closeStep]
    split_ifs <;> trivial
  | reply => rfl
  | shutdownError code n =>
    rw [closeStep]
    split_ifs
    · trivial
    · rfl
    · exact retry_ends n _
  | read n =>
    rw [closeStep]
    split_ifs
    · exact retry_ends n _
    · trivial
  | readError n =>
    rw [closeStep]
    split_ifs
    · exact retry_ends n _
    · exact retry_ends n _
    · rfl

/-- However `ks_tls_close` is left, there is no socket any more, and the one
    there was is closed. -/
theorem close_post {t t' : KsTls} {o : ℕ → TlsAnswer} {n : ℕ} {closed : List ℕ}
    (h : t.close o n = .inr (t', closed)) : t'.sock = none ∧ closed = t.sock.toList := by
  suffices hpost : (t.close o n).elim (fun _ => True) fun b =>
      b.1.sock = none ∧ b.2 = t.sock.toList by
    rwa [h] at hpost
  have hend : t.closeEnd.1.sock = none ∧ t.closeEnd.2 = t.sock.toList := ⟨rfl, rfl⟩
  refine driven_post ?_ (fun p a _ => ?_) n
  · rw [closeStart]
    split_ifs with hd
    · have hsock := t.sock_of_down hd
      exact ⟨hsock, by rw [hsock]; rfl⟩
    · exact hend
    · exact hend
    · trivial
    · exact hend
  · have h := t.closeStep_ends (ksTlsShutdownTimeoutMs / ksTlsShutdownRetryMs) p a
    cases hs : t.closeStep (ksTlsShutdownTimeoutMs / ksTlsShutdownRetryMs) p a with
    | inl p' => trivial
    | inr b =>
      rw [hs] at h
      obtain rfl : b = t.closeEnd := h
      exact hend

end KsTls

/-- `ks_tls_close` ends, whatever the TLS library answers: after at most four
    calls for each retry and seven more it has closed the socket, once, and
    `ktls->sock` is `KS_SOCK_INVALID`. -/
theorem KsTls.close_ends (t : KsTls) (o : ℕ → TlsAnswer) :
    ∃ t' closed,
      t.close o (4 * (ksTlsShutdownTimeoutMs / ksTlsShutdownRetryMs) + 7) = .inr (t', closed) ∧
        t'.sock = none ∧ closed = t.sock.toList := by
  obtain ⟨⟨t', closed⟩, h⟩ := t.closeLoop_ended (ksTlsShutdownTimeoutMs / ksTlsShutdownRetryMs) o
  exact ⟨t', closed, h, close_post h⟩

end Libks
