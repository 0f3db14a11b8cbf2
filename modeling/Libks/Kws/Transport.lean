import Libks.Base.Word

/-!
# The transport under a connection

A connection talks to its peer through a socket or a TLS session. What these
answer is not decided by the program: a `World` holds the answers still to come,
one list for each kind of call, and what the program has handed over so far.
Every run of the program is the run in the world that answers as the socket, the
TLS library, the clock and the random number generator did.

* `receive`: the `do … while` loop around `recv` or `SSL_read`;
* `sendLoop`, `sslWriteLoop`: the retry loops around `send` and `SSL_write`;
* `avail`, `after`: the bytes about to be delivered, and the transport behind
  the first `n` of them; `receive_data` says what a read of them gives.
-/

namespace Libks

open Base

/-! ## Answers of the transport -/

/-- What `SSL_get_error` returns. For a plain socket, `wantRead` is an errno
    that `ks_errno_is_blocking` and `syscall` any other. -/
inductive IoError
  | none
  | ssl
  | wantRead
  | wantWrite
  | wantX509Lookup
  | syscall
  | zeroReturn
  deriving DecidableEq, Repr

/-- The value of the `SSL_ERROR_` constant. -/
def IoError.code : IoError → ℤ
  | none => 0
  | ssl => 1
  | wantRead => 2
  | wantWrite => 3
  | wantX509Lookup => 4
  | syscall => 5
  | zeroReturn => 6

/-- `SSL_IO_ERROR`. -/
def IoError.isIoError (e : IoError) : Bool := e = syscall ∨ e = ssl

/-- `SSL_ERROR_WANT_READ_WRITE`; for a socket, `ks_errno_is_blocking`. -/
def IoError.isWant (e : IoError) : Bool := e = wantRead ∨ e = wantWrite

/-- An answer to `recv` or `SSL_read`: bytes that have arrived (a call takes as
    many of them as it asked for), a result of `0`, or a negative one. -/
inductive ReadEvent
  | data (chunk : List UInt8)
  | closed (err : IoError)
  | failed (err : IoError)
  deriving DecidableEq, Repr

/-- An answer to `send` or `SSL_write`: room for `n` bytes, a result of `0`, or
    a negative one. -/
inductive WriteEvent
  | accept (n : ℕ)
  | zero (err : IoError)
  | failed (err : IoError)
  deriving DecidableEq, Repr

/-- An answer to `SSL_connect` or `SSL_accept`: `1`, `0` or negative. -/
inductive ShakeEvent
  | done
  | closed
  | failed (err : IoError)
  deriving DecidableEq, Repr

/-- An answer to `SSL_shutdown`, with the error `SSL_get_error` then gives. -/
structure ShutdownEvent where
  code : ℤ
  err : IoError
  deriving DecidableEq, Repr

/-- An answer about the certificate of the peer: whether
    `SSL_get_peer_certificate` gives one, and whether `SSL_get_verify_result`
    is `X509_V_OK`. -/
structure CertEvent where
  present : Bool
  verified : Bool
  deriving DecidableEq, Repr

/-- What is outside the program. A list that has run out answers as a peer that
    is gone. -/
structure World where
  /-- Answers to `recv` and `SSL_read`. -/
  reads : List ReadEvent := []
  /-- Answers to `send` and `SSL_write`. -/
  writes : List WriteEvent := []
  /-- The bytes the transport has accepted. -/
  sent : List UInt8 := []
  /-- Whether `SSL_new` succeeds. -/
  sslNew : Bool := true
  /-- Answers to `SSL_connect` and `SSL_accept`. -/
  handshakes : List ShakeEvent := []
  /-- Answers to `SSL_shutdown`. -/
  shutdowns : List ShutdownEvent := []
  /-- `SSL_get_shutdown`: whether a close notification was sent, and received. -/
  sentShutdown : Bool := false
  receivedShutdown : Bool := false
  /-- Answers about the certificate of the peer. -/
  certs : List CertEvent := []
  /-- Whether a check of the certificate has passed on this connection. -/
  verified : Bool := false
  /-- Whether the deadline of the handshake has passed, at each look at the clock. -/
  clock : List Bool := []
  /-- The bytes `rand` gives. -/
  random : List UInt8 := []
  /-- `SHA1`. -/
  sha1 : List UInt8 → Fin 20 → UInt8 := fun _ _ => 0

/-! ## Reading -/

/-- Whether a call with the length `(int) bytes` is refused: `SSL_read` and
    `SSL_write` take no negative length. -/
def Refused (ssl : Bool) (bytes : ℕ) : Prop := ssl = true ∧ toInt32 bytes < 0

instance (ssl : Bool) (bytes : ℕ) : Decidable (Refused ssl bytes) :=
  inferInstanceAs (Decidable (_ ∧ _))

/-- What a call with the length `(int) bytes` asks for. `recv` and `send` take a
    negative one for a huge `size_t`, and give an `int` back, so at most
    `INT_MAX` bytes. -/
def requestSize (bytes : ℕ) : ℕ :=
  if toInt32 bytes < 0 then 2 ^ 31 - 1 else (toInt32 bytes).toNat

/-- The outcome of a read: the result, the bytes stored, the counter `x`,
    whether the TLS session has failed, and the transport behind it. -/
structure Received where
  r : ℤ
  bytes : List UInt8
  x : ℕ
  sslIoError : Bool
  reads : List ReadEvent

/-- The loop of `kws_raw_read`. The loops around `SSL_read` and around `recv`
    are the same but for `ssl_io_error`, which only a TLS session sets. -/
def receive (ssl : Bool) (n : ℕ) (block : ℤ) (x : ℕ) (ioError : Bool) :
    List ReadEvent → Received
  | [] => ⟨0, [], x, ioError, []⟩
  | .data bs :: es =>
    ⟨min n bs.length, bs.take n, x, ioError,
      if bs.length ≤ n then es else .data (bs.drop n) :: es⟩
  | .closed err :: es => ⟨0, [], x, ioError || (ssl && err.isIoError), es⟩
  | .failed err :: es =>
    if err.isWant then
      if block = 0 then ⟨-2, [], x, ioError, es⟩
      else if (x + 1 : ℤ) < block.tdiv 10 then receive ssl n block (x + 1) ioError es
      else ⟨-1, [], x + 1, ioError, es⟩
    -- Only the loop around `recv` counts and sleeps on an error that is final.
    else ⟨-1, [], if ssl ∨ block = 0 then x else x + 1, ioError || (ssl && err.isIoError), es⟩

/-! ## Writing -/

/-- The outcome of a write: the result, the bytes accepted of those to send,
    whether the TLS session has failed, and the transport behind it. -/
structure Sent where
  r : ℤ
  wrote : ℕ
  accepted : List UInt8
  sslIoError : Bool
  writes : List WriteEvent

/-- The loop around `send`, with `sanity` tries left and `wrote` bytes written;
    `accepted` are the bytes the transport has taken in this call. -/
def sendLoop (data : List UInt8) : ℕ → ℕ → List UInt8 → List WriteEvent → Sent
  | 0, wrote, accepted, es => ⟨wrote, wrote, accepted, false, es⟩
  | sanity + 1, wrote, accepted, es =>
    match es with
    | [] => ⟨-1, wrote, accepted, false, []⟩
    | .accept k :: es =>
      let r := min (requestSize (data.length - wrote)) k
      let accepted := accepted ++ (data.drop wrote).take r
      if sanity = 0 ∨ data.length ≤ wrote + r then ⟨(wrote + r : ℕ), wrote + r, accepted, false, es⟩
      else sendLoop data sanity (wrote + r) accepted es
    | .zero _ :: es =>
      if sanity = 0 ∨ data.length ≤ wrote then ⟨wrote, wrote, accepted, false, es⟩
      else sendLoop data sanity wrote accepted es
    | .failed err :: es =>
      if ¬err.isWant ∨ sanity = 0 ∨ data.length ≤ wrote then ⟨-1, wrote, accepted, false, es⟩
      else sendLoop data sanity wrote accepted es

/-- The loop around `SSL_write`. Once the last of the tries is used up, the
    result is `-56`, whatever was written. -/
def sslWriteLoop (data : List UInt8) : ℕ → ℕ → List UInt8 → List WriteEvent → Sent
  | 0, wrote, accepted, es => ⟨-56, wrote, accepted, false, es⟩
  | sanity + 1, wrote, accepted, es =>
    match es with
    | [] => ⟨-IoError.syscall.code, wrote, accepted, true, []⟩
    | .accept k :: es =>
      let r := min (requestSize (data.length - wrote)) k
      if Refused true (data.length - wrote) then ⟨-IoError.ssl.code, wrote, accepted, true, es⟩
      -- No bytes taken is a result of `0`: the loop is left with `ssl_err = 42`.
      else if r = 0 then ⟨-42, wrote, accepted, false, es⟩
      else
        let accepted := accepted ++ (data.drop wrote).take r
        if sanity = 0 then ⟨-56, wrote + r, accepted, false, es⟩
        else if data.length ≤ wrote + r then ⟨(wrote + r : ℕ), wrote + r, accepted, false, es⟩
        else sslWriteLoop data sanity (wrote + r) accepted es
    | .zero err :: es => ⟨-42, wrote, accepted, err.isIoError, es⟩
    | .failed err :: es =>
      -- An error code of `0` leaves the negative result as it is.
      if ¬err.isWant then
        ⟨if err = .none then -1 else -err.code, wrote, accepted, err.isIoError, es⟩
      else if sanity = 0 then ⟨-56, wrote, accepted, false, es⟩
      else if data.length ≤ wrote then ⟨-1, wrote, accepted, false, es⟩
      else sslWriteLoop data sanity wrote accepted es

/-! ## What is about to be delivered -/

/-- The bytes the transport delivers before it answers anything but data. -/
def avail : List ReadEvent → List UInt8
  | .data bs :: es => bs ++ avail es
  | _ => []

/-- The transport behind the next `n` of these bytes. -/
def after : ℕ → List ReadEvent → List ReadEvent
  | n, .data bs :: es => if bs.length ≤ n then after (n - bs.length) es else .data (bs.drop n) :: es
  | _, es => es

/-- How many bytes the next read can get. -/
def headLength : List ReadEvent → ℕ
  | .data bs :: _ => bs.length
  | _ => 0

/-- No read of the transport comes back empty. -/
def NonEmpty (es : List ReadEvent) : Prop := ∀ bs, .data bs ∈ es → bs ≠ []

instance : DecidablePred NonEmpty := fun es =>
  decidable_of_iff (.data [] ∉ es)
    ⟨fun h _ hbs hnil => h (hnil ▸ hbs), fun h hmem => h [] hmem rfl⟩

section

variable {es : List ReadEvent} {n : ℕ}

/-- Bytes are taken one piece after the other. -/
theorem after_add (n m : ℕ) (es : List ReadEvent) : after (n + m) es = after m (after n es) := by
  induction es generalizing n with
  | nil => rfl
  | cons e es ih =>
    cases e with
    | data bs =>
      simp only [after]
      by_cases h : bs.length ≤ n
      · rw [if_pos h, if_pos (by omega), ← ih]
        congr 1
        omega
      · rw [if_neg h, after, List.length_drop, List.drop_drop]
        by_cases h' : bs.length ≤ n + m
        · rw [if_pos h', if_pos (by omega)]
          congr 1
          omega
        · rw [if_neg h', if_neg (by omega)]
    | closed err => rfl
    | failed err => rfl

/-- What is left to deliver behind `n` bytes. -/
theorem avail_after (n : ℕ) (es : List ReadEvent) : avail (after n es) = (avail es).drop n := by
  induction es generalizing n with
  | nil => simp [after, avail]
  | cons e es ih =>
    cases e with
    | data bs =>
      rw [after, avail]
      split_ifs with h
      · rw [ih, List.drop_append, List.drop_eq_nil_of_le h, List.nil_append]
      · rw [avail, List.drop_append_of_le_length (by omega)]
    | closed err => simp [after, avail]
    | failed err => simp [after, avail]

theorem NonEmpty.tail {e : ReadEvent} (h : NonEmpty (e :: es)) : NonEmpty es :=
  fun bs hbs => h bs (List.mem_cons_of_mem _ hbs)

/-- Bytes taken off the front leave no empty chunk. -/
theorem NonEmpty.after (h : NonEmpty es) (n : ℕ) : NonEmpty (after n es) := by
  induction es generalizing n with
  | nil => exact h
  | cons e es ih =>
    cases e with
    | data bs =>
      rw [Libks.after]
      split_ifs with hn
      · exact ih h.tail _
      · intro cs hcs
        rcases List.mem_cons.1 hcs with hc | hc
        · injection hc with hc
          rw [hc, ne_eq, List.drop_eq_nil_iff]
          omega
        · exact h.tail cs hc
    | closed err => exact h
    | failed err => exact h

/-- A read of no bytes takes nothing. -/
theorem after_zero (h : NonEmpty es) : after 0 es = es := by
  cases es with
  | nil => rfl
  | cons e es =>
    cases e with
    | data bs =>
      have hbs : bs ≠ [] := h bs List.mem_cons_self
      rw [after, if_neg (by simpa using hbs), List.drop_zero]
    | closed err => rfl
    | failed err => rfl

/-- The first chunk is part of what is to be delivered. -/
theorem headLength_le (es : List ReadEvent) : headLength es ≤ (avail es).length := by
  cases es with
  | nil => exact Nat.le_refl _
  | cons e es =>
    cases e with
    | data bs => simp [headLength, avail]
    | closed err => exact Nat.le_refl _
    | failed err => exact Nat.le_refl _

/-- As long as there is something to deliver, a read gets something. -/
theorem headLength_pos (h : NonEmpty es) (ha : avail es ≠ []) : 0 < headLength es := by
  cases es with
  | nil => exact absurd rfl ha
  | cons e es =>
    cases e with
    | data bs => exact List.length_pos_iff.2 (h bs List.mem_cons_self)
    | closed err => exact absurd rfl ha
    | failed err => exact absurd rfl ha

/-- A read while bytes are about to be delivered gets some of them, as many as
    have come together and were asked for. -/
theorem receive_data (h : NonEmpty es) (ha : avail es ≠ []) (ssl : Bool) (n : ℕ) (block : ℤ)
    (x : ℕ) (ioError : Bool) :
    receive ssl n block x ioError es =
      ⟨(min n (headLength es) : ℕ), (avail es).take (min n (headLength es)), x, ioError,
        after (min n (headLength es)) es⟩ := by
  cases es with
  | nil => exact absurd rfl ha
  | cons e es =>
    cases e with
    | data bs =>
      have ht : (avail (.data bs :: es)).take (min n bs.length) = bs.take n := by
        rw [avail, List.take_append_of_le_length (Nat.min_le_right _ _), ← List.take_take,
          List.take_length]
      have hr : after (min n bs.length) (.data bs :: es) =
          if bs.length ≤ n then es else .data (bs.drop n) :: es := by
        by_cases hn : bs.length ≤ n
        · rw [Nat.min_eq_right hn, after, if_pos (Nat.le_refl _), Nat.sub_self, after_zero h.tail,
            if_pos hn]
        · rw [Nat.min_eq_left (by omega), after, if_neg hn, if_neg hn]
      have hc : ((min n bs.length : ℕ) : ℤ) = min (n : ℤ) bs.length := by omega
      rw [receive, headLength, ht, hr, hc]
    | closed err => exact absurd rfl ha
    | failed err => exact absurd rfl ha

/-- A length that is an `int` is asked for as it is. -/
theorem requestSize_of_lt (h : n < 2 ^ 31) : requestSize n = n := by
  rw [requestSize, toInt32_of_lt h, if_neg (by omega), Int.toNat_natCast]

theorem requestSize_le (n : ℕ) : requestSize n ≤ n := by
  rw [requestSize, toInt32, Int.bmod_def]
  split_ifs <;> omega

/-- A length that is an `int` is not refused. -/
theorem not_refused_of_lt {ssl : Bool} (h : n < 2 ^ 31) : ¬Refused ssl n := by
  rintro ⟨-, hn⟩
  rw [toInt32_of_lt h] at hn
  omega

/-- A read of `n` bytes asks the transport for some. -/
def Asks (ssl : Bool) (n : ℕ) : Prop := ¬Refused ssl n ∧ 0 < requestSize n

instance (ssl : Bool) (n : ℕ) : Decidable (Asks ssl n) := inferInstanceAs (Decidable (_ ∧ _))

theorem asks_of_lt {ssl : Bool} (h : 0 < n) (h' : n < 2 ^ 31) : Asks ssl n :=
  ⟨not_refused_of_lt h', by rwa [requestSize_of_lt h']⟩

end

end Libks
