import Libks.Kws.WriteRun

/-!
# The result of a raw write

`kws_raw_write` hands over a part of the buffer, each byte once and in order, and
what it returns, if not negative, is the length of that part. It returns the length
of the buffer for the whole of it, except where a TLS session takes the last bytes on
the last of the tries: the tries are used up then, and the result is an error
(`rawWrite_told_iff`).
-/

namespace Libks

open Base

variable {data : List UInt8} {sanity wrote : ℕ} {acc : List UInt8} {es : List WriteEvent}

/-- The result of the loop around `send`, if it is no error. -/
theorem sendLoop_r (hr : 0 ≤ (sendLoop data sanity wrote acc es).r) :
    (sendLoop data sanity wrote acc es).r =
      (wrote + takes false sanity (data.length - wrote) es : ℕ) := by
  induction sanity generalizing wrote acc es with
  | zero => rfl
  | succ sanity ih =>
    cases es with
    | nil => cases hr
    | cons e es =>
      cases e with
      | accept k =>
        simp only [sendLoop, takes, Bool.false_eq_true, false_and, if_false] at hr ⊢
        generalize min (requestSize (data.length - wrote)) k = r at hr ⊢
        rw [← Nat.add_assoc, ← Nat.sub_add_eq]
        split_ifs at hr ⊢ with h
        · have hrest : takes false sanity (data.length - (wrote + r)) es = 0 := by
            rcases h with rfl | h
            · exact takes_no_tries _ _ _
            · rw [Nat.sub_eq_zero_of_le h, takes_zero]
          rw [hrest, Nat.add_zero]
        · exact ih hr
      | zero err =>
        simp only [sendLoop, takes, Bool.false_eq_true, if_false] at hr ⊢
        split_ifs at hr ⊢ with h
        · have hrest : takes false sanity (data.length - wrote) es = 0 := by
            rcases h with rfl | h
            · exact takes_no_tries _ _ _
            · rw [Nat.sub_eq_zero_of_le h, takes_zero]
          rw [hrest, Nat.add_zero]
        · exact ih hr
      | failed err =>
        simp only [sendLoop, takes] at hr ⊢
        by_cases hw : err.isWant = true
        · rw [if_pos hw]
          split_ifs at hr ⊢
          · cases hr
          · exact ih hr
        · rw [if_pos (.inl hw)] at hr
          cases hr

/-- The loop around `send` returns the length of the buffer for the whole of it. -/
theorem sendLoop_whole (hwrote : wrote < data.length)
    (hall : wrote + takes false sanity (data.length - wrote) es = data.length) :
    (sendLoop data sanity wrote acc es).r = data.length := by
  induction sanity generalizing wrote acc es with
  | zero => exact absurd hall (Nat.ne_of_lt hwrote)
  | succ sanity ih =>
    cases es with
    | nil => exact absurd hall (Nat.ne_of_lt hwrote)
    | cons e es =>
      cases e with
      | accept k =>
        simp only [sendLoop, takes, Bool.false_eq_true, false_and, if_false] at hall ⊢
        generalize min (requestSize (data.length - wrote)) k = r at hall ⊢
        rw [← Nat.add_assoc, ← Nat.sub_add_eq] at hall
        split_ifs with h
        · have hrest : takes false sanity (data.length - (wrote + r)) es = 0 := by
            rcases h with rfl | h
            · exact takes_no_tries _ _ _
            · rw [Nat.sub_eq_zero_of_le h, takes_zero]
          rw [hrest, Nat.add_zero] at hall
          rw [hall]
        · rw [not_or, not_le] at h
          exact ih h.2 hall
      | zero err =>
        simp only [sendLoop, takes, Bool.false_eq_true, if_false] at hall ⊢
        by_cases hs : sanity = 0
        · rw [hs, takes_no_tries] at hall
          exact absurd hall (Nat.ne_of_lt hwrote)
        · rw [if_neg (not_or.2 ⟨hs, Nat.not_le.2 hwrote⟩)]
          exact ih hwrote hall
      | failed err =>
        simp only [sendLoop, takes] at hall ⊢
        by_cases hw : err.isWant = true
        · rw [if_pos hw] at hall
          by_cases hs : sanity = 0
          · rw [hs, takes_no_tries] at hall
            exact absurd hall (Nat.ne_of_lt hwrote)
          · rw [if_neg (not_or.2 ⟨not_not_intro hw, not_or.2 ⟨hs, Nat.not_le.2 hwrote⟩⟩)]
            exact ih hwrote hall
        · rw [if_neg hw] at hall
          exact absurd hall (Nat.ne_of_lt hwrote)

/-- The result of the loop around `SSL_write`, if it is no error. -/
theorem sslWriteLoop_r (hr : 0 ≤ (sslWriteLoop data sanity wrote acc es).r) :
    (sslWriteLoop data sanity wrote acc es).r =
      (wrote + takes true sanity (data.length - wrote) es : ℕ) := by
  have hcode (err : IoError) : ¬0 ≤ if err = .none then -1 else -err.code := by
    cases err <;> decide
  induction sanity generalizing wrote acc es with
  | zero => cases hr
  | succ sanity ih =>
    cases es with
    | nil => cases hr
    | cons e es =>
      cases e with
      | accept k =>
        simp only [sslWriteLoop, takes, true_and] at hr ⊢
        generalize min (requestSize (data.length - wrote)) k = r at hr ⊢
        by_cases hrefused : Refused true (data.length - wrote)
        · rw [if_pos hrefused] at hr
          cases hr
        by_cases h0 : r = 0
        · rw [if_neg hrefused, if_pos h0] at hr
          cases hr
        rw [if_neg hrefused, if_neg h0] at hr ⊢
        rw [if_neg (not_or.2 ⟨hrefused, h0⟩), ← Nat.add_assoc, ← Nat.sub_add_eq]
        split_ifs at hr ⊢ with hs h
        · cases hr
        · rw [Nat.sub_eq_zero_of_le h, takes_zero, Nat.add_zero]
        · exact ih hr
      | zero err => cases hr
      | failed err =>
        simp only [sslWriteLoop, takes] at hr ⊢
        by_cases hw : err.isWant = true
        · rw [if_neg (not_not_intro hw)] at hr ⊢
          rw [if_pos hw]
          split_ifs at hr ⊢
          · cases hr
          · cases hr
          · exact ih hr
        · rw [if_pos hw] at hr
          exact absurd hr (hcode err)

/-- The last of the tries at `SSL_write` ends in an error, whatever it has written. -/
theorem sslWriteLoop_last : (sslWriteLoop data 1 wrote acc es).r < 0 := by
  cases es with
  | nil => exact Int.negSucc_lt_zero 4
  | cons e es =>
    cases e with
    | accept k =>
      simp only [sslWriteLoop]
      split_ifs <;> exact Int.negSucc_lt_zero _
    | zero err => exact Int.negSucc_lt_zero 41
    | failed err => cases err <;> exact Int.negSucc_lt_zero _

/-- The loop around `SSL_write` returns the length of the buffer for the whole of it, unless
    the last try was needed. -/
theorem sslWriteLoop_whole (hwrote : wrote < data.length)
    (hall : wrote + takes true (sanity + 1) (data.length - wrote) es = data.length) :
    (sslWriteLoop data (sanity + 1) wrote acc es).r = data.length ↔
      takes true sanity (data.length - wrote) es = data.length - wrote := by
  induction sanity generalizing wrote acc es with
  | zero =>
    have hne : ¬takes true 0 (data.length - wrote) es = data.length - wrote := by
      rw [takes_no_tries]
      omega
    exact iff_of_false (sslWriteLoop_last.trans_le (Int.natCast_nonneg _)).ne hne
  | succ sanity ih =>
    cases es with
    | nil => exact absurd hall (Nat.ne_of_lt hwrote)
    | cons e es =>
      cases e with
      -- Some bytes are taken, and the tries go on with the rest.
      | accept k =>
        rw [sslWriteLoop, takes]
        rw [takes] at hall
        dsimp only at hall ⊢
        generalize min (requestSize (data.length - wrote)) k = r at hall ⊢
        by_cases hrefused : Refused true (data.length - wrote)
        · rw [if_pos ⟨rfl, .inl hrefused⟩] at hall
          exact absurd hall (Nat.ne_of_lt hwrote)
        by_cases h0 : r = 0
        · rw [if_pos ⟨rfl, .inr h0⟩] at hall
          exact absurd hall (Nat.ne_of_lt hwrote)
        have hgo : ¬(true = true ∧ (Refused true (data.length - wrote) ∨ r = 0)) :=
          fun h => h.2.elim hrefused h0
        rw [if_neg hgo, ← Nat.add_assoc, ← Nat.sub_add_eq] at hall
        rw [if_neg hrefused, if_neg h0, if_neg hgo, if_neg (Nat.succ_ne_zero _), ← Nat.sub_add_eq]
        split_ifs with h
        · have hr : wrote + r = data.length :=
            Nat.le_antisymm ((Nat.le_add_right _ _).trans_eq hall) h
          rw [Nat.sub_eq_zero_of_le h, takes_zero, hr]
          exact iff_of_true rfl (by omega)
        · rw [not_le] at h
          rw [ih h hall]
          omega
      | zero err => exact absurd hall (Nat.ne_of_lt hwrote)
      -- A call that wants to be made again costs a try, any other error ends the loop.
      | failed err =>
        rw [sslWriteLoop, takes]
        rw [takes] at hall
        by_cases hw : err.isWant = true
        · rw [if_pos hw] at hall ⊢
          rw [if_neg (not_not_intro hw), if_neg (Nat.succ_ne_zero _), if_neg (Nat.not_le.2 hwrote)]
          exact ih hwrote hall
        · rw [if_neg hw] at hall
          exact absurd hall (Nat.ne_of_lt hwrote)

/-- The next answer is no error. -/
def Answered : List WriteEvent → Prop
  | [] => False
  | .failed _ :: _ => False
  | _ => True

instance : DecidablePred Answered
  | [] => isFalse id
  | .accept _ :: _ => isTrue trivial
  | .zero _ :: _ => isTrue trivial
  | .failed _ :: _ => isFalse id

/-- `SSL_write` takes no empty buffer. -/
theorem sslWriteLoop_empty : (sslWriteLoop [] (sanity + 1) 0 [] es).r < 0 := by
  cases es with
  | nil => exact Int.negSucc_lt_zero 4
  | cons e es =>
    cases e with
    | accept k => exact Int.negSucc_lt_zero 41
    | zero err => exact Int.negSucc_lt_zero 41
    | failed err =>
      rw [sslWriteLoop]
      by_cases hw : err.isWant = true
      · rw [if_neg (not_not_intro hw)]
        split_ifs
        · exact Int.negSucc_lt_zero 55
        · exact Int.negSucc_lt_zero 0
        · exact absurd (Nat.zero_le 0) ‹_›
      · rw [if_pos hw]
        cases err <;> exact Int.negSucc_lt_zero _

/-- An empty buffer takes one `send`. -/
theorem sendLoop_empty : (sendLoop [] (sanity + 1) 0 [] es).r = 0 ↔ Answered es := by
  cases es with
  | nil => exact iff_of_false (Int.negSucc_lt_zero 0).ne id
  | cons e es =>
    cases e with
    | accept k =>
      have hr : min (requestSize 0) k = 0 := Nat.zero_min k
      simp [sendLoop, Answered, hr]
    | zero err => simp [sendLoop, Answered]
    | failed err => simp [sendLoop, Answered]

namespace Kws

variable {k : Kws}

/-- The call hands over a part of the buffer from its start. The result, if no error, is
    the length of that part, and it is the length of the buffer for the whole of it. -/
def Told (k : Kws) (data : List UInt8) : Prop :=
  ∃ accepted, (k.rawWrite data).2.world.sent = k.world.sent ++ accepted ∧ accepted <+: data ∧
    (0 ≤ (k.rawWrite data).1 → (k.rawWrite data).1 = accepted.length) ∧
    (accepted = data → (k.rawWrite data).1 = data.length)

/-- A TLS session is given no empty buffer, and it does not take the last bytes of one on
    the last of the tries. A socket answers the call for an empty buffer with no error. -/
def InTime (k : Kws) (data : List UInt8) : Prop :=
  if k.ssl then
    data ≠ [] ∧ (takes true wsWriteSanity data.length k.world.writes = data.length →
      takes true (wsWriteSanity - 1) data.length k.world.writes = data.length)
  else data = [] → Answered k.world.writes

instance (k : Kws) (data : List UInt8) : Decidable (InTime k data) :=
  inferInstanceAs (Decidable (ite _ _ _))

/-- The result of the call is not the length of a part of the buffer other than the one
    handed over. -/
theorem rawWrite_r (hr : 0 ≤ (k.rawWrite data).1) :
    (k.rawWrite data).1 = takes k.ssl wsWriteSanity data.length k.world.writes := by
  rw [rawWrite] at hr ⊢
  cases hssl : k.ssl with
  | true =>
    rw [hssl, if_pos rfl] at hr
    rw [if_pos rfl]
    simpa using sslWriteLoop_r hr
  | false =>
    rw [hssl, if_neg Bool.false_ne_true] at hr
    rw [if_neg Bool.false_ne_true]
    simpa using sendLoop_r hr

/-- The call for a buffer that is handed over as a whole returns its length in the cases
    of `InTime`. -/
theorem rawWrite_whole
    (hall : takes k.ssl wsWriteSanity data.length k.world.writes = data.length) :
    (k.rawWrite data).1 = data.length ↔ InTime k data := by
  rw [rawWrite, InTime]
  cases hssl : k.ssl with
  | true =>
    rw [hssl] at hall
    simp only [if_true]
    by_cases hnil : data = []
    · rw [hnil]
      exact iff_of_false sslWriteLoop_empty.ne fun h => h.1 rfl
    · have hpos : 0 < data.length := List.length_pos_of_ne_nil hnil
      have hall : 0 + takes true wsWriteSanity (data.length - 0) k.world.writes = data.length := by
        rwa [Nat.zero_add, Nat.sub_zero]
      refine (sslWriteLoop_whole hpos hall).trans ?_
      rw [Nat.sub_zero]
      rw [Nat.zero_add, Nat.sub_zero] at hall
      exact ⟨fun h => ⟨hnil, fun _ => h⟩, fun h => h.2 hall⟩
  | false =>
    rw [hssl] at hall
    simp only [Bool.false_eq_true, if_false]
    by_cases hnil : data = []
    · rw [hnil]
      exact sendLoop_empty.trans ⟨fun h _ => h, fun h => h rfl⟩
    · have hpos : 0 < data.length := List.length_pos_of_ne_nil hnil
      have hall : 0 + takes false wsWriteSanity (data.length - 0) k.world.writes = data.length := by
        rwa [Nat.zero_add, Nat.sub_zero]
      exact iff_of_true (sendLoop_whole hpos hall) fun h => absurd h hnil

theorem told_iff_whole :
    Told k data ↔ (takes k.ssl wsWriteSanity data.length k.world.writes = data.length →
      (k.rawWrite data).1 = data.length) := by
  have hsent := rawWrite_sent k data
  set t := takes k.ssl wsWriteSanity data.length k.world.writes with ht
  have hle : t ≤ data.length := takes_le _ _ _ _
  constructor
  · rintro ⟨accepted, hacc, -, -, hwhole⟩ hall
    rw [hsent, hall, List.take_length, List.append_cancel_left_eq] at hacc
    exact hwhole hacc.symm
  · intro hwhole
    refine ⟨data.take t, hsent, List.take_prefix _ _, fun hr => ?_, fun hacc => hwhole ?_⟩
    · rw [rawWrite_r hr, List.length_take_of_le hle]
    · rw [← List.length_take_of_le hle, hacc]

/-- What a call tells of the bytes handed over is right just in the cases of `InTime`. -/
theorem rawWrite_told_iff (k : Kws) (data : List UInt8) : Told k data ↔ InTime k data := by
  rw [told_iff_whole]
  by_cases hall : takes k.ssl wsWriteSanity data.length k.world.writes = data.length
  · rw [← rawWrite_whole hall]
    exact ⟨fun h => h hall, fun h _ => h⟩
  · refine iff_of_true (fun h => absurd h hall) ?_
    have hne : data ≠ [] := by
      rintro rfl
      exact hall (takes_zero _ _ _)
    rw [InTime]
    split_ifs with hssl
    · rw [hssl] at hall
      exact ⟨hne, fun h => absurd h hall⟩
    · exact fun h => absurd h hne

/-- A TLS session that blocks for all tries but the last, on which it takes the text. -/
theorem rawWrite_untold :
    ¬Told
      { ssl := true
        world := { writes := List.replicate 199 (.failed .wantWrite) ++ [.accept 2] } }
      [72, 105] := by
  rw [told_iff_whole]
  decide +kernel

end Kws

end Libks
