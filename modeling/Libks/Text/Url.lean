import Libks.Base.CString
import Libks.Base.Memory
import Libks.Base.Outcome
import Libks.Base.Percent
import Libks.Base.Word
import Libks.Fault

/-!
# URL encoding

`ks_url_decode` decodes in place: it reads at `s` and stores at `o`, which never
passes `s`, so that what it reads is what was there (`urlDecodeLoop_str`). What
it stores is what `percentDecode` gives if the scanner of the C library takes no
`%` that is not followed by two digits (`ProperEscapes`).

`ks_url_encode` encodes into a buffer and stops where the next byte does not
fit. It indexes its digits with a `char`, which is negative from 128 on.
-/

namespace Libks

open Base

/-! ## Decoding -/

/-- The loop of `ks_url_decode`, on a block of `size` bytes. -/
def urlDecodeLoop (size : ℕ) : ℕ → Mem → ℕ → ℕ → Except Fault (Mem × ℕ)
  | 0, _, _, _ => .error .outOfFuel
  | fuel + 1, m, s, o =>
    if size ≤ s then .error .outOfBounds
    else if m s = 0 then .ok (m.write o [0], s)
    else
      let t := m.strAt (size - s) s
      -- `strlen` has to find a terminator.
      if m s = 37 ∧ size - s ≤ t.length then .error .outOfBounds
      else match if m s = 37 ∧ 2 < t.length then scanHex2 t.tail else none with
      | some tmp => urlDecodeLoop size fuel (m.write o [tmp]) (s + 3) (o + 1)
      | none => urlDecodeLoop size fuel (m.write o [m s]) (s + 1) (o + 1)

/-- `ks_url_decode`, with the pointer it returns. -/
def ksUrlDecode (size : ℕ) (m : Mem) (s : ℕ) : Except Fault (Mem × ℕ) :=
  urlDecodeLoop size (size + 1) m s s

/-- The string `ks_url_decode` makes of a string. -/
def urlDecode : List UInt8 → List UInt8 := decodeWith scanHex2

/-- One round of the loop, at a byte of the string. -/
theorem urlDecodeLoop_cons {size fuel s o : ℕ} {m : Mem} {c : UInt8} {t : List UInt8}
    (h : m.IsStr s (c :: t)) (hsize : s + (c :: t).length < size) :
    urlDecodeLoop size (fuel + 1) m s o =
      match if c = 37 ∧ 2 < t.length + 1 then scanHex2 t else none with
      | some tmp => urlDecodeLoop size fuel (m.write o [tmp]) (s + 3) (o + 1)
      | none => urlDecodeLoop size fuel (m.write o [c]) (s + 1) (o + 1) := by
  obtain ⟨hc, h0, -⟩ := Mem.isStr_cons_iff.1 h
  rw [urlDecodeLoop, if_neg (by omega), if_neg (by rwa [hc]),
    Mem.strAt_eq h (show (c :: t).length < size - s by omega)]
  dsimp only
  rw [if_neg fun hn => absurd hn.2 (by omega), hc, List.length_cons, List.tail_cons]

/-- The loop decodes the string over itself: what it writes is never ahead of what it reads. -/
theorem urlDecodeLoop_str {size fuel s o : ℕ} {m : Mem} {t : List UInt8} (h : m.IsStr s t)
    (hsize : s + t.length < size) (ho : o ≤ s) (hfuel : t.length < fuel) :
    urlDecodeLoop size fuel m s o = .ok (m.write o (urlDecode t ++ [0]), s + t.length) := by
  induction fuel generalizing m s o t with
  | zero => exact absurd hfuel (Nat.not_lt_zero _)
  | succ fuel ih =>
    -- A byte is stored, and the rest of the string is not touched by it.
    have hstep {c v : UInt8} {t r : List UInt8} {n : ℕ} (ht : m.IsStr s (c :: t))
        (hn : n ≤ t.length) (hr : t.drop n = r) (hsz : s + (c :: t).length < size)
        (hf : (c :: t).length < fuel + 1) :
        urlDecodeLoop size fuel (m.write o [v]) (s + (n + 1)) (o + 1) =
          .ok (m.write o (v :: urlDecode r ++ [0]), s + (c :: t).length) := by
      subst hr
      have htail : (m.write o [v]).IsStr (s + 1 + n) (t.drop n) :=
        (ht.tail.drop hn).write_of_disjoint (.inl (by simp; omega))
      rw [List.length_cons] at hsz hf
      have hlen : (t.drop n).length = t.length - n := List.length_drop
      rw [Nat.add_comm n, ← Nat.add_assoc,
        ih htail (by omega) (by omega) (by omega), hlen, List.length_cons]
      have hw := Mem.write_write m o [v] (urlDecode (t.drop n) ++ [0])
      rw [List.length_singleton] at hw
      rw [hw, List.singleton_append, List.cons_append]
      congr 2
      omega
    match t with
    | [] =>
      rw [urlDecodeLoop, if_neg (by simpa using hsize), if_pos (Mem.isStr_nil_iff.1 h)]
      rfl
    | [c] =>
      rw [urlDecodeLoop_cons h hsize, if_neg (by simp)]
      exact hstep h (Nat.zero_le _) rfl hsize hfuel
    | [c, a] =>
      rw [urlDecodeLoop_cons h hsize, if_neg (by simp)]
      exact hstep h (Nat.zero_le _) rfl hsize hfuel
    | c :: a :: b :: t =>
      rw [urlDecodeLoop_cons h hsize]
      by_cases hc : c = 37
      · subst hc
        rw [if_pos ⟨rfl, by simp⟩, urlDecode]
        cases hscan : scanHex2 (a :: b :: t) with
        | some v =>
          rw [decodeWith_some hscan]
          exact hstep h (n := 2) (by simp) rfl hsize hfuel
        | none =>
          rw [decodeWith_none hscan]
          exact hstep h (Nat.zero_le _) rfl hsize hfuel
      · rw [if_neg fun h => hc h.1, urlDecode, decodeWith_cons_of_ne hc]
        exact hstep h (Nat.zero_le _) rfl hsize hfuel

/-- `ks_url_decode` stores the decoded string where the string stood, and stops
    at its terminator. -/
theorem ksUrlDecode_str {size s : ℕ} {m : Mem} {t : List UInt8} (h : m.IsStr s t)
    (hsize : s + t.length < size) :
    ksUrlDecode size m s = .ok (m.write s (urlDecode t ++ [0]), s + t.length) :=
  urlDecodeLoop_str h hsize le_rfl (by omega)

/-! ## What the scanner takes besides two digits -/

/-- Wherever the scan meets a `%` with at least two bytes behind it, two digits
    stand there, or the scanner refuses what does. -/
def ProperEscapes : List UInt8 → Prop
  | [] | [_] | [_, _] => True
  | c :: a :: b :: s =>
    if c = 37 then
      if (hexByte a b).isSome then ProperEscapes s
      else scanHex2 (a :: b :: s) = none ∧ ProperEscapes (a :: b :: s)
    else ProperEscapes (a :: b :: s)

/-- Two lists that do not have the same byte at some place. -/
def Apart (l l' : List UInt8) : Prop :=
  ∃ (i : ℕ) (x y : UInt8), l[i]? = some x ∧ l'[i]? = some y ∧ x ≠ y

/-- Lists that differ do so behind one more byte. -/
theorem Apart.cons {c : UInt8} {l l' : List UInt8} (h : Apart l l') : Apart (c :: l) (c :: l') := by
  obtain ⟨i, x, y, hx, hy, hne⟩ := h
  exact ⟨i + 1, x, y, by simpa using hx, by simpa using hy, hne⟩

/-- Lists with different first bytes. -/
theorem apart_of_head {c d : UInt8} {l l' : List UInt8} (h : c ≠ d) : Apart (c :: l) (d :: l') :=
  ⟨0, c, d, rfl, rfl, h⟩

/-- The byte `c` comes in the one list where the other has bytes that are not `c`. -/
theorem apart_of_notMem {c : UInt8} {u v l l' : List UInt8} (hlen : u.length < v.length)
    (hc : c ∉ v) : Apart (u ++ c :: l) (v ++ l') := by
  refine ⟨u.length, c, v[u.length], ?_, ?_, fun h => hc (h ▸ List.getElem_mem hlen)⟩
  · rw [List.getElem?_append_right le_rfl, Nat.sub_self]
    rfl
  · rw [List.getElem?_append_left hlen, List.getElem?_eq_getElem hlen]

/-- Strings written at the same place that are apart leave different memories. -/
theorem Apart.write_ne {l l' : List UInt8} (h : Apart l l') (m : Mem) (p : ℕ) (r r' : List UInt8) :
    m.write p (l ++ r) ≠ m.write p (l' ++ r') := by
  obtain ⟨i, x, y, hx, hy, hne⟩ := h
  intro heq
  obtain ⟨hi, rfl⟩ := List.getElem?_eq_some_iff.1 hx
  obtain ⟨hi', rfl⟩ := List.getElem?_eq_some_iff.1 hy
  have hread {l r : List UInt8} (hl : i < l.length) : m.write p (l ++ r) (p + i) = l[i] := by
    rw [Mem.write_apply_of_mem (Nat.le_add_right p i) (by rw [List.length_append]; omega)]
    simp [hl]
  exact hne ((hread hi).symm.trans ((congrFun heq (p + i)).trans (hread hi')))

/-- A `%` with two bytes behind it, as both decoders take it. -/
theorem properEscapes_percent {a b : UInt8} {s : List UInt8} :
    ProperEscapes (37 :: a :: b :: s) ↔
      if (hexByte a b).isSome then ProperEscapes s
      else scanHex2 (a :: b :: s) = none ∧ ProperEscapes (a :: b :: s) := by
  rw [ProperEscapes, if_pos rfl]

theorem properEscapes_cons_of_ne {c : UInt8} {s : List UInt8} (hc : c ≠ 37) :
    ProperEscapes (c :: s) ↔ ProperEscapes s := by
  match s with
  | [] | [_] => exact Iff.rfl
  | a :: b :: s => rw [ProperEscapes, if_neg hc]

/-- With proper escapes only, the decoder is that of the standard. -/
theorem urlDecode_of_properEscapes : ∀ {t}, ProperEscapes t → urlDecode t = percentDecode t
  | [], _ | [_], _ | [_, _], _ => rfl
  | c :: a :: b :: s, h => by
    rw [urlDecode, percentDecode]
    by_cases hc : c = 37
    · subst hc
      rw [properEscapes_percent] at h
      cases hhex : hexByte a b with
      | some v =>
        rw [hhex] at h
        rw [decodeWith_some (scanHex2_of_hexByte hhex s),
          decodeWith_some (show twoDigits (a :: b :: s) = some v from hhex)]
        exact congrArg (v :: ·) (urlDecode_of_properEscapes h)
      | none =>
        rw [hhex] at h
        rw [decodeWith_none h.1, decodeWith_none (show twoDigits (a :: b :: s) = none from hhex)]
        exact congrArg (37 :: ·) (urlDecode_of_properEscapes h.2)
    · rw [properEscapes_cons_of_ne hc] at h
      rw [decodeWith_cons_of_ne hc, decodeWith_cons_of_ne hc]
      exact congrArg (c :: ·) (urlDecode_of_properEscapes h)

/-- White space that is taken as part of an escape is lost, though the byte
    found is the `%` itself. -/
theorem apart_of_percent {a b : UInt8} {s : List UInt8} (hscan : scanHex2 (a :: b :: s) = some 37)
    (hhex : hexByte a b = none) : Apart (urlDecode s) (percentDecode (a :: b :: s)) := by
  obtain ⟨ws, r, hs, hws⟩ := scanHex2_eq_percent hscan
  -- The white space, and the two digits behind it, stay as they are.
  have hnotMem {c : UInt8} (hc : isSpace c = false) {us : List UInt8} (hus : ∀ c ∈ us, isSpace c) :
      c ∉ us := fun hmem => absurd (hus c hmem) (by simp [hc])
  have hkeep (scan : List UInt8 → Option UInt8) {us : List UInt8} (hus : ∀ c ∈ us, isSpace c) :
      decodeWith scan (us ++ 50 :: 53 :: r) = us ++ 50 :: 53 :: decodeWith scan r := by
    rw [decodeWith_append_of_notMem (hnotMem rfl hus), decodeWith_cons_of_ne (by decide),
      decodeWith_cons_of_ne (by decide)]
  rw [percentDecode, hs, hkeep twoDigits hws, urlDecode]
  match ws with
  | [] =>
    obtain ⟨rfl, rfl, -⟩ : a = 50 ∧ b = 53 ∧ s = r := by simpa using hs
    cases hhex
  | [w] =>
    obtain ⟨-, -, rfl⟩ : a = w ∧ b = 50 ∧ s = 53 :: r := by simpa using hs
    rw [decodeWith_cons_of_ne (by decide)]
    exact apart_of_notMem (u := []) (by simp) (hnotMem rfl hws)
  | w :: w' :: ws =>
    obtain ⟨-, -, rfl⟩ : a = w ∧ b = w' ∧ s = ws ++ 50 :: 53 :: r := by simpa using hs
    rw [hkeep scanHex2 fun c hc => hws c (by simp [hc])]
    exact apart_of_notMem (Nat.lt_succ_of_lt (Nat.lt_succ_self _)) (hnotMem rfl hws)

/-- An improper escape makes the two decoders differ. -/
theorem apart_of_not_properEscapes :
    ∀ {t}, ¬ProperEscapes t → Apart (urlDecode t) (percentDecode t)
  | [], h | [_], h | [_, _], h => absurd trivial h
  | c :: a :: b :: s, h => by
    rw [urlDecode, percentDecode]
    by_cases hc : c = 37
    · subst hc
      rw [properEscapes_percent] at h
      cases hhex : hexByte a b with
      | some v =>
        rw [hhex] at h
        rw [decodeWith_some (scanHex2_of_hexByte hhex s),
          decodeWith_some (show twoDigits (a :: b :: s) = some v from hhex)]
        exact (apart_of_not_properEscapes h).cons
      | none =>
        rw [hhex] at h
        rw [decodeWith_none (show twoDigits (a :: b :: s) = none from hhex)]
        cases hscan : scanHex2 (a :: b :: s) with
        | none =>
          rw [decodeWith_none hscan]
          exact (apart_of_not_properEscapes fun hp => h ⟨hscan, hp⟩).cons
        | some v =>
          rw [decodeWith_some hscan]
          by_cases hv : v = 37
          · subst hv
            exact (apart_of_percent hscan hhex).cons
          · exact apart_of_head hv
    · rw [properEscapes_cons_of_ne hc] at h
      rw [decodeWith_cons_of_ne hc, decodeWith_cons_of_ne hc]
      exact (apart_of_not_properEscapes h).cons

/-- `ks_url_decode` replaces every `%` with two hexadecimal digits by the byte
    they denote, keeps every other byte, and stays in the string, if and only if
    the scanner takes no other `%` than these. -/
theorem ksUrlDecode_iff {size s : ℕ} {m : Mem} {t : List UInt8} (h : m.IsStr s t)
    (hsize : s + t.length < size) :
    (∃ e ≤ s + t.length, ksUrlDecode size m s = .ok (m.write s (percentDecode t ++ [0]), e)) ↔
      ProperEscapes t := by
  rw [ksUrlDecode_str h hsize]
  constructor
  · rintro ⟨e, -, he⟩
    by_contra hp
    exact (apart_of_not_properEscapes hp).write_ne m s [0] [0] (Prod.ext_iff.1 (Except.ok.inj he)).1
  · intro hp
    exact ⟨s + t.length, le_rfl, by rw [urlDecode_of_properEscapes hp]⟩

/-- Memory with the string at its start. -/
def stringAt0 (t : List UInt8) : Mem := Mem.write (fun _ => 0) 0 (t ++ [0])

theorem isStr_stringAt0 {t : List UInt8} (ht : 0 ∉ t) : (stringAt0 t).IsStr 0 t :=
  Mem.isStr_write _ 0 ht

theorem ksUrlDecode_iff_escapes :
    (∃ e ≤ 0 + 6, ksUrlDecode 7 (stringAt0 (ascii "%41%2f")) 0 =
        .ok ((stringAt0 (ascii "%41%2f")).write 0 (percentDecode (ascii "%41%2f") ++ [0]), e)) ↔
      ProperEscapes (ascii "%41%2f") :=
  @ksUrlDecode_iff 7 0 _ (ascii "%41%2f") (isStr_stringAt0 (by decide)) (by decide)

/-- In `%4G` a single digit is taken. -/
theorem ksUrlDecode_digit :
    ¬∃ e ≤ 3, ksUrlDecode 4 (stringAt0 (ascii "%4G")) 0 =
      .ok ((stringAt0 (ascii "%4G")).write 0 (percentDecode (ascii "%4G") ++ [0]), e) := by
  rintro ⟨e, -, he⟩
  have hbyte : okAnd (fun r => r.1 0 = 4) (ksUrlDecode 4 (stringAt0 (ascii "%4G")) 0) = true := by
    decide
  obtain ⟨r, hr, hfour⟩ := okAnd_iff.1 hbyte
  obtain rfl := Except.ok.inj (he.symm.trans hr)
  have hpercent :
      (stringAt0 (ascii "%4G")).write 0 (percentDecode (ascii "%4G") ++ [0]) 0 = 37 := by
    decide
  exact absurd (hpercent.symm.trans (of_decide_eq_true hfour)) (by decide)

/-! ## Encoding -/

/-- `urlunsafe`. -/
def urlunsafe : List UInt8 := ascii "\r\n \"#%&+:;<=>?@[\\]^`\x7b|\x7d"

/-- `hex`, with its terminator. -/
def hexChars : List UInt8 := ascii "0123456789ABCDEF" ++ [0]

/-- The value of a `char`, which is signed. -/
def charVal (c : UInt8) : ℤ := if c < 128 then c.toNat else (c.toNat : ℤ) - 256

/-- The test of `ks_url_encode` for the bytes to escape. -/
def urlUnsafe (c : UInt8) : Bool := charVal c < 32 ∨ 126 < charVal c ∨ c ∈ urlunsafe

/-- `hex[i]`. -/
def hexAt (i : ℤ) : Except Fault UInt8 :=
  if i < 0 then .error .outOfBounds
  else match hexChars[i.toNat]? with
    | some c => .ok c
    | none => .error .outOfBounds

/-- `buf[x] = c`, in a buffer of `len` bytes. -/
def putAt (len : ℕ) (buf : Mem) (x : ℕ) (c : UInt8) : Except Fault Mem :=
  if x < len then .ok (buf.write x [c]) else .error .outOfBounds

/-- The loop of `ks_url_encode`, where `room` is `len` after its decrement. -/
def urlEncodeLoop (len room : ℕ) : Mem → ℕ → List UInt8 → Except Fault (Mem × ℕ)
  | buf, x, [] => .ok (buf, x)
  | buf, x, c :: p =>
    if room ≤ x then .ok (buf, x)
    else if urlUnsafe c then
      if room ≤ x + 3 then .ok (buf, x)
      else do
        let buf ← putAt len buf x 37
        let buf ← putAt len buf (x + 1) (← hexAt (charVal c / 16))
        let buf ← putAt len buf (x + 2) (← hexAt (charVal c % 16))
        urlEncodeLoop len room buf (x + 3) p
    else do
      let buf ← putAt len buf x c
      urlEncodeLoop len room buf (x + 1) p

/-- `ks_url_encode`, on a string and a buffer that are there. -/
def ksUrlEncode (url : List UInt8) (buf : Mem) (len : ℕ) : Except Fault (Mem × ℕ) := do
  let (buf, x) ← urlEncodeLoop len (sub64 len 1) buf 0 url
  let buf ← putAt len buf x 0
  return (buf, x)

/-- A `char` below 128 is its byte. -/
theorem charVal_of_lt {c : UInt8} (hc : c < 128) : charVal c = c.toNat := if_pos hc

/-- From 128 on, a `char` is negative. -/
theorem charVal_of_ge {c : UInt8} (hc : 128 ≤ c) : charVal c = c.toNat - 256 :=
  if_neg (UInt8.not_lt.2 hc)

/-- A `char` from 128 on is negative. -/
theorem charVal_neg {c : UInt8} (hc : 128 ≤ c) : charVal c < 0 := by
  have hlt : c.toNat < 256 := c.toNat_lt
  rw [charVal_of_ge hc]
  omega

theorem charVal_emod (c : UInt8) : charVal c % 16 = (c.toNat % 16 : ℕ) := by
  rcases UInt8.lt_or_le c 128 with hc | hc
  · rw [charVal_of_lt hc, Int.natCast_mod]
    rfl
  · rw [charVal_of_ge hc]
    omega

theorem hexAt_natCast {d : ℕ} (h : d < 16) : hexAt d = .ok (hexDigit d) := by
  revert d
  decide

theorem hexAt_low (c : UInt8) : hexAt (charVal c % 16) = .ok (hexDigit (c.toNat % 16)) := by
  rw [charVal_emod, hexAt_natCast (Nat.mod_lt _ (by decide))]

/-- The high digit, for a `char` that is not negative. -/
theorem hexAt_high {c : UInt8} (hc : c < 128) :
    hexAt (charVal c / 16) = .ok (hexDigit (c.toNat / 16)) := by
  have hlt : c.toNat < 128 := UInt8.lt_iff_toNat_lt.1 hc
  rw [charVal_of_lt hc, ← hexAt_natCast (by omega)]
  rfl

/-- The digit of a negative `char` is looked up before the table. -/
theorem hexAt_high_neg {c : UInt8} (hc : 128 ≤ c) :
    hexAt (charVal c / 16) = .error .outOfBounds := by
  rw [hexAt, if_pos (Int.ediv_neg_of_neg_of_pos (charVal_neg hc) (by decide))]

/-- Bytes from 128 on are escaped. -/
theorem urlUnsafe_of_ge {c : UInt8} (hc : 128 ≤ c) : urlUnsafe c = true := by
  rw [urlUnsafe, decide_eq_true_iff]
  exact .inl ((charVal_neg hc).trans (by decide))

theorem urlUnsafe_percent : urlUnsafe 37 = true := by decide

/-! ### The loop -/

section Loop

variable {len room x : ℕ} {buf : Mem} {c : UInt8} {p : List UInt8}

theorem putAt_of_lt (h : x < len) : putAt len buf x c = .ok (buf.write x [c]) := if_pos h

/-- An escape takes three places. -/
theorem urlEncodeLoop_escape (hroom : room < len) (hx : x + 3 < room) (hu : urlUnsafe c = true)
    (hc : c < 128) :
    urlEncodeLoop len room buf x (c :: p) =
      urlEncodeLoop len room
        (buf.write x [37, hexDigit (c.toNat / 16), hexDigit (c.toNat % 16)]) (x + 3) p := by
  rw [urlEncodeLoop, if_neg (by omega), if_pos hu, if_neg (by omega), putAt_of_lt (by omega),
    hexAt_high hc, hexAt_low, ok_bind, ok_bind, putAt_of_lt (by omega), ok_bind, ok_bind,
    putAt_of_lt (by omega), ok_bind]
  have h₁ := Mem.write_write buf x [37] [hexDigit (c.toNat / 16)]
  have h₂ := Mem.write_write buf x [37, hexDigit (c.toNat / 16)] [hexDigit (c.toNat % 16)]
  rw [List.length_singleton, List.singleton_append] at h₁
  rw [h₁]
  exact congrArg (urlEncodeLoop len room · (x + 3) p) h₂

/-- A negative `char` indexes in front of the digits. -/
theorem urlEncodeLoop_negative (hroom : room < len) (hx : x + 3 < room) (hc : 128 ≤ c) :
    urlEncodeLoop len room buf x (c :: p) = .error .outOfBounds := by
  rw [urlEncodeLoop, if_neg (by omega), if_pos (urlUnsafe_of_ge hc), if_neg (by omega),
    putAt_of_lt (by omega), ok_bind, hexAt_high_neg hc, error_bind]

/-- A safe byte takes one place. -/
theorem urlEncodeLoop_safe (hroom : room < len) (hx : x < room) (hu : urlUnsafe c = false) :
    urlEncodeLoop len room buf x (c :: p) =
      urlEncodeLoop len room (buf.write x [c]) (x + 1) p := by
  rw [urlEncodeLoop, if_neg (by omega), if_neg (by rw [hu]; exact Bool.false_ne_true),
    putAt_of_lt (by omega), ok_bind]

/-- Where no `char` below 0 is reached with room for its escape, the loop writes
    the encoding of the start of the string that fits. -/
theorem urlEncodeLoop_ok {s : List UInt8} (hroom : room < len) (hx : x ≤ room)
    (h : ∀ u b v, s = u ++ b :: v → 128 ≤ b →
      room ≤ x + (percentEncode urlUnsafe u).length + 3) :
    ∃ u, u <+: s ∧ x + (percentEncode urlUnsafe u).length ≤ room ∧
      urlEncodeLoop len room buf x s =
        .ok (buf.write x (percentEncode urlUnsafe u), x + (percentEncode urlUnsafe u).length) ∧
      (x + 3 * s.length + 1 ≤ room → u = s) := by
  induction s generalizing x buf with
  | nil => exact ⟨[], List.nil_prefix, hx, by simp [urlEncodeLoop, percentEncode], fun _ => rfl⟩
  | cons c p ih =>
    -- The loop stops here: nothing more is written.
    have hstop (hfull : room < x + 3 * (c :: p).length + 1)
        (hloop : urlEncodeLoop len room buf x (c :: p) = .ok (buf, x)) :
        ∃ u, u <+: c :: p ∧ x + (percentEncode urlUnsafe u).length ≤ room ∧
          urlEncodeLoop len room buf x (c :: p) =
            .ok (buf.write x (percentEncode urlUnsafe u), x + (percentEncode urlUnsafe u).length) ∧
          (x + 3 * (c :: p).length + 1 ≤ room → u = c :: p) :=
      ⟨[], List.nil_prefix, hx, by simpa [percentEncode] using hloop,
        fun hle => absurd hle (Nat.not_le.2 hfull)⟩
    rw [List.length_cons] at hstop
    by_cases hfull : room ≤ x
    · exact hstop (by omega) (by rw [urlEncodeLoop, if_pos hfull])
    -- An escape takes three places, a safe byte takes one.
    cases hu : urlUnsafe c with
    | true =>
      by_cases hesc : room ≤ x + 3
      · exact hstop (by omega) (by rw [urlEncodeLoop, if_neg hfull, if_pos hu, if_pos hesc])
      have hc : c < 128 := by
        by_contra hc
        exact hesc (h [] c p rfl (UInt8.not_lt.1 hc))
      have hlen (u : List UInt8) :
          x + (percentEncode urlUnsafe (c :: u)).length =
            x + 3 + (percentEncode urlUnsafe u).length := by
        rw [percentEncode_of_escaped hu, List.length_cons, List.length_cons, List.length_cons]
        omega
      obtain ⟨u, hpre, hle, hrun, hall⟩ := @ih (x + 3)
        (buf.write x [37, hexDigit (c.toNat / 16), hexDigit (c.toNat % 16)]) (by omega)
        fun u b v hs hb => by
          rw [← hlen]
          exact h (c :: u) b v (by rw [hs, List.cons_append]) hb
      refine ⟨c :: u, List.cons_prefix_cons.2 ⟨rfl, hpre⟩, by rwa [hlen], ?_, fun hle => ?_⟩
      · rw [urlEncodeLoop_escape hroom (by omega) hu hc, hrun, hlen, percentEncode_of_escaped hu]
        exact congrArg (fun m => Except.ok (m, _)) (Mem.write_write buf x
          [37, hexDigit (c.toNat / 16), hexDigit (c.toNat % 16)] (percentEncode urlUnsafe u))
      · rw [List.length_cons] at hle
        rw [hall (by omega)]
    | false =>
      have hlen (u : List UInt8) :
          x + (percentEncode urlUnsafe (c :: u)).length =
            x + 1 + (percentEncode urlUnsafe u).length := by
        rw [percentEncode_of_safe hu, List.length_cons]
        omega
      obtain ⟨u, hpre, hle, hrun, hall⟩ := @ih (x + 1) (buf.write x [c]) (by omega)
        fun u b v hs hb => by
          rw [← hlen]
          exact h (c :: u) b v (by rw [hs, List.cons_append]) hb
      refine ⟨c :: u, List.cons_prefix_cons.2 ⟨rfl, hpre⟩, by rwa [hlen], ?_, fun hle => ?_⟩
      · rw [urlEncodeLoop_safe hroom (by omega) hu, hrun, hlen, percentEncode_of_safe hu]
        exact congrArg (fun m => Except.ok (m, _))
          (Mem.write_write buf x [c] (percentEncode urlUnsafe u))
      · rw [List.length_cons] at hle
        rw [hall (by omega)]

/-- Where one is reached, it is looked up out of the table. -/
theorem urlEncodeLoop_error {u v : List UInt8} {b : UInt8} (hroom : room < len) (hb : 128 ≤ b)
    (h : x + (percentEncode urlUnsafe u).length + 3 < room) :
    urlEncodeLoop len room buf x (u ++ b :: v) = .error .outOfBounds := by
  induction u generalizing x buf with
  | nil => exact urlEncodeLoop_negative hroom h hb
  | cons c u ih =>
    rw [List.cons_append]
    cases hu : urlUnsafe c with
    | true =>
      rw [percentEncode_of_escaped hu, List.length_cons, List.length_cons, List.length_cons] at h
      rcases UInt8.lt_or_le c 128 with hc | hc
      · rw [urlEncodeLoop_escape hroom (by omega) hu hc, ih (by omega)]
      · exact urlEncodeLoop_negative hroom (by omega) hc
    | false =>
      rw [percentEncode_of_safe hu, List.length_cons] at h
      rw [urlEncodeLoop_safe hroom (by omega) hu, ih (by omega)]

end Loop

/-! ### The encoder -/

theorem ksUrlEncode_error {len : ℕ} {u v : List UInt8} {b : UInt8} (hlen : 1 ≤ len)
    (h64 : len < 2 ^ 64) (hb : 128 ≤ b) (h : (percentEncode urlUnsafe u).length + 4 < len)
    (buf : Mem) : ksUrlEncode (u ++ b :: v) buf len = .error .outOfBounds := by
  rw [ksUrlEncode, sub64_of_le hlen h64, urlEncodeLoop_error (by omega) hb (by omega), error_bind]

/-- The encoding decodes to what was encoded. -/
theorem urlDecode_percentEncode (s : List UInt8) : urlDecode (percentEncode urlUnsafe s) = s := by
  have h := (encoded_percentEncode s).decodeWith_append urlUnsafe_percent
    (fun _ _ _ s hhex => scanHex2_of_hexByte hhex s) []
  rw [List.append_nil] at h
  exact h.trans (List.append_nil s)

/-- `ks_url_encode` writes the encoding of the start of the string that fits, with
    its terminator, and returns its length, and `ks_url_decode` undoes it if it
    is the whole string: if and only if no byte from 128 on is reached with room
    for its escape. -/
theorem ksUrlEncode_iff {s : List UInt8} {len : ℕ} (hs : 0 ∉ s) (hlen : 1 ≤ len)
    (h64 : len < 2 ^ 64) (buf : Mem) :
    (∃ u buf', u <+: s ∧ (percentEncode urlUnsafe u).length < len ∧
      buf' = buf.write 0 (percentEncode urlUnsafe u ++ [0]) ∧
      ksUrlEncode s buf len = .ok (buf', (percentEncode urlUnsafe u).length) ∧
      (3 * s.length + 2 ≤ len →
        u = s ∧ ∃ e, ksUrlDecode len buf' 0 = .ok (buf'.write 0 (s ++ [0]), e))) ↔
      ∀ u b v, s = u ++ b :: v → 128 ≤ b → len ≤ (percentEncode urlUnsafe u).length + 4 := by
  constructor
  · rintro ⟨_, _, -, -, -, hrun, -⟩ u b v rfl hb
    by_contra hlt
    rw [ksUrlEncode_error hlen h64 hb (by omega)] at hrun
    cases hrun
  · intro h
    obtain ⟨u, hpre, hle, hrun, hall⟩ := @urlEncodeLoop_ok len (len - 1) 0 buf s (by omega)
      (Nat.zero_le _) fun u b v hsplit hb => by
        have := h u b v hsplit hb
        omega
    rw [Nat.zero_add] at hle hrun
    have hwrite := Mem.write_write buf 0 (percentEncode urlUnsafe u) [0]
    rw [Nat.zero_add] at hwrite
    refine ⟨u, _, hpre, by omega, rfl, ?_, fun hroom => ?_⟩
    · rw [ksUrlEncode, sub64_of_le hlen h64, hrun, ok_bind]
      dsimp only
      rw [putAt_of_lt (by omega), ok_bind, hwrite]
      rfl
    · obtain rfl := hall (by omega)
      have hstr : Mem.IsStr (buf.write 0 (percentEncode urlUnsafe u ++ [0])) 0
          (percentEncode urlUnsafe u) :=
        Mem.isStr_write buf 0 ((encoded_percentEncode u).zero_notMem hs)
      refine ⟨rfl, 0 + (percentEncode urlUnsafe u).length, ?_⟩
      rw [ksUrlDecode_str hstr (by omega), urlDecode_percentEncode]

/-- A buffer that the encoding fits. -/
theorem ksUrlEncode_iff_fits :
    (∃ u buf', u <+: ascii "a=b c" ∧ (percentEncode urlUnsafe u).length < 17 ∧
      buf' = Mem.write (fun _ => 0) 0 (percentEncode urlUnsafe u ++ [0]) ∧
      ksUrlEncode (ascii "a=b c") (fun _ => 0) 17 =
        .ok (buf', (percentEncode urlUnsafe u).length) ∧
      (3 * (ascii "a=b c").length + 2 ≤ 17 →
        u = ascii "a=b c" ∧
          ∃ e, ksUrlDecode 17 buf' 0 = .ok (buf'.write 0 (ascii "a=b c" ++ [0]), e))) ↔
      ∀ u b v, ascii "a=b c" = u ++ b :: v → 128 ≤ b →
        17 ≤ (percentEncode urlUnsafe u).length + 4 :=
  ksUrlEncode_iff (by decide) (by decide) (by decide) _

/-- A byte from 128 on is not encoded at all. -/
theorem ksUrlEncode_negative :
    ¬∃ u buf', u <+: [233] ∧ (percentEncode urlUnsafe u).length < 17 ∧
      buf' = Mem.write (fun _ => 0) 0 (percentEncode urlUnsafe u ++ [0]) ∧
      ksUrlEncode [233] (fun _ => 0) 17 = .ok (buf', (percentEncode urlUnsafe u).length) := by
  rintro ⟨u, buf', -, -, -, hrun⟩
  rw [show ([233] : List UInt8) = [] ++ 233 :: [] from rfl,
    ksUrlEncode_error (by decide) (by decide) (by decide) (by decide)] at hrun
  cases hrun

end Libks
