import Libks.Base.CString
import Libks.Pool.Regions

/-!
# Strings in a pool

`ks_pstrndup` and `ks_pstrcat` copy strings into a new block. What they read lies in
memory that may end behind it, and what they write has to stay in the block.

`ks_pstrndup` looks for a terminator among the bytes that it may read, and takes the case
where it has found one for the case where it has not: a string that ends before its length
is copied as if it did not, and a longer one with a length that is no length. It is right if
and only if the terminator is the last byte that it may read; `ks_pstrcat` is right for all
strings that fit into a block (`copies_iff`).
-/

namespace Libks

open Base

/-- A `const char *` that is not null: the address, and the bytes from there on that can be
    read. The pointer behind them is one, too. -/
structure CharPtr where
  addr : ℕ
  bytes : List UInt8
  addr_pos : 0 < addr
  addr_lt : addr + bytes.length < 2 ^ 64

namespace CharPtr

/-- What `memcpy` reads. -/
def read (str : CharPtr) (n : ℕ) : Except Fault (List UInt8) :=
  if n ≤ str.bytes.length then .ok (str.bytes.take n) else .error .outOfBounds

/-- `memchr`. It does not read behind the byte that it finds. -/
def memchr (str : CharPtr) (c : UInt8) (n : ℕ) : Except Fault (Option ℕ) :=
  match strchr c (str.bytes.take n) with
  | some i => .ok (some i)
  | none => if n ≤ str.bytes.length then .ok none else .error .outOfBounds

/-- The same string, with no more than `n` bytes that can be read. -/
def cut (str : CharPtr) (n : ℕ) : CharPtr where
  addr := str.addr
  bytes := str.bytes.take n
  addr_pos := str.addr_pos
  addr_lt := by
    have haddr := str.addr_lt
    rw [List.length_take]
    omega

/-- A byte is found if it is in front of the end, whatever can be read behind it. -/
theorem memchr_of_lt {str : CharPtr} {t : List UInt8} {c : UInt8} {n : ℕ} (hc : c ∈ t)
    (hn : t.idxOf c < n) (ht : str.bytes.take n = t.take n) :
    str.memchr c n = .ok (some (t.idxOf c)) := by
  have hlt := List.idxOf_lt_length_iff.2 hc
  have hfound : strchr c (t.take n) = some (t.idxOf c) := by
    rw [strchr, List.findIdx?_eq_some_iff_findIdx_eq, List.length_take, List.findIdx_take]
    exact ⟨lt_min hn hlt, min_eq_right hn.le⟩
  rw [memchr, ht, hfound]

theorem memchr_of_le {str : CharPtr} {c : UInt8} {n : ℕ} (hn : n ≤ str.bytes.idxOf c) :
    str.memchr c n = .ok none := by
  have hnone : strchr c (str.bytes.take n) = none := by
    refine strchr_eq_none_iff.2 fun hc => not_lt.2 hn ?_
    exact (List.mem_take_iff_idxOf_lt (List.mem_of_mem_take hc)).1 hc
  rw [memchr, hnone]
  exact if_pos (hn.trans List.idxOf_le_length)

theorem idxOf_cut (str : CharPtr) (c : UInt8) (n : ℕ) :
    (str.cut n).bytes.idxOf c = min n (str.bytes.idxOf c) := List.findIdx_take

theorem le_of_read {str : CharPtr} {n : ℕ} {bytes : List UInt8} (h : str.read n = .ok bytes) :
    n ≤ str.bytes.length := by
  rw [read] at h
  split_ifs at h with hle
  exact hle

end CharPtr

/-- A copy of bytes to the end of those that a block of `size` holds. -/
def writeBehind (size : ℕ) (text bytes : List UInt8) : Except Fault (List UInt8) :=
  if text.length + bytes.length ≤ size then .ok (text ++ bytes) else .error .outOfBounds

namespace KsPool

/-- `ks_pstrndup`: the block that it returns, and what it has written there. -/
def ksPstrndup (s : KsPool) (str : Option CharPtr) (len : ℕ) (start : Option ℕ) :
    Except Fault (Option (ℕ × List UInt8) × KsPool) :=
  match str with
  | none => .ok (none, s)
  | some str => do
    let stop ← str.memchr 0 len
    -- `end` is a null pointer here, from which `str` is subtracted.
    let len := if stop = none then sub64 0 str.addr else len
    let size := add64 len 1
    let (p, s) ← s.alloc size start
    let bytes ← str.read len
    let text ← writeBehind size [] bytes
    let text ← writeBehind size text [0]
    return (some (p, text), s)

/-- The first loop of `ks_pstrcat`: the sum of the lengths, and the first of them. -/
def argLengths : List (List UInt8) → ℕ → List ℕ → ℕ → ℕ × List ℕ
  | [], _, lengths, len => (len, lengths)
  | argp :: ap, i, lengths, len =>
    let arglen := argp.length
    if i < 10 then argLengths ap (i + 1) (lengths.set i arglen) (add64 len arglen)
    else argLengths ap i lengths (add64 len arglen)

/-- The second loop. A string is read with its terminator at most. -/
def copyArgs (size : ℕ) (lengths : List ℕ) :
    List (List UInt8) → ℕ → List UInt8 → Except Fault (List UInt8)
  | [], _, text => .ok text
  | argp :: ap, i, text => do
    let len := if i < 10 then lengths.getD i 0 else argp.length
    if argp.length + 1 < len then .error .outOfBounds
    else
      let text ← writeBehind size text ((argp ++ [0]).take len)
      copyArgs size lengths ap (if i < 10 then i + 1 else i) text

/-- `ks_pstrcat`, of arguments that are given by what is in front of their terminators. -/
def ksPstrcat (s : KsPool) (args : List (List UInt8)) (start : Option ℕ) :
    Except Fault ((ℕ × List UInt8) × KsPool) := do
  let first := argLengths args 0 (List.replicate 10 0) 0
  let size := add64 first.1 1
  let (p, s) ← s.alloc size start
  let text ← copyArgs size first.2 args 0 []
  let text ← writeBehind size text [0]
  return ((p, text), s)

/-! ## What they are to do -/

/-- How many bytes may be read of a string whose copy is to have at most `len`. -/
def readable (str : CharPtr) (len : ℕ) : ℕ := min len (str.bytes.idxOf 0 + 1)

/-- Into the block that the system returns, the first bytes are copied, at most `len` and none
    from the terminator on, with a terminator behind them, whatever can be read behind
    what may be read. -/
def Duplicates (s : KsPool) (p : ℕ) (str : CharPtr) (len : ℕ) : Prop :=
  ∃ text s', str.bytes.take (min len (str.bytes.idxOf 0)) ++ [0] <+: text ∧
    ∀ other : CharPtr, other.addr = str.addr →
      other.bytes.take (readable str len) = str.bytes.take (readable str len) →
        s.ksPstrndup (some other) len (some p) = .ok (some (p, text), s')

/-- Into the block that the system returns, all arguments are copied, with a terminator behind
    them; the length of each of the first ten is kept until it is copied. -/
def Concatenates (s : KsPool) (p : ℕ) (args : List (List UInt8)) : Prop :=
  (∃ s', s.ksPstrcat args (some p) = .ok ((p, args.flatten ++ [0]), s')) ∧
    ∀ i < 10, ∀ arg ∈ args[i]?,
      (argLengths args 0 (List.replicate 10 0) 0).2[i]? = some arg.length

/-! ## Concatenation -/

section Concatenation

variable {args : List (List UInt8)} {i j len size : ℕ} {lengths : List ℕ} {text : List UInt8}

theorem argLengths_len (h : len < 2 ^ 64) :
    (argLengths args i lengths len).1 = (len + args.flatten.length) % 2 ^ 64 := by
  induction args generalizing i lengths len with
  | nil => exact (Nat.mod_eq_of_lt h).symm
  | cons argp ap ih =>
    have hsum : (add64 len argp.length + ap.flatten.length) % 2 ^ 64 =
        (len + (argp :: ap).flatten.length) % 2 ^ 64 := by
      rw [add64, Nat.mod_add_mod, List.flatten_cons, List.length_append, Nat.add_assoc]
    rw [argLengths, ← hsum]
    split_ifs <;> exact ih (add64_lt _ _)

/-- What is kept stays. -/
theorem argLengths_before (h : j < i) : (argLengths args i lengths len).2[j]? = lengths[j]? := by
  induction args generalizing i lengths len with
  | nil => rfl
  | cons argp ap ih =>
    rw [argLengths]
    split_ifs
    · rw [ih (by omega), List.getElem?_set_ne (by omega)]
    · exact ih h

theorem argLengths_kept (hlengths : lengths.length = 10) {k : ℕ} (hk : i + k < 10)
    {arg : List UInt8} (harg : args[k]? = some arg) :
    (argLengths args i lengths len).2[i + k]? = some arg.length := by
  induction args generalizing i lengths len k with
  | nil => cases harg
  | cons argp ap ih =>
    rw [argLengths, if_pos (by omega)]
    cases k with
    | zero =>
      obtain rfl : argp = arg := Option.some.inj harg
      rw [Nat.add_zero] at hk
      rw [argLengths_before (by omega), Nat.add_zero, List.getElem?_set_self (by omega)]
    | succ k =>
      rw [show i + (k + 1) = i + 1 + k by omega]
      exact ih (by rw [List.length_set, hlengths]) (by omega) harg

theorem writeBehind_eq {bytes : List UInt8} (h : text.length + bytes.length ≤ size) :
    writeBehind size text bytes = .ok (text ++ bytes) := if_pos h

/-- The lengths that are kept and those that are counted again are the same, and so all
    arguments are copied as far as there is room for them. -/
theorem copyArgs_eq (htext : text.length ≤ size)
    (h : ∀ k, i + k < 10 → ∀ arg, args[k]? = some arg → lengths[i + k]? = some arg.length) :
    copyArgs size lengths args i text =
      if text.length + args.flatten.length ≤ size then .ok (text ++ args.flatten)
      else .error .outOfBounds := by
  induction args generalizing i text with
  | nil =>
    rw [List.flatten_nil, List.append_nil, List.length_nil, Nat.add_zero, if_pos htext]
    rfl
  | cons argp ap ih =>
    have hlen : (if i < 10 then lengths.getD i 0 else argp.length) = argp.length := by
      split_ifs with hi
      · have hkept := h 0 hi argp rfl
        rw [Nat.add_zero] at hkept
        rw [List.getD_eq_getElem?_getD, hkept]
        rfl
      · rfl
    rw [copyArgs, hlen, if_neg (by omega), List.take_left' rfl, List.flatten_cons,
      List.length_append]
    by_cases hroom : text.length + argp.length ≤ size
    · have hrest : ∀ k, (if i < 10 then i + 1 else i) + k < 10 → ∀ arg, ap[k]? = some arg →
          lengths[(if i < 10 then i + 1 else i) + k]? = some arg.length := by
        intro k hk arg harg
        have hi : i < 10 := by
          by_contra hi
          rw [if_neg hi] at hk
          omega
        rw [if_pos hi] at hk ⊢
        rw [show i + 1 + k = i + (k + 1) by omega]
        exact h (k + 1) (by omega) arg harg
      rw [writeBehind_eq hroom, ok_bind, ih (by rwa [List.length_append]) hrest,
        List.length_append, Nat.add_assoc, List.append_assoc]
    · have hall : ¬text.length + (argp.length + ap.flatten.length) ≤ size := by omega
      rw [writeBehind, if_neg hroom, if_neg hall]
      rfl

end Concatenation

/-! ## The functions -/

variable {s s' : KsPool} {bs : List Block} {p len : ℕ}

/-- A new block for `n` bytes, if it is returned at all. -/
theorem alloc_ok (h : s.Chained bs) (hp : p ∉ s.heap) {n : ℕ} {r : ℕ × KsPool}
    (hn : n < 2 ^ 64) (hrun : s.alloc n (some p) = .ok r) :
    r.1 = p ∧ n ≠ 0 ∧ prefixSize + n + fenceSize < 2 ^ 64 := by
  have hstart : ∀ q ∈ some p, q ∉ s.heap := by simpa using hp
  rcases alloc_cases h hstart hn with
    ⟨-, halloc⟩ | ⟨-, -, -, halloc⟩ | ⟨q, s', x, hzero, hq, hfits, halloc, -⟩
  · rw [halloc] at hrun
    cases hrun
  · rw [halloc] at hrun
    cases hrun
  · rw [halloc] at hrun
    cases hrun
    exact ⟨(Option.some.inj hq).symm, hzero, hfits⟩

theorem exists_alloc (h : s.Chained bs) (hp : p ∉ s.heap) {n : ℕ} (hzero : n ≠ 0)
    (hfits : prefixSize + n + fenceSize < 2 ^ 64) : ∃ s', s.alloc n (some p) = .ok (p, s') := by
  have hstart : ∀ q ∈ some p, q ∉ s.heap := by simpa using hp
  have hn : n < 2 ^ 64 := by omega
  rcases alloc_cases h hstart hn with
    ⟨hrefused, -⟩ | ⟨-, -, hwrapped, -⟩ | ⟨q, s', x, -, hq, -, halloc, -⟩
  · rcases hrefused with hz | hnone | hover
    · exact absurd hz hzero
    · cases hnone
    · omega
  · have hlt := (required_lt_iff hn).1 hwrapped
    omega
  · obtain rfl : p = q := Option.some.inj hq
    exact ⟨s', halloc⟩

/-- Arguments are concatenated if and only if they fit into a block. -/
theorem concatenates_iff (h : s.Chained bs) (hp : p ∉ s.heap) (args : List (List UInt8)) :
    Concatenates s p args ↔ prefixSize + (args.flatten.length + 1) + fenceSize < 2 ^ 64 := by
  have hkept : ∀ i < 10, ∀ arg, args[i]? = some arg →
      (argLengths args 0 (List.replicate 10 0) 0).2[i]? = some arg.length := by
    intro i hi arg harg
    rw [← Nat.zero_add i]
    exact argLengths_kept rfl (by omega) harg
  have hlen : (argLengths args 0 (List.replicate 10 0) 0).1 = args.flatten.length % 2 ^ 64 := by
    rw [argLengths_len (by decide), Nat.zero_add]
  have hcopy (size : ℕ) : copyArgs size (argLengths args 0 (List.replicate 10 0) 0).2 args 0 [] =
      if args.flatten.length ≤ size then .ok args.flatten else .error .outOfBounds := by
    have hfirst : ∀ k, 0 + k < 10 → ∀ arg, args[k]? = some arg →
        (argLengths args 0 (List.replicate 10 0) 0).2[0 + k]? = some arg.length := by
      intro k hk arg harg
      rw [Nat.zero_add] at hk ⊢
      exact hkept k hk arg harg
    rw [copyArgs_eq (Nat.zero_le _) hfirst, List.length_nil, Nat.zero_add, List.nil_append]
  refine ⟨fun ⟨⟨s', hrun⟩, _⟩ => ?_, fun hfits => ⟨?_, hkept⟩⟩
  · rw [ksPstrcat] at hrun
    obtain ⟨⟨q, s₁⟩, halloc, hrun⟩ := bind_eq_ok.1 hrun
    obtain ⟨text, hcopied, hrun⟩ := bind_eq_ok.1 hrun
    obtain ⟨text', hwritten, hrun⟩ := bind_eq_ok.1 hrun
    obtain ⟨-, hzero, hfits⟩ := alloc_ok h hp (add64_lt _ _) halloc
    rw [hcopy] at hcopied
    split_ifs at hcopied
    cases hcopied
    rw [writeBehind] at hwritten
    split_ifs at hwritten with hroom
    -- What has been written is no more than there is room for in the block.
    have hsize : add64 (argLengths args 0 (List.replicate 10 0) 0).1 1 =
        (args.flatten.length + 1) % 2 ^ 64 := by
      rw [hlen, add64, Nat.mod_add_mod]
    have hle := Nat.mod_le (args.flatten.length + 1) (2 ^ 64)
    rw [List.length_singleton, hsize] at hroom
    rw [hsize] at hfits
    rwa [le_antisymm hle hroom] at hfits
  · have hsize : add64 (argLengths args 0 (List.replicate 10 0) 0).1 1 =
        args.flatten.length + 1 := by
      rw [hlen, add64, Nat.mod_add_mod, Nat.mod_eq_of_lt (by omega)]
    obtain ⟨s', halloc⟩ := exists_alloc h hp (Nat.succ_ne_zero _) hfits
    refine ⟨s', ?_⟩
    rw [ksPstrcat]
    dsimp only
    rw [hsize, halloc, ok_bind, hcopy, if_pos (Nat.le_succ _), ok_bind,
      writeBehind_eq (by rw [List.length_singleton])]
    rfl

theorem take_idxOf_succ {c : UInt8} {t : List UInt8} (h : c ∈ t) :
    t.take (t.idxOf c + 1) = t.take (t.idxOf c) ++ [c] := by
  have hlt := List.idxOf_lt_length_iff.2 h
  rw [List.take_succ_eq_append_getElem hlt, List.getElem_idxOf hlt]

/-- What a copy that is returned has taken. -/
theorem of_ksPstrndup {str : CharPtr} {start : Option ℕ}
    {r : Option (ℕ × List UInt8) × KsPool} (hrun : s.ksPstrndup (some str) len start = .ok r) :
    ∃ stop n, str.memchr 0 len = .ok stop ∧ n = (if stop = none then sub64 0 str.addr else len) ∧
      (∃ r', s.alloc (add64 n 1) start = .ok r') ∧ n ≤ str.bytes.length := by
  rw [ksPstrndup] at hrun
  obtain ⟨stop, hstop, hrun⟩ := bind_eq_ok.1 hrun
  obtain ⟨r', halloc, hrun⟩ := bind_eq_ok.1 hrun
  obtain ⟨bytes, hbytes, -⟩ := bind_eq_ok.1 hrun
  exact ⟨stop, _, hstop, rfl, ⟨r', halloc⟩, CharPtr.le_of_read hbytes⟩

/-- A copy is right if and only if the terminator is the last byte that may be read, and the
    copy fits into a block. -/
theorem duplicates_iff (h : s.Chained bs) (hp : p ∉ s.heap) {str : CharPtr}
    (hread : readable str len ≤ str.bytes.length) (hlen : len < 2 ^ 64) :
    Duplicates s p str len ↔
      len = str.bytes.idxOf 0 + 1 ∧ prefixSize + (len + 1) + fenceSize < 2 ^ 64 := by
  constructor
  · rintro ⟨text, s', -, hrun⟩
    -- No more can be read than what may be read.
    have hcut := hrun (str.cut (readable str len)) rfl (List.take_take.trans (by rw [min_self]))
    obtain ⟨stop, n, hstop, hn, ⟨r', halloc⟩, hle⟩ := of_ksPstrndup hcut
    have hidx := str.idxOf_cut 0 (readable str len)
    have hlength : (str.cut (readable str len)).bytes.length = readable str len := by
      rw [CharPtr.cut, List.length_take, min_eq_left hread]
    rw [hlength] at hle
    by_cases hfound : str.bytes.idxOf 0 < len
    · have hreadable : readable str len = str.bytes.idxOf 0 + 1 := min_eq_right hfound
      rw [hreadable] at hidx hlength hstop hle
      rw [min_eq_right (Nat.le_succ _)] at hidx
      have hmem := List.idxOf_lt_length_iff.1 (by rw [hidx, hlength]; exact Nat.lt_succ_self _)
      rw [CharPtr.memchr_of_lt hmem (by rwa [hidx]) rfl] at hstop
      obtain rfl : _ = stop := Except.ok.inj hstop
      rw [if_neg (by simp)] at hn
      obtain ⟨-, hzero, hfits⟩ := alloc_ok h hp (add64_lt _ _) halloc
      obtain rfl : n = str.bytes.idxOf 0 + 1 := by omega
      refine ⟨hn.symm, ?_⟩
      by_cases hlast : len + 1 < 2 ^ 64
      · rwa [hn, add64_of_lt hlast] at hfits
      · refine absurd ?_ hzero
        rw [hn, add64, show len + 1 = 2 ^ 64 by omega, Nat.mod_self]
    · -- The length is how far it is from the string to the end of all addresses.
      have hreadable : readable str len = len := min_eq_left (by omega)
      rw [hreadable] at hidx hstop hle hread
      rw [CharPtr.memchr_of_le (by rw [hidx]; omega)] at hstop
      obtain rfl : _ = stop := Except.ok.inj hstop
      have haddr := str.addr_lt
      have hpos := str.addr_pos
      rw [if_pos rfl, sub64] at hn
      change n = (0 + 2 ^ 64 - str.addr) % 2 ^ 64 at hn
      omega
  · rintro ⟨rfl, hfits⟩
    have hreadable : readable str (str.bytes.idxOf 0 + 1) = str.bytes.idxOf 0 + 1 := min_self _
    rw [hreadable] at hread
    have hmem := List.idxOf_lt_length_iff.1 (Nat.lt_of_succ_le hread)
    obtain ⟨s', halloc⟩ := exists_alloc h hp (Nat.succ_ne_zero _) hfits
    refine ⟨str.bytes.take (str.bytes.idxOf 0 + 1) ++ [0], s', ?_, fun other _ hsame => ?_⟩
    · rw [min_eq_right (Nat.le_succ _), take_idxOf_succ hmem]
      exact List.prefix_append _ _
    · rw [hreadable] at hsame
      have hcount : (str.bytes.take (str.bytes.idxOf 0 + 1)).length = str.bytes.idxOf 0 + 1 := by
        rw [List.length_take, min_eq_left hread]
      have hlong : str.bytes.idxOf 0 + 1 ≤ other.bytes.length := by
        rw [← hcount, ← hsame]
        exact List.length_take_le' _ _
      have hfound := CharPtr.memchr_of_lt hmem (Nat.lt_succ_self _) hsame
      have hcopied : other.read (str.bytes.idxOf 0 + 1) =
          .ok (str.bytes.take (str.bytes.idxOf 0 + 1)) := by
        rw [CharPtr.read, if_pos hlong, hsame]
      rw [ksPstrndup, hfound, ok_bind, if_neg (by simp)]
      dsimp only
      rw [add64_of_lt (by omega), halloc, ok_bind]
      dsimp only
      rw [hcopied, ok_bind, writeBehind_eq (by rw [hcount, List.length_nil]; omega), ok_bind,
        List.nil_append, writeBehind_eq (by rw [hcount, List.length_singleton])]
      rfl

/-- Whatever has been called on an opened pool: a copy is right, for every string with the
    bytes that may be read and every length, if and only if its terminator is the last of
    these bytes and it fits into a block; and arguments are concatenated, the first ten as
    the others, if and only if they fit into one. -/
theorem copies_iff {as : List Action} (has : Along act Permits rawOpen as) {os : List Out}
    (hrun : calls act rawOpen as = .ok (os, s)) (hp : p ∉ s.heap) :
    (∀ str len, readable str len ≤ str.bytes.length → len < 2 ^ 64 →
      (Duplicates s p str len ↔
        len = str.bytes.idxOf 0 + 1 ∧ prefixSize + (len + 1) + fenceSize < 2 ^ 64)) ∧
    ∀ args, Concatenates s p args ↔
      prefixSize + (args.flatten.length + 1) + fenceSize < 2 ^ 64 := by
  have hact (s : KsPool) (bs : List Block) (a : Action) (h : s.Chained bs) (ha : s.Permits a) :
      Ends (fun _ => True) (fun r => r.1 = (acted bs a).1 ∧ r.2.Chained (acted bs a).2)
        (s.act a) := act_ends h ha
  have hends := calls_ends hact rawOpen_chained has
  rw [hrun] at hends
  exact ⟨fun _ _ hread hlen => duplicates_iff hends.2 hp hread hlen, concatenates_iff hends.2 hp⟩

/-- A string with its terminator, and two more arguments, beside a block. -/
theorem copies_iff_abc :
    ∃ os s, calls act rawOpen [.op (.alloc 8 (some 1))] = .ok (os, s) ∧
      (Duplicates s 2 ⟨1000, [97, 98, 99, 0], by decide, by decide⟩ 4 ↔
        4 = ([97, 98, 99, 0] : List UInt8).idxOf 0 + 1 ∧
          prefixSize + (4 + 1) + fenceSize < 2 ^ 64) ∧
      (Concatenates s 2 [[97], [98, 99]] ↔
        prefixSize + ([[97], [98, 99]].flatten.length + 1) + fenceSize < 2 ^ 64) := by
  have has : Along act Permits rawOpen [.op (.alloc 8 (some 1))] := by decide +kernel
  have hrun : okAnd (fun r => decide (2 ∉ r.2.heap))
      (calls act rawOpen [.op (.alloc 8 (some 1))]) = true := by decide +kernel
  obtain ⟨⟨os, s⟩, hcalls, hp⟩ := okAnd_iff.1 hrun
  obtain ⟨hdup, hcat⟩ := copies_iff has hcalls (of_decide_eq_true hp)
  refine ⟨os, s, hcalls, ?_, hcat [[97], [98, 99]]⟩
  exact hdup ⟨1000, [97, 98, 99, 0], by decide, by decide⟩ 4 (by decide) (by decide)

/-- Two bytes of a string, and a string that is shorter than it may be. -/
theorem not_duplicates :
    ¬Duplicates rawOpen 1 ⟨1000, [97, 98, 99, 0], by decide, by decide⟩ 2 ∧
    ¬Duplicates rawOpen 1 ⟨1000, [97, 98, 99, 0], by decide, by decide⟩ 10 := by
  have hnew : 1 ∉ rawOpen.heap := by decide +kernel
  rw [duplicates_iff rawOpen_chained hnew (by decide) (by decide),
    duplicates_iff rawOpen_chained hnew (by decide) (by decide)]
  decide

end KsPool

end Libks
