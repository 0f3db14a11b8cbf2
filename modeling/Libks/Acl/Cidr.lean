import Libks.Acl.State
import Mathlib.Data.Fin.Rev
import Mathlib.Data.Fin.VecNotation
import Mathlib.Tactic.NormNum

/-!
# Addresses in networks

An address is in the network `net/n` if it is of the same family and has the same first
`n` bits. `ks_check_network_list_ip_cidr` tells so, with these exceptions
(`ksCheckNetworkListIpCidr_iff`):

* a mask without bits is taken for no mask, and the address is compared with `net`
  itself, unless that is zero;
* the mask of an IPv4 network of 32 bits is made by a shift that has no meaning;
* the address alone decides which of the two tests is made, and the test of one family
  reads what the other one has stored, in another order of bytes, or has not stored at
  all.
-/

namespace Libks

open Base

/-! ## Addresses -/

/-- An address. -/
inductive Address
  | v4 (a : Fin 4 → UInt8)
  | v6 (a : Fin 16 → UInt8)

namespace Address

/-- The bits of an address. -/
def width : Address → ℕ
  | .v4 _ => 32
  | .v6 _ => 128

/-- The network that is given by an address and a number of bits has the address `a`. -/
def Inside (n : ℕ) (a net : Address) : Prop :=
  match a, net with
  | .v4 a, .v4 net => SamePrefix n a net
  | .v6 a, .v6 net => SamePrefix n a net
  | _, _ => False

instance (n : ℕ) : ∀ a net, Decidable (Inside n a net)
  | .v4 _, .v4 _ | .v6 _, .v6 _ => inferInstanceAs (Decidable (SamePrefix ..))
  | .v4 _, .v6 _ | .v6 _, .v4 _ => .isFalse id

end Address

namespace InetPton

variable (P : InetPton)

/-- The address that a text is. -/
def address (s : List UInt8) : Option Address :=
  match P.pton .inet s with
  | some a => some (.v4 a)
  | none => (P.pton .inet6 s).map .v6

end InetPton

/-- `net/n`. -/
def cidrText (net : List UInt8) (n : ℕ) : List UInt8 := net ++ 47 :: formatNat n

/-! ## What is stored -/

/-- The word that is stored as four bytes. -/
def word (a : Fin 4 → UInt8) : ℕ := ofLe [a 0, a 1, a 2, a 3]

/-- The word of an address in host order. -/
def hostWord (a : Fin 4 → UInt8) : ℕ := word (a ∘ Fin.rev)

variable {n : ℕ} {a b m : Fin 4 → UInt8} {ip : KsIp}

/-- An address is determined by its word. -/
theorem word_eq_iff : word a = word b ↔ a = b := by
  rw [word, word, @ofLe_inj [a 0, a 1, a 2, a 3] [b 0, b 1, b 2, b 3] rfl]
  constructor
  · intro h
    simp only [List.cons.injEq, and_true] at h
    funext i
    match i with
    | 0 => exact h.1
    | 1 => exact h.2.1
    | 2 => exact h.2.2.1
    | 3 => exact h.2.2.2
  · rintro rfl
    rfl

/-- A conjunction of words is one of bytes. -/
theorem word_and : word a &&& word m = word fun i => a i &&& m i :=
  (@ofLe_and [a 0, a 1, a 2, a 3] [m 0, m 1, m 2, m 3] rfl).symm

/-- A word is stored as its bytes. -/
theorem setV4_word (ip : KsIp) (a : Fin 4 → UInt8) : ip.setV4 (word a) = ip.store (List.ofFn a) := by
  rw [KsIp.setV4, word]
  exact congrArg ip.store (leBytes_ofLe [a 0, a 1, a 2, a 3])

theorem store_apply (ip : KsIp) (a : Fin 4 → UInt8) (i : Fin 16) :
    ip.store (List.ofFn a) i = if h : i.val < 4 then a ⟨i, h⟩ else ip i := by
  rw [KsIp.store, List.getD_eq_getElem?_getD, List.getElem?_ofFn]
  split_ifs <;> rfl

/-- An address is turned into a word in host order in its place. -/
theorem htonl_store (ip : KsIp) (a : Fin 4 → UInt8) :
    (ip.store (List.ofFn a)).htonl = ip.store (List.ofFn (a ∘ Fin.rev)) := by
  have h : bswap 4 (ip.store (List.ofFn a)).v4 = word (a ∘ Fin.rev) :=
    bswap_ofLe [a 0, a 1, a 2, a 3]
  rw [KsIp.htonl, h, setV4_word]
  funext i
  simp only [store_apply]
  split_ifs <;> rfl

theorem store_v6 (ip a : KsIp) : ip.store (List.ofFn a) = a := by
  funext i
  rw [KsIp.store, List.getD_eq_getElem?_getD, List.getElem?_ofFn, dif_pos i.isLt]
  rfl

/-! ## Masks -/

/-- The mask of the first `n` bits. -/
def maskOf (k n : ℕ) : Fin k → UInt8 := fun i => maskByte (n - 8 * i.val)

/-- Only the mask of length `0` is all zeros. -/
theorem maskOf_eq_zero_iff {k : ℕ} (hk : 0 < k) : maskOf k n = zeros k ↔ n = 0 := by
  constructor
  · intro h
    have h0 : maskByte (n - 0) = 0 := congrFun h ⟨0, hk⟩
    by_contra hn
    have hbit := @testBit_maskByte n 7 (by decide)
    rw [Nat.sub_zero] at h0
    rw [h0, decide_eq_true (by omega)] at hbit
    exact absurd hbit (by decide)
  · rintro rfl
    funext i
    rw [maskOf, Nat.zero_sub]
    rfl

/-- The bytes of the mask, one by one. -/
theorem getElem?_maskLoop (k n : ℕ) {i : ℕ} (hi : i < k) :
    (maskLoop k n)[i]? = some (maskByte (n - 8 * i)) := by
  induction k generalizing n i with
  | zero => exact absurd hi (Nat.not_lt_zero i)
  | succ k ih =>
    rw [maskLoop]
    cases i with
    | zero =>
      rw [Nat.mul_zero, Nat.sub_zero, maskByte]
      split_ifs <;> rfl
    | succ i =>
      split_ifs with hn
      · rw [List.getElem?_cons_succ, ih _ (by omega), Nat.sub_sub, Nat.mul_succ, Nat.add_comm]
      · rw [List.getElem?_cons_succ, ih _ (by omega), Nat.zero_sub,
          Nat.sub_eq_zero_of_le (by omega)]

/-- The loop writes the whole mask. -/
theorem store_maskLoop (ip : KsIp) (n : ℕ) : ip.store (maskLoop 16 n) = maskOf 16 n := by
  funext i
  rw [KsIp.store, List.getD_eq_getElem?_getD, getElem?_maskLoop 16 n i.isLt]
  rfl

/-- The mask of an IPv4 network, as a word in host order. -/
theorem mask_eq_hostWord (hn : n < 32) :
    0xFFFFFFFF &&& (0xFFFFFFFF >>> n ^^^ 0xFFFFFFFF) = hostWord (maskOf 4 n) :=
  (by decide +kernel :
    ∀ n < 32, 0xFFFFFFFF &&& (0xFFFFFFFF >>> n ^^^ 0xFFFFFFFF) = hostWord (maskOf 4 n)) n hn

/-! ## The tests -/

/-- What the tests test: a mask without bits is taken for none. -/
def Passes {k : ℕ} (a net mask : Fin k → UInt8) : Prop :=
  mask = zeros k ∧ (net = zeros k ∨ net = a) ∨
    mask ≠ zeros k ∧ ∀ i, net i &&& mask i = a i &&& mask i

/-- What passes the mask of a length: the same first bits or, where the length is `0`, the network
    of zeros and the address itself. -/
theorem passes_maskOf {k : ℕ} {a net : Fin k → UInt8} (hk : 0 < k) : Passes a net (maskOf k n) ↔
    n = 0 ∧ (net = zeros k ∨ net = a) ∨ n ≠ 0 ∧ SamePrefix n a net := by
  rw [Passes, Ne, maskOf_eq_zero_iff hk, samePrefix_iff]
  simp only [maskOf, eq_comm]

theorem passes_of_ne_zero {k : ℕ} {a net mask : Fin k → UInt8} (hm : mask ≠ zeros k) :
    Passes a net mask ↔ ∀ i, net i &&& mask i = a i &&& mask i :=
  ⟨fun h => (h.resolve_left fun h => hm h.1).2, fun h => .inr ⟨hm, h⟩⟩

theorem passes_of_eq_zero {k : ℕ} {a net mask : Fin k → UInt8} (hm : mask = zeros k) :
    Passes a net mask ↔ net = zeros k ∨ net = a :=
  ⟨fun h => (h.resolve_right fun h => h.1 hm).2, fun h => .inl ⟨hm, h⟩⟩

/-- The test of words does not depend on the order of their bytes. -/
theorem ksTestSubnet_word {a net mask : Fin 4 → UInt8} :
    ksTestSubnet (word a) (word net) (word mask) ↔ Passes a net mask := by
  have h0 (x : Fin 4 → UInt8) : word x = 0 ↔ x = zeros 4 := @word_eq_iff x (zeros 4)
  rw [ksTestSubnet]
  split_ifs with hm hnet
  · rw [passes_of_ne_zero (mt (h0 _).2 hm), decide_eq_true_eq, word_and, word_and, word_eq_iff,
      funext_iff]
  · rw [passes_of_eq_zero ((h0 _).1 (not_not.1 hm)), decide_eq_true_eq, word_eq_iff]
    exact ⟨.inr, fun h => h.resolve_left (mt (h0 _).2 hnet)⟩
  · rw [passes_of_eq_zero ((h0 _).1 (not_not.1 hm))]
    exact iff_of_true rfl (.inl ((h0 _).1 (not_not.1 hnet)))

/-- `ks_testv6_subnet`. -/
theorem ksTestv6Subnet_iff {a net mask : KsIp} : ksTestv6Subnet a net mask ↔ Passes a net mask := by
  have h0 (x : KsIp) : x.unspecified = true ↔ x = zeros 16 := by
    rw [KsIp.unspecified, decide_eq_true_eq, funext_iff]
    rfl
  rw [ksTestv6Subnet]
  split_ifs with hm hnet
  · rw [passes_of_eq_zero ((h0 _).1 hm)]
    exact iff_of_true rfl (.inl ((h0 _).1 hnet))
  · rw [passes_of_eq_zero ((h0 _).1 hm), decide_eq_true_eq, ← funext_iff]
    exact ⟨.inr, fun h => h.resolve_left (mt (h0 _).2 hnet)⟩
  · rw [passes_of_ne_zero (mt (h0 _).2 hm), decide_eq_true_eq]
    rfl

/-! ## What is read -/

variable {P : InetPton} {f : Family} {s t : List UInt8}

/-- No address has a slash in it. -/
theorem slash_notMem (h : P.pton f s ≠ none) : 47 ∉ s := fun hmem =>
  absurd (P.chars h 47 hmem) (by decide)

/-- `net/n` is taken apart. -/
theorem ksParseCidr_cidrText {net : Fin f.size → UInt8} (hnet : P.pton f s = some net)
    (hn : n ≤ 8 * f.size) (ip mask : KsIp) :
    ksParseCidr P (cidrText s n) ip mask =
      match f with
      | .inet => do
        let w ← shr32 0xFFFFFFFF n
        return some ⟨(P.into .inet s ip).htonl, mask.setV4 (0xFFFFFFFF &&& (w ^^^ 0xFFFFFFFF)), n⟩
      | .inet6 => .ok (some ⟨P.into .inet6 s ip, mask.store (maskLoop 16 n), n⟩) := by
  have hne : P.pton f s ≠ none := by rw [hnet]; exact Option.some_ne_none _
  have hslash := slash_notMem hne
  have hn128 : n ≤ 128 := by cases f <;> simp only [Family.size] at hn <;> omega
  have hlen : (cidrText s n).length ≤ 126 := by
    have := P.length hne
    have := length_formatNat_le (k := 3) (by decide) (Nat.lt_of_le_of_lt hn128 (by decide))
    rw [cidrText, List.length_append, List.length_cons]
    omega
  have hcolon : 58 ∈ cidrText s n ↔ f = .inet6 := by
    rw [← P.colon hne, cidrText, List.mem_append, List.mem_cons]
    exact or_iff_left fun h => h.elim (by decide) fun hmem =>
      absurd (isDigit_of_mem_formatNat hmem) (by decide)
  rw [ksParseCidr, List.take_of_length_le hlen]
  have hchr : strchr 47 (cidrText s n) = some s.length := strchr_append_cons hslash
  have hdrop : (cidrText s n).drop (s.length + 1) = formatNat n := drop_cut s (formatNat n) 47
  have htake : (cidrText s n).take s.length = s := List.take_left
  have hatoi : atoi (formatNat n) = n := by
    have h := atoi_formatNat (n := n) (s := []) (by omega) (by simp)
    rwa [List.append_nil] at h
  simp only [hchr, hdrop, htake, hatoi, Int.toNat_natCast]
  cases f with
  | inet =>
    simp only [Family.size] at hn
    rw [if_neg (mt hcolon.1 (by decide)), if_neg (by omega)]
  | inet6 =>
    simp only [Family.size] at hn
    rw [if_pos (hcolon.2 rfl), if_neg (by omega)]

theorem into_eq {a : Fin f.size → UInt8} (h : P.pton f s = some a) (ip : KsIp) :
    P.into f s ip = ip.store (List.ofFn a) := by
  rw [InetPton.into, h]
  rfl

/-- The text behind a leading `::ffff:`. -/
def stripMapped (s : List UInt8) : List UInt8 := (mappedAddr s).getD s

/-- An address is read as what it is without a leading `::ffff:`, and as whatever was in the
    variable if that is none. -/
theorem readIp_eq (h : P.pton f s ≠ none) (ip : KsIp) :
    readIp P s ip = match P.address (stripMapped s) with
      | some (.v4 a) => (false, ip.store (List.ofFn (a ∘ Fin.rev)))
      | some (.v6 a) => (true, a)
      | none => (false, ip.htonl) := by
  rw [readIp, stripMapped, InetPton.address]
  cases hm : mappedAddr s with
  | some t =>
    rw [mappedAddr] at hm
    split_ifs at hm with hstart
    have h6 := P.groups hstart h (Option.some.inj hm)
    dsimp only [Option.getD_some]
    cases h4 : P.pton .inet t with
    | some a =>
      dsimp only
      rw [into_eq h4]
      exact congrArg _ (htonl_store ip a)
    | none =>
      rw [h6, InetPton.into, h4]
      rfl
  | none =>
    dsimp only [Option.getD_none]
    have hcolon := P.colon h
    cases f with
    | inet =>
      obtain ⟨a, ha⟩ := Option.ne_none_iff_exists'.1 h
      rw [if_neg (mt hcolon.1 (by decide)), ha, into_eq ha]
      exact congrArg _ (htonl_store ip a)
    | inet6 =>
      obtain ⟨a, ha⟩ := Option.ne_none_iff_exists'.1 h
      have h4 : P.pton .inet s = none := by
        by_contra h4
        exact absurd ((P.colon h4).1 (hcolon.2 rfl)) (by decide)
      rw [if_pos (hcolon.2 rfl), h4, ha, into_eq ha]
      exact congrArg _ (store_v6 ip a)

/-! ## What is told -/

namespace Address

/-- The first word of an address of IPv6. -/
def first (a : Fin 16 → UInt8) : Fin 4 → UInt8 := fun i => a (i.castLE (by decide))

/-- When it is told rightly whether an address is in `net/n`. -/
def Told (n : ℕ) : Option Address → Address → Prop
  | some (.v4 a), .v4 net => n ≠ 32 ∧ (n = 0 → net = zeros 4 ∨ net = a)
  | some (.v6 a), .v6 net => n = 0 → net = zeros 16 ∨ net = a
  | some (.v6 a), .v4 net => 0 < n ∧ n < 32 ∧ ¬SamePrefix n (first a ∘ Fin.rev) net
  | some (.v4 a), .v6 net =>
    ¬(n = 0 ∧ (first net = zeros 4 ∨ first net = a ∘ Fin.rev) ∨
      n ≠ 0 ∧ SamePrefix n (a ∘ Fin.rev) (first net))
  | none, _ => False

end Address

/-- Whether an address passes does not depend on the order of its bytes. -/
theorem passes_rev {a net mask : Fin 4 → UInt8} :
    Passes (a ∘ Fin.rev) (net ∘ Fin.rev) (mask ∘ Fin.rev) ↔ Passes a net mask := by
  have hinj {x y : Fin 4 → UInt8} : x ∘ Fin.rev = y ∘ Fin.rev ↔ x = y :=
    Fin.rev_surjective.injective_comp_right.eq_iff
  have h0 : zeros 4 ∘ Fin.rev = zeros 4 := rfl
  rw [Passes, Passes, ← h0, Ne, hinj, hinj, hinj, Fin.rev_surjective.forall]
  simp only [Function.comp_apply, Fin.rev_rev, h0]

/-- An IPv4 address is read by `inet_pton`. -/
theorem address_v4 {b : Fin 4 → UInt8} (h : P.address s = some (.v4 b)) :
    P.pton .inet s = some b := by
  rw [InetPton.address] at h
  split at h
  · rename_i a ha
    cases h
    exact ha
  · obtain ⟨a, -, ha⟩ := Option.map_eq_some_iff.1 h
    cases ha

/-- An IPv6 address is read by `inet_pton`. -/
theorem address_v6 {b : Fin 16 → UInt8} (h : P.address s = some (.v6 b)) :
    P.pton .inet6 s = some b := by
  rw [InetPton.address] at h
  split at h
  · cases h
  · obtain ⟨a, ha, heq⟩ := Option.map_eq_some_iff.1 h
    cases heq
    exact ha

/-- The network that is stored. -/
theorem ksParseCidr_v4 {b : Fin 4 → UInt8} (hnet : P.address s = some (.v4 b)) (hn : n < 32)
    (ip mask : KsIp) : ksParseCidr P (cidrText s n) ip mask =
      .ok (some ⟨ip.store (List.ofFn (b ∘ Fin.rev)),
        mask.store (List.ofFn (maskOf 4 n ∘ Fin.rev)), n⟩) := by
  have hb := address_v4 hnet
  rw [ksParseCidr_cidrText hb (Nat.le_of_lt hn), shr32, if_pos hn]
  dsimp only [bind, Except.bind, pure, Except.pure]
  rw [into_eq hb, mask_eq_hostWord hn, hostWord, setV4_word]
  exact congrArg (fun x => Except.ok (some (Cidr.mk x _ n))) (htonl_store ip b)

/-- A `/32` for an IPv4 address shifts by 32 bits. -/
theorem ksParseCidr_32 {b : Fin 4 → UInt8} (hnet : P.address s = some (.v4 b)) (ip mask : KsIp) :
    ksParseCidr P (cidrText s 32) ip mask = .error .overflow := by
  rw [ksParseCidr_cidrText (address_v4 hnet) (Nat.le_refl 32)]
  rfl

/-- A network of IPv6. -/
theorem ksParseCidr_v6 {b : Fin 16 → UInt8} (hnet : P.address s = some (.v6 b)) (hn : n ≤ 128)
    (ip mask : KsIp) :
    ksParseCidr P (cidrText s n) ip mask = .ok (some ⟨b, maskOf 16 n, n⟩) := by
  have hb := address_v6 hnet
  rw [ksParseCidr_cidrText hb hn, into_eq hb, store_maskLoop]
  exact congrArg (fun x => Except.ok (some (Cidr.mk x _ n))) (store_v6 ip b)

/-- What the check comes to, when the address and the network have been read. -/
theorem check_eq {stack : IpStack} {c : Cidr} (hs : P.pton f s ≠ none)
    (hparse : ksParseCidr P (cidrText t n) stack.net stack.mask = .ok (some c)) :
    ksCheckNetworkListIpCidr P stack s (cidrText t n) =
      .ok (match P.address (stripMapped s) with
        | some (.v4 a) => ksTestSubnet (hostWord a) c.ip.v4 c.mask.v4
        | some (.v6 a) => ksTestv6Subnet a c.ip c.mask
        | none => ksTestSubnet stack.ip.htonl.v4 c.ip.v4 c.mask.v4) := by
  rw [ksCheckNetworkListIpCidr, readIp_eq hs, hparse]
  cases P.address (stripMapped s) with
  | none => rfl
  | some a => cases a <;> rfl

/-- Where the families are the same, a network without bits is the exception. -/
theorem passes_iff_samePrefix {k : ℕ} {a net : Fin k → UInt8} (hk : 0 < k) :
    (Passes a net (maskOf k n) ↔ SamePrefix n a net) ↔
      (n = 0 → net = zeros k ∨ net = a) := by
  rw [passes_maskOf hk]
  by_cases hn : n = 0
  · have hall : SamePrefix n a net := by
      subst hn
      exact fun i j _ h => absurd h (Nat.not_lt_zero _)
    simp [hn, iff_true_intro (hn ▸ hall)]
  · simp [hn]

/-- `ks_test_subnet` on words in host order. -/
theorem ksTestSubnet_hostWord {a net mask : Fin 4 → UInt8} :
    ksTestSubnet (hostWord a) (hostWord net) (hostWord mask) ↔ Passes a net mask :=
  ksTestSubnet_word.trans passes_rev

theorem passes_self {k : ℕ} (a mask : Fin k → UInt8) : Passes a a mask := by
  by_cases hm : mask = zeros k
  · exact .inl ⟨hm, .inr rfl⟩
  · exact .inr ⟨hm, fun _ => rfl⟩

theorem eq_decide_iff {r : Bool} {p q : Prop} [Decidable q] (h : r ↔ p) :
    r = decide q ↔ (p ↔ q) := by
  rw [← h, Bool.eq_iff_iff, decide_eq_true_eq]

section

variable {a b : Fin 4 → UInt8} {a' b' : Fin 16 → UInt8}

/-- An IPv4 address and a network of IPv4: right but for the length `0`. -/
theorem told_v4_v4 (hs : P.pton f s ≠ none) (hx : P.address (stripMapped s) = some (.v4 a))
    (hnet : P.address t = some (.v4 b)) (hn : n < 32) :
    (∀ stack, ksCheckNetworkListIpCidr P stack s (cidrText t n) =
      .ok (decide (SamePrefix n a b))) ↔ (n = 0 → b = zeros 4 ∨ b = a) := by
  have hcheck (stack : IpStack) : ksCheckNetworkListIpCidr P stack s (cidrText t n) =
      .ok (ksTestSubnet (hostWord a) (hostWord b) (hostWord (maskOf 4 n))) := by
    rw [check_eq hs (ksParseCidr_v4 hnet hn _ _), hx]
    rfl
  simp only [hcheck, forall_const, Except.ok.injEq]
  rw [eq_decide_iff ksTestSubnet_hostWord, passes_iff_samePrefix (by decide)]

/-- An IPv6 address and a network of IPv6: right but for the length `0`. -/
theorem told_v6_v6 (hs : P.pton f s ≠ none) (hx : P.address (stripMapped s) = some (.v6 a'))
    (hnet : P.address t = some (.v6 b')) (hn : n ≤ 128) :
    (∀ stack, ksCheckNetworkListIpCidr P stack s (cidrText t n) =
      .ok (decide (SamePrefix n a' b'))) ↔ (n = 0 → b' = zeros 16 ∨ b' = a') := by
  have hcheck (stack : IpStack) : ksCheckNetworkListIpCidr P stack s (cidrText t n) =
      .ok (ksTestv6Subnet a' b' (maskOf 16 n)) := by
    rw [check_eq hs (ksParseCidr_v6 hnet hn _ _), hx]
  simp only [hcheck, forall_const, Except.ok.injEq]
  rw [eq_decide_iff ksTestv6Subnet_iff, passes_iff_samePrefix (by decide)]

/-- An IPv4 address is compared with the first four bytes of an IPv6 network. -/
theorem told_v4_v6 (hs : P.pton f s ≠ none) (hx : P.address (stripMapped s) = some (.v4 a))
    (hnet : P.address t = some (.v6 b')) (hn : n ≤ 128) :
    (∀ stack, ksCheckNetworkListIpCidr P stack s (cidrText t n) = .ok false) ↔
      ¬(n = 0 ∧ (Address.first b' = zeros 4 ∨ Address.first b' = a ∘ Fin.rev) ∨
        n ≠ 0 ∧ SamePrefix n (a ∘ Fin.rev) (Address.first b')) := by
  have hcheck (stack : IpStack) : ksCheckNetworkListIpCidr P stack s (cidrText t n) =
      .ok (ksTestSubnet (hostWord a) (word (Address.first b')) (word (maskOf 4 n))) := by
    rw [check_eq hs (ksParseCidr_v6 hnet hn _ _), hx]
    rfl
  simp only [hcheck, forall_const, Except.ok.injEq]
  rw [← passes_maskOf (by decide), ← ksTestSubnet_word, Bool.not_eq_true]
  rfl

/-- The first four bytes of an IPv6 address are compared with an IPv4 network. -/
theorem told_v6_v4 (hs : P.pton f s ≠ none) (hx : P.address (stripMapped s) = some (.v6 a'))
    (hnet : P.address t = some (.v4 b)) (hn : n < 32) :
    (∀ stack, ksCheckNetworkListIpCidr P stack s (cidrText t n) = .ok false) ↔
      0 < n ∧ ¬SamePrefix n (Address.first a' ∘ Fin.rev) b := by
  have hcheck (stack : IpStack) : ksCheckNetworkListIpCidr P stack s (cidrText t n) =
      .ok (ksTestv6Subnet a' (stack.net.store (List.ofFn (b ∘ Fin.rev)))
        (stack.mask.store (List.ofFn (maskOf 4 n ∘ Fin.rev)))) := by
    rw [check_eq hs (ksParseCidr_v4 hnet hn _ _), hx]
  -- The bytes that are stored, in the order of the host; the others are whatever was there.
  have hstored (ip : KsIp) (x : Fin 4 → UInt8) (i : Fin 4) :
      ip.store (List.ofFn (x ∘ Fin.rev)) (i.rev.castLE (by decide)) = x i := by
    have hi : (i.rev.castLE (by decide : 4 ≤ 16)).val < 4 := i.rev.isLt
    rw [store_apply, dif_pos hi, Function.comp_apply]
    exact congrArg x (Fin.rev_rev i)
  simp only [hcheck, Except.ok.injEq, ← Bool.not_eq_true, ksTestv6Subnet_iff]
  have hmask (hn0 : n ≠ 0) (mask : KsIp) :
      mask.store (List.ofFn (maskOf 4 n ∘ Fin.rev)) ≠ zeros 16 := by
    refine fun h0 => hn0 ((maskOf_eq_zero_iff (by decide : 0 < 4)).1 (funext fun i => ?_))
    rw [← hstored mask (maskOf 4 n), h0]
    rfl
  constructor
  · intro h
    by_contra hbad
    by_cases hn0 : n = 0
    · -- The network is stored over the address, and the mask in front of bits that are set.
      refine h ⟨default, a', fun _ => 0xFF⟩ (.inr ⟨fun h0 => ?_, fun i => ?_⟩)
      · have h4 : (0xFF : UInt8) = 0 := congrFun h0 ⟨4, by decide⟩
        exact absurd h4 (by decide)
      · rw [store_apply, store_apply]
        split_ifs with hi
        · rw [(maskOf_eq_zero_iff (by decide : 0 < 4)).2 hn0]
          simp only [Function.comp_apply, zeros, UInt8.and_zero]
        · rfl
    · have hsame : SamePrefix n (Address.first a' ∘ Fin.rev) b := by
        by_contra hsame
        exact hbad ⟨Nat.pos_of_ne_zero hn0, hsame⟩
      refine h ⟨default, default, fun _ => 0⟩ (.inr ⟨hmask hn0 _, fun i => ?_⟩)
      rw [samePrefix_iff] at hsame
      by_cases hi : i.val < 4
      · have hi' : i = (Fin.rev ⟨3 - i.val, by omega⟩ : Fin 4).castLE (by decide) := by
          ext
          simp only [Fin.val_castLE, Fin.val_rev]
          omega
        rw [hi', hstored, hstored]
        exact (hsame _).symm
      · rw [store_apply, store_apply, dif_neg hi, dif_neg hi]
        simp
  · rintro ⟨hn0, hsame⟩ stack hpass
    refine hsame (samePrefix_iff.2 fun i => ?_)
    have hi := (passes_of_ne_zero (hmask (Nat.ne_of_gt hn0) _)).1 hpass
      (i.rev.castLE (by decide))
    rw [hstored, hstored] at hi
    exact hi.symm

/-- What is no address is compared with whatever was in the variable. -/
theorem told_none (hs : P.pton f s ≠ none) (hx : P.address (stripMapped s) = none) {net : Address}
    (hnet : P.address t = some net) (hn : n ≤ net.width) :
    ¬∀ stack, ksCheckNetworkListIpCidr P stack s (cidrText t n) = .ok false := by
  intro h
  cases net with
  | v4 b =>
    by_cases h32 : n = 32
    · have hstack := h default
      rw [ksCheckNetworkListIpCidr, h32, ksParseCidr_32 hnet] at hstack
      cases hstack
    · have hlt : n < 32 := Nat.lt_of_le_of_ne hn h32
      let ip : KsIp := KsIp.store default (List.ofFn b)
      have hstack := h ⟨ip, default, default⟩
      have hv4 : ip.htonl.v4 = hostWord b := by
        rw [htonl_store]
        rfl
      rw [check_eq hs (ksParseCidr_v4 hnet hlt _ _), hx] at hstack
      dsimp only at hstack
      rw [hv4] at hstack
      exact absurd (Except.ok.inj hstack)
        (Bool.not_eq_false _ ▸ ksTestSubnet_hostWord.2 (passes_self b (maskOf 4 n)))
  | v6 b' =>
    let ip : KsIp := KsIp.store default (List.ofFn (Address.first b' ∘ Fin.rev))
    have hstack := h ⟨ip, default, default⟩
    have hv4 : ip.htonl.v4 = word (Address.first b') := by
      rw [htonl_store]
      rfl
    rw [check_eq hs (ksParseCidr_v6 hnet hn _ _), hx] at hstack
    dsimp only at hstack
    rw [hv4] at hstack
    exact absurd (Except.ok.inj hstack)
      (Bool.not_eq_false _ ▸ ksTestSubnet_word.2 (passes_self (Address.first b') (maskOf 4 n)))

end

theorem exists_pton_ne_none (h : P.address s ≠ none) : ∃ f, P.pton f s ≠ none := by
  by_contra hno
  simp only [not_exists, not_not] at hno
  exact h (by rw [InetPton.address, hno, hno]; rfl)

/-- It is told rightly whether an address is in a network, except for the networks without bits,
    for an IPv4 network of 32 bits, and for what the test of one family makes of the other. -/
theorem ksCheckNetworkListIpCidr_iff {net : Address} (hs : P.address s ≠ none)
    (hnet : P.address t = some net) (hn : n ≤ net.width) :
    (∀ stack, ksCheckNetworkListIpCidr P stack s (cidrText t n) =
      .ok ((P.address (stripMapped s)).any fun a => a.Inside n net)) ↔
    Address.Told n (P.address (stripMapped s)) net := by
  obtain ⟨f, hs⟩ := exists_pton_ne_none hs
  cases hx : P.address (stripMapped s) with
  | none => exact iff_of_false (told_none hs hx hnet hn) id
  | some a =>
    cases net with
    | v4 b =>
      by_cases h32 : n = 32
      · -- The shift by 32.
        have hnot : ¬Address.Told n (some a) (.v4 b) := by
          cases a with
          | v4 a => exact fun h => h.1 h32
          | v6 a => exact fun h => absurd h32 (Nat.ne_of_lt h.2.1)
        refine iff_of_false (fun h => ?_) hnot
        have hstack := h default
        rw [ksCheckNetworkListIpCidr, h32, ksParseCidr_32 hnet] at hstack
        cases hstack
      · have hlt : n < 32 := Nat.lt_of_le_of_ne hn h32
        cases a with
        | v4 a => exact (told_v4_v4 hs hx hnet hlt).trans ⟨fun h => ⟨h32, h⟩, And.right⟩
        | v6 a =>
          refine (told_v6_v4 hs hx hnet hlt).trans ?_
          exact ⟨fun h => ⟨h.1, hlt, h.2⟩, fun h => ⟨h.1, h.2.2⟩⟩
    | v6 b =>
      cases a with
      | v4 a => exact told_v4_v6 hs hx hnet hn
      | v6 a => exact told_v6_v6 hs hx hnet hn

/-- The texts that `fewPton` is asked for, and their addresses. -/
def fewAddrs : (f : Family) → List UInt8 → Option (Fin f.size → UInt8)
  | .inet, s =>
    if s = ascii "10.1.2.3" then some ![10, 1, 2, 3]
    else if s = ascii "10.0.0.0" then some ![10, 0, 0, 0]
    else if s = ascii "255.0.0.0" then some ![255, 0, 0, 0]
    else none
  | .inet6, s =>
    if s = ascii "2001:db0a::1" then
      some ![0x20, 0x01, 0xdb, 0x0a, 0, 0, 0, 0, 0, 0, 0, 0, 0, 0, 0, 1]
    else if s = ascii "::1" then some ![0, 0, 0, 0, 0, 0, 0, 0, 0, 0, 0, 0, 0, 0, 0, 1]
    else none

/-- The texts that are addresses. -/
def fewTexts : List (Family × List UInt8) :=
  [(.inet, ascii "10.1.2.3"), (.inet, ascii "10.0.0.0"), (.inet, ascii "255.0.0.0"),
    (.inet6, ascii "2001:db0a::1"), (.inet6, ascii "::1")]

theorem fewAddrs_ne_none (h : fewAddrs f s ≠ none) : (f, s) ∈ fewTexts := by
  cases f <;> rw [fewAddrs] at h <;> split_ifs at h <;> simp_all [fewTexts]

/-- `inet_pton`, where it is asked for a few addresses. -/
def fewPton : InetPton where
  pton := fewAddrs
  length h := (by decide +kernel : ∀ p ∈ fewTexts, p.2.length < 46) _ (fewAddrs_ne_none h)
  chars h := (by decide +kernel : ∀ p ∈ fewTexts, ∀ c ∈ p.2, isAddrChar c) _ (fewAddrs_ne_none h)
  colon h := (by decide +kernel : ∀ p ∈ fewTexts, 58 ∈ p.2 ↔ p.1 = .inet6) _ (fewAddrs_ne_none h)
  groups hm h _ := absurd hm ((by decide +kernel :
    ∀ p ∈ fewTexts, ¬startsWithNoCase (ascii "::ffff:") p.2) _ (fewAddrs_ne_none h))

/-- An address in the network of its first eight bits. -/
theorem ksCheckNetworkListIpCidr_eight : ksCheckNetworkListIpCidr fewPton default
    (ascii "10.1.2.3") (cidrText (ascii "10.0.0.0") 8) = .ok true :=
  (@ksCheckNetworkListIpCidr_iff 8 fewPton (ascii "10.1.2.3") (ascii "10.0.0.0")
    (.v4 ![10, 0, 0, 0]) (by decide) rfl (by decide)).2
      ⟨by decide, fun h => absurd h (by decide)⟩ default

/-- An address is in the network of its first no bits, but is not told to be. -/
theorem not_told_zero : Address.Inside 0 (.v4 ![10, 1, 2, 3]) (.v4 ![10, 0, 0, 0]) ∧
    ksCheckNetworkListIpCidr fewPton default (ascii "10.1.2.3") (ascii "10.0.0.0/0") =
      .ok false := by
  decide

end Libks
