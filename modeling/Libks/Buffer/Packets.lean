import Libks.Buffer.Bounds

/-!
# Packets in a buffer

A packet ends with an empty line: two line feeds, or a carriage return between
them. `ks_buffer_packet_count` and `ks_buffer_read_packet` scan the unread bytes
for such ends, up to the first zero byte, and may look at the byte behind them.

* `packetCount_eq`, `readPacket_eq`: both scan the unread bytes with that byte;
* `frames_iff`: it makes no difference, and the count is that of the packets that
  can be read, if and only if the bytes left behind the last packet do not end
  in half an end of one.
-/

namespace Libks

open Base

/-! ## Packets in bytes -/

/-- The length of the first packet. -/
def packet? : List UInt8 → Option ℕ
  | [] => none
  | c :: s =>
    if c = 0 then none
    else if [10, 10] <+: c :: s then some 2
    else if [10, 13, 10] <+: c :: s then some 3
    else (packet? s).map (· + 1)

/-- An empty line at the end. -/
def EndsPacket (s : List UInt8) : Prop := [10, 10] <:+ s ∨ [10, 13, 10] <:+ s

/-- A line feed would make these bytes a packet. -/
def Dangles (s : List UInt8) : Prop := 0 ∉ s ∧ ([10] <:+ s ∨ [10, 13] <:+ s)

instance : DecidablePred Dangles := fun _ => inferInstanceAs (Decidable (_ ∧ _))

variable {u s : List UInt8} {k : ℕ} {x : UInt8}

theorem EndsPacket.cons (c : UInt8) (h : EndsPacket s) : EndsPacket (c :: s) :=
  h.imp (·.trans (List.suffix_cons c s)) (·.trans (List.suffix_cons c s))

/-- A packet is in the bytes, and ends as it should. -/
theorem packet?_spec (h : packet? u = some k) : 2 ≤ k ∧ k ≤ u.length ∧ EndsPacket (u.take k) := by
  induction u generalizing k with
  | nil => cases h
  | cons c s ih =>
    rw [packet?] at h
    split_ifs at h with hz h₂ h₃
    · obtain rfl : 2 = k := Option.some.inj h
      exact ⟨le_rfl, h₂.length_le, .inl (List.prefix_iff_eq_take.1 h₂ ▸ List.suffix_refl _)⟩
    · obtain rfl : 3 = k := Option.some.inj h
      exact ⟨by decide, h₃.length_le,
        .inr (List.prefix_iff_eq_take.1 h₃ ▸ List.suffix_refl _)⟩
    · obtain ⟨j, hj, rfl⟩ := Option.map_eq_some_iff.1 h
      obtain ⟨hpos, hle, hend⟩ := ih hj
      refine ⟨Nat.le_succ_of_le hpos, Nat.succ_le_succ hle, ?_⟩
      rw [List.take_succ_cons]
      exact hend.cons c

/-- What comes behind a packet does not matter. -/
theorem packet?_append (h : packet? u = some k) (s : List UInt8) : packet? (u ++ s) = some k := by
  induction u generalizing k with
  | nil => cases h
  | cons c u ih =>
    have hpre : c :: u <+: c :: (u ++ s) := List.prefix_append (c :: u) s
    rw [packet?] at h
    rw [List.cons_append, packet?]
    split_ifs at h with hz h₂ h₃
    · rw [if_neg hz, if_pos (h₂.trans hpre), h]
    · have h₂' : ¬[10, 10] <+: c :: (u ++ s) := fun h' =>
        h₂ (List.prefix_of_prefix_length_le h' hpre (Nat.le_of_succ_le h₃.length_le))
      rw [if_neg hz, if_neg h₂', if_pos (h₃.trans hpre), h]
    · -- The packet goes on, and so there are bytes enough for either end.
      obtain ⟨j, hj, rfl⟩ := Option.map_eq_some_iff.1 h
      obtain ⟨hpos, hle, -⟩ := packet?_spec hj
      have hlen : 3 ≤ (c :: u).length := Nat.succ_le_succ (hpos.trans hle)
      have h₂' : ¬[10, 10] <+: c :: (u ++ s) := fun h' =>
        h₂ (List.prefix_of_prefix_length_le h' hpre (Nat.le_of_succ_le hlen))
      have h₃' : ¬[10, 13, 10] <+: c :: (u ++ s) := fun h' =>
        h₃ (List.prefix_of_prefix_length_le h' hpre hlen)
      rw [if_neg hz, if_neg h₂', if_neg h₃', ih hj, Option.map_some]

theorem dangles_cons {c : UInt8} :
    Dangles (c :: s) ↔ c ≠ 0 ∧ 0 ∉ s ∧
      ((c :: s = [10] ∨ c :: s = [10, 13]) ∨ [10] <:+ s ∨ [10, 13] <:+ s) := by
  rw [Dangles, List.mem_cons, not_or, List.suffix_cons_iff, List.suffix_cons_iff, and_assoc,
    or_or_or_comm, ne_comm, eq_comm (a := [10]), eq_comm (a := [10, 13])]

/-- Bytes without a packet have one with one more byte only if they dangle, and it
    is a line feed. -/
theorem packet?_concat (h : packet? u = none) (x : UInt8) :
    packet? (u ++ [x]) = if x = 10 ∧ Dangles u then some (u.length + 1) else none := by
  induction u with
  | nil =>
    have hd : ¬Dangles [] := by decide
    rw [if_neg fun h => hd h.2, List.nil_append, packet?]
    split_ifs with hz h₂ h₃
    · rfl
    · exact absurd h₂.length_le (Nat.not_succ_le_self 1)
    · exact absurd h₃.length_le (Nat.not_succ_le_self 1 <| Nat.le_of_succ_le ·)
    · rfl
  | cons c s ih =>
    rw [packet?] at h
    split_ifs at h with hz h₂ h₃
    · rw [if_neg fun h => h.2.1 (hz ▸ List.mem_cons_self ..), List.cons_append, packet?, if_pos hz]
    have e₂ : [10, 10] <+: c :: s ++ [x] ↔ x = 10 ∧ c :: s = [10] := by
      rw [List.prefix_concat_iff, or_iff_left h₂, and_comm, eq_comm]
      exact (List.append_singleton_inj : c :: s ++ [x] = [10] ++ [10] ↔ _)
    have e₃ : [10, 13, 10] <+: c :: s ++ [x] ↔ x = 10 ∧ c :: s = [10, 13] := by
      rw [List.prefix_concat_iff, or_iff_left h₃, and_comm, eq_comm]
      exact (List.append_singleton_inj : c :: s ++ [x] = [10, 13] ++ [10] ↔ _)
    rw [Option.map_eq_none_iff] at h
    rw [List.cons_append, packet?, if_neg hz, ih h, ← List.cons_append]
    simp only [e₂, e₃]
    by_cases hx : x = 10
    · simp only [hx, true_and]
      by_cases h₂' : c :: s = [10]
      · obtain ⟨rfl, rfl⟩ := List.cons.inj h₂'
        decide
      by_cases h₃' : c :: s = [10, 13]
      · obtain ⟨rfl, rfl⟩ := List.cons.inj h₃'
        decide
      have hd : Dangles (c :: s) ↔ Dangles s := by
        rw [dangles_cons, or_iff_right (not_or.2 ⟨h₂', h₃'⟩), and_iff_right hz]
        rfl
      simp only [h₂', h₃', hd, if_false]
      exact apply_ite (Option.map (· + 1)) (Dangles s) (some (s.length + 1)) none
    · simp only [hx, false_and, if_false, Option.map_none]

/-- The packets, each with the empty line at its end. -/
def packets (u : List UInt8) : List (List UInt8) :=
  match _h : packet? u with
  | none => []
  | some k => u.take k :: packets (u.drop k)
termination_by u.length
decreasing_by
  obtain ⟨hpos, hle, -⟩ := packet?_spec _h
  rw [List.length_drop]
  omega

/-- What is left behind the last packet. -/
def pending (u : List UInt8) : List UInt8 :=
  match _h : packet? u with
  | none => u
  | some k => pending (u.drop k)
termination_by u.length
decreasing_by
  obtain ⟨hpos, hle, -⟩ := packet?_spec _h
  rw [List.length_drop]
  omega

theorem packets_of_none (h : packet? u = none) : packets u = [] := by
  rw [packets]
  split
  · rfl
  · next h' => exact absurd (h.symm.trans h') (by simp)

theorem packets_of_some (h : packet? u = some k) :
    packets u = u.take k :: packets (u.drop k) := by
  rw [packets]
  split
  · next h' => exact absurd (h.symm.trans h') (by simp)
  · next h' => rw [Option.some.inj (h.symm.trans h')]

theorem pending_of_none (h : packet? u = none) : pending u = u := by
  rw [pending]
  split
  · rfl
  · next h' => exact absurd (h.symm.trans h') (by simp)

theorem pending_of_some (h : packet? u = some k) : pending u = pending (u.drop k) := by
  rw [pending]
  split
  · next h' => exact absurd (h.symm.trans h') (by simp)
  · next h' => rw [Option.some.inj (h.symm.trans h')]

/-- The packets of some bytes, one after the other. -/
theorem packets_induction {P : List UInt8 → Prop} (none : ∀ u, packet? u = none → P u)
    (some : ∀ u k, packet? u = some k → P (u.drop k) → P u) (u : List UInt8) : P u := by
  induction hn : u.length using Nat.strong_induction_on generalizing u with
  | _ n ih =>
    cases h : packet? u with
    | none => exact none u h
    | some k =>
      obtain ⟨hpos, hle, -⟩ := packet?_spec h
      exact some u k h (ih _ (by rw [List.length_drop]; omega) _ rfl)

theorem endsPacket_of_mem : ∀ p ∈ packets u, EndsPacket p := by
  induction u using packets_induction with
  | none u h =>
    rw [packets_of_none h]
    exact List.forall_mem_nil _
  | some u k h ih =>
    rw [packets_of_some h]
    exact List.forall_mem_cons.2 ⟨(packet?_spec h).2.2, ih⟩

theorem flatten_packets (u : List UInt8) : (packets u).flatten ++ pending u = u := by
  induction u using packets_induction with
  | none u h => rw [packets_of_none h, pending_of_none h, List.flatten_nil, List.nil_append]
  | some u k h ih =>
    rw [packets_of_some h, pending_of_some h, List.flatten_cons, List.append_assoc, ih,
      List.take_append_drop]

/-- One more byte may end one more packet. -/
theorem length_packets_concat (u : List UInt8) (x : UInt8) :
    (packets (u ++ [x])).length =
      (packets u).length + if x = 10 ∧ Dangles (pending u) then 1 else 0 := by
  induction u using packets_induction with
  | none u h =>
    have hc := packet?_concat h x
    rw [packets_of_none h, pending_of_none h, List.length_nil, Nat.zero_add]
    split_ifs at hc ⊢ with hd
    · rw [packets_of_some hc, List.drop_of_length_le (by simp), packets_of_none rfl]
      rfl
    · rw [packets_of_none hc]
      rfl
  | some u k h ih =>
    rw [packets_of_some h, pending_of_some h, packets_of_some (packet?_append h [x]),
      List.drop_append_of_le_length (packet?_spec h).2.1, List.length_cons, ih, List.length_cons]
    omega

theorem packets_nil : packets [] = [] := packets_of_none rfl

theorem packet?_singleton (c : UInt8) : packet? [c] = none := by
  have h := packet?_concat (u := []) rfl c
  rwa [if_neg fun h => absurd h.2 (by decide)] at h

/-- A byte before the end of the first packet. -/
theorem length_packets_cons {c : UInt8} (h : packet? (c :: s) = (packet? s).map (· + 1)) :
    (packets (c :: s)).length = (packets s).length := by
  cases hs : packet? s with
  | none =>
    rw [hs] at h
    rw [packets_of_none h, packets_of_none hs]
  | some j =>
    rw [hs] at h
    rw [packets_of_some h, packets_of_some hs, List.drop_succ_cons, List.length_cons,
      List.length_cons]

/-- Bytes that settle their packets have the same first one with one more byte. -/
theorem packet?_concat_of_settled (h : ¬Dangles (pending u)) (x : UInt8) :
    packet? (u ++ [x]) = packet? u := by
  cases hp : packet? u with
  | none =>
    rw [pending_of_none hp] at h
    rw [packet?_concat hp, if_neg fun hx => h hx.2]
  | some k => exact packet?_append hp [x]

namespace KsBuffer

variable {b b' : KsBuffer} {m : Mem} {head e p : ℕ}

/-! ## Scans -/

/-- The loop of `ks_buffer_packet_count` from `p` on. -/
def packetCountFrom (m : Mem) (e p : ℕ) : ℕ :=
  if p < e ∧ m p ≠ 0 then
    let pe := if m (p + 1) = 13 then p + 2 else p + 1
    if m p = 10 ∧ pe ≤ e ∧ m pe = 10 then packetCountFrom m e (pe + 1) + 1
    else packetCountFrom m e (p + 1)
  else 0
termination_by e - p
decreasing_by
  · split_ifs
    all_goals omega
  · omega

/-- `ks_buffer_packet_count`. -/
def packetCount (b : KsBuffer) : ℕ := packetCountFrom b.data (b.head + b.used) b.head

theorem prefix_read (m : Mem) (p n : ℕ) (c : UInt8) :
    [c] <+: m.read p n ↔ 0 < n ∧ m p = c := by
  cases n with
  | zero =>
    refine iff_of_false (fun h => ?_) fun h => Nat.lt_irrefl 0 h.1
    exact Nat.not_succ_le_zero 0 h.length_le
  | succ n =>
    rw [Mem.read, List.cons_prefix_cons, and_iff_left List.nil_prefix,
      and_iff_right (Nat.succ_pos n), eq_comm]

/-- The end of a packet in memory, as the scans look for it. -/
theorem packet?_read (m : Mem) (p n : ℕ) :
    packet? (m.read p (n + 1 + 1)) =
      if m p = 0 then none
      else
        let pe := if m (p + 1) = 13 then p + 2 else p + 1
        if m p = 10 ∧ pe ≤ p + (n + 1) ∧ m pe = 10 then some (pe + 1 - p)
        else (packet? (m.read (p + 1) (n + 1))).map (· + 1) := by
  have hread : m.read p (n + 1 + 1) = m p :: m (p + 1) :: m.read (p + 2) n := rfl
  have h₂ : [10, 10] <+: m p :: m.read (p + 1) (n + 1) ↔ m p = 10 ∧ m (p + 1) = 10 := by
    rw [Mem.read, List.cons_prefix_cons, List.cons_prefix_cons, and_iff_left List.nil_prefix,
      eq_comm, eq_comm (a := 10)]
  have h₃ : [10, 13, 10] <+: m p :: m.read (p + 1) (n + 1) ↔
      m p = 10 ∧ m (p + 1) = 13 ∧ 0 < n ∧ m (p + 2) = 10 := by
    rw [Mem.read, List.cons_prefix_cons, List.cons_prefix_cons, prefix_read, eq_comm,
      eq_comm (a := 13)]
  rw [Mem.read, packet?]
  simp only [h₂, h₃]
  by_cases hz : m p = 0
  · rw [if_pos hz, if_pos hz]
  rw [if_neg hz, if_neg hz]
  by_cases hcr : m (p + 1) = 13
  · have hne : m (p + 1) ≠ 10 := by
      rw [hcr]
      decide
    have hiff : (m p = 10 ∧ m (p + 1) = 13 ∧ 0 < n ∧ m (p + 2) = 10) ↔
        m p = 10 ∧ p + 2 ≤ p + (n + 1) ∧ m (p + 2) = 10 := by
      rw [and_iff_right hcr, show 0 < n ↔ p + 2 ≤ p + (n + 1) by omega]
    rw [if_neg fun h => hne h.2]
    simp only [if_pos hcr, hiff, show p + 2 + 1 - p = 3 by omega]
  · have hiff : (m p = 10 ∧ m (p + 1) = 10) ↔
        m p = 10 ∧ p + 1 ≤ p + (n + 1) ∧ m (p + 1) = 10 := by
      rw [and_iff_right (show p + 1 ≤ p + (n + 1) by omega)]
    rw [if_neg fun h : m p = 10 ∧ m (p + 1) = 13 ∧ 0 < n ∧ m (p + 2) = 10 => hcr h.2.1]
    simp only [if_neg hcr, hiff, show p + 1 + 1 - p = 2 by omega]

/-- The scan of `ks_buffer_read_packet`. -/
theorem packetLen_eq (m : Mem) {head e p : ℕ} (left : ℕ) (hp : p + left = e) (hh : head ≤ p) :
    packetLen m head e left p =
      ((packet? (m.read p (left + 1))).map (p - head + ·)).getD 0 := by
  induction left generalizing p with
  | zero => rw [packetLen, Mem.read, Mem.read_zero, packet?_singleton, Option.map_none,
      Option.getD_none]
  | succ left ih =>
    rw [packetLen, packet?_read, ← hp]
    by_cases hz : m p = 0
    · rw [if_pos hz, if_pos hz, Option.map_none, Option.getD_none]
    rw [if_neg hz, if_neg hz]
    dsimp only
    set pe := if m (p + 1) = 13 then p + 2 else p + 1 with hpe
    have hle : p < pe := by
      rw [hpe]
      split_ifs
      all_goals omega
    by_cases hend : m p = 10 ∧ pe ≤ p + (left + 1) ∧ m pe = 10
    · rw [if_pos hend, if_pos hend, Option.map_some, Option.getD_some]
      omega
    · rw [if_neg hend, if_neg hend, hp, ih (by omega) (by omega), Option.map_map]
      congr 2
      funext k
      simp only [Function.comp_apply]
      omega

/-- The scan of `ks_buffer_packet_count`. -/
theorem packetCountFrom_eq (m : Mem) (e p : ℕ) :
    packetCountFrom m e p = (packets (m.read p (e + 1 - p))).length := by
  induction hd : e - p using Nat.strong_induction_on generalizing p with
  | _ d ih =>
    rw [packetCountFrom]
    rcases Nat.lt_or_ge p e with hlt | hge
    · obtain ⟨n, rfl⟩ : ∃ n, e = p + (n + 1) := ⟨e - p - 1, by omega⟩
      have hscan := packet?_read m p n
      rw [show p + (n + 1) + 1 - p = n + 1 + 1 by omega]
      by_cases hz : m p = 0
      · rw [if_pos hz] at hscan
        rw [if_neg fun h => h.2 hz, packets_of_none hscan, List.length_nil]
      rw [if_neg hz] at hscan
      rw [if_pos ⟨hlt, hz⟩]
      dsimp only at hscan ⊢
      set pe := if m (p + 1) = 13 then p + 2 else p + 1 with hpe
      have hle : p < pe := by
        rw [hpe]
        split_ifs
        all_goals omega
      by_cases hend : m p = 10 ∧ pe ≤ p + (n + 1) ∧ m pe = 10
      · rw [if_pos hend] at hscan
        rw [if_pos hend, packets_of_some hscan, Mem.drop_read _ _ _ _ (by omega), List.length_cons,
          ih _ (by omega) _ rfl, show p + (pe + 1 - p) = pe + 1 by omega,
          show n + 1 + 1 - (pe + 1 - p) = p + (n + 1) + 1 - (pe + 1) by omega]
      · rw [if_neg hend] at hscan
        rw [if_neg hend, ih _ (by omega) _ rfl, show p + (n + 1) + 1 - (p + 1) = n + 1 by omega]
        exact (length_packets_cons hscan).symm
    · rw [if_neg fun h => Nat.not_lt_of_ge hge h.1]
      rcases Nat.eq_or_lt_of_le hge with rfl | hgt
      · rw [Nat.add_sub_cancel_left, Mem.read_one, packets_of_none (packet?_singleton _)]
        rfl
      · rw [show e + 1 - p = 0 by omega, Mem.read_zero, packets_nil]
        rfl

/-! ## Buffers -/

/-- A buffer whose unread bytes are in its block. -/
structure Readable (b : KsBuffer) : Prop where
  pos : 0 < b.datalen
  lt : b.datalen < 2 ^ 64
  le : b.head + b.used ≤ b.datalen

/-- The byte behind the unread ones. -/
def behind (b : KsBuffer) : UInt8 := b.data (b.head + b.used)

theorem Readable.dropped (h : b.Readable) (n : ℕ) : (b.dropped n).Readable := by
  have := h.le
  refine ⟨h.pos, h.lt, ?_⟩
  rw [KsBuffer.dropped]
  dsimp only
  omega

theorem unread_behind (b : KsBuffer) : b.data.read b.head (b.used + 1) = b.unread ++ [b.behind] :=
  Mem.read_add _ _ _ _

theorem packetCount_eq (b : KsBuffer) :
    b.packetCount = (packets (b.unread ++ [b.behind])).length := by
  rw [packetCount, packetCountFrom_eq, ← unread_behind, Nat.add_assoc, Nat.add_sub_cancel_left]

/-- The length of the packet that `ks_buffer_read_packet` finds. -/
theorem packetLen_unread (b : KsBuffer) :
    packetLen b.data b.head (b.head + b.used) b.used b.head =
      (packet? (b.unread ++ [b.behind])).getD 0 := by
  rw [packetLen_eq _ _ rfl le_rfl, unread_behind, Nat.sub_self]
  simp only [Nat.zero_add, Option.map_id']

theorem readPacket_eq (h : b.Readable) (maxlen : ℕ) :
    b.readPacket maxlen =
      let n := min ((packet? (b.unread ++ [b.behind])).getD 0) maxlen
      .ok ((min n b.used, b.unread.take n), b.dropped n) := by
  have := h.le
  have := h.lt
  rw [readPacket, packetLen_unread, read_eq h.pos (by omega) h.le]

/-- The two calls answer the same in both buffers. -/
def SameAnswers (b b' : KsBuffer) : Prop :=
  b'.packetCount = b.packetCount ∧
    ∀ maxlen, ∃ out c c', b.readPacket maxlen = .ok (out, c) ∧ b'.readPacket maxlen = .ok (out, c')

/-- A `ks_buffer_read_packet` with room for all unread bytes. -/
def Roomy (b : KsBuffer) : Op → Prop
  | .readPacket maxlen => b.used ≤ maxlen
  | _ => False

/-- What a call gives that has read a packet. -/
def readOut (p : List UInt8) : Out := (p.length, p)

/-- As many calls return packets as were counted, and the others nothing. -/
def Drains (b : KsBuffer) : Prop :=
  ∀ ops, Along call Roomy b ops →
    ∃ (ps : List (List UInt8)) (b' : KsBuffer),
      calls call b ops =
          .ok (ps.map readOut ++ List.replicate (ops.length - ps.length) (0, []), b') ∧
        ps.length = min ops.length b.packetCount ∧ (∀ p ∈ ps, EndsPacket p) ∧
        ps.flatten <+: b.unread

/-- Calls in a row take the packets off, one after the other. -/
theorem calls_readPacket {ops : List Op} (h : b.Readable) (hs : ¬Dangles (pending b.unread))
    (hops : Along call Roomy b ops) :
    ∃ b', calls call b ops =
      .ok (((packets b.unread).take ops.length).map readOut ++
        List.replicate (ops.length - (packets b.unread).length) (0, []), b') := by
  induction ops generalizing b with
  | nil => exact ⟨b, by rw [List.length_nil, Nat.zero_sub]; rfl⟩
  | cons op ops ih =>
    obtain ⟨hop, hrest⟩ := hops
    cases op with
    | readPacket maxlen =>
      have hroom : b.used ≤ maxlen := hop
      have hcall := readPacket_eq h maxlen
      rw [packet?_concat_of_settled hs] at hcall
      cases hp : packet? b.unread with
      | none =>
        rw [hp, Option.getD_none, Nat.zero_min] at hcall
        have hsame : (b.dropped 0).unread = b.unread := unread_dropped b 0
        obtain ⟨b', hb'⟩ := ih (h.dropped 0) (hsame ▸ hs) (hrest _ _ hcall)
        rw [hsame, packets_of_none hp, List.take_nil] at hb'
        refine ⟨b', ?_⟩
        rw [calls, call, hcall, packets_of_none hp, List.take_nil]
        dsimp only
        rw [ok_bind, hb', Nat.zero_min]
        rfl
      | some k =>
        obtain ⟨hpos, hle, -⟩ := packet?_spec hp
        rw [length_unread] at hle
        rw [hp, Option.getD_some, Nat.min_eq_left (hle.trans hroom)] at hcall
        have hrests : (b.dropped k).unread = b.unread.drop k := unread_dropped b k
        rw [pending_of_some hp, ← hrests] at hs
        obtain ⟨b', hb'⟩ := ih (h.dropped k) hs (hrest _ _ hcall)
        refine ⟨b', ?_⟩
        rw [calls, call, hcall, packets_of_some hp, List.length_cons, List.take_succ_cons,
          List.map_cons, List.length_cons, Nat.add_sub_add_right, ← hrests]
        dsimp only
        rw [ok_bind, hb', readOut, List.length_take, length_unread]
        rfl
    | _ => exact hop.elim

/-- The buffer with another byte behind the unread ones. -/
def withBehind (b : KsBuffer) (x : UInt8) : KsBuffer :=
  { b with data := b.data.write (b.head + b.used) [x] }

theorem unread_withBehind (b : KsBuffer) (x : UInt8) : (b.withBehind x).unread = b.unread :=
  Mem.read_write_of_disjoint (.inl le_rfl)

theorem behind_withBehind (b : KsBuffer) (x : UInt8) : (b.withBehind x).behind = x := by
  rw [behind, withBehind]
  exact (Mem.write_apply_of_mem le_rfl (by simp)).trans (by simp)

theorem Readable.withBehind (h : b.Readable) (x : UInt8) : (b.withBehind x).Readable :=
  ⟨h.pos, h.lt, h.le⟩

theorem packetCount_of_settled (hs : ¬Dangles (pending b.unread)) :
    b.packetCount = (packets b.unread).length := by
  rw [packetCount_eq, length_packets_concat, if_neg fun h => hs h.2, Nat.add_zero]

/-- The count is up to the byte behind, if the unread bytes dangle. -/
theorem packetCount_withBehind (hd : Dangles (pending b.unread)) (x : UInt8) :
    (b.withBehind x).packetCount = (packets b.unread).length + if x = 10 then 1 else 0 := by
  rw [packetCount_eq, length_packets_concat, unread_withBehind, behind_withBehind]
  simp only [hd, and_true]

/-- **When packets are a matter of the unread bytes alone.** -/
theorem frames_iff (h : b.Readable) :
    ((∀ b', Readable b' → b'.unread = b.unread → b.SameAnswers b') ∧ b.Drains) ↔
      ¬Dangles (pending b.unread) := by
  constructor
  · rintro ⟨hsame, -⟩ hd
    have h₁ := (hsame _ (h.withBehind 10) (unread_withBehind b 10)).1
    have h₀ := (hsame _ (h.withBehind 0) (unread_withBehind b 0)).1
    rw [packetCount_withBehind hd, if_pos rfl] at h₁
    rw [packetCount_withBehind hd, if_neg (by decide)] at h₀
    omega
  · intro hs
    refine ⟨fun b' h' hu => ⟨?_, fun maxlen => ?_⟩, fun ops hops => ?_⟩
    · rw [packetCount_of_settled hs, packetCount_of_settled (hu ▸ hs), hu]
    · have hused : b'.used = b.used := by rw [← length_unread, hu, length_unread]
      have hb := readPacket_eq h maxlen
      have hb' := readPacket_eq h' maxlen
      rw [packet?_concat_of_settled hs] at hb
      rw [hu, packet?_concat_of_settled hs, hused] at hb'
      exact ⟨_, _, _, hb, hb'⟩
    · obtain ⟨b', hb'⟩ := calls_readPacket h hs hops
      obtain ⟨ps, hps⟩ := List.take_prefix ops.length (packets b.unread)
      refine ⟨(packets b.unread).take ops.length, b', ?_, ?_, fun p hp => ?_, ?_⟩
      · rw [hb', List.length_take, ← Nat.sub_eq_sub_min]
      · rw [List.length_take, packetCount_of_settled hs]
      · exact endsPacket_of_mem p (List.mem_of_mem_take hp)
      · refine ⟨ps.flatten ++ pending b.unread, ?_⟩
        rw [← List.append_assoc, ← List.flatten_append, hps, flatten_packets]

/-- Two packets, and the beginning of a third one. -/
theorem frames_two :
    let b := (create 0 16 0).stored [97, 10, 10, 98, 10, 13, 10, 99]
    (∀ b', Readable b' → b'.unread = b.unread → b.SameAnswers b') ∧ b.Drains :=
  (frames_iff ⟨by decide, by decide, by decide +kernel⟩).2 (by decide +kernel)

/-- The line feed of a packet that was there before makes a packet of a single one. -/
theorem not_frames_stale :
    let b := (create 0 8 0).stored [97, 10]
    let b' := { (create 0 8 0).stored [97, 10, 10] with used := 0, actuallyUsed := 0 }.stored
      [97, 10]
    calls call (create 0 8 0) [.write [97, 10] true] = .ok ([(2, [])], b) ∧
      calls call (create 0 8 0) [.write [97, 10, 10] true, .zero, .write [97, 10] true] =
        .ok ([(3, []), (0, []), (2, [])], b') ∧
      b'.unread = b.unread ∧ b.packetCount = 0 ∧ b'.packetCount = 1 := by
  refine ⟨?_, ?_, ?_, ?_, ?_⟩
  · with_unfolding_all rfl
  · with_unfolding_all rfl
  · decide +kernel
  · decide +kernel
  · decide +kernel

end KsBuffer

end Libks
