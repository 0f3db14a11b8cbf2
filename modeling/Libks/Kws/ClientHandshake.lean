import Libks.Base.Http
import Libks.Base.Outcome
import Libks.Kws.ReadSafety

/-!
# The response to a client

`ws_client_handshake` reads the response over and over to the same place, until
what it has there holds a blank line; so it only ever sees one read
(`readResponse_reads`). Its verdict is the one the response calls for, and the
bytes behind the response are left for `kws_raw_read`, if that read holds the
end of the response whole, and a line with the accept value
(`wsClientHandshake_proper_iff`).
-/

namespace Libks

open Base

/-- The string at the start of the bytes of a read. -/
def cstr (bs : List UInt8) : List UInt8 := bs.takeWhile (· ≠ 0)

/-- The answers of the transport are the reads `ps`, of at most `n` bytes each. -/
inductive Reads (n : ℕ) : List ReadEvent → List (List UInt8) → Prop
  | nil : Reads n [] []
  | read {es : List ReadEvent} {ps : List (List UInt8)} (ha : avail es ≠ [])
      (h : Reads n (after (min n (headLength es)) es) ps) :
      Reads n es ((avail es).take (min n (headLength es)) :: ps)

variable {n : ℕ} {es : List ReadEvent} {ps : List (List UInt8)}

/-- What a read takes and what it leaves is what was on the wire. -/
theorem wire_after {c : ℕ} (hc : c ≤ (avail es).length) :
    (avail es).take c ++ wire (after c es) = wire es := by
  induction es generalizing c with
  | nil => simp [avail, after, wire]
  | cons e es ih =>
    cases e with
    | data bs =>
      rw [avail, after, wire]
      rw [avail, List.length_append] at hc
      split_ifs with h
      · have hrest := ih (c := c - bs.length) (by omega)
        rw [List.take_append, List.take_of_length_le h, List.append_assoc, hrest]
      · rw [List.take_append_of_le_length (by omega), wire, ← List.append_assoc,
          List.take_append_drop]
    | closed err => simp [avail, after]
    | failed err => simp [avail, after]

theorem min_headLength_le (n : ℕ) (es : List ReadEvent) :
    min n (headLength es) ≤ (avail es).length :=
  Nat.le_trans (Nat.min_le_right _ _) (headLength_le es)

/-- The pieces are, together, what was on the wire. -/
theorem Reads.flatten (h : Reads n es ps) : ps.flatten = wire es := by
  induction h with
  | nil => rfl
  | read ha h ih => rw [List.flatten_cons, ih, wire_after (min_headLength_le _ _)]

theorem length_wire_le (es : List ReadEvent) : (wire es).length ≤ Kws.readSize es := by
  induction es with
  | nil => exact Nat.le_refl 0
  | cons e es ih =>
    cases e with
    | data bs =>
      rw [wire, readSize_cons, List.length_append]
      dsimp only
      omega
    | closed err => exact Nat.le_trans ih (Nat.le_add_left _ _)
    | failed err => exact Nat.le_trans ih (Nat.le_add_left _ _)

/-- There are no more reads than bytes. -/
theorem Reads.length_le (h : Reads n es ps) (hn : 0 < n) (hne : NonEmpty es) :
    ps.length ≤ (wire es).length := by
  induction h with
  | nil => exact Nat.le_refl 0
  | @read es ps ha h ih =>
    have hpos := headLength_pos hne ha
    have hle := min_headLength_le n es
    have hwire := congrArg List.length (wire_after hle)
    rw [List.length_append, List.length_take] at hwire
    have := ih (hne.after _)
    rw [List.length_cons]
    omega

/-- The transport has nothing but data. -/
def Calm (es : List ReadEvent) : Prop := ∀ e ∈ es, ∃ bs, bs ≠ [] ∧ e = .data bs

theorem Calm.nonEmpty (h : Calm es) : NonEmpty es := by
  intro bs hbs
  obtain ⟨cs, hcs, he⟩ := h _ hbs
  injection he with he
  rwa [he]

theorem Calm.avail_ne (h : Calm es) (hes : es ≠ []) : avail es ≠ [] := by
  cases es with
  | nil => exact absurd rfl hes
  | cons e es =>
    obtain ⟨bs, hbs, rfl⟩ := h e List.mem_cons_self
    rw [avail, ne_eq, List.append_eq_nil_iff]
    exact fun h => hbs h.1

theorem Calm.after (h : Calm es) (c : ℕ) : Calm (after c es) := by
  induction es generalizing c with
  | nil => exact h
  | cons e es ih =>
    have htail : Calm es := fun e he => h e (List.mem_cons_of_mem _ he)
    obtain ⟨bs, hbs, rfl⟩ := h e List.mem_cons_self
    rw [Libks.after]
    split_ifs with hlt
    · exact ih htail _
    · intro e he
      rcases List.mem_cons.1 he with rfl | he
      · exact ⟨_, fun hnil => hlt (List.drop_eq_nil_iff.1 hnil), rfl⟩
      · exact htail e he

/-- Such a transport is read in some reads. -/
theorem Calm.exists_reads (h : Calm es) (hn : 0 < n) : ∃ ps, Reads n es ps := by
  induction hm : (wire es).length using Nat.strong_induction_on generalizing es with
  | _ m ih =>
    by_cases hes : es = []
    · exact ⟨[], hes ▸ .nil⟩
    have ha := h.avail_ne hes
    have hpos := headLength_pos h.nonEmpty ha
    have hle := min_headLength_le n es
    have hwire := congrArg List.length (wire_after hle)
    rw [List.length_append, List.length_take] at hwire
    obtain ⟨ps, hps⟩ := ih _ (by omega) (h.after (min n (headLength es))) rfl
    exact ⟨_, .read ha hps⟩

/-- A chunk that fits is read in one read. -/
theorem Reads.cons {p : List UInt8} (h : Reads n es ps) (hne : NonEmpty es) (hp : p ≠ [])
    (hn : p.length ≤ n) : Reads n (.data p :: es) (p :: ps) := by
  have hmin : min n (headLength (.data p :: es)) = p.length := Nat.min_eq_right hn
  have hrest : Reads n (after (min n (headLength (.data p :: es))) (.data p :: es)) ps := by
    rwa [hmin, after, if_pos (Nat.le_refl _), Nat.sub_self, after_zero hne]
  have hread := Reads.read (by rw [avail]; exact List.append_ne_nil_of_left_ne_nil hp _) hrest
  rwa [hmin, avail, List.take_left] at hread

/-- Data that comes in chunks that fit is read in these chunks. -/
theorem reads_map (h : ∀ p ∈ ps, p ≠ [] ∧ p.length ≤ n) : Reads n (ps.map .data) ps := by
  induction ps with
  | nil => exact .nil
  | cons p ps ih =>
    obtain ⟨hp, hn⟩ := h p List.mem_cons_self
    have hps := fun q hq => h q (List.mem_cons_of_mem _ hq)
    have hne : NonEmpty (ps.map .data) := by
      intro q hq
      obtain ⟨_, hmem, hdata⟩ := List.mem_map.1 hq
      injection hdata with hdata
      exact hdata ▸ (hps _ hmem).1
    exact (ih hps).cons hne hp hn

namespace Kws

variable {k k' : Kws} {p : List UInt8}

/-- The read holds a blank line in its string. -/
def Blank (p : List UInt8) : Prop := (strstr crlfcrlf (cstr p)).isSome

instance : DecidablePred Blank := fun _ => inferInstanceAs (Decidable (_ = true))

/-- A client that starts its handshake, with `n + 1` bytes in its buffer. -/
structure Fresh (k : Kws) (n : ℕ) : Prop where
  unprocessed : k.unprocessedBufferLen = 0
  x : k.x = 0
  datalen : k.datalen = 0
  buflen : k.buflen = n + 1
  pos : 0 < n
  small : n < 2 ^ 31

/-- A read to the start of the buffer, with its terminator. -/
theorem stringRead_text (h : k.Fresh n) (hne : NonEmpty k.world.reads)
    (ha : avail k.world.reads ≠ []) :
    ∃ m, m.read 0 (k.chunk n) = (avail k.world.reads).take (k.chunk n) ∧ m (k.chunk n) = 0 ∧
      k.stringRead (.buffer 0) (n + 1) wsBlock =
        .ok (⟨(k.chunk n : ℕ), (avail k.world.reads).take (k.chunk n)⟩,
          { k with buffer := m }.delivered (k.chunk n)) := by
  have hroom : k.Room (.buffer 0) (n + 1) := by
    rw [Room, h.buflen, Nat.zero_add]
  have hlen := k.length_take_chunk n
  have hle := k.chunk_le n
  refine ⟨(k.buffer.write n [0]).write 0 (k.stored (k.chunk n) n), ?_, ?_, ?_⟩
  · have hread := read_write_prefix (k.buffer.write n [0]) 0 ((avail k.world.reads).take (k.chunk n))
      (if k.chunk n < n then [0] else [])
    rwa [hlen] at hread
  · by_cases hlt : k.chunk n < n
    · rw [stored, if_pos hlt, ← Mem.write_write, Nat.zero_add, hlen,
        Mem.write_apply_of_mem (Nat.le_refl _) (by simp), List.getElem_singleton]
    · rw [stored, if_neg hlt, List.append_nil, Mem.write_apply_of_ge (by rw [hlen]; omega),
        Mem.write_apply_of_mem (by omega) (by simp; omega)]
      simp
  · rw [stringRead_eq h.pos hroom, rawRead_data (k := k.put ((Ptr.buffer 0).add n) [0]) h.unprocessed
      (patient_of_x h.x (.inr rfl)) (asks_of_lt h.pos h.small) hne ha
      ((room_put _).2 (hroom.mono (Nat.le_succ n)))]
    rw [Ptr.add, Nat.zero_add]
    rfl

/-- The text in the buffer is the bytes read, up to a NUL. -/
theorem text_eq {m : Mem} (hm : m.read 0 p.length = p) (h0 : m p.length = 0) {l : ℕ}
    (hl : p.length < l) : m.strAt l 0 = cstr p := by
  refine Mem.strAt_eq (Mem.isStr_takeWhile hm (by rwa [Nat.zero_add])) ?_
  exact Nat.lt_of_le_of_lt (List.takeWhile_sublist _).length_le hl

/-- The connection behind the read that has ended the loop. -/
def responded (k : Kws) (m : Mem) (es : List ReadEvent) : Kws :=
  { k with buffer := m, x := 0, world := { k.world with reads := es } }

/-- The answer is read on as long as it has no empty line. -/
theorem readResponse_step {r : ℤ} {bs : List UInt8} {fuel : ℕ} (hd : k.datalen = 0)
    (hread : k.stringRead (.buffer 0) k.buflen wsBlock = .ok (⟨r, bs⟩, k')) :
    readResponse (fuel + 1) k =
      if 0 < r ∧ (strstr crlfcrlf k'.text).isNone then readResponse fuel k' else .ok (r, k') := by
  rw [readResponse, hd, Int.toNat_zero, Nat.sub_zero, hread]
  rfl

/-- The loop ends with the first read that holds a blank line. -/
theorem readResponse_reads (h : k.Fresh n) (hcalm : Calm k.world.reads)
    (hreads : Reads n k.world.reads ps) {fuel : ℕ} (hfuel : ps.length < fuel) :
    ∃ r k', readResponse fuel k = .ok (r, k') ∧
      (r ≤ 0 ∧ (∀ p ∈ ps, ¬Blank p) ∨
        ∃ as p bs m es, ps = as ++ p :: bs ∧ (∀ a ∈ as, ¬Blank a) ∧ Blank p ∧ r = (p.length : ℕ) ∧
          0 < p.length ∧ Reads n es bs ∧ Calm es ∧ m.read 0 p.length = p ∧
          m.strAt (n + 1) 0 = cstr p ∧ k' = k.responded m es) := by
  -- Induction on the reads of the transport.
  generalize hes : k.world.reads = es at hcalm hreads
  induction hreads generalizing k fuel with
  | nil =>
    cases fuel with
    | zero => exact absurd hfuel (Nat.not_lt_zero _)
    | succ fuel =>
      obtain ⟨r, k₁, hr, hread, -⟩ := stringRead_end h.unprocessed hes
        (asks_of_lt h.pos h.small) (show 0 + (n + 1) ≤ k.buflen by rw [h.buflen]; omega) wsBlock
      have hneg : ¬0 < r := by rcases hr with rfl | rfl <;> simp
      refine ⟨r, k₁, ?_, .inl ⟨Int.not_lt.1 hneg, fun p hp => absurd hp List.not_mem_nil⟩⟩
      rw [readResponse_step h.datalen (by rw [h.buflen]; exact hread), if_neg fun h => hneg h.1]
  | @read es ps ha hrest ih =>
    cases fuel with
    | zero => exact absurd hfuel (Nat.not_lt_zero _)
    | succ fuel =>
      subst hes
      have hne := hcalm.nonEmpty
      obtain ⟨m, hm, h0, hread⟩ := stringRead_text h hne ha
      have hc : k.chunk n = min n (headLength k.world.reads) := by
        rw [chunk, requestSize_of_lt h.small]
      have hlen := k.length_take_chunk n
      have hpos := chunk_pos (k := k) hne ha (asks_of_lt h.pos h.small)
      have hle := k.chunk_le n
      rw [← hc] at hrest ih ⊢
      generalize hp : (avail k.world.reads).take (k.chunk n) = p at *
      rw [← hlen] at hm h0 hpos hle
      have htext := text_eq hm h0 (show p.length < n + 1 by omega)
      have hk₁ : { k with buffer := m }.delivered (k.chunk n) =
          k.responded m (after (k.chunk n) k.world.reads) := rfl
      rw [hk₁, ← hlen] at hread
      have htext₁ : (k.responded m (after p.length k.world.reads)).text = cstr p := by
        rw [← htext, ← h.buflen]
        rfl
      rw [← hlen] at hrest ih
      rw [readResponse_step h.datalen (by rw [h.buflen]; exact hread)]
      -- The empty line has come with this piece, or the loop reads on.
      by_cases hblank : Blank p
      · have hsome : ¬(strstr crlfcrlf (cstr p)).isNone = true := by
          rw [Option.isNone_iff_eq_none, ← ne_eq, ← Option.isSome_iff_ne_none]
          exact hblank
        rw [if_neg fun h => hsome (by rw [← htext₁]; exact h.2)]
        exact ⟨_, _, rfl, .inr ⟨[], p, ps, m, _, rfl, fun _ h => absurd h List.not_mem_nil, hblank,
          rfl, hpos, hrest, hcalm.after _, hm, htext, rfl⟩⟩
      · have hnone : (strstr crlfcrlf (cstr p)).isNone = true := by
          rw [Blank, Bool.not_eq_true, Option.isSome_eq_false_iff] at hblank
          exact hblank
        rw [if_pos ⟨by omega, by rw [htext₁]; exact hnone⟩]
        obtain ⟨r, k', hloop, hor⟩ := ih (k := k.responded m (after p.length k.world.reads))
          ⟨h.unprocessed, rfl, h.datalen, h.buflen, h.pos, h.small⟩
          (show ps.length < fuel by rw [List.length_cons] at hfuel; omega) rfl (hcalm.after _)
        refine ⟨r, k', hloop, ?_⟩
        rcases hor with ⟨hr, hall⟩ |
          ⟨as, q, bs, m', es', rfl, has, hq, hr, hqpos, hbs, hes', hm', ht', rfl⟩
        · refine .inl ⟨hr, fun q hq => ?_⟩
          rcases List.mem_cons.1 hq with rfl | hq
          · exact hblank
          · exact hall q hq
        · refine .inr ⟨p :: as, q, bs, m', es', rfl, fun a ha => ?_, hq, hr, hqpos, hbs, hes', hm', ht',
            rfl⟩
          rcases List.mem_cons.1 ha with rfl | ha
          · exact hblank
          · exact has a ha

/-! ## The end of the response -/

/-- A head that ends with its first blank line. -/
structure IsHead (head : List UInt8) : Prop where
  noNul : 0 ∉ head
  blank : ∃ i, strstr crlfcrlf head = some i ∧ head.length = i + 4

variable {head rest : List UInt8} {as bs : List (List UInt8)}

theorem strstr_length_le {s : List UInt8} {i : ℕ} (h : strstr crlfcrlf s = some i) :
    i + 4 ≤ s.length := by
  have hne : crlfcrlf ≠ [] := List.cons_ne_nil _ _
  have hlen := ((strstr_eq_some_iff hne).1 h).1.length_le
  rw [List.length_drop, show crlfcrlf.length = 4 from rfl] at hlen
  omega

/-- A read that holds the last four bytes of the head holds its blank line. -/
theorem strstr_of_whole (hhead : IsHead head) (hcat : as.flatten ++ (p ++ bs.flatten) = head ++ rest)
    (h4 : as.flatten.length + 4 ≤ head.length) (hle : head.length ≤ as.flatten.length + p.length) :
    ∃ i, strstr crlfcrlf (cstr p) = some i ∧ as.flatten.length + (i + 4) = head.length := by
  obtain ⟨i, hi, hlen⟩ := hhead.blank
  have hne : crlfcrlf ≠ [] := List.cons_ne_nil _ _
  -- The read is a part `r` of the head, and `s` behind it.
  obtain ⟨r, rfl, hr⟩ : ∃ r, head = as.flatten ++ r ∧ p ++ bs.flatten = r ++ rest := by
    rcases List.append_eq_append_iff.1 hcat with ⟨r, h₁, h₂⟩ | ⟨r, h₁, h₂⟩
    · exact ⟨r, h₁, h₂⟩
    · have hnil : r = [] := List.length_eq_zero_iff.1 (by
        rw [h₁, List.length_append] at h4
        omega)
      exact ⟨[], by rw [h₁, hnil, List.append_nil, List.append_nil], by rw [h₂, hnil]; rfl⟩
  rw [List.length_append] at h4 hle hlen
  obtain ⟨s, rfl⟩ : ∃ s, p = r ++ s := by
    rcases List.append_eq_append_iff.1 hr with ⟨s, h₁, h₂⟩ | ⟨s, h₁, h₂⟩
    · have hnil : s = [] := List.length_eq_zero_iff.1 (by
        rw [h₁, List.length_append] at hle
        omega)
      exact ⟨[], by rw [h₁, hnil, List.append_nil, List.append_nil]⟩
    · exact ⟨s, h₁⟩
  have hcstr : cstr (r ++ s) = r ++ cstr s := by
    refine List.takeWhile_append_of_pos fun c hc => ?_
    simp only [ne_eq, decide_not, Bool.not_eq_eq_eq_not, Bool.not_true, decide_eq_false_iff_not]
    rintro rfl
    exact hhead.noNul (List.mem_append_right _ hc)
  have hdrop (j : ℕ) : (as.flatten ++ r).drop (as.flatten.length + j) = r.drop j := by
    rw [List.drop_append, List.drop_eq_nil_of_le (Nat.le_add_right _ _), List.nil_append,
      Nat.add_sub_cancel_left]
  obtain ⟨hpre, hfirst⟩ := (strstr_eq_some_iff hne).1 hi
  have hr' : strstr crlfcrlf r = some (i - as.flatten.length) := by
    refine (strstr_eq_some_iff hne).2 ⟨?_, fun j hj hc => ?_⟩
    · rwa [← hdrop, Nat.add_sub_cancel' (by omega)]
    · exact hfirst (as.flatten.length + j) (by omega) (by rwa [hdrop])
  refine ⟨i - as.flatten.length, ?_, by rw [List.length_append]; omega⟩
  rw [hcstr]
  exact strstr_append_left hne hr'

/-- No read in front of it holds a blank line. -/
theorem not_blank_of_whole (hhead : IsHead head)
    (hcat : as.flatten ++ (p ++ bs.flatten) = head ++ rest)
    (h4 : as.flatten.length + 4 ≤ head.length) {a : List UInt8} (ha : a ∈ as) : ¬Blank a := by
  intro hblank
  have hne : crlfcrlf ≠ [] := List.cons_ne_nil _ _
  obtain ⟨i, hi, hlen⟩ := hhead.blank
  have hinfix : crlfcrlf <:+: as.flatten := by
    have h₁ : crlfcrlf <:+: cstr a := by
      by_contra hno
      rw [Blank, (strstr_eq_none_iff hne).2 hno] at hblank
      exact absurd hblank (by simp)
    obtain ⟨as₁, as₂, rfl⟩ := List.append_of_mem ha
    refine h₁.trans ((List.takeWhile_prefix _).isInfix.trans ?_)
    exact ⟨as₁.flatten, as₂.flatten, by simp⟩
  obtain ⟨j, hj⟩ : ∃ j, strstr crlfcrlf as.flatten = some j := by
    cases h : strstr crlfcrlf as.flatten with
    | none => exact absurd hinfix ((strstr_eq_none_iff hne).1 h)
    | some j => exact ⟨j, rfl⟩
  have hjle := strstr_length_le hj
  obtain ⟨r, rfl⟩ : as.flatten <+: head := by
    refine List.prefix_of_prefix_length_le ?_ (List.prefix_append head rest) (by omega)
    rw [← hcat]
    exact List.prefix_append _ _
  have hj' := strstr_append_left (t := r) hne hj
  rw [hi] at hj'
  have := Option.some.inj hj'
  omega

/-! ## The verdict -/

/-- The key the client sends. -/
def sentKey (k : Kws) : List UInt8 := b64encode (k.genNonce 16).1

/-- The header whose value decides. -/
def acceptName : List UInt8 := ascii "Sec-WebSocket-Accept"

/-- The response has the accept value of the key that was sent. -/
def Valid (k : Kws) (head : List UInt8) : Prop :=
  Http.fieldValue acceptName head = some (acceptFor k.world.sha1 256 k.sentKey)

instance (k : Kws) (head : List UInt8) : Decidable (k.Valid head) :=
  inferInstanceAs (Decidable (_ = _))

/-- What `cheezy_get_var` finds in the read is that accept value. -/
def Accepts (k : Kws) (p : List UInt8) : Prop :=
  let accept := (cheezyGetVar (cstr p) acceptName 128).getD []
  accept ≠ [] ∧ verifyAccept k k.sentKey accept

instance (k : Kws) (p : List UInt8) : Decidable (k.Accepts p) :=
  inferInstanceAs (Decidable (_ ∧ _))

/-- The answer is looked at once its empty line has come. -/
theorem checkResponse_blank {i : ℕ} (hu : k.unprocessedBufferLen = 0)
    (htext : k.text = cstr p) (hm : k.buffer.read 0 p.length = p) (hpos : 0 < p.length)
    (hi : strstr crlfcrlf (cstr p) = some i) (enonce : List UInt8) :
    let accept := (cheezyGetVar (cstr p) acceptName 128).getD []
    ∃ r k', k.checkResponse enonce p.length = (r, k') ∧
      (r = 0 ↔ accept ≠ [] ∧ verifyAccept k enonce accept) ∧
      (r = 0 → k'.incoming = p.drop (i + 4) ++ wire k.world.reads ∧ k'.x = k.x ∧
        k'.world.reads = k.world.reads) := by
  intro accept
  have haccept : (cheezyGetVar k.text (ascii "Sec-WebSocket-Accept") 128).getD [] = accept := by
    rw [htext]
    rfl
  rw [checkResponse, if_neg (by omega), haccept, htext, hi]
  dsimp only [Option.map_some]
  by_cases hv : accept = [] ∨ ¬verifyAccept k enonce accept = true
  · rw [if_pos hv]
    refine ⟨-1, k, rfl, iff_of_false (by decide) ?_, fun h => absurd h (by decide)⟩
    rintro ⟨hne, hverify⟩
    exact hv.elim hne fun h => h hverify
  · rw [if_neg hv]
    refine ⟨0, _, rfl, iff_of_true rfl ?_, fun _ => ?_⟩
    · obtain ⟨hne, hverify⟩ := not_or.1 hv
      exact ⟨hne, not_not.1 hverify⟩
    by_cases hlt : ((i + 4 : ℕ) : ℤ) < p.length
    · rw [if_pos hlt]
      refine ⟨?_, rfl, rfl⟩
      have hn : ((p.length : ℤ) - (i + 4 : ℕ)).toNat = p.length - (i + 4) := by omega
      have hdrop := Mem.drop_read k.buffer 0 p.length (i + 4) (by omega)
      rw [hm, Nat.zero_add] at hdrop
      rw [incoming, unprocessed, hn, hdrop]
    · rw [if_neg hlt]
      refine ⟨?_, rfl, rfl⟩
      rw [incoming, unprocessed]
      dsimp only
      rw [hu, Mem.read_zero, List.drop_eq_nil_of_le (by omega)]

/-! ## The reads behind it -/

/-- Reads of the caller's, each with its length and the time to wait. -/
def rawReads : List (ℕ × ℤ) → Kws → Except Fault (List UInt8 × Kws)
  | [], k => .ok ([], k)
  | (n, b) :: reqs, k => do
    let (read, k) ← k.rawRead .caller n b
    let (bs, k) ← rawReads reqs k
    return (read.bytes ++ bs, k)

/-- A read whose length is an `int`, and that waits long enough for what is there
    at once. -/
def Modest (req : ℕ × ℤ) : Prop := req.1 < 2 ^ 31 ∧ (req.2 = 0 ∨ 20 ≤ req.2)

theorem rawRead_zero {n : ℕ} {b : ℤ} {io : Bool} {es : List ReadEvent}
    (hu : k.unprocessedBufferLen = 0) (hp : k.Patient b)
    (hgot : k.transportRead n b = ⟨0, [], k.x + 1, io, es⟩) :
    k.rawRead .caller n b =
      .ok (⟨0, []⟩, { k with x := 0, sslIoError := io, world := { k.world with reads := es } }) := by
  have hwait : ¬(10000 ≤ k.x + 1 ∨ b ≠ 0 ∧ b.tdiv 10 ≤ ((k.x + 1 : ℕ) : ℤ)) := by
    rintro (h | ⟨h, h'⟩)
    · exact absurd hp.1 (by omega)
    · have := hp.2 h
      omega
  simp only [rawRead, hu, Nat.lt_irrefl, if_false, hgot]
  rw [store_of_room (show (k.afterRead _).Room .caller _ from trivial)]
  simp only [bind, Except.bind]
  rw [put_nil, endRead_zero hwait rfl]
  simp only [afterRead, hu]

/-- A read with a fresh counter is in time. -/
theorem patient_of_modest {b : ℤ} (hx : k.x = 0) (hb : b = 0 ∨ 20 ≤ b) : k.Patient b := by
  refine ⟨by omega, fun h => ?_⟩
  have h20 := hb.resolve_left h
  rw [hx, Int.tdiv_eq_ediv_of_nonneg (by omega)]
  omega

/-- Such a read takes the next bytes to come in. -/
theorem rawRead_modest {req : ℕ × ℤ} (hreq : Modest req) (hx : k.x = 0) (hcalm : Calm k.world.reads) :
    ∃ read k', k.rawRead .caller req.1 req.2 = .ok (read, k') ∧
      read.bytes ++ k'.incoming = k.incoming ∧ k'.x = 0 ∧ Calm k'.world.reads := by
  obtain ⟨n, b⟩ := req
  obtain ⟨hn, hb⟩ := hreq
  have hp := patient_of_modest hx hb
  have hroom : k.Room .caller n := trivial
  by_cases hu : 0 < k.unprocessedBufferLen
  · obtain ⟨c, up, ul, hcn, hc, hul, -, hup, hread⟩ := rawRead_leftover hu hroom b
    refine ⟨_, _, hread, ?_, hx, hcalm⟩
    have hrest : k.buffer.read up ul = k.unprocessed.drop c := by
      rw [unprocessed, Mem.drop_read _ _ _ _ hc, ← hul]
      rcases hup with h0 | rfl
      · rw [h0, Mem.read_zero, Mem.read_zero]
      · rfl
    show k.unprocessed.take c ++ (k.buffer.read up ul ++ wire k.world.reads) = _
    rw [hrest, ← List.append_assoc, List.take_append_drop]
    rfl
  have hu : k.unprocessedBufferLen = 0 := Nat.eq_zero_of_not_pos hu
  have hin (k : Kws) (h : k.unprocessedBufferLen = 0) : k.incoming = wire k.world.reads := by
    rw [incoming, unprocessed, h, Mem.read_zero, List.nil_append]
  have hnot : ¬Refused k.ssl n := not_refused_of_lt hn
  have hsize := requestSize_of_lt hn
  by_cases hn0 : n = 0
  · have hgot : k.transportRead n b = ⟨0, [], k.x + 1, k.sslIoError, k.world.reads⟩ := by
      rw [transportRead, if_neg hnot, hsize, if_pos hn0]
    exact ⟨_, _, rawRead_zero hu hp hgot, rfl, rfl, hcalm⟩
  by_cases hes : k.world.reads = []
  · have hgot : k.transportRead n b = ⟨0, [], k.x + 1, k.sslIoError, []⟩ := by
      rw [transportRead, if_neg hnot, hsize, if_neg hn0, hes]
      rfl
    refine ⟨_, _, rawRead_zero hu hp hgot, ?_, rfl, fun e he => absurd he List.not_mem_nil⟩
    rw [hin k hu, hes, List.nil_append]
    generalize hk₁ : { k with x := 0, world := { k.world with reads := [] } } = k₁
    have hu₁ : k₁.unprocessedBufferLen = 0 := by rw [← hk₁]; exact hu
    rw [hin k₁ hu₁, ← hk₁]
  · have hread := rawRead_data (q := .caller) hu hp (asks_of_lt (Nat.pos_of_ne_zero hn0) hn)
      hcalm.nonEmpty (hcalm.avail_ne hes) hroom
    refine ⟨_, _, hread, ?_, rfl, hcalm.after _⟩
    have hput : k.put .caller (k.stored (k.chunk n) n) = k := rfl
    have hu₁ : (k.delivered (k.chunk n)).unprocessedBufferLen = 0 := hu
    rw [hput, hin _ hu₁, hin k hu, ← wire_after (k.chunk_le_avail n), delivered]

/-- Modest reads lose nothing of what has come: induction on the requests. -/
theorem rawReads_modest {reqs : List (ℕ × ℤ)} (hreqs : ∀ req ∈ reqs, Modest req) (hx : k.x = 0)
    (hcalm : Calm k.world.reads) :
    ∃ bs k', k.rawReads reqs = .ok (bs, k') ∧ bs ++ k'.incoming = k.incoming := by
  induction reqs generalizing k with
  | nil => exact ⟨[], k, rfl, rfl⟩
  | cons req reqs ih =>
    obtain ⟨read, k₁, hread, hin₁, hx₁, hcalm₁⟩ :=
      rawRead_modest (hreqs req List.mem_cons_self) hx hcalm
    obtain ⟨bs, k', hrun, hin⟩ := ih (fun r hr => hreqs r (List.mem_cons_of_mem _ hr)) hx₁ hcalm₁
    refine ⟨read.bytes ++ bs, k', ?_, ?_⟩
    · rw [rawReads, hread]
      simp only [bind, Except.bind, hrun]
      rfl
    · rw [List.append_assoc, hin, hin₁]

/-! ## Every response, in any reads -/

/-- What reads of the caller's give is `bs`, in order, with nothing lost. -/
def Delivering (k : Kws) (bs : List UInt8) : Prop :=
  ∀ reqs, (∀ req ∈ reqs, Modest req) →
    ∃ got k', k.rawReads reqs = .ok (got, k') ∧ got ++ k'.incoming = bs

/-- The handshake has the verdict the response calls for, and where it succeeds,
    the bytes behind the response are left. -/
def Proper (k : Kws) (head rest : List UInt8) : Prop :=
  ∃ r k', k.wsClientHandshake = .ok (r, k') ∧ (r = 0 ↔ k.Valid head) ∧
    (r = 0 → k'.Delivering rest)

/-- The connection that has sent its request. -/
def asked (k : Kws) : Kws := ((k.genNonce 16).2.rawWrite (clientRequest (k.genNonce 16).2 k.sentKey)).2

/-- The handshake is to ask, to read the answer, and to look at it. -/
theorem wsClientHandshake_eq (k : Kws) :
    k.wsClientHandshake = do
      let (bytes, k') ← readResponse k.asked.inputSize k.asked
      return k'.checkResponse k.sentKey bytes := rfl

theorem Fresh.asked (h : k.Fresh n) : k.asked.Fresh n :=
  ⟨h.unprocessed, h.x, h.datalen, h.buflen, h.pos, h.small⟩

/-- What the handshake ends in: a failure if no read holds a blank line, and
    else what `checkResponse` makes of the first read that does. -/
theorem wsClientHandshake_reads (h : k.Fresh n) (hcalm : Calm k.world.reads)
    (hreads : Reads n k.world.reads ps) :
    ∃ r k', k.wsClientHandshake = .ok (r, k') ∧
      (r ≠ 0 ∧ (∀ p ∈ ps, ¬Blank p) ∨
        ∃ as p bs i, ps = as ++ p :: bs ∧ (∀ a ∈ as, ¬Blank a) ∧ Blank p ∧
          strstr crlfcrlf (cstr p) = some i ∧ (r = 0 ↔ k.Accepts p) ∧
          (r = 0 → k'.incoming = p.drop (i + 4) ++ bs.flatten ∧ k'.x = 0 ∧
            Calm k'.world.reads)) := by
  have hfuel : ps.length < k.asked.inputSize := by
    have h₁ := hreads.length_le h.pos hcalm.nonEmpty
    have h₂ := length_wire_le k.world.reads
    have h₃ : k.asked.inputSize = k.asked.unprocessedBufferLen + readSize k.world.reads + 1 := rfl
    omega
  obtain ⟨r, k₁, hread, hor⟩ := readResponse_reads h.asked hcalm hreads hfuel
  rw [wsClientHandshake_eq, hread]
  rcases hor with ⟨hr, hall⟩ | ⟨as, p, bs, m, es, hps, has, hp, hr, hpos, hbs, hes, hm, htext, rfl⟩
  · refine ⟨_, _, congrArg Except.ok (by rw [checkResponse, if_pos hr]), .inl ⟨by decide, hall⟩⟩
  · obtain ⟨i, hi⟩ := Option.isSome_iff_exists.1 hp
    obtain ⟨r', k', hcheck, hiff, hleft⟩ := checkResponse_blank (k := k.asked.responded m es)
      h.unprocessed (by rw [← htext, ← h.buflen]; rfl) hm hpos hi k.sentKey
    refine ⟨r', k', congrArg Except.ok (by rw [hr, hcheck]), .inr ⟨as, p, bs, i, hps, has, hp, hi, hiff,
      fun h0 => ?_⟩⟩
    obtain ⟨hin, hx, hrds⟩ := hleft h0
    exact ⟨by rw [hin, hbs.flatten]; rfl, hx, hrds ▸ hes⟩

/-- The first blank piece is one and the same, however the pieces are split around it. -/
theorem first_unique {as as' bs bs' : List (List UInt8)} {p p' : List UInt8}
    (h : as ++ p :: bs = as' ++ p' :: bs') (has : ∀ a ∈ as, ¬Blank a) (has' : ∀ a ∈ as', ¬Blank a)
    (hp : Blank p) (hp' : Blank p') : as = as' ∧ p = p' ∧ bs = bs' := by
  rcases List.append_eq_append_iff.1 h with ⟨_ | ⟨a, r⟩, h₁, h₂⟩ | ⟨_ | ⟨a, r⟩, h₁, h₂⟩
  · injection h₂ with hpp hbs
    exact ⟨by rw [h₁, List.append_nil], hpp, hbs⟩
  · injection h₂ with hpp
    exact absurd hp (has' p (by rw [h₁, hpp]; exact List.mem_append_right _ List.mem_cons_self))
  · injection h₂ with hpp hbs
    exact ⟨by rw [h₁, List.append_nil], hpp.symm, hbs.symm⟩
  · injection h₂ with hpp
    exact absurd hp' (has p' (by rw [h₁, hpp]; exact List.mem_append_right _ List.mem_cons_self))

/-- What a handshake that has run shows of its properness. -/
theorem proper_iff_of_run {r : ℤ} (h : k.wsClientHandshake = .ok (r, k')) :
    k.Proper head rest ↔ (r = 0 ↔ k.Valid head) ∧ (r = 0 → k'.Delivering rest) := by
  refine ⟨?_, fun h' => ⟨r, k', h, h'⟩⟩
  rintro ⟨r₁, k₁, h₁, h'⟩
  rw [h] at h₁
  injection h₁ with h₁
  injection h₁ with hr hk
  rwa [hr, hk]

/-- What is left behind the blank line of a read is the rest, if and only if
    the head ends there. -/
theorem left_eq_rest_iff {i : ℕ} (hcat : as.flatten ++ (p ++ bs.flatten) = head ++ rest)
    (hi : i ≤ p.length) :
    p.drop i ++ bs.flatten = rest ↔ as.flatten.length + i = head.length := by
  constructor
  · intro hrest
    have hlen := congrArg List.length hcat
    simp only [← hrest, List.length_append, List.length_drop] at hlen
    omega
  · intro hlen
    have hdrop := congrArg (List.drop (as.flatten.length + i)) hcat
    rwa [List.drop_append, List.drop_eq_nil_of_le (Nat.le_add_right _ _), List.nil_append,
      Nat.add_sub_cancel_left, List.drop_append_of_le_length hi, hlen, List.drop_left] at hdrop

/-- One read holds the end of the head, and is accepted. -/
def Whole (k : Kws) (head : List UInt8) (ps : List (List UInt8)) : Prop :=
  ∃ as p bs, ps = as ++ p :: bs ∧ as.flatten.length + 4 ≤ head.length ∧
    head.length ≤ as.flatten.length + p.length ∧ k.Accepts p

/-- A handshake has the verdict the response calls for, and leaves the bytes
    behind it, if and only if one read holds the last four bytes of a valid
    response and the line with its accept value, and the first read with a blank
    line is not accepted if the response is not valid. -/
theorem wsClientHandshake_proper_iff (h : k.Fresh n) (hcalm : Calm k.world.reads)
    (hreads : Reads n k.world.reads ps) (hhead : IsHead head) (hps : ps.flatten = head ++ rest) :
    k.Proper head rest ↔ (k.Valid head → k.Whole head ps) ∧
      (¬k.Valid head → ∀ p, ps.find? (Blank ·) = some p → ¬k.Accepts p) := by
  obtain ⟨r, k', hrun, hor⟩ := wsClientHandshake_reads h hcalm hreads
  rw [proper_iff_of_run hrun]
  rcases hor with ⟨hr, hall⟩ | ⟨as, p, bs, i, rfl, has, hp, hi, hacc, hleft⟩
  · -- No read holds a blank line.
    refine ⟨fun ⟨hiff, _⟩ => ⟨fun hv => absurd (hiff.2 hv) hr, fun _ p hp => ?_⟩,
      fun ⟨hwhole, _⟩ => ⟨iff_of_false hr fun hv => ?_, fun h => absurd h hr⟩⟩
    · exact absurd (by simpa using List.find?_some hp) (hall p (List.mem_of_find?_eq_some hp))
    · obtain ⟨as, p, bs, rfl, h4, hle, -⟩ := hwhole hv
      rw [List.flatten_append, List.flatten_cons] at hps
      obtain ⟨i, hi, -⟩ := strstr_of_whole hhead hps h4 hle
      exact hall p (by simp) (by rw [Blank, hi]; rfl)
  rw [List.flatten_append, List.flatten_cons] at hps
  have hile : i + 4 ≤ p.length :=
    Nat.le_trans (strstr_length_le hi) (List.takeWhile_sublist _).length_le
  -- The read `p` is the first with a blank line.
  have hfind : (as ++ p :: bs).find? (Blank ·) = some p := by
    rw [List.find?_eq_some_iff_append]
    exact ⟨by simpa using hp, as, bs, rfl, fun a ha => by simpa using has a ha⟩
  constructor
  · rintro ⟨hiff, hdel⟩
    refine ⟨fun hv => ?_, fun hv q hq hacc' => ?_⟩
    · have h0 := hiff.2 hv
      obtain ⟨got, k₁, hgot, hrest⟩ := hdel h0 [] fun _ h => absurd h List.not_mem_nil
      injection hgot with hgot
      injection hgot with hgot hk
      rw [← hgot, ← hk, List.nil_append, (hleft h0).1, left_eq_rest_iff hps hile] at hrest
      exact ⟨as, p, bs, rfl, by omega, by omega, hacc.1 h0⟩
    · rw [hfind] at hq
      injection hq with hq
      rw [← hq] at hacc'
      exact hv (hiff.1 (hacc.2 hacc'))
  · rintro ⟨hwhole, hno⟩
    -- If the head is valid, it is the first read with a blank line that holds its end.
    by_cases hv : k.Valid head
    · obtain ⟨as', p', bs', heq, h4, hle, hacc'⟩ := hwhole hv
      have hcat : as'.flatten ++ (p' ++ bs'.flatten) = head ++ rest := by
        rw [← hps, ← List.flatten_cons, ← List.flatten_append, ← heq, List.flatten_append,
          List.flatten_cons]
      obtain ⟨j, hj, hlen⟩ := strstr_of_whole hhead hcat h4 hle
      obtain ⟨rfl, rfl, rfl⟩ := first_unique heq has
        (fun a ha => not_blank_of_whole hhead hcat h4 ha) hp (by rw [Blank, hj]; rfl)
      obtain rfl := Option.some.inj (hi.symm.trans hj)
      have h0 := hacc.2 hacc'
      obtain ⟨hin, hx, hcalm'⟩ := hleft h0
      have hrest := (left_eq_rest_iff hps hile).2 hlen
      refine ⟨iff_of_true h0 hv, fun _ reqs hreqs => ?_⟩
      obtain ⟨got, k₁, hgot, hrun⟩ := rawReads_modest hreqs hx hcalm'
      exact ⟨got, k₁, hgot, by rw [hrun, hin, hrest]⟩
    · have hne : r ≠ 0 := fun h0 => hno hv p hfind (hacc.1 h0)
      exact ⟨iff_of_false hne hv, fun h0 => absurd h0 hne⟩

/-- A response, without the end of its head. -/
def switchingProtocols : List UInt8 :=
  ascii "HTTP/1.1 101 \r\n" ++ ascii "Sec-WebSocket-Accept: " ++ List.replicate 27 65 ++
    ascii "=\r\n"

/-- Its head, where all digests are `0`. -/
def switchingHead : List UInt8 := switchingProtocols ++ ascii "Upgrade: websocket\r\n\r\n"

/-- A client that gets these reads. -/
def answered (ps : List (List UInt8)) : Kws := { world := { reads := ps.map .data } }

theorem isHead_switchingHead : IsHead switchingHead :=
  ⟨by decide, 85, by decide +kernel, by decide⟩

/-- The response and a frame in one read. -/
theorem wsClientHandshake_proper_whole :
    (answered [switchingHead ++ [0x81, 0x00]]).Proper switchingHead [0x81, 0x00] := by
  have hreads : Reads 65535 (answered [switchingHead ++ [0x81, 0x00]]).world.reads
      [switchingHead ++ [0x81, 0x00]] := reads_map (by decide)
  have hvalid : (answered [switchingHead ++ [0x81, 0x00]]).Valid switchingHead := by decide +kernel
  exact (wsClientHandshake_proper_iff ⟨rfl, rfl, rfl, rfl, by decide, by decide⟩
    (by simp [answered, Calm, switchingHead]) hreads isHead_switchingHead
    (List.append_nil _)).2
    ⟨fun _ => ⟨[], _, [], rfl, by decide, by decide, by decide +kernel⟩, fun h => absurd hvalid h⟩

/-- The response in two reads. -/
theorem wsClientHandshake_torn :
    let k := answered [switchingProtocols, ascii "Upgrade: websocket\r\n\r\n"]
    k.Fresh 65535 ∧ Calm k.world.reads ∧
      Reads 65535 k.world.reads [switchingProtocols, ascii "Upgrade: websocket\r\n\r\n"] ∧
      IsHead switchingHead ∧ k.Valid switchingHead ∧ ¬k.Proper switchingHead [] := by
  intro k
  have hvalid : k.Valid switchingHead := by decide +kernel
  have hfail : okAnd (fun s => s.1 = -1) k.wsClientHandshake = true := by decide +kernel
  obtain ⟨⟨r, k'⟩, hrun, hr⟩ := okAnd_iff.1 hfail
  refine ⟨⟨rfl, rfl, rfl, rfl, by decide, by decide⟩,
    by simp [k, answered, Calm, switchingProtocols, ascii], reads_map (by decide),
    isHead_switchingHead, hvalid, fun hproper => ?_⟩
  have h0 := ((proper_iff_of_run hrun).1 hproper).1.2 hvalid
  simp [h0] at hr

end Kws

end Libks
