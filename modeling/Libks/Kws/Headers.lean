import Libks.Base.Http
import Libks.Kws.Handshake

/-!
# The values of headers

`cheezy_get_var` finds the first line with a name, whether the lines of the head end
with CR LF or LF. It ends the value at the first CR from there on, in whatever line that
is, and only if there is none at the LF. So the value is that of the line if and only if
these two agree, or the buffer ends before them (`cheezyGetVar_got_iff`). In a head that
mixes the two kinds of lines they need not, and the value goes on over the next lines.
-/

namespace Libks

open Base Base.Http

/-- The name of a header: it has no colon in it and stands on one line. -/
structure HeaderName where
  bytes : List UInt8
  colon : 58 ∉ bytes
  newline : 10 ∉ bytes

/-- The line begins with the name, in whatever case, and a colon. -/
def begins (name s : List UInt8) : Bool :=
  startsWithNoCase name s ∧ s[name.length]? = some 58

/-- The value of the first line of the head that begins with the name: what stands behind the
    colon and the spaces there, cut to `buflen - 1` bytes. -/
def headerValue (head name : List UInt8) (buflen : ℕ) : Option (List UInt8) :=
  (((fromLines head).map firstLine).find? (begins name)).map fun line =>
    ((line.drop (name.length + 1)).dropWhile (· = 32)).take (buflen - 1)

/-- `cheezy_get_var` gets the value of the header. It is a part of one line, so with it the
    response of a server is a status line, at most four headers and an empty line. -/
structure Got (head name : List UInt8) (buflen : ℕ) : Prop where
  value : cheezyGetVar head name buflen = headerValue head name buflen
  plain : ∀ v, cheezyGetVar head name buflen = some v → 10 ∉ v ∧ 13 ∉ v
  response : ∀ v, cheezyGetVar head name buflen = some v →
    ∀ (k : Kws) (key : List UInt8), (k.serverResponse key v).count 10 ≤ 6

/-- A value of at most `room` bytes, followed by `s`, ends at the first CR or LF: it is the LF
    of a head without a CR from there on, or a CR LF, or there is no room left. -/
def Ended (v : List UInt8) (room : ℕ) : Prop :=
  match plainEnd v with
  | [] => False
  | c :: s => (if c = 10 then 13 ∉ s else s.head? = some 10) ∨ room ≤ (Http.plain v).length

/-- What stands behind the colon and the spaces on the first line with the name. -/
def valueFrom (head name : List UInt8) : Option (List UInt8) :=
  ((fromLines head).find? fun s => begins name (firstLine s)).map fun s =>
    (s.drop (name.length + 1)).dropWhile (· = 32)

/-! ## The line -/

variable {name head s v : List UInt8} {buflen : ℕ}

/-- A byte below the letters stands in a text if it stands in it in lower case. -/
theorem mem_of_map_toLower {as bs : List UInt8} {d : UInt8} (hd : d < 65)
    (h : as.map toLower = bs.map toLower) (hmem : d ∈ as) : d ∈ bs := by
  have hd' : toLower d = d := (toLower_eq_iff hd).2 rfl
  have hmap := List.mem_map_of_mem (f := toLower) hmem
  rw [h] at hmap
  obtain ⟨c, hc, hcd⟩ := List.mem_map.1 hmap
  rw [hd', toLower_eq_iff hd] at hcd
  exact hcd ▸ hc

/-- A text that begins with the name and a colon. -/
theorem begins_split (name : HeaderName) (h : begins name.bytes s) :
    ∃ as u, s = as ++ 58 :: u ∧ as.length = name.bytes.length ∧ 10 ∉ as ∧ 58 ∉ as := by
  rw [begins, decide_eq_true_eq, startsWithNoCase, decide_eq_true_eq] at h
  obtain ⟨hname, hcolon⟩ := h
  obtain ⟨hlt, hcolon⟩ := List.getElem?_eq_some_iff.1 hcolon
  refine ⟨s.take name.bytes.length, s.drop (name.bytes.length + 1), ?_, ?_, ?_, ?_⟩
  · rw [← hcolon, ← List.drop_eq_getElem_cons, List.take_append_drop]
  · exact List.length_take_of_le hlt.le
  · exact fun hmem => name.newline (mem_of_map_toLower (by decide) hname hmem)
  · exact fun hmem => name.colon (mem_of_map_toLower (by decide) hname hmem)

/-- Only the name and the colon matter. -/
theorem begins_append {as u w : List UInt8} (h : as.length = name.length) :
    begins name (as ++ 58 :: u) = begins name (as ++ 58 :: w) := by
  simp only [begins, startsWithNoCase, ← h, List.take_left,
    List.getElem?_append_right (Nat.le_refl _), Nat.sub_self, List.getElem?_cons_zero]

theorem begins_firstLine (name : HeaderName) (s : List UInt8) :
    begins name.bytes (firstLine s) = begins name.bytes s := by
  rw [Bool.eq_iff_iff]
  constructor
  · intro h
    obtain ⟨as, u, hs, hlen, -⟩ := begins_split name h
    obtain ⟨t, ht⟩ := firstLine_initial s
    rw [← ht]
    rw [hs] at h ⊢
    rw [List.append_assoc]
    exact (begins_append hlen).trans h
  · intro h
    obtain ⟨as, u, rfl, hlen, hnl, -⟩ := begins_split name h
    rw [firstLine_append hnl (by decide), firstLine_cons (by decide) (by decide)]
    exact (begins_append hlen).trans h

theorem cheezyFind_eq (name s : List UInt8) :
    cheezyFind name true s = (fromLines s).find? (begins name) := by
  have hlines (s : List UInt8) : cheezyFind name false s = (afterLines s).find? (begins name) ∧
      cheezyFind name true s = (fromLines s).find? (begins name) := by
    induction s with
    | nil => exact ⟨rfl, by simp [cheezyFind, fromLines, afterLines, begins]⟩
    | cons c s ih =>
      have hnext : cheezyFind name (c = 10) s = (afterLines (c :: s)).find? (begins name) := by
        rw [afterLines]
        by_cases hc : c = 10
        · rw [if_pos hc, decide_eq_true hc, ih.2, fromLines]
        · rw [if_neg hc, decide_eq_false hc, ih.1]
      refine ⟨by rw [cheezyFind, if_neg (by simp), hnext], ?_⟩
      rw [cheezyFind, fromLines, List.find?_cons, hnext]
      by_cases h : begins name (c :: s) = true
      · rw [h]
        rw [begins, decide_eq_true_eq] at h
        exact if_pos ⟨rfl, h⟩
      · rw [Bool.eq_false_of_not_eq_true h]
        rw [begins, decide_eq_true_eq] at h
        exact if_neg fun h' => h h'.2
  exact (hlines s).2

/-! ## The value -/

theorem cheezyGetVar_eq (name : HeaderName) (head : List UInt8) (buflen : ℕ) :
    cheezyGetVar head name.bytes buflen = (valueFrom head name.bytes).bind fun v =>
      ((strchr 13 v).or (strchr 10 v)).map fun e => v.take (min e (buflen - 1)) := by
  rw [cheezyGetVar, cheezyFind_eq, valueFrom]
  simp only [begins_firstLine]
  cases hfind : (fromLines head).find? (begins name.bytes) with
  | none => rfl
  | some s =>
    obtain ⟨as, u, rfl, hlen, -, hcolon⟩ := begins_split name (List.find?_some hfind)
    simp only [bind, Option.bind, Option.map, strchr_append_cons hcolon, ← hlen]
    generalize (List.drop _ _).dropWhile _ = v
    cases (strchr 13 v).or (strchr 10 v) <;> rfl

theorem headerValue_eq (name : HeaderName) (head : List UInt8) (buflen : ℕ) :
    headerValue head name.bytes buflen = (valueFrom head name.bytes).map fun v =>
      (firstLine v).take (buflen - 1) := by
  have hcomp : begins name.bytes ∘ firstLine = begins name.bytes :=
    funext (begins_firstLine name)
  rw [headerValue, valueFrom, List.find?_map, hcomp]
  simp only [begins_firstLine]
  cases hfind : (fromLines head).find? (begins name.bytes) with
  | none => rfl
  | some s =>
    obtain ⟨as, u, rfl, hlen, hnl, -⟩ := begins_split name (List.find?_some hfind)
    simp only [Option.map, firstLine_append hnl (by decide : (58 : UInt8) ≠ 10),
      firstLine_cons (by decide : (58 : UInt8) ≠ 10) (by decide), ← hlen, List.drop_append,
      List.drop_eq_nil_of_le (Nat.le_succ as.length), Nat.add_sub_cancel_left, List.drop_succ_cons,
      List.drop_zero, List.nil_append, dropWhile_firstLine]

/-- A text goes on behind a part of it, unless it is cut there. -/
theorem take_min_eq_iff {t u : List UInt8} {c : UInt8} {e n : ℕ} (he : t.length < e) :
    (t ++ c :: u).take (min e n) = t.take n ↔ n ≤ t.length := by
  constructor
  · intro h
    have hlen := congrArg List.length h
    simp only [List.length_take, List.length_append, List.length_cons] at hlen
    omega
  · intro h
    rw [Nat.min_eq_right (h.trans he.le), List.take_append_of_le_length h]

theorem take_min_length (t u : List UInt8) (n : ℕ) :
    (t ++ u).take (min t.length n) = t.take n := by
  rw [List.take_append_of_le_length (Nat.min_le_left _ _), ← List.take_take, List.take_take,
    Nat.min_comm, ← List.take_take, List.take_length]

theorem take_eq_iff {t u : List UInt8} {c : UInt8} {n : ℕ} :
    (t ++ c :: u).take n = t.take n ↔ n ≤ t.length := by
  have h := take_min_eq_iff (u := u) (c := c) (n := n)
    (Nat.lt_of_lt_of_le (Nat.lt_succ_self t.length) (Nat.le_add_right (t.length + 1) n))
  rwa [Nat.min_eq_right (Nat.le_add_left _ _)] at h

/-- The value ends with its line just if it ends at the first CR or LF. -/
theorem ended_iff (v : List UInt8) (room : ℕ) :
    (((strchr 13 v).or (strchr 10 v)).map fun e => v.take (min e room)) =
      some ((firstLine v).take room) ↔ Ended v room := by
  obtain ⟨hnl, hcr⟩ := notMem_plain v
  have hv := plain_append_plainEnd v
  rw [Ended]
  generalize Http.plain v = t at *
  cases hend : plainEnd v with
  | nil =>
    rw [hend, List.append_nil] at hv
    subst hv
    rw [strchr_eq_none_iff.2 hcr, strchr_eq_none_iff.2 hnl]
    exact iff_of_false (Option.some_ne_none _).symm id
  | cons c s =>
    rw [hend] at hv
    subst hv
    dsimp only
    rcases plainEnd_cons hend with rfl | rfl
    · rw [firstLine_newline hnl hcr, if_pos rfl]
      by_cases hs : 13 ∈ s
      · -- The value goes on up to a CR of a later line.
        obtain ⟨s₁, s₂, rfl, hs₁⟩ := List.eq_append_cons_of_mem hs
        have hnot : 13 ∉ t ++ 10 :: s₁ := by
          simp [hcr, hs₁]
        have he := strchr_append_cons (t := s₂) hnot
        rw [List.append_assoc, List.cons_append] at he
        rw [he, Option.some_or, Option.map_some, Option.some_inj, take_min_eq_iff (by simp)]
        exact ⟨.inr, fun h => h.resolve_left fun h' => h' hs⟩
      · have hnot : 13 ∉ t ++ 10 :: s := by
          simp [hcr, hs]
        rw [strchr_eq_none_iff.2 hnot, strchr_append_cons hnl, Option.none_or, Option.map_some,
          take_min_length]
        exact iff_of_true rfl (.inl hs)
    · rw [strchr_append_cons hcr, Option.some_or, Option.map_some, take_min_length,
        firstLine_return hnl hcr, if_neg (by decide : (13 : UInt8) ≠ 10)]
      by_cases hs : s.head? = some 10
      · rw [if_pos hs]
        exact iff_of_true rfl (.inl hs)
      · rw [if_neg hs, Option.some_inj, eq_comm, take_eq_iff]
        exact ⟨.inr, fun h => h.resolve_left hs⟩

/-- What such a value holds stands before the first CR or LF. -/
theorem Ended.take {room : ℕ} (h : Ended v room) :
    (firstLine v).take room = (Http.plain v).take room := by
  obtain ⟨hnl, hcr⟩ := notMem_plain v
  have hv := plain_append_plainEnd v
  rw [Ended] at h
  generalize Http.plain v = t at *
  cases hend : plainEnd v with
  | nil =>
    rw [hend] at h
    exact h.elim
  | cons c s =>
    rw [hend] at h hv
    subst hv
    dsimp only at h
    rcases plainEnd_cons hend with rfl | rfl
    · rw [firstLine_newline hnl hcr]
    · rw [firstLine_return hnl hcr]
      rw [if_neg (by decide : (13 : UInt8) ≠ 10)] at h
      split_ifs with hs
      · rfl
      · exact take_eq_iff.2 (h.resolve_left hs)

/-! ## The response -/

theorem getD_c64_ne (i : ℕ) : c64.getD i 0 ≠ 10 := by
  rw [List.getD_eq_getElem?_getD]
  rcases Nat.lt_or_ge i c64.length with hi | hi
  · rw [List.getElem?_eq_getElem hi, Option.getD_some]
    intro h
    exact absurd (h ▸ List.getElem_mem hi) (by decide +kernel)
  · rw [List.getElem?_eq_none hi]
    decide

theorem newline_notMem_b64Drain (b fuel l : ℕ) : 10 ∉ (b64Drain b fuel l).1 := by
  induction fuel generalizing l with
  | zero => exact List.not_mem_nil
  | succ fuel ih =>
    rw [b64Drain]
    split_ifs
    · rw [List.mem_cons, not_or]
      exact ⟨(getD_c64_ne _).symm, ih _⟩
    · exact List.not_mem_nil

theorem newline_notMem_b64Loop (b l : ℕ) (input : List UInt8) : 10 ∉ (b64Loop b l input).1 := by
  induction input generalizing b l with
  | nil => exact List.not_mem_nil
  | cons c input ih =>
    rw [b64Loop, List.mem_append, not_or]
    exact ⟨newline_notMem_b64Drain _ _ _, ih _ _⟩

theorem newline_notMem_b64encode (input : List UInt8) : 10 ∉ b64encode input := by
  rw [b64encode]
  simp only [List.mem_append, not_or]
  refine ⟨⟨newline_notMem_b64Loop _ _ _, ?_⟩, ?_⟩
  · split_ifs
    · rw [List.mem_singleton]
      exact (getD_c64_ne _).symm
    · exact List.not_mem_nil
  · split_ifs
    · exact fun h => absurd (List.eq_of_mem_replicate h) (by decide)
    · exact List.not_mem_nil

/-- The value of `Sec-WebSocket-Accept` is on one line. -/
theorem newline_notMem_acceptFor (sha1 : List UInt8 → Fin 20 → UInt8) (size : ℕ)
    (key : List UInt8) : 10 ∉ acceptFor sha1 size key :=
  newline_notMem_b64encode _

/-- A protocol on one line makes at most one line of the response. -/
theorem count_serverResponse (k : Kws) (key : List UInt8) {proto : List UInt8} (h : 10 ∉ proto) :
    (k.serverResponse key proto).count 10 ≤ 6 := by
  have haccept : (acceptFor k.world.sha1 512 key).count 10 = 0 :=
    List.count_eq_zero.2 (newline_notMem_acceptFor _ _ _)
  have hproto : (if proto = [] then []
      else (ascii "Sec-WebSocket-Protocol: " ++ proto ++ ascii "\r\n").take 383).count 10 ≤ 1 := by
    split_ifs
    · exact Nat.zero_le 1
    · refine ((List.take_sublist _ _).count_le 10).trans ?_
      rw [List.count_append, List.count_append, List.count_eq_zero.2 h]
      decide
  rw [Kws.serverResponse]
  refine ((List.take_sublist _ _).count_le 10).trans ?_
  simp only [List.count_append, haccept]
  have h₁ : (ascii "HTTP/1.1 101 Switching Protocols\r\n").count 10 = 1 := by decide +kernel
  have h₂ : (ascii "Upgrade: websocket\r\n").count 10 = 1 := by decide +kernel
  have h₃ : (ascii "Connection: Upgrade\r\n").count 10 = 1 := by decide +kernel
  have h₄ : (ascii "Sec-WebSocket-Accept: ").count 10 = 0 := by decide +kernel
  have h₅ : (ascii "\r\n").count 10 = 1 := by decide +kernel
  omega

/-- The value of a header is that of its line just if it ends there. -/
theorem cheezyGetVar_got_iff (head : List UInt8) (name : HeaderName) (buflen : ℕ) :
    Got head name.bytes buflen ↔
      ∀ v, valueFrom head name.bytes = some v → Ended v (buflen - 1) := by
  have hvalue : cheezyGetVar head name.bytes buflen = headerValue head name.bytes buflen ↔
      ∀ v, valueFrom head name.bytes = some v → Ended v (buflen - 1) := by
    rw [cheezyGetVar_eq, headerValue_eq]
    cases valueFrom head name.bytes with
    | none => exact iff_of_true rfl fun v hv => absurd hv (Option.some_ne_none v).symm
    | some v =>
      rw [Option.bind_some, Option.map_some, ended_iff]
      exact ⟨fun h v' hv' => Option.some.inj hv' ▸ h, fun h => h v rfl⟩
  refine ⟨fun h => hvalue.1 h.value, fun h => ?_⟩
  have hplain : ∀ v, cheezyGetVar head name.bytes buflen = some v → 10 ∉ v ∧ 13 ∉ v := by
    intro v hv
    rw [hvalue.2 h, headerValue_eq, Option.map_eq_some_iff] at hv
    obtain ⟨u, hu, rfl⟩ := hv
    rw [(h u hu).take]
    obtain ⟨hnl, hcr⟩ := notMem_plain u
    exact ⟨fun hmem => hnl (List.mem_of_mem_take hmem), fun hmem => hcr (List.mem_of_mem_take hmem)⟩
  exact ⟨hvalue.2 h, hplain, fun v hv k key => count_serverResponse k key (hplain v hv).1⟩

/-- The name of the header whose value the response repeats. -/
def protocolName : HeaderName :=
  ⟨ascii "Sec-WebSocket-Protocol", by decide +kernel, by decide +kernel⟩

/-- The line of the protocol ends with LF, the one behind it with CR LF: it becomes a line of
    the response. -/
theorem cheezyGetVar_mixed :
    ¬Got (ascii "GET / HTTP/1.1\r\nSec-WebSocket-Protocol: chat\nSet-Cookie: a=b\r\n\r\n")
      protocolName.bytes 256 := by
  intro h
  exact absurd h.value (by decide +kernel)

end Libks
