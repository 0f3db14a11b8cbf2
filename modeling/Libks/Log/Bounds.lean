import Libks.Log.State

/-!
# Where a log line goes

What has been printed is a string, cut off where the buffer ends, and the length goes
on (`LogBuf.Printed`). Behind every part but the name of the file the length is
compared with the size of the buffer, so that a part is printed where there is room for
it; the name has 32 bytes, and what follows it is printed with a size that has wrapped
if they end behind the buffer. In all other cases a line stays in the buffer, ends
with a newline, and has the length that is returned (`KsLog.formatOutput_line_iff`), as
long as the lengths have room in an `int`.
-/

namespace Libks

open Base

namespace LogBuf

variable {b : LogBuf} {t text : List UInt8} {ts : List (List UInt8)}

/-- `t` has been printed, as far as there was room for it. -/
structure Printed (b : LogBuf) (t : List UInt8) : Prop where
  notMem : 0 ∉ t
  used : b.used = t.length + 1
  size : 3 ≤ b.size
  lt : b.size < 2 ^ 64
  text : b.data.IsStr 0 (t.take (b.size - 2))

/-- A part is printed behind the others, if they end in the buffer. -/
theorem Printed.snprintf (h : Printed b t) (hused : b.used ≤ b.size) (htext : 0 ∉ text)
    (hint : b.used + text.length < 2 ^ 31) :
    ∃ b', b.snprintf text = .ok b' ∧ Printed b' (t ++ text) ∧ b'.size = b.size ∧
      b'.used = b.used + text.length := by
  have hu := h.used
  have hsize := h.size
  have hlt := h.lt
  have hn : sub64 b.size b.used = b.size - b.used := sub64_of_le hused hlt
  have hnot : 0 ∉ t ++ text := fun hmem => (List.mem_append.1 hmem).elim h.notMem htext
  by_cases hfull : b.used = b.size
  · -- There is no room left, and nothing is written.
    refine ⟨{ b with used := b.used + text.length }, ?_, ⟨hnot, ?_, hsize, hlt, ?_⟩, rfl, rfl⟩
    · rw [LogBuf.snprintf, hn, hfull, Nat.sub_self, if_pos rfl, if_neg (by simp),
        if_neg (by omega), Mem.write_nil]
    · rw [List.length_append]
      dsimp only
      omega
    · dsimp only
      rw [List.take_append_of_le_length (by omega)]
      exact h.text
  · have hroom : t.take (b.size - 2) = t := List.take_of_length_le (by omega)
    have hstr := h.text
    rw [hroom] at hstr
    have hcut : (t ++ text).take (b.size - 2) = t ++ text.take (b.size - b.used - 1) := by
      rw [List.take_append, hroom, show b.size - 2 - t.length = b.size - b.used - 1 by omega]
    have hwritten : (text.take (b.size - b.used - 1) ++ [0]).length ≤ b.size - b.used := by
      rw [List.length_append, List.length_take, List.length_singleton]
      omega
    refine ⟨{ b with
      data := b.data.write t.length (text.take (b.size - b.used - 1) ++ [0])
      used := b.used + text.length }, ?_, ⟨hnot, ?_, hsize, hlt, ?_⟩, rfl, rfl⟩
    · rw [LogBuf.snprintf, hn, if_neg (show ¬b.size - b.used = 0 by omega), if_neg (by omega),
        if_neg (by omega), hu, Nat.add_sub_cancel]
    · rw [List.length_append]
      dsimp only
      omega
    · dsimp only
      rw [hcut]
      refine Mem.IsStr.append ?_ h.notMem ?_
      · rw [Mem.read_write_of_disjoint (.inl (by omega)), hstr.read]
      · rw [Nat.zero_add]
        exact Mem.isStr_write _ _ fun hmem => htext (List.mem_of_mem_take hmem)

/-- A part that the counter has no room for. -/
theorem Printed.snprintf_overflow (h : Printed b t) (hused : b.used ≤ b.size)
    (hint : 2 ^ 31 ≤ b.used + text.length) :
    b.snprintf text = .error (.fault .overflow) := by
  have hu := h.used
  have hn : sub64 b.size b.used = b.size - b.used := sub64_of_le hused h.lt
  have hin : ¬b.size < b.used - 1 + (if b.size - b.used = 0 then []
      else text.take (b.size - b.used - 1) ++ [0]).length := by
    split_ifs with hfull
    · rw [List.length_nil]
      omega
    · rw [List.length_append, List.length_take, List.length_singleton]
      omega
  rw [LogBuf.snprintf, hn]
  exact (if_neg hin).trans (if_pos hint)

/-- A part behind the end of the buffer is written there. -/
theorem snprintf_over (hsize : b.size < b.used) (hused : b.used < 2 ^ 64) :
    b.snprintf text = .error (.fault .outOfBounds) := by
  have hn : sub64 b.size b.used ≠ 0 := by
    rw [sub64, Nat.mod_eq_of_lt (by omega)]
    omega
  rw [snprintf, if_neg hn, if_pos]
  rw [List.length_append, List.length_singleton]
  omega

/-- `snprintf` behind what is printed: `used` moves on by the whole text, even where it did not
    fit, and then the line is done. -/
theorem Printed.put (h : Printed b t) (hused : b.used ≤ b.size) (htext : 0 ∉ text)
    (hint : b.used + text.length < 2 ^ 31) :
    ∃ b', b.put text = (if b.size ≤ b.used + text.length then .error (.done b') else .ok b') ∧
      Printed b' (t ++ text) ∧ b'.size = b.size ∧ b'.used = b.used + text.length := by
  obtain ⟨b', hrun, hprinted, hsize, hu⟩ := h.snprintf hused htext hint
  refine ⟨b', ?_, hprinted, hsize, hu⟩
  rw [LogBuf.put, hrun, ok_bind, hu, hsize]

/-- Parts in a row are printed, or the printing ends where they go beyond the buffer. -/
theorem Printed.putAll (h : Printed b t) (ts : List (List UInt8))
    (hused : b.used < b.size ∨ b.used = b.size ∧ ts ≠ [])
    (hts : ∀ text ∈ ts, 0 ∉ text) (hint : b.used + ts.flatten.length < 2 ^ 31) :
    if b.used + ts.flatten.length < b.size then
      ∃ b', b.putAll ts = .ok b' ∧ Printed b' (t ++ ts.flatten) ∧ b'.size = b.size
    else
      ∃ b' t', b.putAll ts = .error (.done b') ∧ Printed b' t' ∧ b'.size = b.size ∧
        b'.used ≤ b.used + ts.flatten.length := by
  induction ts generalizing b t with
  | nil =>
    have hlt := hused.resolve_right fun h => h.2 rfl
    rw [List.flatten_nil, List.length_nil, Nat.add_zero, if_pos hlt]
    exact ⟨b, rfl, by rwa [List.append_nil], rfl⟩
  | cons text ts ih =>
    rw [List.flatten_cons, List.length_append] at hint ⊢
    obtain ⟨b', hput, hprinted, hsize, hu⟩ := h.put (hused.elim Nat.le_of_lt fun h => h.1.le)
      (hts text List.mem_cons_self) (by omega)
    have hall : b.putAll (text :: ts) = b.put text >>= fun b' => b'.putAll ts := by
      rw [LogBuf.putAll, List.foldlM_cons]
      rfl
    by_cases hdone : b.size ≤ b.used + text.length
    · rw [if_neg (by omega)]
      refine ⟨b', t ++ text, ?_, hprinted, hsize, by omega⟩
      rw [hall, hput, if_pos hdone]
      rfl
    · have hrest := ih hprinted (.inl (by omega)) (fun u hu => hts u (List.mem_cons_of_mem _ hu))
        (by omega)
      rw [hu, hsize, Nat.add_assoc, List.append_assoc] at hrest
      rw [hall, hput, if_neg hdone, ok_bind]
      exact hrest

/-- With `used` behind the end, the next text is printed outside of the array. -/
theorem putAll_over (hts : ts ≠ []) (hsize : b.size < b.used) (hused : b.used < 2 ^ 64) :
    b.putAll ts = .error (.fault .outOfBounds) := by
  cases ts with
  | nil => exact absurd rfl hts
  | cons text ts =>
    rw [LogBuf.putAll, List.foldlM_cons, LogBuf.put, snprintf_over hsize hused]
    rfl

/-! ## The end of a line -/

/-- A line of the log in a buffer of `size` bytes, and its length. -/
def IsLine (size : ℕ) (r : ℕ × LogBuf) : Prop :=
  r.1 < size ∧ ∃ s, r.2.data.IsStr 0 s ∧ s.length = r.1 ∧ (s = [] ∨ s.getLast? = some 10)

theorem store_eq {off : ℕ} (h : off < b.size) (c : UInt8) :
    b.store off c = .ok { b with data := b.data.write off [c] } := if_pos h

/-- What is left of the text in front of the newline. -/
theorem Printed.cap (h : Printed b t) :
    ∃ b', b.cap = .ok b' ∧ b'.size = b.size ∧ b'.used = min b.used (b.size - 1) ∧
      b'.used = (t.take (b.size - 2)).length + 1 ∧ b'.data.IsStr 0 (t.take (b.size - 2)) := by
  have hu := h.used
  have hsize := h.size
  by_cases hover : b.size - 1 ≤ b.used
  · have hlen : (t.take (b.size - 2)).length = b.size - 2 := by
      rw [List.length_take]
      omega
    refine ⟨{ b with data := b.data.write (b.size - 2) [0], used := b.size - 1 }, ?_, rfl, ?_, ?_, ?_⟩
    · rw [LogBuf.cap, if_pos hover, store_eq (by dsimp only; omega)]
    · dsimp only
      omega
    · dsimp only
      omega
    · refine h.text.congr fun i _ hi => ?_
      rw [hlen] at hi
      by_cases hend : i = b.size - 2
      · -- The terminator is written where it stands.
        have hzero := h.text.terminator
        rw [hlen, Nat.zero_add, ← hend] at hzero
        rw [hzero, ← hend]
        dsimp only
        rw [Mem.write_apply_of_mem (Nat.le_refl _) (by simp), List.getElem_singleton]
      · exact Mem.write_apply_of_lt (by omega)
  · have hroom : t.take (b.size - 2) = t := List.take_of_length_le (by omega)
    refine ⟨b, if_neg hover, rfl, by omega, by rw [hroom]; exact hu, h.text⟩

/-- The newline at the end, if the counter has room for it. -/
theorem newline_cases {s : List UInt8} (hstr : b.data.IsStr 0 s) (hused : b.used = s.length + 1)
    (hsize : b.used < b.size) :
    if 2 ≤ b.used ∧ s.getLast? ≠ some 10 ∧ 2 ^ 31 ≤ b.used + 1 then b.newline = .error .overflow
    else ∃ b', b.newline = .ok b' ∧ IsLine b.size (b'.used - 1, b') := by
  rcases List.eq_nil_or_concat' s with rfl | ⟨u, c, rfl⟩
  · rw [if_neg fun h => by simp [hused] at h]
    refine ⟨b, if_neg fun h => by simp [hused] at h, ?_, [], hstr, ?_, .inl rfl⟩
    · dsimp only
      omega
    · simp [hused]
  · rw [List.length_append, List.length_singleton] at hused
    have hlast : b.data (b.used - 2) = c := by
      have hread := hstr.read
      rw [List.length_append, List.length_singleton, Mem.read_add, Mem.read_one] at hread
      have htail := (List.append_inj' hread rfl).2
      rw [hused]
      simpa using htail
    have hend : (u ++ [c]).getLast? = some 10 ↔ c = 10 := by
      rw [List.getLast?_concat, Option.some_inj]
    -- A line that ends in a newline stays as it is.
    by_cases hc : c = 10
    · rw [if_neg fun h => h.2.1 (hend.2 hc)]
      refine ⟨b, if_neg fun h => h.2 (hlast.trans hc), ?_, u ++ [c], hstr, ?_, .inr (hend.2 hc)⟩
      · dsimp only
        omega
      · rw [List.length_append, List.length_singleton, hused]
        rfl
    · have hrun : b.newline = if 2 ^ 31 ≤ b.used + 1 then .error .overflow
          else .ok { b with
            data := (b.data.write (b.used - 1) [10]).write b.used [0]
            used := b.used + 1 } := by
        rw [newline, if_pos ⟨by omega, by rwa [hlast]⟩, store_eq (by omega), ok_bind,
          store_eq (by exact hsize), ok_bind]
      by_cases hover : 2 ^ 31 ≤ b.used + 1
      · rw [if_pos ⟨by omega, fun h => hc (hend.1 h), hover⟩, hrun, if_pos hover]
      · rw [if_neg fun h => hover h.2.2]
        refine ⟨_, hrun.trans (if_neg hover), ?_, u ++ [c] ++ [10], ?_, ?_, .inr ?_⟩
        · dsimp only
          omega
        · have hnot := hstr.notMem
          have hlen : (u ++ [c]).length = b.used - 1 := by
            rw [List.length_append, List.length_singleton]
            omega
          have hwrite : ((b.data.write (b.used - 1) [10]).write b.used [0]) =
              b.data.write (b.used - 1) ([10] ++ [0]) := by
            rw [← Mem.write_write, List.length_singleton, Nat.sub_add_cancel (by omega)]
          dsimp only
          rw [hwrite, ← hlen]
          refine Mem.IsStr.append ?_ hnot ?_
          · rw [Mem.read_write_of_disjoint (.inl (by omega)), hstr.read]
          · rw [Nat.zero_add]
            exact Mem.isStr_write _ _ (by decide)
        · rw [List.length_append, List.length_append, List.length_singleton, List.length_singleton]
          dsimp only
          omega
        · rw [List.getLast?_concat]

/-- What has been printed becomes a line, if the counter has room for the newline. -/
theorem Printed.finish_cases (h : Printed b t) (hint : b.used < 2 ^ 31) :
    if b.used + 1 < 2 ^ 31 ∨ b.size < 2 ^ 31 ∨ t.getLast? = some 10 then
      ∃ b', b.finish = .ok b' ∧ IsLine b.size (b'.used - 1, b')
    else b.finish = .error .overflow := by
  have hu := h.used
  have hsize3 := h.size
  obtain ⟨b₁, hcap, hsize, hmin, hused, hstr⟩ := h.cap
  have hfinish : b.finish = b₁.newline := by
    rw [finish, hcap, ok_bind]
  have hnew := newline_cases hstr hused (by omega)
  rw [hsize] at hnew
  rw [hfinish]
  by_cases hfits : b.used + 1 < 2 ^ 31 ∨ b.size < 2 ^ 31 ∨ t.getLast? = some 10
  · rw [if_pos hfits]
    refine (if_neg ?_).mp hnew
    rintro ⟨-, hlast, hover⟩
    -- The counter has come to its end, and so all of the text is there.
    have hroom : t.take (b.size - 2) = t := List.take_of_length_le (by omega)
    rw [hroom] at hlast
    rcases hfits with hfits | hfits | hfits
    · omega
    · omega
    · exact hlast hfits
  · rw [if_neg hfits]
    obtain ⟨h₁, h₂⟩ := not_or.1 hfits
    obtain ⟨h₂, h₃⟩ := not_or.1 h₂
    have hroom : t.take (b.size - 2) = t := List.take_of_length_le (by omega)
    rw [if_pos ⟨by omega, by rwa [hroom], by omega⟩] at hnew
    exact hnew

end LogBuf

/-! ## The parts of a line -/

namespace KsLog

variable {l : KsLog} {x : LogLine}

/-- All that is printed in front of the message. -/
def texts (l : KsLog) (x : LogLine) : List (List UInt8) :=
  l.front x ++ (if l.logPrefix.file then fileText x :: l.behindFile x else []) ++
    (if l.logPrefix.func then [funcText x] else [])

/-- The field of the file has 32 bytes. -/
theorem length_fileText (x : LogLine) : (fileText x).length = 32 := by
  rw [fileText, length_padLeft, List.length_take]
  omega

/-- The field of a level has nine bytes. -/
theorem levelText_eq : ∀ i : Fin 8,
    (padLeft 8 (91 :: levelNames.get i ++ [93]) ++ [32]).length = 9 ∧
      0 ∉ padLeft 8 (91 :: levelNames.get i ++ [93]) ++ [32] := by decide +kernel

theorem zero_notMem_counterText {name : String} (hname : 0 ∉ ascii name) (n : UInt64) :
    0 ∉ counterText name n := by
  rw [counterText, List.mem_append, List.mem_append, not_or, not_or]
  exact ⟨⟨hname, zero_notMem_formatNat _⟩, by decide +kernel⟩

theorem length_counterText_le {name : String} (hname : (ascii name).length = 4) (n : UInt64) :
    (counterText name n).length ≤ 26 := by
  have hdigits : (formatNat n.toNat).length ≤ 20 :=
    length_formatNat_le (by decide) ((UInt64.toNat_lt n).trans (by decide))
  have hclose : (ascii "] ").length = 2 := by decide +kernel
  rw [counterText, List.length_append, List.length_append]
  omega

theorem zero_notMem_space {s : List UInt8} (h : 0 ∉ s) : 0 ∉ s ++ [32] := by
  rw [List.mem_append, not_or]
  exact ⟨h, by decide⟩

theorem forall_mem_part {p : Prop} [Decidable p] {text : List UInt8} (h : 0 ∉ text) :
    ∀ u ∈ if p then [text] else [], 0 ∉ u := by
  intro u hu
  split_ifs at hu
  · rwa [List.mem_singleton.1 hu]
  · cases hu

theorem length_part_le (p : Prop) [Decidable p] (text : List UInt8) :
    (if p then [text] else []).flatten.length ≤ text.length := by
  split_ifs
  · rw [List.flatten_singleton]
  · exact Nat.zero_le _

/-- The fields in front of the file, and their length at most. -/
theorem front_spec (l : KsLog) (x : LogLine) :
    (∀ text ∈ l.front x, 0 ∉ text) ∧ (l.front x).flatten.length ≤ 271 := by
  constructor
  · rw [front]
    simp only [List.forall_mem_append]
    refine ⟨⟨⟨⟨⟨forall_mem_part ?_, forall_mem_part ?_⟩, forall_mem_part ?_⟩, forall_mem_part ?_⟩,
      forall_mem_part ?_⟩, forall_mem_part ?_⟩
    · exact zero_notMem_counterText (by decide +kernel) _
    · exact zero_notMem_counterText (by decide +kernel) _
    · exact (levelText_eq x.level).2
    · exact zero_notMem_space l.date.1.2
    · exact zero_notMem_space l.time.1.2
    · rw [threadText]
      refine zero_notMem_space ?_
      rw [List.mem_cons, not_or]
      exact ⟨by decide, zero_notMem_formatHex _ _⟩
  · have hfails : (counterText "[LF:" l.wakeupStdoutFails).length ≤ 26 :=
      length_counterText_le (by decide +kernel) _
    have hsuccesses : (counterText "[LS:" l.wakeupStdoutSuccesses).length ≤ 26 :=
      length_counterText_le (by decide +kernel) _
    have hlevel : (levelText x).length = 9 := (levelText_eq x.level).1
    have hdate : (l.date.1.1 ++ [32]).length ≤ 100 := by
      rw [List.length_append]
      exact l.date.2
    have htime : (l.time.1.1 ++ [32]).length ≤ 100 := by
      rw [List.length_append]
      exact l.time.2
    have hthread : l.threadText.length = 10 := by
      simp only [threadText, List.length_append, List.length_cons, length_formatHex, List.length_nil]
    rw [front]
    simp only [List.flatten_append, List.length_append]
    have h₁ := length_part_le (0 < l.wakeupStdoutFails) (counterText "[LF:" l.wakeupStdoutFails)
    have h₂ := length_part_le (0 < l.wakeupStdoutSuccesses)
      (counterText "[LS:" l.wakeupStdoutSuccesses)
    have h₃ := length_part_le (l.logPrefix.level = true) (levelText x)
    have h₄ := length_part_le (l.logPrefix.date = true) (l.date.1.1 ++ [32])
    have h₅ := length_part_le (l.logPrefix.time = true) (l.time.1.1 ++ [32])
    have h₆ := length_part_le (l.logPrefix.thread = true) l.threadText
    omega

/-- The line, and its length at most. -/
theorem behindFile_spec (l : KsLog) (x : LogLine) :
    (∀ text ∈ l.behindFile x, 0 ∉ text) ∧ (l.behindFile x).flatten.length ≤ 13 := by
  constructor
  · rw [behindFile]
    simp only [List.forall_mem_append, List.forall_mem_singleton]
    refine ⟨forall_mem_part ?_, by decide⟩
    rw [lineText, List.mem_cons, not_or]
    exact ⟨by decide, zero_notMem_padRight (zero_notMem_formatInt _)⟩
  · have hline : (lineText x).length ≤ 12 := by
      have habs : x.line.toInt.natAbs < 10 ^ 10 := by
        have hlt := Int32.toInt_lt x.line
        have hle := Int32.le_toInt x.line
        omega
      have hint := length_formatInt_le (by decide) habs
      rw [lineText, List.length_cons, length_padRight]
      omega
    have h₁ := length_part_le (l.logPrefix.line = true) (lineText x)
    rw [behindFile, List.flatten_append, List.length_append, List.flatten_singleton,
      List.length_singleton]
    omega

theorem zero_notMem_fileText (x : LogLine) : 0 ∉ fileText x := by
  have hcut : ∀ (delim : UInt8) (ret s : List UInt8), 0 ∉ ret → 0 ∉ s → 0 ∉ cutBehind delim ret s := by
    intro delim ret s
    induction s generalizing ret with
    | nil => exact fun hret _ => hret
    | cons c s ih =>
      intro hret hs
      rw [List.mem_cons, not_or] at hs
      rw [cutBehind]
      split_ifs
      · exact ih s hs.2 hs.2
      · exact ih ret hret hs.2
  have hpath : 0 ∉ cutPath x.file.1 := hcut _ _ _ (hcut _ _ _ x.file.2 x.file.2) x.file.2
  exact zero_notMem_padLeft fun hmem => hpath (List.mem_of_mem_take hmem)

/-- The field of the function has 49 bytes. -/
theorem funcText_spec (x : LogLine) : (funcText x).length = 49 ∧ 0 ∉ funcText x := by
  constructor
  · rw [funcText, List.length_append, length_padRight, List.length_take, List.length_singleton]
    omega
  · exact zero_notMem_space
      (zero_notMem_padRight fun hmem => x.func.2 (List.mem_of_mem_take hmem))

/-- To sanitize a text brings no NUL into it. -/
theorem zero_notMem_sanitize {s : List UInt8} (h : 0 ∉ s) : 0 ∉ ksLogSanitizeString s := by
  rw [ksLogSanitizeString, List.mem_map]
  rintro ⟨c, hc, hzero⟩
  have hne : c ≠ 0 := fun h0 => h (h0 ▸ hc)
  split_ifs at hzero
  · exact hne hzero
  · exact hne hzero
  · exact absurd hzero (by decide)

/-! ## Printing a line -/

variable {b : LogBuf} {t : List UInt8}

/-- What is printed for the name of the file. -/
def fileTexts (l : KsLog) (x : LogLine) : List (List UInt8) :=
  if l.logPrefix.file then fileText x :: l.behindFile x else []

/-- The fields of the file and the line. -/
theorem fileTexts_spec (l : KsLog) (x : LogLine) :
    (∀ text ∈ l.fileTexts x, 0 ∉ text) ∧ (l.fileTexts x).flatten.length ≤ 45 := by
  have hbehind := behindFile_spec l x
  have hfile := length_fileText x
  rw [fileTexts]
  split_ifs
  · refine ⟨List.forall_mem_cons.2 ⟨zero_notMem_fileText x, hbehind.1⟩, ?_⟩
    rw [List.flatten_cons, List.length_append]
    omega
  · exact ⟨fun _ h => absurd h List.not_mem_nil, Nat.zero_le _⟩

/-- The name of the file ends behind the buffer, and what follows it is written there. -/
theorem printFile_over (h : LogBuf.Printed b t) (hfile : l.logPrefix.file = true)
    (hlt : b.used < b.size) (hover : b.size < b.used + 32) (hint : b.used < 2 ^ 30) :
    l.printFile x b = .error (.fault .outOfBounds) := by
  have hlen := length_fileText x
  obtain ⟨b', hrun, hprinted, hsize, hused⟩ := h.snprintf (Nat.le_of_lt hlt)
    (zero_notMem_fileText x) (by omega)
  have hne : l.behindFile x ≠ [] := by
    rw [behindFile]
    exact List.append_ne_nil_of_right_ne_nil _ (List.cons_ne_nil _ _)
  rw [printFile, if_pos hfile, hrun, ok_bind, LogBuf.putAll_over hne (by omega) (by omega)]

/-- In all other cases it is printed, or the printing ends behind it. -/
theorem printFile_fits (h : LogBuf.Printed b t) (hlt : b.used < b.size)
    (hfits : l.logPrefix.file = true → b.used + 32 ≤ b.size) (hint : b.used < 2 ^ 30) :
    if b.used + (l.fileTexts x).flatten.length < b.size then
      ∃ b', l.printFile x b = .ok b' ∧ LogBuf.Printed b' (t ++ (l.fileTexts x).flatten) ∧
        b'.size = b.size
    else
      ∃ b' t', l.printFile x b = .error (.done b') ∧ LogBuf.Printed b' t' ∧ b'.size = b.size ∧
        b'.used ≤ b.used + (l.fileTexts x).flatten.length := by
  by_cases hfile : l.logPrefix.file = true
  · have hlen := length_fileText x
    have hbehind := behindFile_spec l x
    obtain ⟨b', hrun, hprinted, hsize, hused⟩ := h.snprintf (Nat.le_of_lt hlt)
      (zero_notMem_fileText x) (by omega)
    have hne : l.behindFile x ≠ [] := by
      rw [behindFile]
      exact List.append_ne_nil_of_right_ne_nil _ (List.cons_ne_nil _ _)
    have hroom := hfits hfile
    have hrest := hprinted.putAll (l.behindFile x)
      (by rcases Nat.lt_or_eq_of_le hroom with h | h
          · exact .inl (by omega)
          · exact .inr ⟨by omega, hne⟩) hbehind.1 (by omega)
    rw [hused, hsize, Nat.add_assoc, List.append_assoc, ← List.length_append, ← List.flatten_cons]
      at hrest
    rw [printFile, if_pos hfile, hrun, ok_bind, fileTexts, if_pos hfile]
    exact hrest
  · rw [printFile, if_neg hfile, fileTexts, if_neg hfile, List.flatten_nil, List.length_nil,
      Nat.add_zero, if_pos hlt]
    exact ⟨b, rfl, by rwa [List.append_nil], rfl⟩

/-- `used` where the name of the file is printed. -/
def usedFront (l : KsLog) (x : LogLine) : ℕ := 1 + (l.front x).flatten.length

/-- `used` where the message is printed. -/
def usedTexts (l : KsLog) (x : LogLine) : ℕ := 1 + (l.texts x).flatten.length

/-- The name of the file is printed into the end of the buffer. -/
def Overruns (l : KsLog) (x : LogLine) (bufSize : ℕ) : Prop :=
  l.logPrefix.file = true ∧ l.usedFront x < bufSize ∧ bufSize < l.usedFront x + 32

instance (l : KsLog) (x : LogLine) (bufSize : ℕ) : Decidable (l.Overruns x bufSize) :=
  inferInstanceAs (Decidable (_ ∧ _))

theorem usedTexts_eq (l : KsLog) (x : LogLine) : l.usedTexts x = l.usedFront x +
    (l.fileTexts x).flatten.length + (if l.logPrefix.func then [funcText x] else []).flatten.length := by
  rw [usedTexts, usedFront, texts, ← fileTexts, List.flatten_append, List.flatten_append,
    List.length_append, List.length_append]
  omega

/-- All fields together take 400 bytes at most. -/
theorem usedTexts_le (l : KsLog) (x : LogLine) : l.usedTexts x ≤ 400 := by
  have hfront := (front_spec l x).2
  have hfile := (fileTexts_spec l x).2
  have hfunc := length_part_le (l.logPrefix.func = true) (funcText x)
  have hlen := (funcText_spec x).1
  rw [usedTexts_eq, usedFront]
  omega

/-- A line is printed up to the message, or cut off, or written behind the buffer. -/
theorem print_cases (h : LogBuf.Printed b []) (data : List UInt8) :
    if l.Overruns x b.size then l.print x data b = .error (.fault .outOfBounds)
    else if l.usedTexts x < b.size then
      ∃ b', l.print x data b = b'.snprintf data ∧ LogBuf.Printed b' (l.texts x).flatten ∧
        b'.size = b.size
    else
      ∃ b' t', l.print x data b = .error (.done b') ∧ LogBuf.Printed b' t' ∧ b'.size = b.size ∧
        b'.used ≤ 400 := by
  have hu : b.used = 1 := h.used
  have hsize3 := h.size
  have htotal := usedTexts_eq l x
  have hle := usedTexts_le l x
  have huf : l.usedFront x = b.used + (l.front x).flatten.length := by rw [hu, usedFront]
  -- The fields in front of the file.
  have hfront := h.putAll (l.front x) (.inl (by omega)) (front_spec l x).1 (by omega)
  rw [← huf] at hfront
  by_cases hroom : l.usedFront x < b.size
  · rw [if_pos hroom, List.nil_append] at hfront
    obtain ⟨b₁, hrun₁, h₁, hsize₁⟩ := hfront
    have hu₁ : b₁.used = l.usedFront x := by
      rw [h₁.used, usedFront]
      omega
    have hprint : l.print x data b = l.printFile x b₁ >>= fun b =>
        b.putAll (if l.logPrefix.func then [funcText x] else []) >>= fun b => b.snprintf data := by
      rw [print, hrun₁, ok_bind]
    by_cases hover : l.Overruns x b.size
    · rw [if_pos hover, hprint, printFile_over h₁ hover.1 (by omega)
        (by rw [hu₁, hsize₁]; exact hover.2.2) (by omega)]
      rfl
    rw [if_neg hover]
    -- The file and the line, for which the source looks at no bound.
    have hfits : l.logPrefix.file = true → b₁.used + 32 ≤ b₁.size := fun hfile => by
      rw [hu₁, hsize₁]
      exact Nat.not_lt.1 fun hlt => hover ⟨hfile, hroom, hlt⟩
    have hfile := printFile_fits (l := l) (x := x) h₁ (by omega) hfits (by omega)
    rw [hu₁, hsize₁] at hfile
    by_cases hroom₂ : l.usedFront x + (l.fileTexts x).flatten.length < b.size
    · rw [if_pos hroom₂] at hfile
      obtain ⟨b₂, hrun₂, h₂, hsize₂⟩ := hfile
      have hu₂ : b₂.used = l.usedFront x + (l.fileTexts x).flatten.length := by
        rw [h₂.used, List.length_append, usedFront]
        omega
      -- The function, and what the caller prints behind it.
      have hfunc := h₂.putAll (if l.logPrefix.func then [funcText x] else [])
        (.inl (by omega)) (forall_mem_part (funcText_spec x).2) (by omega)
      rw [hu₂, hsize₂, ← htotal] at hfunc
      by_cases hroom₃ : l.usedTexts x < b.size
      · rw [if_pos hroom₃] at hfunc ⊢
        obtain ⟨b₃, hrun₃, h₃, hsize₃⟩ := hfunc
        refine ⟨b₃, ?_, ?_, hsize₃⟩
        · rw [hprint, hrun₂, ok_bind, hrun₃, ok_bind]
        · rwa [texts, List.flatten_append, List.flatten_append]
      · rw [if_neg hroom₃] at hfunc ⊢
        obtain ⟨b₃, t₃, hrun₃, h₃, hsize₃, hused₃⟩ := hfunc
        refine ⟨b₃, t₃, ?_, h₃, hsize₃, by omega⟩
        rw [hprint, hrun₂, ok_bind, hrun₃]
        rfl
    · rw [if_neg hroom₂] at hfile
      obtain ⟨b₂, t₂, hrun₂, h₂, hsize₂, hused₂⟩ := hfile
      rw [if_neg (by omega)]
      refine ⟨b₂, t₂, ?_, h₂, hsize₂, by omega⟩
      rw [hprint, hrun₂]
      rfl
  · rw [if_neg hroom] at hfront
    obtain ⟨b₁, t₁, hrun₁, h₁, hsize₁, hused₁⟩ := hfront
    rw [if_neg fun hover => hroom hover.2.1, if_neg (by omega)]
    refine ⟨b₁, t₁, ?_, h₁, hsize₁, by omega⟩
    rw [print, hrun₁]
    rfl

/-- The counter has room for the message and the newline, if the message is printed. -/
def Counts (l : KsLog) (x : LogLine) (bufSize : ℕ) (message : List UInt8) : Prop :=
  l.usedTexts x < bufSize →
    l.usedTexts x + message.length + 1 < 2 ^ 31 ∨
      l.usedTexts x + message.length + 1 = 2 ^ 31 ∧ (bufSize < 2 ^ 31 ∨ message.getLast? = some 10)

/-- The message has been formatted, the name of the file is not printed into the end of the
    buffer, and the counter has room for the line. -/
structure Fits (l : KsLog) (x : LogLine) (bufSize : ℕ) : Prop where
  formatted : x.data.isSome = true
  file : ¬l.Overruns x bufSize
  counter : ∀ message, x.data = some message → l.Counts x bufSize message.1

/-- A newline at the end stays one. -/
theorem getLast?_sanitize {s : List UInt8} :
    (ksLogSanitizeString s).getLast? = some 10 ↔ s.getLast? = some 10 := by
  rw [ksLogSanitizeString, List.getLast?_map, Option.map_eq_some_iff]
  constructor
  · rintro ⟨c, hc, h10⟩
    split_ifs at h10 with hkeep
    · rwa [h10] at hc
    · rwa [h10] at hc
    · exact absurd h10 (by decide)
  · exact fun h => ⟨10, h, if_pos (.inl rfl)⟩

/-- A line stays in the buffer, ends with a newline, and has the length that is returned,
    if and only if the message has been formatted, the name of the file is not printed
    into the end of the buffer, and the counter has room for the line. -/
theorem formatOutput_line_iff (l : KsLog) (x : LogLine) (data : Mem) {bufSize : ℕ}
    (hsize : 3 ≤ bufSize) (hlt : bufSize < 2 ^ 64) :
    Ends (fun _ => False) (LogBuf.IsLine bufSize) (l.formatOutput x data bufSize) ↔
      l.Fits x bufSize := by
  rw [formatOutput]
  cases hdata : x.data with
  | none =>
    refine iff_of_false id fun h => ?_
    have hsome := h.formatted
    rw [hdata] at hsome
    cases hsome
  | some message =>
    have hzero : LogBuf.Printed { data := data.write 0 [0], size := bufSize, used := 1 } [] := by
      refine ⟨List.not_mem_nil, rfl, hsize, hlt, ?_⟩
      rw [List.take_nil]
      exact Mem.isStr_write data 0 List.not_mem_nil
    have hfits : l.Fits x bufSize ↔ ¬l.Overruns x bufSize ∧ l.Counts x bufSize message.1 := by
      constructor
      · exact fun h => ⟨h.file, h.counter message hdata⟩
      · rintro ⟨h₁, h₂⟩
        refine ⟨by rw [hdata]; rfl, h₁, fun m hm => ?_⟩
        rwa [← Option.some.inj (hdata.symm.trans hm)]
    have hcases := print_cases (l := l) (x := x) hzero (ksLogSanitizeString message.1)
    dsimp only at hcases ⊢
    rw [LogBuf.store_eq (by exact Nat.lt_of_lt_of_le (by decide) hsize), ok_bind, hfits]
    dsimp only
    by_cases hover : l.Overruns x bufSize
    · rw [if_pos hover] at hcases
      rw [hcases]
      exact iff_of_false id fun h => h.1 hover
    rw [if_neg hover] at hcases
    by_cases hroom : l.usedTexts x < bufSize
    · rw [if_pos hroom] at hcases
      obtain ⟨b, hrun, hprinted, hbsize⟩ := hcases
      have hused : b.used = l.usedTexts x := by
        rw [hprinted.used, usedTexts, Nat.add_comm]
      have hlen : (ksLogSanitizeString message.1).length = message.1.length := List.length_map ..
      have hle := usedTexts_le l x
      rw [hrun]
      by_cases hint : 2 ^ 31 ≤ l.usedTexts x + message.1.length
      · rw [hprinted.snprintf_overflow (by omega) (by omega)]
        refine iff_of_false id fun h => ?_
        rcases h.2 hroom with hfits | hfits
        · omega
        · omega
      · obtain ⟨b', hmessage, hprinted', hbsize', hused'⟩ := hprinted.snprintf (by omega)
          (zero_notMem_sanitize message.2) (by omega)
        have hfinish := hprinted'.finish_cases (by omega)
        rw [hused', hbsize', hbsize, hused, hlen] at hfinish
        have hcounts : l.Counts x bufSize message.1 ↔
            l.usedTexts x + message.1.length + 1 < 2 ^ 31 ∨ bufSize < 2 ^ 31 ∨
              ((l.texts x).flatten ++ ksLogSanitizeString message.1).getLast? = some 10 := by
          constructor
          · intro h
            rcases h hroom with hfits | ⟨hend, hfits | hfits⟩
            · exact .inl hfits
            · exact .inr (.inl hfits)
            · refine .inr (.inr ?_)
              rw [List.getLast?_append, getLast?_sanitize.2 hfits, Option.some_or]
          · intro h _
            by_cases hend : l.usedTexts x + message.1.length + 1 < 2 ^ 31
            · exact .inl hend
            · refine .inr ⟨by omega, (h.resolve_left hend).imp_right fun hlast => ?_⟩
              -- The message is not empty, and the line ends as it does.
              have hne : ksLogSanitizeString message.1 ≠ [] := by
                rw [← List.length_pos_iff, hlen]
                omega
              rw [List.getLast?_append, List.getLast?_eq_getLast_of_ne_nil hne, Option.some_or,
                ← List.getLast?_eq_getLast_of_ne_nil hne] at hlast
              exact getLast?_sanitize.1 hlast
        rw [hmessage, LogBuf.settle, hcounts, and_iff_right hover]
        by_cases hfits : l.usedTexts x + message.1.length + 1 < 2 ^ 31 ∨ bufSize < 2 ^ 31 ∨
            ((l.texts x).flatten ++ ksLogSanitizeString message.1).getLast? = some 10
        · rw [if_pos hfits] at hfinish
          obtain ⟨b'', hrun'', hline⟩ := hfinish
          rw [hrun'']
          exact iff_of_true hline hfits
        · rw [if_neg hfits] at hfinish
          rw [hfinish]
          exact iff_of_false id hfits
    · rw [if_neg hroom] at hcases
      obtain ⟨b, t, hrun, hprinted, hbsize, hused⟩ := hcases
      have hfinish := hprinted.finish_cases (by omega)
      rw [if_pos (.inl (by omega)), hbsize] at hfinish
      obtain ⟨b', hrun', hline⟩ := hfinish
      rw [hrun, LogBuf.settle, hrun']
      exact iff_of_true hline ⟨hover, fun h => absurd h hroom⟩

/-- A log with some of the parts of the prefix switched on. -/
def sampleLog (logPrefix : LogPrefix) : KsLog where
  logPrefix
  wakeupStdoutFails := 0
  wakeupStdoutSuccesses := 0
  date := ⟨⟨ascii "2025-01-31", by decide +kernel⟩, by decide +kernel⟩
  time := ⟨⟨ascii "12:34:56", by decide +kernel⟩, by decide +kernel⟩
  threadId := 0xABC

/-- A call in line 12 of a file. -/
def sampleLine : LogLine where
  file := ⟨ascii "src/main.c", by decide +kernel⟩
  func := ⟨ascii "main", by decide +kernel⟩
  line := 12
  level := 6
  data := some ⟨ascii "hello", by decide +kernel⟩

theorem formatOutput_line_sample : Ends (fun _ => False) (LogBuf.IsLine 100)
    ((sampleLog ⟨true, true, true, true, true, false, true⟩).formatOutput sampleLine (fun _ => 7)
      100) := by
  refine (formatOutput_line_iff _ _ _ (by decide) (by decide)).2 ⟨rfl, by decide +kernel, ?_⟩
  intro message hmessage _
  have hle := usedTexts_le (sampleLog ⟨true, true, true, true, true, false, true⟩) sampleLine
  have hlen : message.1.length = 5 := by
    rw [← Option.some.inj hmessage]
    decide +kernel
  omega

/-- With the name of the file alone in front of the message, a buffer of 16 bytes is written
    beyond its end. -/
theorem not_formatOutput_line : ¬Ends (fun _ => False) (LogBuf.IsLine 16)
    ((sampleLog ⟨false, true, false, false, false, false, false⟩).formatOutput sampleLine
      (fun _ => 7) 16) := by
  have hfault : okAnd (fun _ => true)
      ((sampleLog ⟨false, true, false, false, false, false, false⟩).formatOutput sampleLine
        (fun _ => 7) 16) = false := by decide +kernel
  intro hends
  obtain ⟨r, hr, -⟩ := hends.exists_ok
  rw [hr] at hfault
  cases hfault

end KsLog

end Libks
