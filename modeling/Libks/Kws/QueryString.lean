import Mathlib.Data.List.Forall2
import Libks.Kws.Request

/-!
# Query strings

`kws_parse_qs` on the encoding of a list of pairs. It decodes what is between
two `&` before it looks for the `=`, so that a value may contain anything, but a
name with a `=` in it is cut there (`parseQs_iff`).
-/

namespace Libks

open Base

/-- The bytes that are always encoded in a name or a value. -/
def QsReserved (c : UInt8) : Prop := c = 61 ∨ c = 38 ∨ c = 37 ∨ c = 43

instance : DecidablePred QsReserved := fun _ => inferInstanceAs (Decidable (_ ∨ _))

/-- The text is the pair, encoded as `name=value`. -/
def EncodedPair (h : Header) (t : List UInt8) : Prop :=
  ∃ name val, t = name ++ 61 :: val ∧ Encoded QsReserved h.k name ∧ Encoded QsReserved h.v val

variable {h : Header} {t : List UInt8} {hs : List Header} {ts : List (List UInt8)}

theorem EncodedPair.notMem (ht : EncodedPair h t) {c : UInt8} (hc : QsReserved c) (heq : c ≠ 61)
    (hpercent : c ≠ 37) (hhex : hexVal c = none) : c ∉ t := by
  obtain ⟨name, val, rfl, hk, hv⟩ := ht
  rw [List.mem_append, List.mem_cons, not_or, not_or]
  exact ⟨hk.notMem hc hpercent hhex, heq, hv.notMem hc hpercent hhex⟩

/-- The decoded text has the pair with a `=` between its parts. -/
theorem EncodedPair.urlDecode (ht : EncodedPair h t) : urlDecode t = h.k ++ 61 :: h.v := by
  obtain ⟨name, val, rfl, hk, hv⟩ := ht
  have hpercent : QsReserved 37 := .inr (.inr (.inl rfl))
  have hscan (a b v : UInt8) (s : List UInt8) (hab : hexByte a b = some v) :=
    scanHex2_of_hexByte hab s
  have hval := hv.decodeWith_append hpercent hscan []
  rw [List.append_nil] at hval
  rw [Libks.urlDecode, hk.decodeWith_append hpercent hscan, decodeWith_cons_of_ne (by decide), hval]
  exact congrArg (h.k ++ 61 :: ·) (List.append_nil h.v)

/-- Where the first `=` of the decoded text stands, the pair is cut. -/
theorem qsPair_of_urlDecode {u w : List UInt8} (hplus : 43 ∉ t) (hdec : urlDecode t = u ++ 61 :: w)
    (hnul : 0 ∉ u ++ 61 :: w) (hu : 61 ∉ u) : qsPair t = some ⟨u, w⟩ := by
  have hmap : (t.map fun c => if c = 43 then 32 else c) = t := by
    refine (List.map_congr_left fun c hc => ?_).trans (List.map_id t)
    exact if_neg fun h : c = 43 => hplus (h ▸ hc)
  have htake : (u ++ 61 :: w).takeWhile (· ≠ 0) = u ++ 61 :: w :=
    List.takeWhile_eq_self_iff.2 fun c hc => decide_eq_true fun h : c = 0 => hnul (h ▸ hc)
  have hdrop : (u ++ 61 :: w).drop (u.length + 1) = w := by
    rw [← List.drop_drop, List.drop_left]
    rfl
  rw [qsPair, hmap, hdec, htake, strchr_append_cons hu, Option.map_some, List.take_left, hdrop]

/-- The pair comes out as it went in if and only if its name has no `=`. -/
theorem qsPair_encoded (ht : EncodedPair h t) (hk : 0 ∉ h.k) (hv : 0 ∉ h.v) :
    ∃ h', qsPair t = some h' ∧ (h' = h ↔ 61 ∉ h.k) := by
  have hplus : 43 ∉ t :=
    ht.notMem (.inr (.inr (.inr rfl))) (by decide) (by decide) (by decide)
  have hnul : 0 ∉ h.k ++ 61 :: h.v := by
    rw [List.mem_append, List.mem_cons, not_or, not_or]
    exact ⟨hk, by decide, hv⟩
  by_cases heq : 61 ∈ h.k
  · obtain ⟨u, w, hsplit, hu⟩ := List.eq_append_cons_of_mem heq
    have hdec : urlDecode t = u ++ 61 :: (w ++ 61 :: h.v) := by
      rw [ht.urlDecode, hsplit, List.append_assoc, List.cons_append]
    refine ⟨_, qsPair_of_urlDecode hplus hdec (by rwa [← hdec, ht.urlDecode]) hu, ?_⟩
    refine iff_of_false (fun h' => ?_) (not_not_intro heq)
    have hlen : u.length = h.k.length := congrArg (fun h => h.k.length) h'
    rw [hsplit, List.length_append, List.length_cons] at hlen
    omega
  · exact ⟨h, qsPair_of_urlDecode hplus ht.urlDecode hnul heq, iff_of_true rfl heq⟩

/-- With room for all, every text gives what it has. -/
theorem qsLoop_fits {hs₀ : List Header} (hfit : hs₀.length + ts.length ≤ kwsMaxHeaders) :
    qsLoop hs₀ ts = (hs₀ ++ ts.filterMap qsPair, []) := by
  induction ts generalizing hs₀ with
  | nil => rw [List.filterMap_nil, List.append_nil, qsLoop]
  | cons t ts ih =>
    rw [List.length_cons] at hfit
    have hlen : (qsPair t).toList.length ≤ 1 := by
      cases qsPair t with
      | none => exact Nat.zero_le 1
      | some h => exact le_rfl
    rw [qsLoop, if_pos (by omega), ih (by rw [List.length_append]; omega), List.append_assoc]
    cases hq : qsPair t with
    | none => rw [List.filterMap_cons_none hq, Option.toList_none, List.nil_append]
    | some h => rw [List.filterMap_cons_some hq, Option.toList_some, List.singleton_append]

theorem filterMap_qsPair_eq_iff (hts : List.Forall₂ EncodedPair hs ts)
    (hnul : ∀ h ∈ hs, 0 ∉ h.k ∧ 0 ∉ h.v) :
    ts.filterMap qsPair = hs ↔ ∀ h ∈ hs, 61 ∉ h.k := by
  induction hts with
  | nil => exact iff_of_true rfl fun h hh => absurd hh List.not_mem_nil
  | @cons h t hs ts ht _ ih =>
    rw [List.forall_mem_cons] at hnul ⊢
    obtain ⟨h', hq, heq⟩ := qsPair_encoded ht hnul.1.1 hnul.1.2
    rw [List.filterMap_cons_some hq, List.cons_eq_cons, heq, ih hnul.2]

/-- The texts are what stands between the `&`. -/
theorem splitOn_intercalate_encoded (hts : List.Forall₂ EncodedPair hs ts) (hne : ts ≠ []) :
    ([38].intercalate ts).splitOn 38 = ts := by
  refine List.splitOn_intercalate 38 ?_ hne
  clear hne
  induction hts with
  | nil => exact fun t ht => absurd ht List.not_mem_nil
  | cons ht _ ih =>
    rw [List.forall_mem_cons]
    exact ⟨ht.notMem (.inr (.inl rfl)) (by decide) (by decide) (by decide), ih⟩

/-- `kws_parse_qs` appends the pairs that were encoded, in order, behind the
    headers there are, if and only if no name contains a `=`. -/
theorem KwsRequest.parseQs_iff {r : KwsRequest} {qs : Option (List UInt8)}
    (hq : r.queryText qs = .ok ([38].intercalate ts)) (hts : List.Forall₂ EncodedPair hs ts)
    (hnul : ∀ h ∈ hs, 0 ∉ h.k ∧ 0 ∉ h.v) (hfit : r.headers.length + hs.length ≤ kwsMaxHeaders) :
    r.parseQs qs = .ok (.success, { r with headers := r.headers ++ hs }) ↔
      ∀ h ∈ hs, 61 ∉ h.k := by
  have hparse : r.parseQs qs =
      .ok (.success, { r with headers := r.headers ++ ts.filterMap qsPair }) := by
    rw [parseQs, hq, ok_bind]
    by_cases hne : ts = []
    · -- Without pairs there is one empty text, which is no pair.
      subst hne
      have hpair : qsPair [] = none := rfl
      rw [List.intercalate_nil, List.splitOn_nil, qsLoop, hpair, List.filterMap_nil,
        List.append_nil, Option.toList_none, List.append_nil, qsLoop]
      split_ifs with hfull
      · dsimp only
        rw [if_neg fun h => h.2.1 rfl]
        rfl
      · dsimp only
        rw [if_neg fun h => h.2.2 rfl]
        rfl
    · have hlen := hts.length_eq
      rw [splitOn_intercalate_encoded hts hne, qsLoop_fits (by omega)]
      dsimp only
      rw [if_neg fun h => h.2.1 rfl]
      rfl
  rw [hparse, ← filterMap_qsPair_eq_iff hts hnul]
  constructor
  · intro h
    have hheaders := congrArg (fun r => r.2.headers) (Except.ok.inj h)
    exact List.append_cancel_left hheaders
  · intro h
    rw [h]

/-- A query of the request's own, with an encoded `=` in a value. -/
theorem KwsRequest.parseQs_iff_value :
    ({ buffer := stringAt0 (ascii "a=1%3D2&b="), size := 11, qs := some 0 } : KwsRequest).parseQs
        none =
      .ok (.success, { buffer := stringAt0 (ascii "a=1%3D2&b="), size := 11, qs := some 0
                       headers := [] ++ [⟨ascii "a", ascii "1=2"⟩, ⟨ascii "b", []⟩] }) ↔
      ∀ h ∈ [⟨ascii "a", ascii "1=2"⟩, (⟨ascii "b", []⟩ : Header)], 61 ∉ h.k :=
  @parseQs_iff _ [ascii "a=1%3D2", ascii "b="] _ _ rfl
    (.cons ⟨ascii "a", ascii "1%3D2", rfl, .raw (by decide) .nil,
        .raw (by decide) (.escape rfl (.raw (by decide) .nil))⟩
      (.cons ⟨ascii "b", [], rfl, .raw (by decide) .nil, .nil⟩ .nil))
    (by decide) (by decide)

/-- A name with a `=` is cut there: of `a=b` and `c` it makes `a` and `b=c`. -/
theorem KwsRequest.parseQs_name :
    EncodedPair ⟨ascii "a=b", ascii "c"⟩ (ascii "a%3Db=c") ∧
      ({} : KwsRequest).parseQs (some ([38].intercalate [ascii "a%3Db=c"])) ≠
        .ok (.success, { headers := [] ++ [⟨ascii "a=b", ascii "c"⟩] }) := by
  have hpair : EncodedPair ⟨ascii "a=b", ascii "c"⟩ (ascii "a%3Db=c") :=
    ⟨ascii "a%3Db", ascii "c", rfl,
      .raw (by decide) (.escape rfl (.raw (by decide) .nil)), .raw (by decide) .nil⟩
  refine ⟨hpair, fun h => ?_⟩
  have hheaders : okAnd (fun r => r.2.headers = [⟨ascii "a", ascii "b=c"⟩])
      (({} : KwsRequest).parseQs (some ([38].intercalate [ascii "a%3Db=c"]))) = true := by
    decide +kernel
  obtain ⟨r, hr, hk⟩ := okAnd_iff.1 hheaders
  obtain rfl := Except.ok.inj (h.symm.trans hr)
  exact absurd (of_decide_eq_true hk) (by decide)

end Libks
