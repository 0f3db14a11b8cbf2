import Libks.Kws.HeaderFields
import Libks.Kws.Path

/-!
# The request line

What `kws_parse_header` makes of a request line with a method, a target and a
version: it cuts them apart in place, and cleans the path of the target, which
leaves everything behind it as it is if no backslash ends the path.
-/

namespace Libks

open Base

variable {m : Mem} {size p : ℕ} {method path rest s : List UInt8} {query : Option (List UInt8)}

theorem cutAt_str (h : m.IsStr p s) (hp : p + s.length < size) (c : UInt8) :
    cutAt size m p c = .ok ((strchr c s).map fun i => (m.write (p + i) [0], p + i + 1)) := by
  rw [cutAt, loadStr_str h hp]
  rfl

/-- The target of a request, with a query string or none. -/
def targetOf (path : List UInt8) (query : Option (List UInt8)) : List UInt8 :=
  path ++ query.elim [] (63 :: ·)

/-- A target that is one word, with a path that no backslash leads out of. -/
structure IsTarget (path : List UInt8) (query : Option (List UInt8)) : Prop where
  slash : path.head? = some 47
  word : 32 ∉ targetOf path query
  mark : 63 ∉ path
  closed : closed false path

/-- The query string is cut off. -/
theorem cutAt_query {uri : ℕ} (h : m.IsStr uri (targetOf path query)) (hmark : 63 ∉ path)
    (hp : uri + (targetOf path query).length < size) :
    ∃ r m', cutAt size m uri 63 = .ok r ∧ (r.map Prod.fst).getD m = m' ∧
      r.map Prod.snd = query.map (fun _ => uri + path.length + 1) ∧ m'.IsStr uri path ∧
      (∀ q, query = some q → m'.IsStr (uri + path.length + 1) q) ∧
      ∀ i, uri + (targetOf path query).length ≤ i → m' i = m i := by
  rw [cutAt_str h hp]
  cases query with
  | none =>
    rw [targetOf, Option.elim_none, List.append_nil] at h ⊢
    rw [strchr_eq_none_iff.2 hmark]
    exact ⟨_, m, rfl, rfl, rfl, h, fun q hq => absurd hq (Option.some_ne_none q).symm,
      fun _ _ => rfl⟩
  | some q =>
    rw [targetOf, Option.elim_some] at h ⊢
    rw [strchr_append_cons hmark]
    refine ⟨_, _, rfl, rfl, rfl, h.cut.1, ?_, fun i hi => ?_⟩
    · intro q' hq'
      obtain rfl := Option.some.inj hq'
      exact h.cut.2
    · rw [List.length_append, List.length_cons] at hi
      exact Mem.write_apply_of_ge (by simp; omega)

/-- The request line, up to the version. -/
theorem parseRequestLine_str
    (h : m.IsStr 0 (method ++ 32 :: (targetOf path query ++ 32 :: rest)))
    (hsize : (method ++ 32 :: (targetOf path query ++ 32 :: rest)).length < size)
    (hmethod : 32 ∉ method) (ht : IsTarget path query) :
    let uri := method.length + 1
    let http := uri + (targetOf path query).length + 1
    (TooDeep path → parseRequestLine size m = .ok none) ∧
    (¬TooDeep path → ∃ m', m'.IsStr http rest ∧ m'.IsStr uri (pathOf (tokens 47 64 path)) ∧
      (∀ q, query = some q → m'.IsStr (uri + path.length + 1) q) ∧
      parseRequestLine size m =
        if ¬(ascii "HTTP/1.1").isPrefixOf rest ∧ ¬(ascii "HTTP/1.0").isPrefixOf rest then .ok none
        else .ok (some ({
          buffer := m', size, uri, qs := query.map fun _ => uri + path.length + 1
          keepalive := (ascii "HTTP/1.1").isPrefixOf rest }, http))) := by
  intro uri http
  obtain ⟨t, rfl⟩ := List.head?_eq_some_iff.1 ht.slash
  have huri : (0 : ℕ) + method.length + 1 = uri := by omega
  have hlen := hsize
  rw [List.length_append, List.length_cons, List.length_append, List.length_cons] at hlen
  have htarget := h.cut.2
  rw [huri] at htarget
  have hslash : m.write (0 + method.length) [0] uri = 47 := by
    rw [targetOf, List.cons_append, List.cons_append] at htarget
    exact htarget.head
  have hhttp := htarget.cut.2
  have htarget' := htarget.cut.1
  -- The two spaces and the `?` are overwritten, one after the other.
  have hcut₁ : cutAt size m 0 32 = _ := cutAt_str h (by omega) 32
  rw [strchr_append_cons hmethod, Option.map_some, huri] at hcut₁
  have hcut₂ : cutAt size _ uri 32 = _ :=
    cutAt_str htarget (by rw [List.length_append, List.length_cons]; omega) 32
  rw [strchr_append_cons ht.word, Option.map_some] at hcut₂
  obtain ⟨r, m₃, hcut₃, hm₃, hqs, hpath, hquery, hframe₃⟩ :=
    @cutAt_query _ size _ query uri htarget' ht.mark (by omega)
  have hlt : (targetOf (47 :: t) query).length =
      (47 :: t).length + (query.elim [] (63 :: ·)).length := by
    rw [targetOf, List.length_append]
  -- What is left to do then.
  have hline : parseRequestLine size m = cleanUri size m₃ uri >>= fun c =>
      if c.1 ≠ .success then pure none
      else loadStr size c.2 http >>= fun version =>
        if ¬(ascii "HTTP/1.1").isPrefixOf version ∧ ¬(ascii "HTTP/1.0").isPrefixOf version then
          pure none
        else pure (some ({
          buffer := c.2, size, uri, qs := query.map fun _ => uri + (47 :: t).length + 1
          keepalive := (ascii "HTTP/1.1").isPrefixOf version }, http)) := by
    rw [parseRequestLine, hcut₁]
    simp only [bind, Except.bind]
    rw [if_neg (not_not_intro hslash), hcut₂]
    simp only [hcut₃, hm₃, hqs]
    rfl
  have hend : uri + (47 :: t).length < size := by omega
  rw [hline]
  constructor
  · intro hdeep
    obtain ⟨m₄, hclean⟩ := cleanUri_tooDeep hpath hend hdeep
    rw [hclean]
    rfl
  · intro hdeep
    obtain ⟨m₄, hclean, hpath₄, hframe₄⟩ := cleanUri_str hpath hend ht.closed hdeep
    -- The clean-up stays within the path, and the version behind it is not touched.
    have hrest : m₄.IsStr http rest := hhttp.congr fun i hi _ => by
      rw [hframe₄ i (by omega), hframe₃ i (by omega)]
    refine ⟨m₄, hrest, hpath₄, ?_, ?_⟩
    · rintro q rfl
      refine (hquery q rfl).congr fun i hi _ => hframe₄ i (by omega)
    · rw [hclean]
      simp only [bind, Except.bind]
      rw [if_neg (by decide), loadStr_str hrest (by omega)]
      dsimp only
      split_ifs
      · rfl
      · rfl

end Libks
