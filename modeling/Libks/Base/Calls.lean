import Libks.Base.Outcome

/-!
# Calls in a row

A component answers calls one after the other, each in the state the ones before
have left, until one fails (`calls`). What holds of one call holds of a row:

* `stays_iff_along`: an invariant is kept along a row of calls if and only if
  every call is a good one, where a good call keeps it and a bad one does not;
* `obeys_iff_along`: the same for what is said about each call and its answer;
* `calls_refines`: a component whose single calls are those of a model answers
  every row of calls as the model does;
* `calls_simulates`: the same for a model that allows more than one answer.
-/

namespace Base

variable {σ τ ι ο ε : Type} {step : σ → ι → Except ε (ο × σ)}

/-- The answers to calls in a row, and the state they leave. -/
def calls (step : σ → ι → Except ε (ο × σ)) : σ → List ι → Except ε (List ο × σ)
  | s, [] => .ok ([], s)
  | s, a :: as => do
    let (o, s) ← step s a
    let (os, s) ← calls step s as
    return (o :: os, s)

/-- Every call in the row is made in a state with `P`. -/
def Along (step : σ → ι → Except ε (ο × σ)) (P : σ → ι → Prop) : σ → List ι → Prop
  | _, [] => True
  | s, a :: as => P s a ∧ ∀ o s', step s a = .ok (o, s') → Along step P s' as

theorem Along.congr {P Q : σ → ι → Prop} (h : ∀ s a, P s a ↔ Q s a) {s : σ} {as : List ι} :
    Along step P s as ↔ Along step Q s as := by
  induction as generalizing s with
  | nil => exact Iff.rfl
  | cons a as ih =>
    exact and_congr (h s a) (forall_congr' fun o => forall_congr' fun s' => forall_congr' fun _ => ih)

theorem Along.of_forall {P : σ → ι → Prop} (h : ∀ s a, P s a) (s : σ) (as : List ι) :
    Along step P s as := by
  induction as generalizing s with
  | nil => trivial
  | cons a as ih => exact ⟨h s a, fun _ s' _ => ih s'⟩

/-- A condition on the calls themselves may be asked for along the row. -/
theorem Along.and_of_forall {P : σ → ι → Prop} {Q : ι → Prop} {s : σ} {as : List ι}
    (h : Along step P s as) (hq : ∀ a ∈ as, Q a) : Along step (fun s a => Q a ∧ P s a) s as := by
  induction as generalizing s with
  | nil => trivial
  | cons a as ih =>
    refine ⟨⟨hq a (List.mem_cons_self ..), h.1⟩, fun o s' hstep => ?_⟩
    exact ih (h.2 o s' hstep) fun a' ha' => hq a' (List.mem_cons_of_mem _ ha')

theorem Along.and {P Q : σ → ι → Prop} {s : σ} {as : List ι} (hp : Along step P s as)
    (hq : Along step Q s as) : Along step (fun s a => P s a ∧ Q s a) s as := by
  induction as generalizing s with
  | nil => trivial
  | cons a as ih =>
    exact ⟨⟨hp.1, hq.1⟩, fun o s' hstep => ih (hp.2 o s' hstep) (hq.2 o s' hstep)⟩

/-- What follows from `P` where `J` holds, which the calls keep, holds along the row. -/
theorem Along.imp_of_kept {J : σ → Prop} {P Q : σ → ι → Prop}
    (hkept : ∀ s a o s', J s → P s a → step s a = .ok (o, s') → J s')
    (himp : ∀ s a, J s → P s a → Q s a) {s : σ} {as : List ι} (hs : J s)
    (h : Along step P s as) : Along step Q s as := by
  induction as generalizing s with
  | nil => trivial
  | cons a as ih =>
    refine ⟨himp s a hs h.1, fun o s' hstep => ?_⟩
    exact ih (hkept s a o s' hs h.1 hstep) (h.2 o s' hstep)

/-- The last call of the row is made in the state that the others leave. -/
theorem Along.last {P : σ → ι → Prop} {s s' : σ} {as : List ι} {a : ι} {os : List ο}
    (h : Along step P s (as ++ [a])) (hrun : calls step s as = .ok (os, s')) : P s' a := by
  induction as generalizing s os with
  | nil =>
    cases hrun
    exact h.1
  | cons b as ih =>
    obtain ⟨⟨o, s₁⟩, hstep, hrun⟩ := bind_eq_ok.1 hrun
    obtain ⟨⟨os₁, s₂⟩, hrest, hrun⟩ := bind_eq_ok.1 hrun
    cases hrun
    exact ih (h.2 o s₁ hstep) hrest

/-- Every call in the row succeeds, in a state with `I` and into one. -/
def Stays (step : σ → ι → Except ε (ο × σ)) (I : σ → Prop) : σ → List ι → Prop
  | s, [] => I s
  | s, a :: as => I s ∧ ∃ o s', step s a = .ok (o, s') ∧ Stays step I s' as

theorem Stays.start {I : σ → Prop} {s : σ} : ∀ {as : List ι}, Stays step I s as → I s
  | [], h => h
  | _ :: _, h => h.1

instance decidableAlong {P : σ → ι → Prop} [∀ s a, Decidable (P s a)] :
    ∀ s as, Decidable (Along step P s as)
  | _, [] => .isTrue trivial
  | s, a :: as =>
    match h : step s a with
    | .error _ => decidable_of_iff (P s a) <| by simp [Along, h]
    | .ok (_, s') =>
      have := decidableAlong (P := P) s' as
      decidable_of_iff (P s a ∧ Along step P s' as) <| by simp [Along, h]

instance decidableStays {I : σ → Prop} [DecidablePred I] :
    ∀ s as, Decidable (Stays step I s as)
  | s, [] => inferInstanceAs (Decidable (I s))
  | s, a :: as =>
    match h : step s a with
    | .error _ => .isFalse <| by simp [Stays, h]
    | .ok (_, s') =>
      have := decidableStays (I := I) s' as
      decidable_of_iff (I s ∧ Stays step I s' as) <| by simp [Stays, h]

/-- An invariant `I` that a good call keeps together with `J`, and a bad one loses,
    is kept along a row of calls if and only if all of them are good. -/
theorem stays_iff_along {I J : σ → Prop} {P G : σ → ι → Prop} (hJ : ∀ s, J s → I s)
    (hgood : ∀ s a, J s → P s a → G s a → ∃ o s', step s a = .ok (o, s') ∧ J s')
    (hbad : ∀ s a o s', J s → P s a → ¬G s a → step s a = .ok (o, s') → ¬I s')
    {s : σ} {as : List ι} (hs : J s) (hp : Along step P s as) :
    Stays step I s as ↔ Along step G s as := by
  induction as generalizing s with
  | nil => exact iff_of_true (hJ s hs) trivial
  | cons a as ih =>
    obtain ⟨hpa, hprest⟩ := hp
    constructor
    · rintro ⟨-, o, s', hstep, hrest⟩
      have hga : G s a := by
        by_contra hga
        exact hbad s a o s' hs hpa hga hstep hrest.start
      obtain ⟨o₁, s₁, hstep₁, hs₁⟩ := hgood s a hs hpa hga
      have heq : s' = s₁ := by
        rw [hstep] at hstep₁
        injection hstep₁ with h
        injection h
      subst heq
      have hgrest := (ih hs₁ (hprest o s' hstep)).1 hrest
      refine ⟨hga, fun o₂ s₂ hstep₂ => ?_⟩
      rw [hstep] at hstep₂
      injection hstep₂ with h
      injection h with _ h
      subst h
      exact hgrest
    · rintro ⟨hga, hgrest⟩
      obtain ⟨o, s', hstep, hs'⟩ := hgood s a hs hpa hga
      exact ⟨hJ s hs, o, s', hstep, (ih hs' (hprest o s' hstep)).2 (hgrest o s' hstep)⟩

/-- Every state that the row reaches has `I`. -/
def Always (step : σ → ι → Except ε (ο × σ)) (I : σ → Prop) : σ → List ι → Prop
  | s, [] => I s
  | s, a :: as => I s ∧ ∀ o s', step s a = .ok (o, s') → Always step I s' as

theorem Always.start {I : σ → Prop} {s : σ} : ∀ {as : List ι}, Always step I s as → I s
  | [], h => h
  | _ :: _, h => h.1

/-- The state at the end of the row is one of them. -/
theorem Always.last {I : σ → Prop} {s s' : σ} {as : List ι} {os : List ο}
    (h : Always step I s as) (hrun : calls step s as = .ok (os, s')) : I s' := by
  induction as generalizing s os with
  | nil =>
    cases hrun
    exact h
  | cons a as ih =>
    obtain ⟨⟨o, s₁⟩, hstep, hrun⟩ := bind_eq_ok.1 hrun
    obtain ⟨⟨os₁, s₂⟩, hrest, hrun⟩ := bind_eq_ok.1 hrun
    cases hrun
    exact ih (h.2 o s₁ hstep) hrest

/-- An invariant `I` that a good call keeps together with `J`, if it succeeds, and that
    a bad one loses, is kept along a row of calls if and only if all of them are good. -/
theorem always_iff_along {I J : σ → Prop} {P G : σ → ι → Prop} (hJ : ∀ s, J s → I s)
    (hgood : ∀ s a o s', J s → P s a → G s a → step s a = .ok (o, s') → J s')
    (hbad : ∀ s a, J s → P s a → ¬G s a → ∃ o s', step s a = .ok (o, s') ∧ ¬I s')
    {s : σ} {as : List ι} (hs : J s) (hp : Along step P s as) :
    Always step I s as ↔ Along step G s as := by
  induction as generalizing s with
  | nil => exact iff_of_true (hJ s hs) trivial
  | cons a as ih =>
    obtain ⟨hpa, hprest⟩ := hp
    constructor
    · rintro ⟨-, hrest⟩
      have hga : G s a := by
        by_contra hga
        obtain ⟨o, s', hstep, hbad⟩ := hbad s a hs hpa hga
        exact hbad (hrest o s' hstep).start
      refine ⟨hga, fun o s' hstep => ?_⟩
      exact (ih (hgood s a o s' hs hpa hga hstep) (hprest o s' hstep)).1 (hrest o s' hstep)
    · rintro ⟨hga, hgrest⟩
      refine ⟨hJ s hs, fun o s' hstep => ?_⟩
      exact (ih (hgood s a o s' hs hpa hga hstep) (hprest o s' hstep)).2 (hgrest o s' hstep)

/-- What good calls keep, if they succeed, holds in every state of a row of them. -/
theorem always_of_good {I J : σ → Prop} {G : σ → ι → Prop} (hJ : ∀ s, J s → I s)
    (hgood : ∀ s a o s', J s → G s a → step s a = .ok (o, s') → J s')
    {s : σ} {as : List ι} (hs : J s) (hg : Along step G s as) : Always step I s as := by
  induction as generalizing s with
  | nil => exact hJ s hs
  | cons a as ih =>
    refine ⟨hJ s hs, fun o s' hstep => ?_⟩
    exact ih (hgood s a o s' hs hg.1 hstep) (hg.2 o s' hstep)

/-- Every call in the row succeeds, and does what `Q` says. -/
def Obeys (step : σ → ι → Except ε (ο × σ)) (Q : σ → ι → ο → σ → Prop) : σ → List ι → Prop
  | _, [] => True
  | s, a :: as => ∃ o s', step s a = .ok (o, s') ∧ Q s a o s' ∧ Obeys step Q s' as

/-- If good calls do what `Q` says and keep `J`, and bad ones do not do it, then a row of
    calls does so if and only if all of them are good. -/
theorem obeys_iff_along {J : σ → Prop} {P G : σ → ι → Prop} {Q : σ → ι → ο → σ → Prop}
    (hgood : ∀ s a, J s → P s a → G s a → ∃ o s', step s a = .ok (o, s') ∧ Q s a o s' ∧ J s')
    (hbad : ∀ s a o s', J s → P s a → ¬G s a → step s a = .ok (o, s') → ¬Q s a o s')
    {s : σ} {as : List ι} (hs : J s) (hp : Along step P s as) :
    Obeys step Q s as ↔ Along step G s as := by
  induction as generalizing s with
  | nil => exact iff_of_true trivial trivial
  | cons a as ih =>
    obtain ⟨hpa, hprest⟩ := hp
    constructor
    · rintro ⟨o, s', hstep, hq, hrest⟩
      have hga : G s a := by
        by_contra hga
        exact hbad s a o s' hs hpa hga hstep hq
      obtain ⟨o₁, s₁, hstep₁, -, hs₁⟩ := hgood s a hs hpa hga
      obtain ⟨rfl, rfl⟩ := Prod.ext_iff.1 (Except.ok.inj (hstep.symm.trans hstep₁))
      refine ⟨hga, fun o₂ s₂ hstep₂ => ?_⟩
      obtain ⟨rfl, rfl⟩ := Prod.ext_iff.1 (Except.ok.inj (hstep.symm.trans hstep₂))
      exact (ih hs₁ (hprest _ _ hstep)).1 hrest
    · rintro ⟨hga, hgrest⟩
      obtain ⟨o, s', hstep, hq, hs'⟩ := hgood s a hs hpa hga
      exact ⟨o, s', hstep, hq, (ih hs' (hprest o s' hstep)).2 (hgrest o s' hstep)⟩

/-- Every call in the row is made in a state with `I`, and succeeds into one or ends in
    `E`. -/
def Upholds (step : σ → ι → Except ε (ο × σ)) (E : ε → Prop) (I : σ → Prop) : σ → List ι → Prop
  | s, [] => I s
  | s, a :: as => I s ∧ Ends E (fun r => Upholds step E I r.2 as) (step s a)

theorem Upholds.start {E : ε → Prop} {I : σ → Prop} {s : σ} :
    ∀ {as : List ι}, Upholds step E I s as → I s
  | [], h => h
  | _ :: _, h => h.1

/-- An invariant `I` that a good call keeps together with `J` or ends in `E`, and a bad
    one does neither, is upheld by a row of calls if and only if all of them are good. -/
theorem upholds_iff_along {E : ε → Prop} {I J : σ → Prop} {P G : σ → ι → Prop}
    (hJ : ∀ s, J s → I s)
    (hgood : ∀ s a, J s → P s a → G s a → Ends E (fun r => J r.2) (step s a))
    (hbad : ∀ s a, J s → P s a → ¬G s a → ¬Ends E (fun r => I r.2) (step s a))
    {s : σ} {as : List ι} (hs : J s) (hp : Along step P s as) :
    Upholds step E I s as ↔ Along step G s as := by
  induction as generalizing s with
  | nil => exact iff_of_true (hJ s hs) trivial
  | cons a as ih =>
    obtain ⟨hpa, hprest⟩ := hp
    constructor
    · rintro ⟨-, hrest⟩
      have hga : G s a := by
        by_contra hga
        exact hbad s a hs hpa hga (hrest.imp fun r hr => hr.start)
      refine ⟨hga, fun o s' hstep => ?_⟩
      have hs' := (hgood s a hs hpa hga).ok hstep
      exact (ih hs' (hprest o s' hstep)).1 (hrest.ok hstep)
    · rintro ⟨hga, hgrest⟩
      refine ⟨hJ s hs, ?_⟩
      have hends := hgood s a hs hpa hga
      cases hstep : step s a with
      | error x =>
        rw [hstep] at hends
        exact hends
      | ok r =>
        rw [hstep] at hends
        exact (ih hends (hprest _ _ hstep)).2 (hgrest _ _ hstep)

/-- What good calls keep, or end in `E`, is upheld by a row of them. -/
theorem upholds_of_good {E : ε → Prop} {I J : σ → Prop} {G : σ → ι → Prop}
    (hJ : ∀ s, J s → I s) (hgood : ∀ s a, J s → G s a → Ends E (fun r => J r.2) (step s a))
    {s : σ} {as : List ι} (hs : J s) (hg : Along step G s as) : Upholds step E I s as := by
  induction as generalizing s with
  | nil => exact hJ s hs
  | cons a as ih =>
    refine ⟨hJ s hs, ?_⟩
    have hends := hgood s a hs hg.1
    cases hstep : step s a with
    | error x =>
      rw [hstep] at hends
      exact hends
    | ok r =>
      rw [hstep] at hends
      exact ih hends (hg.2 _ _ hstep)

/-! ## Steps that may be blocked -/

/-- A step that may be blocked, as a call without an answer. -/
def blocking (next : σ → ι → Option σ) (s : σ) (a : ι) : Except Unit (Unit × σ) :=
  match next s a with
  | some s' => .ok ((), s')
  | none => .error ()

theorem blocking_eq_ok {next : σ → ι → Option σ} {s s' : σ} {a : ι} {o : Unit} :
    blocking next s a = .ok (o, s') ↔ next s a = some s' := by
  rw [blocking]
  cases next s a <;> simp

/-- What good steps keep holds in every state of a run of them. -/
theorem Always.of_along {next : σ → ι → Option σ} {I J : σ → Prop} {G : σ → ι → Prop}
    (hJ : ∀ s, J s → I s) (hgood : ∀ s a s', J s → G s a → next s a = some s' → J s')
    {s : σ} {as : List ι} (hs : J s) (hg : Along (blocking next) G s as) :
    Always (blocking next) I s as :=
  always_of_good hJ (fun s a _ s' hs hga hstep => hgood s a s' hs hga (blocking_eq_ok.1 hstep)) hs
    hg

/-! ## Refinement -/

/-- The answers a model gives to calls in a row, and the state they leave. -/
def answers (spec : τ → ι → ο × τ) : τ → List ι → List ο × τ
  | t, [] => ([], t)
  | t, a :: as =>
    let (o, t) := spec t a
    let (os, t) := answers spec t as
    (o :: os, t)

/-- If single calls are those of a model, with related states, or end in `E`, so
    do calls in a row. -/
theorem calls_ends {E : ε → Prop} {R : σ → τ → Prop} {P : σ → ι → Prop} {spec : τ → ι → ο × τ}
    (hstep : ∀ s t a, R s t → P s a →
      Ends E (fun r => r.1 = (spec t a).1 ∧ R r.2 (spec t a).2) (step s a))
    {s : σ} {t : τ} {as : List ι} (hr : R s t) (hp : Along step P s as) :
    Ends E (fun r => r.1 = (answers spec t as).1 ∧ R r.2 (answers spec t as).2)
      (calls step s as) := by
  induction as generalizing s t with
  | nil => exact ⟨rfl, hr⟩
  | cons a as ih =>
    have hs := hstep s t a hr hp.1
    rw [calls]
    cases hrun : step s a with
    | error x =>
      rw [hrun] at hs
      exact hs
    | ok r =>
      rw [hrun] at hs
      refine (ih hs.2 (hp.2 _ _ hrun)).bind fun r' hr' => ⟨?_, hr'.2⟩
      rw [hs.1, hr'.1]
      rfl

/-- A row of calls that fails in `E` only has no call in it that does not: if bad calls do
    not, and the others keep `J`, all are good. -/
theorem Along.of_ends {E : ε → Prop} {J : σ → Prop} {P G : σ → ι → Prop} {Q : List ο × σ → Prop}
    (hkept : ∀ s a o s', J s → P s a → step s a = .ok (o, s') → J s')
    (hbad : ∀ s a, J s → P s a → ¬G s a → ¬Ends E (fun _ => True) (step s a))
    {s : σ} {as : List ι} (hs : J s) (hp : Along step P s as) (h : Ends E Q (calls step s as)) :
    Along step G s as := by
  induction as generalizing s Q with
  | nil => trivial
  | cons a as ih =>
    rw [calls] at h
    have hga : G s a := by
      by_contra hga
      refine hbad s a hs hp.1 hga ?_
      cases hrun : step s a with
      | ok r => trivial
      | error x =>
        rw [hrun] at h
        exact h
    refine ⟨hga, fun o s' hrun => ?_⟩
    have hrest : Ends E (fun _ => True) (calls step s' as) := by
      rw [hrun, ok_bind] at h
      dsimp only at h
      cases hcalls : calls step s' as with
      | ok r => trivial
      | error x =>
        rw [hcalls] at h
        exact h
    exact ih (hkept s a o s' hs hp.1 hrun) (hp.2 o s' hrun) hrest

/-- If single calls are those of a model, with related states, so are calls in a row. -/
theorem calls_refines {R : σ → τ → Prop} {P : σ → ι → Prop} {spec : τ → ι → ο × τ}
    (hstep : ∀ s t a, R s t → P s a →
      ∃ s', step s a = .ok ((spec t a).1, s') ∧ R s' (spec t a).2)
    {s : σ} {t : τ} {as : List ι} (hr : R s t) (hp : Along step P s as) :
    ∃ s', calls step s as = .ok ((answers spec t as).1, s') ∧ R s' (answers spec t as).2 := by
  have hends := calls_ends (E := fun _ => False) (fun s t a h hp => by
    obtain ⟨s', hs', hr'⟩ := hstep s t a h hp
    exact .of_ok hs' ⟨rfl, hr'⟩) hr hp
  obtain ⟨⟨os, s'⟩, hrun, hos, hr'⟩ := hends.exists_ok
  exact ⟨s', by rw [hrun, ← hos], hr'⟩

/-- The answers to calls in a row that a model allows, and the state that they may leave. -/
def Allows (does : τ → ι → ο → τ → Prop) : τ → List ι → List ο → τ → Prop
  | t, [], os, t' => os = [] ∧ t' = t
  | t, a :: as, os, t' => ∃ o t₁ os', does t a o t₁ ∧ os = o :: os' ∧ Allows does t₁ as os' t'

/-- If a model allows what single calls do, with related states, it allows what calls in a
    row do. -/
theorem calls_simulates {R : σ → τ → Prop} {P : σ → ι → Prop} {does : τ → ι → ο → τ → Prop}
    (hstep : ∀ s t a, R s t → P s a →
      ∃ o s' t', step s a = .ok (o, s') ∧ does t a o t' ∧ R s' t')
    {s : σ} {t : τ} {as : List ι} (hr : R s t) (hp : Along step P s as) :
    ∃ os s' t', calls step s as = .ok (os, s') ∧ Allows does t as os t' ∧ R s' t' := by
  induction as generalizing s t with
  | nil => exact ⟨[], s, t, rfl, ⟨rfl, rfl⟩, hr⟩
  | cons a as ih =>
    obtain ⟨o, s₁, t₁, hrun, hdoes, hr₁⟩ := hstep s t a hr hp.1
    obtain ⟨os, s', t', hruns, hallows, hr'⟩ := ih hr₁ (hp.2 o s₁ hrun)
    refine ⟨o :: os, s', t', ?_, ⟨o, t₁, os, hdoes, rfl, hallows⟩, hr'⟩
    rw [calls, hrun, ok_bind]
    dsimp only
    rw [hruns]
    rfl

end Base
