import Mathlib.Data.List.Basic

/-!
# Runs of a partial step function

A component is a state type `σ`, an event type `ε` and a step `σ → ε → Except φ σ`, where
`.error` marks the point from which the run has no meaning any more.  Nothing here is about a
particular program: `φ`, `σ` and `ε` are arbitrary.

* `runEvents` — the run over a list of events.
* `Throughout P` — `P` holds in every state the run passes through.
* `StepsMeet C` — every step the run takes meets `C`, a condition on the state before the step
  and the event.
* `AttemptsMeet C` — the same for every step the run attempts, a step without outcome included.
* **`throughout_of_stepsMeet`**, **`throughout_iff_stepsMeet`**, **`run_of_attemptsMeet`**,
  **`run_iff_attemptsMeet`**, **`run_throughout_iff_attemptsMeet`** — the rules by which an
  invariant along a run is reduced to one statement about a single step.
* **`throughout_iff_of_related`** — the same along the runs of two step functions that simulate each
  other.
* **`run_agree`** — the runs of two step functions that agree, where they end in an error as well.
-/

namespace Core

variable {σ ε φ : Type*}

/-- The run of `step` over a list of events, stopped by the first `.error`. -/
def runEvents (step : σ → ε → Except φ σ) : σ → List ε → Except φ σ
  | s, [] => .ok s
  | s, e :: es =>
      match step s e with
      | .error f => .error f
      | .ok s' => runEvents step s' es

/-- `P` holds in every state the run passes through, as far as the run is defined. -/
def Throughout (step : σ → ε → Except φ σ) (P : σ → Prop) : σ → List ε → Prop
  | s, [] => P s
  | s, e :: es => P s ∧ ∀ s', step s e = .ok s' → Throughout step P s' es

/-- Every step that the run takes meets the condition `C`. -/
def StepsMeet (step : σ → ε → Except φ σ) (C : σ → ε → Prop) : σ → List ε → Prop
  | _, [] => True
  | s, e :: es => ∀ s', step s e = .ok s' → C s e ∧ StepsMeet step C s' es

/-- Every step that the run attempts meets the condition `C`, also one that has no outcome. -/
def AttemptsMeet (step : σ → ε → Except φ σ) (C : σ → ε → Prop) : σ → List ε → Prop
  | _, [] => True
  | s, e :: es => C s e ∧ ∀ s', step s e = .ok s' → AttemptsMeet step C s' es

/-- Two outcomes are related: both are errors and the same one, or both are states and `R` relates
them. -/
def Agree {τ : Type*} (R : σ → τ → Prop) : Except φ σ → Except φ τ → Prop
  | .ok s, .ok t => R s t
  | .error f, .error g => f = g
  | _, _ => False

/-- Computations that agree, and agree in how they go on, agree. -/
theorem Agree.bind.{u, v, w} {φ : Type u} {σ σ' : Type v} {τ τ' : Type w} {R : σ → τ → Prop}
    {S : σ' → τ' → Prop} {x : Except φ σ} {y : Except φ τ} {f : σ → Except φ σ'}
    {g : τ → Except φ τ'} (h : Agree R x y)
    (hfg : ∀ s t, x = .ok s → y = .ok t → R s t → Agree S (f s) (g t)) :
    Agree S (x >>= f) (y >>= g) := by
  cases x with
  | error e =>
      cases y with
      | error e' => exact h
      | ok t => exact h.elim
  | ok s =>
      cases y with
      | error e' => exact h.elim
      | ok t => exact hfg s t rfl rfl h

theorem Agree.refl (x : Except φ σ) : Agree (· = ·) x x := by
  cases x with
  | error e => rfl
  | ok s => rfl

theorem Agree.mono {τ : Type*} {R S : σ → τ → Prop} {x : Except φ σ} {y : Except φ τ}
    (h : Agree R x y) (hRS : ∀ s t, R s t → S s t) : Agree S x y := by
  cases x with
  | error e =>
      cases y with
      | error e' => exact h
      | ok t => exact h
  | ok s =>
      cases y with
      | error e' => exact h
      | ok t => exact hRS s t h

/-- Agreement with a computation whose result is mapped. -/
theorem Agree.of_map_right.{u, v, w} {φ : Type u} {σ : Type v} {τ τ' : Type w} {R : σ → τ' → Prop}
    {x : Except φ σ} {y : Except φ τ} {f : τ → τ'} (h : Agree R x (f <$> y)) :
    Agree (fun s t => R s (f t)) x y := by
  cases x with
  | error e =>
      cases y with
      | error e' => exact h
      | ok t => exact h
  | ok s =>
      cases y with
      | error e' => exact h
      | ok t => exact h

section

variable {step : σ → ε → Except φ σ} {P : σ → Prop} {C : σ → ε → Prop}

/-- Whether all steps meet a decidable condition is decided by taking them. -/
instance decidableStepsMeet [∀ s e, Decidable (C s e)] :
    ∀ (s : σ) (es : List ε), Decidable (StepsMeet step C s es)
  | _, [] => isTrue trivial
  | s, e :: es =>
      match h : step s e with
      | .error _ => isTrue fun _ h' => nomatch h.symm.trans h'
      | .ok t =>
          have := decidableStepsMeet t es
          decidable_of_iff (C s e ∧ StepsMeet step C t es)
            ⟨fun hc _ h' => Except.ok.inj (h.symm.trans h') ▸ hc, fun hc => hc t h⟩

instance decidableAttemptsMeet [∀ s e, Decidable (C s e)] :
    ∀ (s : σ) (es : List ε), Decidable (AttemptsMeet step C s es)
  | _, [] => isTrue trivial
  | s, e :: es =>
      match h : step s e with
      | .error _ => decidable_of_iff (C s e)
          ⟨fun hc => ⟨hc, fun _ h' => nomatch h.symm.trans h'⟩, And.left⟩
      | .ok t =>
          have := decidableAttemptsMeet t es
          decidable_of_iff (C s e ∧ AttemptsMeet step C t es)
            ⟨fun hc => ⟨hc.1, fun _ h' => Except.ok.inj (h.symm.trans h') ▸ hc.2⟩,
              fun hc => ⟨hc.1, hc.2 t h⟩⟩

/-- A run that takes its first step. -/
theorem throughout_cons_ok {s s' : σ} {e : ε} (h : step s e = .ok s') (es : List ε) :
    Throughout step P s (e :: es) ↔ P s ∧ Throughout step P s' es := by
  refine and_congr_right fun _ => ⟨fun hall => hall s' h, fun hrest t ht => ?_⟩
  obtain rfl := Except.ok.inj (h.symm.trans ht)
  exact hrest

/-- A decidable property is decided along a run by taking its steps. -/
instance decidableThroughout [DecidablePred P] :
    ∀ (s : σ) (es : List ε), Decidable (Throughout step P s es)
  | s, [] => inferInstanceAs (Decidable (P s))
  | s, e :: es =>
      match h : step s e with
      | .error _ => decidable_of_iff (P s)
          ⟨fun hp => ⟨hp, fun _ h' => nomatch h.symm.trans h'⟩, And.left⟩
      | .ok t =>
          have := decidableThroughout t es
          decidable_of_iff (P s ∧ Throughout step P t es) (throughout_cons_ok h es).symm

theorem runEvents_cons_ok {s s' : σ} {e : ε} (h : step s e = .ok s') (es : List ε) :
    runEvents step s (e :: es) = runEvents step s' es := by
  simp only [runEvents, h]

theorem runEvents_cons_error {s : σ} {e : ε} {f : φ} (h : step s e = .error f) (es : List ε) :
    runEvents step s (e :: es) = .error f := by
  simp only [runEvents, h]

/-- A run that ends takes its first step. -/
theorem runEvents_cons_eq_ok {s s' : σ} {e : ε} {es : List ε}
    (h : runEvents step s (e :: es) = .ok s') :
    ∃ t, step s e = .ok t ∧ runEvents step t es = .ok s' := by
  cases hs : step s e with
  | error f => rw [runEvents_cons_error hs] at h; cases h
  | ok t => exact ⟨t, rfl, by rwa [runEvents_cons_ok hs] at h⟩

/-- A run goes on from where its first part ends. -/
theorem runEvents_append {s s' : σ} {es : List ε} (h : runEvents step s es = .ok s')
    (es' : List ε) : runEvents step s (es ++ es') = runEvents step s' es' := by
  induction es generalizing s with
  | nil =>
      cases h
      rfl
  | cons e es ih =>
      rcases runEvents_cons_eq_ok h with ⟨t, ht, h⟩
      rw [List.cons_append, runEvents_cons_ok ht]
      exact ih h

/-- What holds throughout a run holds at its start. -/
theorem Throughout.start {s : σ} {es : List ε} (h : Throughout step P s es) : P s := by
  cases es with
  | nil => exact h
  | cons e es => exact h.1

/-- What holds throughout a run holds at its end. -/
theorem Throughout.final {s s' : σ} {es : List ε} (h : Throughout step P s es)
    (hr : runEvents step s es = .ok s') : P s' := by
  induction es generalizing s with
  | nil =>
      cases hr
      exact h
  | cons e es ih =>
      cases hs : step s e with
      | error f => rw [runEvents_cons_error hs] at hr; cases hr
      | ok t => exact ih (h.2 t hs) (by rwa [runEvents_cons_ok hs] at hr)

theorem Throughout.mono {Q : σ → Prop} (hPQ : ∀ s, P s → Q s) {s : σ} {es : List ε}
    (h : Throughout step P s es) : Throughout step Q s es := by
  induction es generalizing s with
  | nil => exact hPQ s h
  | cons e es ih => exact ⟨hPQ s h.1, fun t ht => ih (h.2 t ht)⟩

/-- **The invariant rule.**  What holds at the start and is preserved by every step that meets
`C` holds throughout each run whose steps all meet `C`. -/
theorem throughout_of_stepsMeet
    (hstep : ∀ s e s', P s → C s e → step s e = .ok s' → P s') :
    ∀ {es : List ε} {s : σ}, P s → StepsMeet step C s es → Throughout step P s es
  | [], _, h, _ => h
  | e :: es, s, h, hC => by
      refine ⟨h, fun t ht => ?_⟩
      rcases hC t ht with ⟨hc, hrest⟩
      exact throughout_of_stepsMeet hstep (hstep s e t h hc ht) hrest

/-- The invariant rule for a step that preserves `P` whatever the event. -/
theorem throughout_of_step (hstep : ∀ s e s', P s → step s e = .ok s' → P s') :
    ∀ {es : List ε} {s : σ}, P s → Throughout step P s es
  | [], _, h => h
  | e :: _, s, h => ⟨h, fun t ht => throughout_of_step hstep (hstep s e t h ht)⟩

/-- Two conditions that all steps meet, they meet together. -/
theorem StepsMeet.and {D : σ → ε → Prop} {es : List ε} {s : σ} (hC : StepsMeet step C s es)
    (hD : StepsMeet step D s es) : StepsMeet step (fun s e => C s e ∧ D s e) s es := by
  induction es generalizing s with
  | nil => trivial
  | cons e es ih =>
      intro t ht
      rcases hC t ht with ⟨hCe, hC⟩
      rcases hD t ht with ⟨hDe, hD⟩
      exact ⟨⟨hCe, hDe⟩, ih hC hD⟩

/-- Two conditions that all attempts meet, they meet together. -/
theorem AttemptsMeet.and {D : σ → ε → Prop} {es : List ε} {s : σ} (hC : AttemptsMeet step C s es)
    (hD : AttemptsMeet step D s es) : AttemptsMeet step (fun s e => C s e ∧ D s e) s es := by
  induction es generalizing s with
  | nil => trivial
  | cons e es ih => exact ⟨⟨hC.1, hD.1⟩, fun t ht => ih (hC.2 t ht) (hD.2 t ht)⟩

/-- What holds throughout a run is what every step leads to. -/
theorem Throughout.attemptsMeet {es : List ε} {s : σ} (h : Throughout step P s es) :
    AttemptsMeet step (fun s e => ∀ s', step s e = .ok s' → P s') s es := by
  induction es generalizing s with
  | nil => trivial
  | cons e es ih => exact ⟨fun t ht => (h.2 t ht).start, fun t ht => ih (h.2 t ht)⟩

/-- The invariant rule for a condition on the attempts. -/
theorem throughout_of_attemptsMeet
    (hstep : ∀ s e s', P s → C s e → step s e = .ok s' → P s') {es : List ε} {s : σ} (hs : P s)
    (h : AttemptsMeet step C s es) : Throughout step P s es := by
  induction es generalizing s with
  | nil => exact hs
  | cons e es ih => exact ⟨hs, fun t ht => ih (hstep s e t hs h.1 ht) (h.2 t ht)⟩

/-- **The exact rule.**  Let `I` be an invariant that implies `P`, is kept by every step that
meets `C`, and from which no other step leads back into `P`.  Then a run stays in `P` if and only
if all of its steps meet `C`. -/
theorem throughout_iff_stepsMeet {I : σ → Prop} (himp : ∀ s, I s → P s)
    (hkeep : ∀ s e s', I s → C s e → step s e = .ok s' → I s')
    (hneed : ∀ s e s', I s → step s e = .ok s' → P s' → C s e) {es : List ε} {s : σ} (hs : I s) :
    Throughout step P s es ↔ StepsMeet step C s es := by
  constructor
  · intro h
    induction es generalizing s with
    | nil => trivial
    | cons e es ih =>
        intro t ht
        have hc : C s e := hneed s e t hs ht (h.2 t ht).start
        exact ⟨hc, ih (hkeep s e t hs hc ht) (h.2 t ht)⟩
  · intro h
    exact (throughout_of_stepsMeet hkeep hs h).mono himp

/-- **The progress rule.**  If in the states of an invariant every step that meets `C` has an
outcome and keeps the invariant, a run that only attempts such steps reaches its end, and the
invariant holds all the way. -/
theorem run_of_attemptsMeet {I : σ → Prop}
    (hstep : ∀ s e, I s → C s e → ∃ s', step s e = .ok s' ∧ I s') {es : List ε} {s : σ} (hs : I s)
    (h : AttemptsMeet step C s es) :
    (∃ s', runEvents step s es = .ok s') ∧ Throughout step I s es := by
  induction es generalizing s with
  | nil => exact ⟨⟨s, rfl⟩, hs⟩
  | cons e es ih =>
      rcases hstep s e hs h.1 with ⟨t, ht, hI⟩
      rcases ih hI (h.2 t ht) with ⟨⟨s', hs'⟩, hthrough⟩
      refine ⟨⟨s', (runEvents_cons_ok ht es).trans hs'⟩, hs, fun u hu => ?_⟩
      rw [ht] at hu
      cases hu
      exact hthrough

/-- **The exact progress rule.**  If the steps that have an outcome and keep the invariant are those
that meet `C`, the runs that end with the invariant kept all the way are those that only attempt
such steps. -/
theorem run_iff_attemptsMeet {I : σ → Prop}
    (hstep : ∀ s e, I s → ((∃ s', step s e = .ok s' ∧ I s') ↔ C s e)) {es : List ε} {s : σ}
    (hs : I s) :
    (∃ s', runEvents step s es = .ok s') ∧ Throughout step I s es ↔ AttemptsMeet step C s es := by
  constructor
  · rintro ⟨⟨s', hrun⟩, hthrough⟩
    induction es generalizing s with
    | nil => trivial
    | cons e es ih =>
        rcases runEvents_cons_eq_ok hrun with ⟨t, ht, hrest⟩
        have hnext := hthrough.2 t ht
        refine ⟨(hstep s e hs).1 ⟨t, ht, hnext.start⟩, fun u hu => ?_⟩
        obtain rfl := Except.ok.inj (ht.symm.trans hu)
        exact ih hnext.start hnext hrest
  · exact run_of_attemptsMeet (fun s e hI hc => (hstep s e hI).2 hc) hs

/-- **The exact progress rule for a weaker property.**  Let `I` be an invariant that implies `P`.
If every step that meets `C` has an outcome and keeps `I`, and no other step has one that keeps `P`,
the runs that end with `P` kept all the way are those that only attempt steps that meet `C`. -/
theorem run_throughout_iff_attemptsMeet {I : σ → Prop} (himp : ∀ s, I s → P s)
    (hkeep : ∀ s e, I s → C s e → ∃ s', step s e = .ok s' ∧ I s')
    (hneed : ∀ s e s', I s → step s e = .ok s' → P s' → C s e) {es : List ε} {s : σ} (hs : I s) :
    (∃ s', runEvents step s es = .ok s') ∧ Throughout step P s es ↔ AttemptsMeet step C s es := by
  constructor
  · rintro ⟨⟨s', hrun⟩, hthrough⟩
    induction es generalizing s with
    | nil => trivial
    | cons e es ih =>
        rcases runEvents_cons_eq_ok hrun with ⟨t, ht, hrest⟩
        have hc : C s e := hneed s e t hs ht (hthrough.2 t ht).start
        rcases hkeep s e hs hc with ⟨u, hu, hI⟩
        refine ⟨hc, fun v hv => ?_⟩
        obtain rfl := Except.ok.inj (hu.symm.trans hv)
        obtain rfl := Except.ok.inj (hu.symm.trans ht)
        exact ih hI (hthrough.2 _ hu) hrest
  · intro h
    rcases run_of_attemptsMeet hkeep hs h with ⟨hrun, hthrough⟩
    exact ⟨hrun, hthrough.mono himp⟩

/-- Two conditions that agree in the states of an invariant agree along every run from there, if the
steps that meet them keep the invariant. -/
theorem attemptsMeet_congr {I : σ → Prop} {D : σ → ε → Prop}
    (hkeep : ∀ s e s', I s → D s e → step s e = .ok s' → I s')
    (hiff : ∀ s e, I s → (C s e ↔ D s e)) {es : List ε} {s : σ} (hs : I s) :
    AttemptsMeet step C s es ↔ AttemptsMeet step D s es := by
  induction es generalizing s with
  | nil => exact Iff.rfl
  | cons e es ih =>
      rw [AttemptsMeet, AttemptsMeet, hiff s e hs]
      refine and_congr_right fun hD => forall_congr' fun t => ?_
      exact imp_congr_right fun ht => ih (hkeep s e t hs hD ht)

/-- Where a condition says that the step has an outcome, the run goes on behind it. -/
theorem attemptsMeet_cons_iff {s : σ} {e : ε} (h : (∃ t, step s e = .ok t) ↔ C s e) (es : List ε) :
    AttemptsMeet step C s (e :: es) ↔ ∃ t, step s e = .ok t ∧ AttemptsMeet step C t es := by
  constructor
  · rintro ⟨hc, hnext⟩
    rcases h.2 hc with ⟨t, ht⟩
    exact ⟨t, ht, hnext t ht⟩
  · rintro ⟨t, ht, hnext⟩
    refine ⟨h.1 ⟨t, ht⟩, fun u hu => ?_⟩
    rw [ht] at hu
    cases hu
    exact hnext

/-- A condition on the attempted steps that keeps an invariant implies whatever it implies in the
states of the invariant. -/
theorem AttemptsMeet.imp {I : σ → Prop} {D : σ → ε → Prop}
    (hkeep : ∀ s e s', I s → C s e → step s e = .ok s' → I s') (himp : ∀ s e, I s → C s e → D s e)
    {es : List ε} {s : σ} (hs : I s) (h : AttemptsMeet step C s es) : AttemptsMeet step D s es := by
  induction es generalizing s with
  | nil => trivial
  | cons e es ih =>
      exact ⟨himp s e hs h.1, fun t ht => ih (hkeep s e t hs h.1 ht) (h.2 t ht)⟩

/-- What every attempted step meets, the one after a given part of the run meets. -/
theorem AttemptsMeet.next {es : List ε} {e : ε} {s s' : σ}
    (h : AttemptsMeet step C s (es ++ [e])) (hr : runEvents step s es = .ok s') : C s' e := by
  induction es generalizing s with
  | nil =>
      cases hr
      exact h.1
  | cons e' es ih =>
      rcases runEvents_cons_eq_ok hr with ⟨t, ht, hrest⟩
      exact ih (h.2 t ht) hrest

/-- **The history rule.**  An invariant that speaks of the events so far as well. -/
theorem run_history {I : List ε → σ → Prop}
    (hstep : ∀ past s e s', I past s → C s e → step s e = .ok s' → I (past ++ [e]) s')
    {past es : List ε} {s s' : σ} (hs : I past s) (h : AttemptsMeet step C s es)
    (hr : runEvents step s es = .ok s') : I (past ++ es) s' := by
  induction es generalizing past s with
  | nil =>
      cases hr
      rwa [List.append_nil]
  | cons e es ih =>
      rcases runEvents_cons_eq_ok hr with ⟨t, ht, hrest⟩
      have hnext := ih (hstep past s e t hs h.1 ht) (h.2 t ht) hrest
      rwa [List.append_assoc] at hnext

/-- **The simulation rule.**  Let `R` relate the states of two systems that take the same steps, and
let two properties agree in related states.  Then a run of one keeps its property if and only if the
run of the other does. -/
theorem throughout_iff_of_related {τ : Type*} {step' : τ → ε → Except φ τ} {Q : τ → Prop}
    {R : σ → τ → Prop} (hPQ : ∀ s t, R s t → (P s ↔ Q t))
    (hforth : ∀ s t e s', R s t → step s e = .ok s' → ∃ t', step' t e = .ok t' ∧ R s' t')
    (hback : ∀ s t e t', R s t → step' t e = .ok t' → ∃ s', step s e = .ok s' ∧ R s' t')
    {es : List ε} {s : σ} {t : τ} (hst : R s t) :
    Throughout step P s es ↔ Throughout step' Q t es := by
  induction es generalizing s t with
  | nil => exact hPQ s t hst
  | cons e es ih =>
      refine and_congr (hPQ s t hst) ⟨fun h t' ht' => ?_, fun h s' hs' => ?_⟩
      · rcases hback s t e t' hst ht' with ⟨s', hs', hR⟩
        exact (ih hR).1 (h s' hs')
      · rcases hforth s t e s' hst hs' with ⟨t', ht', hR⟩
        exact (ih hR).2 (h t' ht')

/-- **The agreement rule.**  Where single steps from related states agree, runs from related states
do. -/
theorem run_agree {τ : Type*} {step' : τ → ε → Except φ τ} {R : σ → τ → Prop}
    (hstep : ∀ s t e, R s t → Agree R (step s e) (step' t e)) {es : List ε} {s : σ} {t : τ}
    (hst : R s t) : Agree R (runEvents step s es) (runEvents step' t es) := by
  induction es generalizing s t with
  | nil => exact hst
  | cons e es ih =>
      have hone := hstep s t e hst
      rw [runEvents, runEvents]
      cases hs : step s e with
      | error f =>
          cases ht : step' t e with
          | error g => rwa [hs, ht] at hone
          | ok t' => rw [hs, ht] at hone; exact hone.elim
      | ok s' =>
          cases ht : step' t e with
          | error g => rw [hs, ht] at hone; exact hone.elim
          | ok t' =>
              rw [hs, ht] at hone
              exact ih hone

end

end Core
