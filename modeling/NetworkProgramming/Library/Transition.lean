import Mathlib.Data.List.Basic

/-!
# Runs of labelled partial steps

A system is a partial function from a state and a label to the next state.
The labels carry every choice that the program does not make itself: the
scheduler, the network, the user. A run is a list of labels, so it can be
computed, cut and joined. Nothing here depends on a particular system.
-/
namespace NetworkProgramming.Transition

variable {σ τ α β γ : Type*}

/-- Take the labels in order; `none` means that one of them was not possible. -/
def run (step : σ → α → Option σ) : σ → List α → Option σ
  | s, [] => some s
  | s, a :: as => (step s a).bind (fun t => run step t as)

@[simp] theorem run_nil (step : σ → α → Option σ) (s : σ) : run step s [] = some s := rfl

theorem run_cons_some {step : σ → α → Option σ} {s t : σ} {a : α} {as : List α} :
    run step s (a :: as) = some t ↔ ∃ u, step s a = some u ∧ run step u as = some t := by
  simp only [run, Option.bind_eq_some_iff]

theorem run_append_some {step : σ → α → Option σ} {s t : σ} {as bs : List α} :
    run step s (as ++ bs) = some t ↔
      ∃ u, run step s as = some u ∧ run step u bs = some t := by
  induction as generalizing s with
  | nil => simp
  | cons a as ih =>
    simp only [List.cons_append, run_cons_some, ih]
    constructor
    · rintro ⟨v, hv, u, hu, ht⟩
      exact ⟨u, ⟨v, hv, hu⟩, ht⟩
    · rintro ⟨u, ⟨v, hv, hu⟩, ht⟩
      exact ⟨v, hv, u, hu, ht⟩

/-- The property holds in the first state and in every state the run reaches. -/
def Throughout (step : σ → α → Option σ) (P : σ → Prop) : σ → List α → Prop
  | s, [] => P s
  | s, a :: as => P s ∧ ∀ t ∈ step s a, Throughout step P t as

/-- Every step of the run is taken from a state, and with a label, that the
condition admits. -/
def Along (step : σ → α → Option σ) (G : σ → α → Prop) : σ → List α → Prop
  | _, [] => True
  | s, a :: as => G s a ∧ ∀ t ∈ step s a, Along step G t as

instance Throughout.decidable (step : σ → α → Option σ) (P : σ → Prop) [DecidablePred P] :
    ∀ s as, Decidable (Throughout step P s as)
  | s, [] => inferInstanceAs (Decidable (P s))
  | s, a :: as =>
    have : ∀ t, Decidable (Throughout step P t as) := fun t => Throughout.decidable step P t as
    inferInstanceAs (Decidable (P s ∧ ∀ t ∈ step s a, Throughout step P t as))

instance Along.decidable (step : σ → α → Option σ) (G : σ → α → Prop)
    [∀ s a, Decidable (G s a)] : ∀ s as, Decidable (Along step G s as)
  | _, [] => inferInstanceAs (Decidable True)
  | s, a :: as =>
    have : ∀ t, Decidable (Along step G t as) := fun t => Along.decidable step G t as
    inferInstanceAs (Decidable (G s a ∧ ∀ t ∈ step s a, Along step G t as))

section Invariants
variable {step : σ → α → Option σ} {I P : σ → Prop} {G : σ → α → Prop}

theorem Throughout.first {s : σ} {as : List α} (h : Throughout step P s as) : P s := by
  cases as with
  | nil => exact h
  | cons a as => exact h.1

theorem Throughout.last {s t : σ} {as : List α} (h : Throughout step P s as)
    (ht : run step s as = some t) : P t := by
  induction as generalizing s with
  | nil => exact Option.some.inj ht ▸ h
  | cons a as ih =>
    obtain ⟨u, hu, hut⟩ := run_cons_some.mp ht
    exact ih (h.2 u hu) hut

theorem Throughout.mono {Q : σ → Prop} (hPQ : ∀ s, P s → Q s) {s : σ} {as : List α}
    (h : Throughout step P s as) : Throughout step Q s as := by
  induction as generalizing s with
  | nil => exact hPQ s h
  | cons a as ih => exact ⟨hPQ s h.1, fun t ht => ih (h.2 t ht)⟩

theorem Throughout.and {Q : σ → Prop} {s : σ} {as : List α} (hP : Throughout step P s as)
    (hQ : Throughout step Q s as) : Throughout step (fun s => P s ∧ Q s) s as := by
  induction as generalizing s with
  | nil => exact ⟨hP, hQ⟩
  | cons a as ih => exact ⟨⟨hP.1, hQ.1⟩, fun t ht => ih (hP.2 t ht) (hQ.2 t ht)⟩

/-- What one admitted step preserves holds in every state of an admitted run. -/
theorem throughout_of_step
    (hstep : ∀ s a t, I s → G s a → step s a = some t → I t)
    {s : σ} {as : List α} (hs : I s) (h : Along step G s as) : Throughout step I s as := by
  induction as generalizing s with
  | nil => exact hs
  | cons a as ih =>
    refine ⟨hs, ?_⟩
    intro t ht
    exact ih (hstep s a t hs h.1 ht) (h.2 t ht)

/-- The property holds in every state exactly as long as the condition is met, if among
the steps considered one that does not meet it leads out of the property at once. -/
theorem throughout_iff_along_within {D : σ → α → Prop}
    (hstep : ∀ s a t, I s → P s → D s a → step s a = some t → I t ∧ (P t ↔ G s a))
    (hnone : ∀ s a, D s a → step s a = none → G s a) {s : σ} {as : List α} (hs : I s)
    (hP : P s) (hD : Along step D s as) : Throughout step P s as ↔ Along step G s as := by
  induction as generalizing s with
  | nil => exact iff_of_true hP trivial
  | cons a as ih =>
    cases hsa : step s a with
    | none => simp only [Throughout, Along, hsa, hP, hnone s a hD.1 hsa, Option.mem_def,
        reduceCtorEq, false_implies, implies_true, and_true]
    | some t =>
      obtain ⟨hI, hiff⟩ := hstep s a t hs hP hD.1 hsa
      have hrest := hD.2 t hsa
      simp only [Throughout, Along, hsa, hP, Option.mem_def, Option.some.injEq, forall_eq',
        true_and]
      constructor
      · intro h
        exact ⟨hiff.mp h.first, (ih hI h.first hrest).mp h⟩
      · rintro ⟨hg, h⟩
        exact (ih hI (hiff.mpr hg) hrest).mpr h

/-- What one admitted step preserves holds where an admitted run ends. -/
theorem run_of_step
    (hstep : ∀ s a t, I s → G s a → step s a = some t → I t)
    {s t : σ} {as : List α} (hs : I s) (h : Along step G s as)
    (ht : run step s as = some t) : I t :=
  (throughout_of_step hstep hs h).last ht

theorem along_true (s : σ) (as : List α) : Along step (fun _ _ => True) s as := by
  induction as generalizing s with
  | nil => trivial
  | cons a as ih => exact ⟨trivial, fun t _ => ih t⟩

/-- The rule for all steps. -/
theorem throughout_iff_along
    (hstep : ∀ s a t, I s → P s → step s a = some t → I t ∧ (P t ↔ G s a))
    (hnone : ∀ s a, step s a = none → G s a) {s : σ} {as : List α} (hs : I s) (hP : P s) :
    Throughout step P s as ↔ Along step G s as :=
  throughout_iff_along_within (D := fun _ _ => True) (fun s a t hI hP _ => hstep s a t hI hP)
    (fun s a _ => hnone s a) hs hP (along_true s as)

/-- A run that goes through takes a step with each of its labels. -/
theorem along_of_run {s t : σ} {as : List α} (hP : Throughout step P s as)
    (ht : run step s as = some t) : Along step (fun s a => P s ∧ ∃ t, step s a = some t) s as := by
  induction as generalizing s with
  | nil => trivial
  | cons a as ih =>
    obtain ⟨u, hu, hut⟩ := run_cons_some.mp ht
    refine ⟨⟨hP.1, u, hu⟩, fun v hv => ?_⟩
    obtain rfl := Option.some.inj (hu.symm.trans hv)
    exact ih (hP.2 u hu) hut

/-- The unconditional rule: an invariant of every step holds all along a run. -/
theorem throughout_invariant (hstep : ∀ s a t, I s → step s a = some t → I t)
    {s : σ} (hs : I s) (as : List α) : Throughout step I s as :=
  throughout_of_step (G := fun _ _ => True) (fun s a t hi _ => hstep s a t hi) hs
    (along_true s as)

/-- An invariant of every step holds where a run ends. -/
theorem run_invariant (hstep : ∀ s a t, I s → step s a = some t → I t)
    {s t : σ} {as : List α} (hs : I s) (ht : run step s as = some t) : I t :=
  (throughout_invariant hstep hs as).last ht

/-- A property that a step keeps exactly if it meets the condition, and that never comes back,
holds where a run ends exactly if all steps of the run have met the condition. -/
theorem run_kept_iff
    (hstep : ∀ s a t, I s → step s a = some t → I t ∧ (P t ↔ P s ∧ G s a))
    {s t : σ} {as : List α} (hs : I s) (ht : run step s as = some t) :
    P t ↔ P s ∧ Along step G s as := by
  induction as generalizing s with
  | nil =>
    cases ht
    exact (and_iff_left trivial).symm
  | cons a as ih =>
    obtain ⟨u, hu, hut⟩ := run_cons_some.mp ht
    obtain ⟨hI, hiff⟩ := hstep s a u hs hu
    rw [ih hI hut, hiff, and_assoc]
    refine and_congr_right fun _ => and_congr_right fun _ => ?_
    simp only [hu, Option.mem_def, Option.some.injEq, forall_eq']

/-- What every step keeps between the labels taken so far and the state holds where a run
ends. -/
theorem run_history {R : List α → σ → Prop}
    (hstep : ∀ past s a t, R past s → step s a = some t → R (past ++ [a]) t)
    {past as : List α} {s t : σ} (hs : R past s) (ht : run step s as = some t) :
    R (past ++ as) t := by
  induction as generalizing past s with
  | nil =>
    cases ht
    rwa [List.append_nil]
  | cons a as ih =>
    obtain ⟨u, hu, hut⟩ := run_cons_some.mp ht
    have hrest := ih (hstep past s a u hs hu) hut
    rwa [List.append_assoc] at hrest

end Invariants

/-- The observations of the steps of a run, in order. -/
def trace (step : σ → α → Option σ) (emit : σ → α → List β) : σ → List α → List β
  | _, [] => []
  | s, a :: as => emit s a ++ (step s a).elim [] (fun t => trace step emit t as)

@[simp] theorem trace_nil (step : σ → α → Option σ) (emit : σ → α → List β) (s : σ) :
    trace step emit s [] = [] := rfl

theorem trace_cons {step : σ → α → Option σ} {s t : σ} {a : α} (emit : σ → α → List β)
    (as : List α) (h : step s a = some t) :
    trace step emit s (a :: as) = emit s a ++ trace step emit t as := by
  simp only [trace, h, Option.elim]

/-- What is owed at the start and what the run takes on is what it gives and what
is still owed at the end, in order, if every step keeps these books. -/
theorem trace_balance {step : σ → α → Option σ} {I : σ → Prop} (gives takes : σ → α → List β)
    (owed : σ → List β)
    (hstep : ∀ s a t, I s → step s a = some t → gives s a ++ owed t = owed s ++ takes s a)
    {s t : σ} {as : List α} (hI : Throughout step I s as) (ht : run step s as = some t) :
    trace step gives s as ++ owed t = owed s ++ trace step takes s as := by
  induction as generalizing s with
  | nil =>
    cases ht
    simp
  | cons a as ih =>
    obtain ⟨u, hu, hut⟩ := run_cons_some.mp ht
    rw [trace_cons gives as hu, trace_cons takes as hu, List.append_assoc, ih (hI.2 u hu) hut,
      ← List.append_assoc, hstep s a u hI.first hu, List.append_assoc]

/-- What every step adds to something is, over a run, its trace. -/
theorem trace_collects {step : σ → α → Option σ} (takes : σ → α → List β) (held : σ → List β)
    (hstep : ∀ s a t, step s a = some t → held t = held s ++ takes s a)
    {s t : σ} {as : List α} (ht : run step s as = some t) :
    held t = held s ++ trace step takes s as := by
  induction as generalizing s with
  | nil =>
    cases ht
    simp
  | cons a as ih =>
    obtain ⟨u, hu, hut⟩ := run_cons_some.mp ht
    rw [trace_cons takes as hu, ih hut, hstep s a u hu, List.append_assoc]

/-- What is made of a trace piece by piece is made of it as a whole. -/
theorem trace_hom (step : σ → α → Option σ) (emit : σ → α → List β) (f : List β → List γ)
    (hnil : f [] = []) (happend : ∀ l m, f (l ++ m) = f l ++ f m) (s : σ) (as : List α) :
    f (trace step emit s as) = trace step (fun s a => f (emit s a)) s as := by
  induction as generalizing s with
  | nil => exact hnil
  | cons a as ih =>
    cases hs : step s a with
    | none => simp [trace, hs]
    | some t => rw [trace_cons emit as hs, trace_cons _ as hs, happend, ih]

/-- A forward simulation: what the steps of one system show is a run of the other. -/
theorem run_simulation {step₁ : σ → α → Option σ} (step₂ : τ → β → Option τ)
    (emit : σ → α → List β) {G : σ → α → Prop} (R : σ → τ → Prop)
    (hstep : ∀ s a t u, R s u → G s a → step₁ s a = some t →
      ∃ v, run step₂ u (emit s a) = some v ∧ R t v)
    {s t : σ} {u : τ} {as : List α} (hR : R s u) (hg : Along step₁ G s as)
    (ht : run step₁ s as = some t) :
    ∃ v, run step₂ u (trace step₁ emit s as) = some v ∧ R t v := by
  induction as generalizing s u with
  | nil =>
    cases ht
    exact ⟨u, rfl, hR⟩
  | cons a as ih =>
    obtain ⟨s', hs', ht⟩ := run_cons_some.mp ht
    obtain ⟨u', hu', hR'⟩ := hstep s a s' u hR hg.1 hs'
    obtain ⟨v, hv, hRv⟩ := ih hR' (hg.2 s' hs') ht
    refine ⟨v, ?_, hRv⟩
    rw [trace_cons emit as hs']
    exact run_append_some.mpr ⟨u', hu', hv⟩

end NetworkProgramming.Transition
