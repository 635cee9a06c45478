import NetworkProgramming.Library.Transition

/-!
# Runs that come to an end

A number that every step lowers bounds the runs and lets each of them be
completed. The condition picks the steps that are considered, so that what the
environment adds can be left out.
-/
namespace NetworkProgramming.Transition

variable {σ α : Type*} {step : σ → α → Option σ} {I : σ → Prop} {G : σ → α → Prop}
  {left : σ → Nat} {s t : σ} {as : List α}

/-- No step that is considered can be taken. -/
def Stuck (step : σ → α → Option σ) (G : σ → α → Prop) (s : σ) : Prop :=
  ∀ a, G s a → step s a = none

/-- With each step one less is left. -/
theorem length_of_counts
    (hstep : ∀ s a t, I s → G s a → step s a = some t → I t ∧ left t + 1 = left s)
    (hs : I s) (h : Along step G s as) (ht : run step s as = some t) :
    as.length + left t = left s := by
  induction as generalizing s with
  | nil =>
    cases ht
    exact Nat.zero_add _
  | cons a as ih =>
    obtain ⟨u, hu, hut⟩ := run_cons_some.mp ht
    obtain ⟨hI, hleft⟩ := hstep s a u hs h.1 hu
    rw [List.length_cons, ← hleft, ← ih hI (h.2 u hu) hut]
    omega

/-- With each step less is left, so no run is longer than what is left. -/
theorem length_le_of_lowers
    (hstep : ∀ s a t, I s → G s a → step s a = some t → I t ∧ left t < left s)
    (hs : I s) (h : Along step G s as) (ht : run step s as = some t) :
    as.length + left t ≤ left s := by
  induction as generalizing s with
  | nil =>
    cases ht
    exact Nat.le_of_eq (Nat.zero_add _)
  | cons a as ih =>
    obtain ⟨u, hu, hut⟩ := run_cons_some.mp ht
    obtain ⟨hI, hleft⟩ := hstep s a u hs h.1 hu
    have hrest := ih hI (h.2 u hu) hut
    rw [List.length_cons]
    omega

/-- With each step less is left, so some run goes on until it is stuck. -/
theorem exists_stuck
    (hstep : ∀ s a t, I s → G s a → step s a = some t → I t ∧ left t < left s) (hs : I s) :
    ∃ as t, Along step G s as ∧ run step s as = some t ∧ Stuck step G t := by
  induction hn : left s using Nat.strongRecOn generalizing s with
  | ind n ih =>
    by_cases hmove : ∃ a u, G s a ∧ step s a = some u
    · obtain ⟨a, u, hG, hu⟩ := hmove
      obtain ⟨hI, hlt⟩ := hstep s a u hs hG hu
      obtain ⟨as, t, halong, hrun, hstuck⟩ := ih (left u) (hn ▸ hlt) hI rfl
      refine ⟨a :: as, t, ⟨hG, fun v hv => ?_⟩, run_cons_some.mpr ⟨u, hu, hrun⟩, hstuck⟩
      obtain rfl := Option.some.inj (hu.symm.trans hv)
      exact halong
    · refine ⟨[], s, trivial, rfl, fun a hG => ?_⟩
      cases hu : step s a with
      | none => rfl
      | some u => exact absurd ⟨a, u, hG, hu⟩ hmove

end NetworkProgramming.Transition
