import Mathlib.Logic.Basic

/-!
# Mutual exclusion by an owner

A lock with an owner variable, over any type of threads. The invariant says that
the owner is exactly the thread that is inside its critical section.
-/
namespace NetworkProgramming.Mutex

variable {τ : Type*} {owner : Option τ} {inside inside' : τ → Prop} {t u : τ}

def Exclusive (owner : Option τ) (inside : τ → Prop) : Prop :=
  ∀ t, inside t ↔ owner = some t

/-- Nobody is inside and nobody owns the lock. -/
theorem Exclusive.idle (h : ∀ t, ¬ inside t) : Exclusive none inside := by
  intro t
  simp [h t]

theorem Exclusive.unique (h : Exclusive owner inside) (ht : inside t) (hu : inside u) :
    t = u := by
  have ho := (h t).mp ht
  rw [(h u).mp hu] at ho
  exact (Option.some.inj ho).symm

/-- A thread takes the free lock and goes inside. -/
theorem Exclusive.acquire (h : Exclusive none inside) (ht : inside' t)
    (hothers : ∀ u, u ≠ t → (inside' u ↔ inside u)) : Exclusive (some t) inside' := by
  intro u
  by_cases hut : u = t
  · subst hut
    exact iff_of_true ht rfl
  · rw [hothers u hut, h u]
    simpa using fun htu => hut htu.symm

/-- The owner goes outside and frees the lock. -/
theorem Exclusive.release (h : Exclusive owner inside) (ht : inside t) (ht' : ¬ inside' t)
    (hothers : ∀ u, u ≠ t → (inside' u ↔ inside u)) : Exclusive none inside' := by
  intro u
  by_cases hut : u = t
  · subst hut
    exact iff_of_false ht' (by simp)
  · rw [hothers u hut]
    exact iff_of_false (fun hu => hut (h.unique hu ht)) (by simp)

/-- Nobody crosses the border of a critical section. -/
theorem Exclusive.keep (h : Exclusive owner inside) (hsame : ∀ u, inside' u ↔ inside u) :
    Exclusive owner inside' := by
  intro u
  rw [hsame u, h u]

end NetworkProgramming.Mutex
