import Mathlib.Algebra.BigOperators.Group.Finset.Basic
import Mathlib.Algebra.Order.BigOperators.Group.Finset

/-!
# What the members of a growing family hold

Members are numbered as they join; the total is taken over those that have.
-/
namespace NetworkProgramming.Ledger

variable {n k : Nat}

def total (n : Nat) (held : Nat → Nat) : Nat := ∑ j ∈ Finset.range n, held j

theorem le_total (held : Nat → Nat) (hk : k < n) : held k ≤ total n held :=
  Finset.single_le_sum (fun _ _ => Nat.zero_le _) (Finset.mem_range.mpr hk)

/-- A member joins; the others keep what they hold. -/
theorem total_join (held held' : Nat → Nat) (h : ∀ j < n, held' j = held j) :
    total (n + 1) held' = total n held + held' n := by
  rw [total, Finset.sum_range_succ, total, Finset.sum_congr rfl]
  intro j hj
  exact h j (Finset.mem_range.mp hj)

/-- One member's share changes. -/
theorem sum_change {ι M : Type*} [DecidableEq ι] [AddCommMonoid M] {members : Finset ι} {k : ι}
    (hk : k ∈ members) (held held' : ι → M) (h : ∀ j, j ≠ k → held' j = held j) :
    ∑ j ∈ members, held' j + held k = ∑ j ∈ members, held j + held' k := by
  have hrest : ∑ j ∈ members.erase k, held' j = ∑ j ∈ members.erase k, held j :=
    Finset.sum_congr rfl fun j hj => h j (Finset.ne_of_mem_erase hj)
  rw [← Finset.sum_erase_add members held' hk, ← Finset.sum_erase_add members held hk, hrest,
    add_right_comm]

theorem total_change (held held' : Nat → Nat) (hk : k < n)
    (h : ∀ j, j ≠ k → held' j = held j) :
    total n held' + held k = total n held + held' k :=
  sum_change (Finset.mem_range.mpr hk) held held' h

end NetworkProgramming.Ledger
