import Mathlib.Algebra.BigOperators.Fin
import Mathlib.Algebra.Order.BigOperators.Ring.Finset
import Mathlib.Data.Fintype.BigOperators
import Mathlib.Logic.Function.Basic
import NetworkProgramming.Library.Ledger
import NetworkProgramming.Library.Mutex
import NetworkProgramming.Library.Progress
import NetworkProgramming.Library.Transition

/-!
# The counter under a mutex

`thread_inc` holds the mutex over its whole loop, `thread_des` takes it in every
round. The load and the store of `num` are steps of their own.
-/
namespace NetworkProgramming.MutexCounter

open Ledger Mutex Transition

inductive Role where
  | inc
  | des
  deriving DecidableEq, Repr

/-- `num += 1` or `num -= 1`. -/
def Role.sign : Role → Int
  | .inc => 1
  | .des => -1

/-- The next call or access of a thread in this round of its loop; `reg` is what it has
loaded. -/
inductive Pc where
  | lock (i : Nat)
  | load (i : Nat)
  | store (i : Nat) (reg : Int)
  | unlock (i : Nat)
  | returned
  deriving DecidableEq, Repr

/-- The test of the `for` loop. -/
def Role.head (n : Nat) : Role → Nat → Pc
  | .inc, i => if i < n then .load i else .unlock i
  | .des, i => if i < n then .lock i else .returned

def Role.start (n : Nat) : Role → Pc
  | .inc => .lock 0
  | .des => Role.des.head n 0

def Role.locked (n : Nat) : Role → Nat → Pc
  | .inc, i => Role.inc.head n i
  | .des, i => .load i

def Role.stored (n : Nat) : Role → Nat → Pc
  | .inc, i => Role.inc.head n (i + 1)
  | .des, i => .unlock i

def Role.unlocked (n : Nat) : Role → Nat → Pc
  | .inc, _ => .returned
  | .des, i => Role.des.head n (i + 1)

/-- Between `pthread_mutex_lock` and `pthread_mutex_unlock`. -/
def Pc.Inside : Pc → Prop
  | .load _ | .store _ _ | .unlock _ => True
  | .lock _ | .returned => False

structure State (τ : Type) where
  pc : τ → Pc
  /-- Who holds `mutex`. -/
  owner : Option τ
  num : Int

/-- The values of a `long long`. -/
def LongLong (x : Int) : Prop := -2 ^ 63 ≤ x ∧ x < 2 ^ 63

instance : DecidablePred LongLong := fun _ => inferInstanceAs (Decidable (_ ∧ _))

variable {τ : Type} [DecidableEq τ]

def start (n : Nat) (role : τ → Role) : State τ := ⟨fun t => (role t).start n, none, 0⟩

def State.set (s : State τ) (t : τ) (pc : Pc) : State τ :=
  { s with pc := Function.update s.pc t pc }

/-- A step of this thread; the loops have `n` rounds. There is none where `num` would
overflow. -/
def step (n : Nat) (role : τ → Role) (s : State τ) (t : τ) : Option (State τ) :=
  match s.pc t with
  | .lock i =>
    if s.owner = none then some { s.set t ((role t).locked n i) with owner := some t } else none
  | .load i => some (s.set t (.store i s.num))
  | .store i reg =>
    let num := reg + (role t).sign
    if LongLong num then some { s.set t ((role t).stored n i) with num := num } else none
  | .unlock i => some { s.set t ((role t).unlocked n i) with owner := none }
  | .returned => none

/-- The rounds of the loops in the source. -/
def rounds : Nat := 100000

/-- `p` threads that run `thread_inc` and `q` that run `thread_des`. -/
abbrev Thread (p q : Nat) : Type := Fin p ⊕ Fin q

def Thread.role {p q : Nat} : Thread p q → Role := Sum.elim (fun _ => .inc) fun _ => .des

/-- No two threads are inside, and no update of those that have returned is lost. -/
structure NoneLost {p q : Nat} (s : State (Thread p q)) : Prop where
  alone : ∀ t u, (s.pc t).Inside → (s.pc u).Inside → t = u
  counted : (∀ t, s.pc t = .returned) → s.num = 100000 * ((p : Int) - q)

/-- How often a thread at this place has changed `num`. -/
def Role.done (n : Nat) : Role → Pc → Nat
  | _, .lock i | _, .load i | _, .store i _ | .inc, .unlock i => i
  | .des, .unlock i => i + 1
  | _, .returned => n

/-- The places a thread can be at; what it has loaded is still `num`. -/
def Role.Fits (n : Nat) (num : Int) : Role → Pc → Prop
  | .inc, .lock i => i = 0
  | .inc, .unlock i => i = n
  | _, .load i | .des, .lock i | .des, .unlock i => i < n
  | _, .store i reg => i < n ∧ reg = num
  | _, .returned => True

section Places
variable {n i : Nat} {num num' : Int} {r : Role} {p : Pc}

theorem Role.fits_head (h : i ≤ n) : r.Fits n num (r.head n i) := by
  cases r
  all_goals
    rw [Role.head]
    split
    next hi => exact hi
    next hi => simp [Role.Fits, Nat.le_antisymm h (Nat.not_lt.mp hi)]

theorem Role.done_head (h : i ≤ n) : r.done n (r.head n i) = i := by
  cases r
  all_goals
    rw [Role.head]
    split
    next hi => rfl
    next hi => simp [Role.done, Nat.le_antisymm h (Nat.not_lt.mp hi)]

theorem Role.fits_start : r.Fits n num (r.start n) := by
  cases r with
  | inc => rfl
  | des => exact Role.fits_head (Nat.zero_le n)

theorem Role.done_start : r.done n (r.start n) = 0 := by
  cases r with
  | inc => rfl
  | des => exact Role.done_head (Nat.zero_le n)

theorem Role.fits_locked (h : r.Fits n num (.lock i)) :
    r.Fits n num (r.locked n i) ∧ r.done n (r.locked n i) = r.done n (.lock i) := by
  cases r with
  | inc =>
    have hi : i ≤ n := h.le.trans (Nat.zero_le n)
    exact ⟨Role.fits_head hi, Role.done_head hi⟩
  | des => exact ⟨h, rfl⟩

theorem Role.lt_of_fits_load (h : r.Fits n num (.load i)) : i < n := by
  cases r <;> exact h

theorem Role.fits_store_iff {reg : Int} : r.Fits n num (.store i reg) ↔ i < n ∧ reg = num := by
  cases r <;> rfl

theorem Role.fits_stored (h : i < n) :
    r.Fits n num (r.stored n i) ∧ r.done n (r.stored n i) = i + 1 := by
  cases r with
  | inc => exact ⟨Role.fits_head h, Role.done_head h⟩
  | des => exact ⟨h, rfl⟩

theorem Role.fits_unlocked (h : r.Fits n num (.unlock i)) :
    r.Fits n num (r.unlocked n i) ∧ r.done n (r.unlocked n i) = r.done n (.unlock i) := by
  cases r with
  | inc => exact ⟨trivial, h.symm⟩
  | des => exact ⟨Role.fits_head h, Role.done_head h⟩

/-- A thread outside has loaded nothing. -/
theorem Role.fits_outside (h : r.Fits n num p) (houtside : ¬ p.Inside) : r.Fits n num' p := by
  cases p with
  | load | store | unlock => exact absurd trivial houtside
  | lock | returned => cases r <;> exact h

theorem Role.done_le (h : r.Fits n num p) : r.done n p ≤ n := by
  cases r <;> cases p <;> simp only [Role.Fits, Role.done] at h ⊢ <;> omega

theorem Role.inside_head : (Role.inc.head n i).Inside := by
  rw [Role.head]
  split <;> trivial

theorem Role.not_inside_head : ¬ (Role.des.head n i).Inside := by
  rw [Role.head]
  split <;> exact id

theorem Role.not_inside_start : ¬ (r.start n).Inside := by
  cases r with
  | inc => exact id
  | des => exact Role.not_inside_head

theorem Role.inside_locked : (r.locked n i).Inside := by
  cases r with
  | inc => exact Role.inside_head
  | des => trivial

theorem Role.inside_stored : (r.stored n i).Inside := by
  cases r with
  | inc => exact Role.inside_head
  | des => trivial

theorem Role.not_inside_unlocked : ¬ (r.unlocked n i).Inside := by
  cases r with
  | inc => exact id
  | des => exact Role.not_inside_head

end Places

variable {n : Nat} {role : τ → Role} {s s' : State τ} {t : τ}

/-- What a step can do. -/
inductive Move (n : Nat) (role : τ → Role) (s : State τ) (t : τ) : State τ → Prop where
  | lock (i) (pc : s.pc t = .lock i) (owner : s.owner = none) :
      Move n role s t { s.set t ((role t).locked n i) with owner := some t }
  | load (i) (pc : s.pc t = .load i) : Move n role s t (s.set t (.store i s.num))
  | store (i reg) (pc : s.pc t = .store i reg) :
      Move n role s t { s.set t ((role t).stored n i) with num := reg + (role t).sign }
  | unlock (i) (pc : s.pc t = .unlock i) :
      Move n role s t { s.set t ((role t).unlocked n i) with owner := none }

theorem move_of_step (h : step n role s t = some s') : Move n role s t s' := by
  rw [step] at h
  split at h
  next i pc =>
    obtain ⟨owner, h⟩ := Option.ite_none_right_eq_some.mp h
    exact Option.some.inj h ▸ .lock i pc owner
  next i pc => exact Option.some.inj h ▸ .load i pc
  next i reg pc =>
    obtain ⟨-, h⟩ := Option.ite_none_right_eq_some.mp h
    exact Option.some.inj h ▸ .store i reg pc
  next i pc => exact Option.some.inj h ▸ .unlock i pc
  · cases h

variable [Fintype τ]

/-- What the threads at these places have made of `num`. -/
def total (n : Nat) (role : τ → Role) (pc : τ → Pc) : Int :=
  ∑ t, (role t).sign * ((role t).done n (pc t) : Int)

theorem total_update (n : Nat) (role : τ → Role) (pc : τ → Pc) (t : τ) (p : Pc) :
    total n role (Function.update pc t p) + (role t).sign * ((role t).done n (pc t) : Int) =
      total n role pc + (role t).sign * ((role t).done n p : Int) := by
  have h := sum_change (Finset.mem_univ t)
    (fun u => (role u).sign * ((role u).done n (pc u) : Int))
    (fun u => (role u).sign * ((role u).done n (Function.update pc t p u) : Int))
    fun u hu => by rw [Function.update_of_ne hu]
  rwa [Function.update_self] at h

/-- A step that stores nothing. -/
theorem total_same {pc : τ → Pc} {t : τ} {p : Pc}
    (h : (role t).done n p = (role t).done n (pc t)) :
    total n role (Function.update pc t p) = total n role pc := by
  have hupdate := total_update n role pc t p
  rw [h] at hupdate
  exact add_right_cancel hupdate

theorem total_store {pc : τ → Pc} {t : τ} {p : Pc}
    (h : (role t).done n p = (role t).done n (pc t) + 1) :
    total n role (Function.update pc t p) = total n role pc + (role t).sign := by
  have hupdate := total_update n role pc t p
  rw [h, Nat.cast_add, Nat.cast_one, mul_add, mul_one, add_comm (_ * _), ← add_assoc] at hupdate
  exact add_right_cancel hupdate

/-- Each thread is in its loop, they exclude each other, and `num` is what all have done. -/
structure Invariant (n : Nat) (role : τ → Role) (s : State τ) : Prop where
  exclusive : Exclusive s.owner fun t => (s.pc t).Inside
  fits : ∀ t, (role t).Fits n s.num (s.pc t)
  num : s.num = total n role s.pc

omit [DecidableEq τ] in
theorem invariant_start (n : Nat) (role : τ → Role) : Invariant n role (start n role) where
  exclusive := Exclusive.idle fun _ => Role.not_inside_start
  fits _ := Role.fits_start
  num := by
    refine (Finset.sum_eq_zero fun t _ => ?_).symm
    simp only [start, Role.done_start, Nat.cast_zero, mul_zero]

/-- One thread goes on; a thread inside does not see `num` change. -/
theorem Invariant.set (h : Invariant n role s) {p : Pc} {owner : Option τ} {num : Int}
    (hexclusive : Exclusive owner fun u => (Function.update s.pc t p u).Inside)
    (hfits : (role t).Fits n num p) (hothers : ∀ u, u ≠ t → (s.pc u).Inside → num = s.num)
    (hnum : num = total n role (Function.update s.pc t p)) :
    Invariant n role ⟨Function.update s.pc t p, owner, num⟩ where
  exclusive := hexclusive
  fits := by
    refine (Function.forall_update_iff s.pc fun u p => (role u).Fits n num p).mpr
      ⟨hfits, fun u hu => ?_⟩
    by_cases hinside : (s.pc u).Inside
    · rw [hothers u hu hinside]
      exact h.fits u
    · exact Role.fits_outside (h.fits u) hinside
  num := hnum

/-- The thread inside stores one more or one less than all have done. -/
theorem Invariant.store (h : Invariant n role s) {i : Nat} {reg : Int}
    (pc : s.pc t = .store i reg) :
    Invariant n role { s.set t ((role t).stored n i) with num := reg + (role t).sign } := by
  have hfits := h.fits t
  rw [pc] at hfits
  obtain ⟨hi, rfl⟩ := Role.fits_store_iff.mp hfits
  obtain ⟨hstored, hdone⟩ := Role.fits_stored hi
  have ht : (s.pc t).Inside := by rw [pc]; trivial
  refine h.set (h.exclusive.keep ?_) hstored
    (fun u hu hinside => absurd (h.exclusive.unique hinside ht) hu) ?_
  · refine (Function.forall_update_iff s.pc fun u p => p.Inside ↔ (s.pc u).Inside).mpr ?_
    exact ⟨iff_of_true Role.inside_stored ht, fun _ _ => Iff.rfl⟩
  · rw [total_store (by rw [hdone, pc]; cases role t <;> rfl), h.num]

theorem Invariant.step (h : Invariant n role s) (hstep : step n role s t = some s') :
    Invariant n role s' := by
  have hexclusive := h.exclusive
  have hfits := h.fits t
  have hsame : ∀ p u, u ≠ t → ((Function.update s.pc t p u).Inside ↔ (s.pc u).Inside) :=
    fun p u hu => by rw [Function.update_of_ne hu]
  cases move_of_step hstep with
  | lock i pc owner =>
    rw [pc] at hfits
    rw [owner] at hexclusive
    obtain ⟨hlocked, hdone⟩ := Role.fits_locked hfits
    refine h.set (hexclusive.acquire ?_ (hsame _)) hlocked (fun _ _ _ => rfl) ?_
    · rw [Function.update_self]
      exact Role.inside_locked
    · exact h.num.trans (total_same (pc ▸ hdone)).symm
  | load i pc =>
    rw [pc] at hfits
    refine h.set (hexclusive.keep ?_) (Role.fits_store_iff.mpr ⟨Role.lt_of_fits_load hfits, rfl⟩)
      (fun _ _ _ => rfl) ?_
    · refine (Function.forall_update_iff s.pc fun u p => p.Inside ↔ (s.pc u).Inside).mpr ?_
      exact ⟨by rw [pc]; exact Iff.rfl, fun _ _ => Iff.rfl⟩
    · rw [total_same (by rw [pc]; cases role t <;> rfl), h.num]
  | store i reg pc => exact h.store pc
  | unlock i pc =>
    rw [pc] at hfits
    obtain ⟨hunlocked, hdone⟩ := Role.fits_unlocked hfits
    refine h.set (hexclusive.release (t := t) ?_ ?_ (hsame _)) hunlocked (fun _ _ _ => rfl) ?_
    · rw [pc]; trivial
    · rw [Function.update_self]
      exact Role.not_inside_unlocked
    · exact h.num.trans (total_same (pc ▸ hdone)).symm

omit [DecidableEq τ] in
theorem Invariant.abs_num_le (h : Invariant n role s) : |s.num| ≤ Fintype.card τ * n := by
  have hterm : ∀ t, |(role t).sign * ((role t).done n (s.pc t) : Int)| ≤ n := by
    intro t
    have hsign : |(role t).sign| = 1 := by cases role t <;> rfl
    rw [abs_mul, hsign, one_mul, Nat.abs_cast, Nat.cast_le]
    exact Role.done_le (h.fits t)
  calc |s.num|
      = |total n role s.pc| := by rw [h.num]
    _ ≤ ∑ t, |(role t).sign * ((role t).done n (s.pc t) : Int)| := Finset.abs_sum_le_sum_abs ..
    _ ≤ ∑ _t : τ, (n : Int) := Finset.sum_le_sum fun t _ => hterm t
    _ = Fintype.card τ * n := by simp

/-- While one has not returned, some thread can go on: the owner, or one at its lock. -/
theorem Invariant.moves (h : Invariant n role s) (hroom : Fintype.card τ * n < 2 ^ 63)
    (ht : s.pc t ≠ .returned) : ∃ u s', MutexCounter.step n role s u = some s' := by
  cases howner : s.owner with
  | none =>
    refine ⟨t, ?_⟩
    have houtside : ¬ (s.pc t).Inside := by simp [h.exclusive t, howner]
    cases pc : s.pc t with
    | lock i => exact ⟨_, by simp only [MutexCounter.step, pc, howner, if_true]; rfl⟩
    | load | store | unlock =>
      rw [pc] at houtside
      exact absurd trivial houtside
    | returned => exact absurd pc ht
  | some u =>
    refine ⟨u, ?_⟩
    have hinside : (s.pc u).Inside := (h.exclusive u).mpr howner
    cases pc : s.pc u with
    | lock | returned =>
      rw [pc] at hinside
      exact hinside.elim
    | load i => exact ⟨_, by simp only [MutexCounter.step, pc]; rfl⟩
    | unlock i => exact ⟨_, by simp only [MutexCounter.step, pc]; rfl⟩
    | store i reg =>
      -- behind the store `num` is still what all have done
      have habs : |reg + (role u).sign| ≤ Fintype.card τ * n := (h.store pc).abs_num_le
      rw [abs_le] at habs
      have hnum : LongLong (reg + (role u).sign) := by constructor <;> omega
      exact ⟨_, by simp only [MutexCounter.step, pc, hnum, if_true]; rfl⟩

theorem total_returned {p q : Nat} {pc : Thread p q → Pc} (h : ∀ t, pc t = .returned) :
    total rounds Thread.role pc = 100000 * ((p : Int) - q) := by
  simp only [total, h, Role.done, Fintype.sum_sum_type, Thread.role, Sum.elim_inl, Sum.elim_inr,
    Role.sign, Finset.sum_const, Finset.card_univ, Fintype.card_fin, nsmul_eq_mul, rounds]
  ring

theorem Invariant.noneLost {p q : Nat} {s : State (Thread p q)}
    (h : Invariant rounds Thread.role s) : NoneLost s where
  alone _ _ ht hu := h.exclusive.unique ht hu
  counted hall := h.num.trans (total_returned hall)

/-- With any numbers of threads and any schedule no two threads are inside at once, and `num` is
right when all have returned. -/
theorem none_lost (p q : Nat) (schedule : List (Thread p q)) :
    Throughout (step rounds Thread.role) NoneLost (start rounds Thread.role) schedule :=
  (throughout_invariant (fun _ _ _ h hstep => h.step hstep)
    (invariant_start rounds Thread.role) schedule).mono fun _ h => h.noneLost

/-- Loops of one round; `thread_des` has to wait for the mutex. -/
example :
    (run (step 1 Thread.role) (start 1 Thread.role) [.inl 0, .inl 0, .inl 0, .inl 0,
      .inr 0, .inr 0, .inr 0, .inr 0] : Option (State (Thread 1 1))).map State.num = some 0 ∧
    (run (step 1 Thread.role) (start 1 Thread.role) [.inl 0, .inr 0] :
      Option (State (Thread 1 1))).isNone := by decide

/-- No run ends before all have returned, if `num` has room for all updates. -/
theorem moves_throughout (p q : Nat) (hroom : (p + q) * rounds < 2 ^ 63)
    (schedule : List (Thread p q)) :
    Throughout (step rounds Thread.role)
      (fun s => (∃ t, s.pc t ≠ .returned) → ∃ u s', step rounds Thread.role s u = some s')
      (start rounds Thread.role) schedule := by
  refine (throughout_invariant (fun _ _ _ h hstep => h.step hstep)
    (invariant_start rounds Thread.role) schedule).mono fun s h => ?_
  rintro ⟨t, ht⟩
  exact h.moves (by simpa using hroom) ht

/-- The calls and accesses a thread at this place still makes. -/
def Role.ahead (n : Nat) : Role → Pc → Nat
  | .inc, .lock _ => 2 * n + 2
  | .inc, .load i => 2 * (n - i) + 1
  | .inc, .store i _ => 2 * (n - i)
  | .inc, .unlock _ => 1
  | .des, .lock i => 4 * (n - i)
  | .des, .load i => 4 * (n - i) - 1
  | .des, .store i _ => 4 * (n - i) - 2
  | .des, .unlock i => 4 * (n - i) - 3
  | _, .returned => 0

section Ahead
variable {n i : Nat} {num : Int} {r : Role}

theorem Role.ahead_head_inc (h : i ≤ n) :
    Role.inc.ahead n (Role.inc.head n i) = 2 * (n - i) + 1 := by
  rw [Role.head]
  split
  next => rfl
  next hi => simp [Role.ahead, Nat.le_antisymm h (Nat.not_lt.mp hi)]

theorem Role.ahead_head_des : Role.des.ahead n (Role.des.head n i) = 4 * (n - i) := by
  rw [Role.head]
  split
  next => rfl
  next hi => simp [Role.ahead, Nat.sub_eq_zero_of_le (Nat.not_lt.mp hi)]

theorem Role.ahead_locked (h : r.Fits n num (.lock i)) :
    r.ahead n (r.locked n i) + 1 = r.ahead n (.lock i) := by
  cases r with
  | inc =>
    obtain rfl : i = 0 := h
    rw [Role.locked, Role.ahead_head_inc (Nat.zero_le n)]
    rfl
  | des =>
    have hi : i < n := h
    simp only [Role.locked, Role.ahead]
    omega

theorem Role.ahead_load (h : i < n) (reg : Int) :
    r.ahead n (.store i reg) + 1 = r.ahead n (.load i) := by
  cases r with
  | inc => rfl
  | des =>
    simp only [Role.ahead]
    omega

theorem Role.ahead_stored (h : i < n) (reg : Int) :
    r.ahead n (r.stored n i) + 1 = r.ahead n (.store i reg) := by
  cases r with
  | inc =>
    rw [Role.stored, Role.ahead_head_inc h]
    simp only [Role.ahead]
    omega
  | des =>
    simp only [Role.stored, Role.ahead]
    omega

theorem Role.ahead_unlocked (h : r.Fits n num (.unlock i)) :
    r.ahead n (r.unlocked n i) + 1 = r.ahead n (.unlock i) := by
  cases r with
  | inc => rfl
  | des =>
    have hi : i < n := h
    rw [Role.unlocked, Role.ahead_head_des]
    simp only [Role.ahead]
    omega

end Ahead

/-- What all threads together still have to do. -/
def ahead (n : Nat) (role : τ → Role) (s : State τ) : Nat := ∑ t, (role t).ahead n (s.pc t)

theorem ahead_update {pc : τ → Pc} {p : Pc}
    (h : (role t).ahead n p + 1 = (role t).ahead n (pc t)) :
    ∑ u, (role u).ahead n (Function.update pc t p u) + 1 = ∑ u, (role u).ahead n (pc u) := by
  have hsum := sum_change (Finset.mem_univ t) (fun u => (role u).ahead n (pc u))
    (fun u => (role u).ahead n (Function.update pc t p u))
    fun u hu => by rw [Function.update_of_ne hu]
  simp only [Function.update_self] at hsum
  omega

/-- Every step does one of the things that are left to do. -/
theorem Invariant.ahead_step (h : Invariant n role s)
    (hstep : MutexCounter.step n role s t = some s') : ahead n role s' + 1 = ahead n role s := by
  have hfits := h.fits t
  cases move_of_step hstep with
  | lock i pc owner =>
    rw [pc] at hfits
    exact ahead_update (pc ▸ Role.ahead_locked hfits)
  | load i pc =>
    rw [pc] at hfits
    exact ahead_update (pc ▸ Role.ahead_load (Role.lt_of_fits_load hfits) s.num)
  | store i reg pc =>
    rw [pc] at hfits
    exact ahead_update (pc ▸ Role.ahead_stored (Role.fits_store_iff.mp hfits).1 reg)
  | unlock i pc =>
    rw [pc] at hfits
    exact ahead_update (pc ▸ Role.ahead_unlocked hfits)

/-- Where nothing is left to do all have returned, and otherwise a thread can go on. -/
theorem Invariant.returned_of_stuck (h : Invariant n role s) (hroom : Fintype.card τ * n < 2 ^ 63)
    (hstuck : Stuck (MutexCounter.step n role) (fun _ _ => True) s) (t : τ) :
    s.pc t = .returned := by
  by_contra ht
  obtain ⟨u, s', hu⟩ := h.moves hroom ht
  rw [hstuck u trivial] at hu
  cases hu

/-- The calls of `thread_inc` and of `thread_des` from start to return. -/
theorem ahead_start (p q n : Nat) :
    ahead n Thread.role (start n Thread.role : State (Thread p q)) =
      p * (2 * n + 2) + q * (4 * n) := by
  have hinc : Role.inc.ahead n (Role.inc.start n) = 2 * n + 2 := rfl
  have hdes : Role.des.ahead n (Role.des.start n) = 4 * n := Role.ahead_head_des
  simp only [ahead, start, Fintype.sum_sum_type, Thread.role, Sum.elim_inl, Sum.elim_inr, hinc,
    hdes, Finset.sum_const, Finset.card_univ, Fintype.card_fin, smul_eq_mul]

/-- Any schedule can be completed, all complete ones are equally long and end with the right
`num`, and where no thread can go on all have returned. -/
theorem completes (p q : Nat) (hroom : (p + q) * rounds < 2 ^ 63) (schedule : List (Thread p q))
    {s : State (Thread p q)}
    (hrun : run (step rounds Thread.role) (start rounds Thread.role) schedule = some s) :
    (Stuck (step rounds Thread.role) (fun _ _ => True) s → ∀ t, s.pc t = .returned) ∧
      ∃ rest s', run (step rounds Thread.role) s rest = some s' ∧ (∀ t, s'.pc t = .returned) ∧
        s'.num = 100000 * ((p : Int) - q) ∧
        schedule.length + rest.length = p * 200002 + q * 400000 := by
  have hcard : Fintype.card (Thread p q) * rounds < 2 ^ 63 := by simpa using hroom
  have hstep : ∀ (s : State (Thread p q)) t s', Invariant rounds Thread.role s → True →
      step rounds Thread.role s t = some s' →
      Invariant rounds Thread.role s' ∧
        ahead rounds Thread.role s' + 1 = ahead rounds Thread.role s :=
    fun _ _ _ h _ hstep => ⟨h.step hstep, h.ahead_step hstep⟩
  have hI := run_invariant (fun _ _ _ h hstep => h.step hstep)
    (invariant_start rounds Thread.role) hrun
  refine ⟨hI.returned_of_stuck hcard, ?_⟩
  obtain ⟨rest, s', -, hrest, hstuck⟩ := exists_stuck
    (fun s t s' h hG hs => (hstep s t s' h hG hs).imp_right Nat.le_of_eq) hI
  have hI' := run_invariant (fun _ _ _ h hstep => h.step hstep) hI hrest
  have hall := hI'.returned_of_stuck hcard hstuck
  have hzero : ahead rounds Thread.role s' = 0 :=
    Finset.sum_eq_zero fun t _ => by rw [hall t]; cases Thread.role t <;> rfl
  have hlength := length_of_counts hstep (invariant_start rounds Thread.role) (along_true _ _)
    (run_append_some.mpr ⟨s, hrun, hrest⟩)
  rw [hzero, ahead_start, List.length_append] at hlength
  exact ⟨rest, s', hrest, hall, hI'.noneLost.counted hall, hlength⟩

/-- The hundred threads of the source, one of which has taken the mutex. -/
theorem completes_hundred :
    ∃ s : State (Thread 50 50),
      run (step rounds Thread.role) (start rounds Thread.role) [.inl 0] = some s ∧
      ∃ rest s', run (step rounds Thread.role) s rest = some s' ∧ (∀ t, s'.pc t = .returned) ∧
        s'.num = 0 ∧ rest.length = 30000099 := by
  have hrun : run (step rounds Thread.role) (start rounds Thread.role : State (Thread 50 50))
      [.inl 0] = some { State.set (start rounds Thread.role) (.inl 0) (.load 0) with
        owner := some (.inl 0) } := rfl
  obtain ⟨-, rest, s', hrest, hall, hnum, hlength⟩ := completes 50 50 (by decide) [.inl 0] hrun
  exact ⟨_, hrun, rest, s', hrest, hall, hnum, by simpa [Nat.add_comm 1] using hlength⟩

end NetworkProgramming.MutexCounter
