import Mathlib.Logic.Function.Basic
import NetworkProgramming.Library.Ledger
import NetworkProgramming.Library.Transition

/-!
# Reaping the children of the storing echo server

SIGCHLD is one pending bit, and `read_childproc` reaps one child a run. Exits that
fall together on the bit leave a zombie behind for good.
-/
namespace NetworkProgramming.StoreReaping

open Transition Ledger

inductive Child where
  | unborn | running | zombie | reaped
  deriving DecidableEq, Repr

/-- Where the parent is in `read_childproc`. -/
inductive Handler where
  | idle | entered | returning
  deriving DecidableEq, Repr

/-- The first child is the storage child, the others are the service children. -/
structure State where
  pending : Bool
  handler : Handler
  children : Nat → Child
  forks : Nat

/-- Behind `sigaction`. -/
def start : State where
  pending := false
  handler := .idle
  children := fun _ => .unborn
  forks := 0

inductive Label where
  | fork
  | exit (k : Nat)
  | deliver
  | waitpid (res : Option Nat)
  | ret
  deriving DecidableEq, Repr

def State.setChild (s : State) (k : Nat) (c : Child) : State :=
  { s with children := Function.update s.children k c }

/-- The handler interrupts `main`, and a signal that comes while it runs stays pending.
`waitpid(-1, &status, WNOHANG)` reaps some exited child if there is one. -/
def step (s : State) : Label → Option State
  | .fork =>
    if s.handler = .idle then some { s.setChild s.forks .running with forks := s.forks + 1 }
    else none
  | .exit k =>
    if s.children k = .running then some { s.setChild k .zombie with pending := true } else none
  | .deliver =>
    if s.pending ∧ s.handler = .idle then some { s with pending := false, handler := .entered }
    else none
  | .waitpid (some k) =>
    if s.handler = .entered ∧ s.children k = .zombie then
      some { s.setChild k .reaped with handler := .returning }
    else none
  | .waitpid none =>
    if s.handler = .entered ∧ ∀ k < s.forks, s.children k ≠ .zombie then
      some { s with handler := .returning }
    else none
  | .ret => if s.handler = .returning then some { s with handler := .idle } else none

/-- Everything a step can do. -/
inductive Move (s : State) : Label → State → Prop where
  | fork (idle : s.handler = .idle) :
      Move s .fork { s.setChild s.forks .running with forks := s.forks + 1 }
  | exit (k : Nat) (running : s.children k = .running) :
      Move s (.exit k) { s.setChild k .zombie with pending := true }
  | deliver (pending : s.pending = true) (idle : s.handler = .idle) :
      Move s .deliver { s with pending := false, handler := .entered }
  | reap (k : Nat) (entered : s.handler = .entered) (zombie : s.children k = .zombie) :
      Move s (.waitpid (some k)) { s.setChild k .reaped with handler := .returning }
  | nobody (entered : s.handler = .entered) (no : ∀ k < s.forks, s.children k ≠ .zombie) :
      Move s (.waitpid none) { s with handler := .returning }
  | ret (returning : s.handler = .returning) : Move s .ret { s with handler := .idle }

theorem step_move {s t : State} {a : Label} (hs : step s a = some t) : Move s a t := by
  cases a with
  | fork =>
    obtain ⟨hidle, hs⟩ := Option.ite_none_right_eq_some.mp hs
    cases hs
    exact .fork hidle
  | exit k =>
    obtain ⟨hrunning, hs⟩ := Option.ite_none_right_eq_some.mp hs
    cases hs
    exact .exit k hrunning
  | deliver =>
    obtain ⟨⟨hpending, hidle⟩, hs⟩ := Option.ite_none_right_eq_some.mp hs
    cases hs
    exact .deliver hpending hidle
  | waitpid res =>
    cases res with
    | some k =>
      obtain ⟨⟨hentered, hzombie⟩, hs⟩ := Option.ite_none_right_eq_some.mp hs
      cases hs
      exact .reap k hentered hzombie
    | none =>
      obtain ⟨⟨hentered, hno⟩, hs⟩ := Option.ite_none_right_eq_some.mp hs
      cases hs
      exact .nobody hentered hno
  | ret =>
    obtain ⟨hreturning, hs⟩ := Option.ite_none_right_eq_some.mp hs
    cases hs
    exact .ret hreturning

/-- When no signal is pending and the handler does not run, no exited child is left. -/
def Reaped (s : State) : Prop :=
  s.pending = false → s.handler = .idle → ∀ k, s.children k ≠ .zombie

/-- A child exits only while no SIGCHLD is pending. -/
def ExitsAlone (s : State) : Label → Prop
  | .exit _ => s.pending = false
  | _ => True

instance (s : State) : ∀ a : Label, Decidable (ExitsAlone s a)
  | .exit _ => inferInstanceAs (Decidable (s.pending = false))
  | .fork | .deliver | .waitpid _ | .ret => inferInstanceAs (Decidable True)

def isZombie (c : Child) : Nat := if c = .zombie then 1 else 0

def zombies (s : State) : Nat := total s.forks fun k => isZombie (s.children k)

/-- The runs of `waitpid` that are still to come. -/
def waitpids (s : State) : Nat :=
  (if s.pending then 1 else 0) + if s.handler = .entered then 1 else 0

def Born (s : State) : Prop := ∀ k, s.forks ≤ k → s.children k = .unborn

theorem Born.lt {s : State} (h : Born s) {k : Nat} (hk : s.children k ≠ .unborn) :
    k < s.forks := by
  by_contra hle
  exact hk (h k (by omega))

theorem born_step {s t : State} {a : Label} (h : Born s) (hm : Move s a t) : Born t := by
  have hset : ∀ {k c}, s.children k ≠ .unborn → Born (s.setChild k c) := by
    intro k c hk j hj
    have hlt := h.lt hk
    simp only [State.setChild] at hj
    exact (Function.update_of_ne (by omega) _ _).trans (h j hj)
  cases hm with
  | fork =>
    intro j hj
    simp only at hj
    exact (Function.update_of_ne (by omega) _ _).trans (h j (by omega))
  | exit k running => exact hset (by simp [running])
  | reap k _ zombie => exact hset (by simp [zombie])
  | deliver | nobody | ret => exact h

/-- One child changes. -/
theorem zombies_setChild {s : State} (h : Born s) {k : Nat} (hk : s.children k ≠ .unborn)
    (c : Child) :
    zombies (s.setChild k c) + isZombie (s.children k) = zombies s + isZombie c := by
  have hc := total_change (fun j => isZombie (s.children j))
    (fun j => isZombie ((s.setChild k c).children j)) (h.lt hk)
    (fun j hj => by simp only [State.setChild, Function.update_of_ne hj])
  simpa [zombies, State.setChild] using hc

theorem exists_zombie {s : State} (h : 0 < zombies s) : ∃ k < s.forks, s.children k = .zombie := by
  by_contra hno
  have hzero : zombies s = 0 := by
    unfold zombies total
    apply Finset.sum_eq_zero
    intro k hk
    simp only [isZombie, ite_eq_right_iff]
    exact fun hz => absurd ⟨k, Finset.mem_range.mp hk, hz⟩ hno
  omega

/-- As long as the zombies are at least as many as the runs of `waitpid` to come, a step
keeps the difference, but for an exit that meets a pending signal. -/
theorem zombies_step {s t : State} {a : Label} (h : Born s) (hle : waitpids s ≤ zombies s)
    (hm : Move s a t) :
    (ExitsAlone s a → zombies t + waitpids s = zombies s + waitpids t) ∧
      (¬ ExitsAlone s a → zombies t = zombies s + 1 ∧ waitpids t = waitpids s) := by
  cases hm with
  | fork =>
    have hz : zombies { s.setChild s.forks .running with forks := s.forks + 1 } = zombies s := by
      have hj := total_join (n := s.forks) (fun j => isZombie (s.children j))
        (fun j => isZombie ((s.setChild s.forks .running).children j))
        (fun j hj => by simp only [State.setChild, Function.update_of_ne (Nat.ne_of_lt hj)])
      simpa [zombies, State.setChild, isZombie] using hj
    exact ⟨fun _ => congrArg (· + waitpids s) hz, fun hn => absurd trivial hn⟩
  | exit k running =>
    have hc := zombies_setChild h (k := k) (by simp [running]) .zombie
    simp only [running, isZombie] at hc
    refine ⟨fun hp => ?_, fun hp => ?_⟩
    · simp only [ExitsAlone] at hp
      simp [zombies, waitpids, State.setChild, hp] at hc ⊢
      omega
    · simp only [ExitsAlone, Bool.not_eq_false] at hp
      simp [zombies, waitpids, State.setChild, hp] at hc ⊢
      omega
  | deliver pending idle =>
    refine ⟨fun _ => ?_, fun hn => absurd trivial hn⟩
    simp [zombies, waitpids, pending, idle]
  | reap k entered zombie =>
    have hc := zombies_setChild h (k := k) (by simp [zombie]) .reaped
    simp only [zombie, isZombie] at hc
    refine ⟨fun _ => ?_, fun hn => absurd trivial hn⟩
    simp [zombies, waitpids, State.setChild, entered] at hc ⊢
    omega
  | nobody entered no =>
    -- there is a zombie for this run of `waitpid`
    have hpos : 0 < zombies s := by
      simp only [waitpids, entered, if_true] at hle
      omega
    obtain ⟨k, hk, hz⟩ := exists_zombie hpos
    exact absurd hz (no k hk)
  | ret returning =>
    refine ⟨fun _ => ?_, fun hn => absurd trivial hn⟩
    simp [zombies, waitpids, returning]

/-- No step makes the zombies fewer against the runs of `waitpid` to come. -/
theorem excess_step {s t : State} {a : Label} (h : Born s) (hle : waitpids s ≤ zombies s)
    (hm : Move s a t) : zombies s + waitpids t ≤ zombies t + waitpids s := by
  obtain ⟨hsame, hmore⟩ := zombies_step h hle hm
  by_cases hg : ExitsAlone s a
  · exact Nat.le_of_eq (hsame hg).symm
  · obtain ⟨hz, hw⟩ := hmore hg
    omega

/-- What admitted steps preserve: every zombie has its run of `waitpid` to come. -/
structure Books (s : State) : Prop where
  born : Born s
  balance : zombies s = waitpids s

theorem books_start : Books start := ⟨fun _ _ => rfl, rfl⟩

theorem books_step (s : State) (a : Label) (t : State) (h : Books s) (hg : ExitsAlone s a)
    (hs : step s a = some t) : Books t := by
  have hm := step_move hs
  have hz := (zombies_step h.born (Nat.le_of_eq h.balance.symm) hm).1 hg
  have hb := h.balance
  exact ⟨born_step h.born hm, by omega⟩

theorem Books.reaped {s : State} (h : Books s) : Reaped s := by
  intro hpending hidle k hz
  have hlt := h.born.lt (k := k) (by simp [hz])
  have hle : isZombie (s.children k) ≤ zombies s :=
    le_total (fun j => isZombie (s.children j)) hlt
  rw [h.balance] at hle
  simp [hz, isZombie, waitpids, hpending, hidle] at hle

/-- In every run in which no child exits while a SIGCHLD is pending, no zombie is left
when no signal is pending and the handler does not run. -/
theorem reaped_throughout (as : List Label) (hg : Along step ExitsAlone start as) :
    Throughout step Reaped start as :=
  (throughout_of_step books_step books_start hg).mono fun _ h => h.reaped

/-- More zombies than the runs of `waitpid` to come can reap. -/
structure Excess (s : State) : Prop where
  born : Born s
  more : waitpids s < zombies s

theorem Excess.kept {s t : State} {a : Label} (h : Excess s) (hs : step s a = some t) :
    Excess t := by
  have hm := step_move hs
  have hkept := excess_step h.born (Nat.le_of_lt h.more) hm
  have hmore := h.more
  exact ⟨born_step h.born hm, by omega⟩

/-- The handler runs to its end. -/
theorem Excess.handled {s : State} (h : Excess s) :
    ∃ bs t, run step s bs = some t ∧ Excess t ∧ t.handler = .idle ∧ t.pending = s.pending := by
  cases hh : s.handler with
  | idle => exact ⟨[], s, rfl, h, hh, rfl⟩
  | entered =>
    obtain ⟨k, -, hz⟩ := exists_zombie (Nat.zero_lt_of_lt h.more)
    have hreap : step s (.waitpid (some k)) =
        some { s.setChild k .reaped with handler := .returning } := by simp [step, hh, hz]
    have hret : step { s.setChild k .reaped with handler := .returning } .ret =
        some { s.setChild k .reaped with handler := .idle } := rfl
    refine ⟨[.waitpid (some k), .ret], { s.setChild k .reaped with handler := .idle }, ?_,
      (h.kept hreap).kept hret, rfl, rfl⟩
    exact run_cons_some.mpr ⟨_, hreap, run_cons_some.mpr ⟨_, hret, rfl⟩⟩
  | returning =>
    have hret : step s .ret = some { s with handler := .idle } := by simp [step, hh]
    exact ⟨[.ret], { s with handler := .idle }, run_cons_some.mpr ⟨_, hret, rfl⟩, h.kept hret,
      rfl, rfl⟩

/-- What the handler cannot reap stays behind when it is done with all signals. -/
theorem Excess.left {s : State} (h : Excess s) :
    ∃ bs t, run step s bs = some t ∧ ¬ Reaped t := by
  have hdone : ∀ {t : State}, Excess t → t.handler = .idle → t.pending = false → ¬ Reaped t := by
    intro t ht hidle hpending hreaped
    obtain ⟨k, -, hz⟩ := exists_zombie (Nat.zero_lt_of_lt ht.more)
    exact hreaped hpending hidle k hz
  obtain ⟨bs, t, hrun, ht, hidle, -⟩ := h.handled
  cases hp : t.pending with
  | false => exact ⟨bs, t, hrun, hdone ht hidle hp⟩
  | true =>
    have hdeliver : step t .deliver = some { t with pending := false, handler := .entered } := by
      simp [step, hp, hidle]
    obtain ⟨cs, u, hrun', hu, hidle', hpending⟩ := (ht.kept hdeliver).handled
    refine ⟨bs ++ .deliver :: cs, u, ?_, hdone hu hidle' hpending⟩
    exact run_append_some.mpr ⟨t, hrun, run_cons_some.mpr ⟨_, hdeliver, hrun'⟩⟩

/-- In every run, good or bad, the zombies are at least as many as the runs of `waitpid`
to come. -/
theorem waitpids_le_step (s : State) (a : Label) (t : State)
    (h : Born s ∧ waitpids s ≤ zombies s) (hs : step s a = some t) :
    Born t ∧ waitpids t ≤ zombies t := by
  have hm := step_move hs
  have hkept := excess_step h.1 h.2 hm
  have hle := h.2
  exact ⟨born_step h.1 hm, by omega⟩

/-- The condition is sharp: after an exit that meets a pending signal, the run can come
to rest with a zombie. -/
theorem crowded_exit_leaves_zombie {as : List Label} {s t : State} {a : Label}
    (hrun : run step start as = some s) (hs : step s a = some t) (hcrowd : ¬ ExitsAlone s a) :
    ∃ bs u, run step t bs = some u ∧ ¬ Reaped u := by
  obtain ⟨hborn, hle⟩ := run_invariant waitpids_le_step ⟨fun _ _ => rfl, Nat.le_refl _⟩ hrun
  have hm := step_move hs
  obtain ⟨hz, hw⟩ := (zombies_step hborn hle hm).2 hcrowd
  exact Excess.left ⟨born_step hborn hm, by omega⟩

/-- Two children exit one after the other, each when the handler has reaped the last. -/
theorem two_exits_reaped :
    Throughout step Reaped start
      [.fork, .fork, .exit 1, .deliver, .waitpid (some 1), .ret,
        .exit 0, .deliver, .waitpid (some 0), .ret] :=
  reaped_throughout _ (by decide)

/-- Two children exit before the signal is delivered, and one stays behind. -/
theorem two_exits_at_once :
    ¬ ∀ as, Throughout step Reaped start as := by
  intro h
  have hr := (h [.fork, .fork, .exit 0, .exit 1, .deliver, .waitpid (some 0), .ret]).last rfl
  exact absurd (hr rfl rfl 1) (by decide)

end NetworkProgramming.StoreReaping
