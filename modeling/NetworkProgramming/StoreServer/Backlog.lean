import NetworkProgramming.Library.Ledger
import NetworkProgramming.StoreServer.Processes

/-!
# The backlog behind the storage child

What the service children have read is in the file, in the pipe or in one of
their hands. Once the storage child has exited nobody empties the pipe, so the
rest of it has to fit in there.
-/
namespace NetworkProgramming.StoreBacklog

open Transition Ledger StoreProcesses

/-- A service child waits for room in a pipe that nobody reads any more. -/
def Wedged (cap : Nat) (s : State) : Prop :=
  s.storage = .exited ∧
    ∃ k piece, s.services k = .store piece ∧ cap < s.pipe.length + piece.length

/-- Whenever the storage child has exited, the bytes that have been read from the
clients and are not in the file fit into the pipe. -/
def FitsPipe (cap : Nat) (s : State) : Label → Prop
  | .storageExit => s.received ≤ s.file.length + cap
  | .read _ piece => s.storage = .exited → s.received + piece.length ≤ s.file.length + cap
  | _ => True

instance (cap : Nat) : ∀ (s : State) (a : Label), Decidable (FitsPipe cap s a)
  | s, .storageExit => inferInstanceAs (Decidable (s.received ≤ s.file.length + cap))
  | s, .read _ piece => inferInstanceAs (Decidable
      (s.storage = .exited → s.received + piece.length ≤ s.file.length + cap))
  | _, .connect | _, .echo _ | _, .store _ | _, .close _ | _, .storageRead _ =>
    inferInstanceAs (Decidable True)

/-- The bytes that a service child still has to put into the pipe. -/
def inHand : ServicePc → Nat
  | .echo piece | .store piece => piece.length
  | _ => 0

def hands (s : State) : Nat := total s.forks fun k => inHand (s.services k)

structure Books (s : State) : Prop where
  unborn : ∀ k, s.forks ≤ k → s.services k = .unborn
  balance : s.pipe.length + s.file.length + hands s = s.received

theorem books_start : Books start := ⟨fun _ _ => rfl, rfl⟩

theorem Books.born {s : State} (h : Books s) {k : Nat} (hk : s.services k ≠ .unborn) :
    k < s.forks := by
  by_contra hle
  exact hk (h.unborn k (by omega))

/-- A child that exists goes on. The books stay right if what it takes into its hand
or gives away is accounted for elsewhere. -/
theorem Books.move {s t : State} (h : Books s) {k : Nat} {old : ServicePc}
    (hk : s.services k = old) (hold : old ≠ .unborn) (pc : ServicePc)
    (hservices : t.services = Function.update s.services k pc) (hforks : t.forks = s.forks)
    (hbalance : t.pipe.length + t.file.length + inHand pc + s.received =
      s.pipe.length + s.file.length + inHand old + t.received) : Books t := by
  have hborn := h.born (hk ▸ hold)
  constructor
  · intro j hj
    rw [hforks] at hj
    rw [hservices, Function.update_of_ne (by omega)]
    exact h.unborn j hj
  · have hc := total_change (fun j => inHand (s.services j)) (fun j => inHand (t.services j))
      hborn (fun j hj => by simp only [hservices, Function.update_of_ne hj])
    have hb := h.balance
    simp only [hservices, Function.update_self, hk] at hc
    simp only [hands, hforks, hservices] at hb ⊢
    omega

/-- Every step keeps the books. -/
theorem books_step {cap : Nat} {s t : State} {a : Label} (h : Books s) (hm : Move cap s a t) :
    Books t := by
  have hb := h.balance
  cases hm with
  | connect =>
    constructor
    · intro j hj
      simp only at hj
      exact (Function.update_of_ne (by omega) _ _).trans (h.unborn j (by omega))
    · have hj := total_join (n := s.forks) (fun j => inHand (s.services j))
        (fun j => inHand (Function.update s.services s.forks .reading j))
        (fun j hj => by simp only [Function.update_of_ne (show j ≠ s.forks by omega)])
      simp only [Function.update_self, inHand] at hj
      simp only [hands, State.setService, inHand, hj] at hb ⊢
      omega
  | eof k pc => exact h.move pc (by simp) .closing rfl rfl (by simp [State.setService, inHand])
  | echo k piece pc =>
    exact h.move pc (by simp) (.store piece) rfl rfl (by simp [State.setService, inHand])
  | close k pc => exact h.move pc (by simp) .exited rfl rfl (by simp [State.setService, inHand])
  | read k piece pc =>
    refine h.move pc (by simp) (.echo piece) rfl rfl ?_
    simp only [State.setService, inHand]
    omega
  | store k piece pc =>
    refine h.move pc (by simp) .reading rfl rfl ?_
    simp only [State.setService, inHand, List.length_append]
    omega
  | storageRead i len _ _ _ _ queued =>
    refine ⟨h.unborn, ?_⟩
    simp only [hands, List.length_append, List.length_drop, List.length_take] at hb ⊢
    omega
  | storageExit => exact ⟨h.unborn, hb⟩

/-- In admitted runs the backlog fits once nobody reads the pipe. -/
def Fits (cap : Nat) (s : State) : Prop :=
  Books s ∧ (s.storage = .exited → s.received ≤ s.file.length + cap)

theorem fits_step {cap : Nat} (s : State) (a : Label) (t : State) (h : Fits cap s)
    (hg : FitsPipe cap s a) (hs : step cap s a = some t) : Fits cap t := by
  have hm := step_move hs
  refine ⟨books_step h.1 hm, ?_⟩
  cases hm with
  | read => exact hg
  | storageExit => exact fun _ => hg
  | storageRead => intro he; cases he
  | _ => exact h.2

/-- What one child has in hand fits beside what is in the pipe. -/
theorem Fits.not_wedged {cap : Nat} {s : State} (h : Fits cap s) : ¬ Wedged cap s := by
  rintro ⟨hexit, k, piece, hk, hfull⟩
  have hborn := h.1.born (k := k) (by simp [hk])
  have hhand : inHand (s.services k) ≤ hands s :=
    le_total (fun j => inHand (s.services j)) hborn
  have hb := h.1.balance
  have hfits := h.2 hexit
  simp only [hk, inHand] at hhand
  omega

/-- In every run in which the bytes that are not in the file fit into the pipe once
the storage child has exited, no service child is ever stuck behind it. -/
theorem never_wedged (cap : Nat) (as : List Label)
    (hg : Along (step cap) (FitsPipe cap) start as) :
    Throughout (step cap) (fun s => ¬ Wedged cap s) start as :=
  (throughout_of_step fits_step ⟨books_start, by simp [start]⟩ hg).mono
    fun _ h => h.not_wedged

/-- The steps that a service child has in front of it before it reads again. -/
def stepsLeft : ServicePc → Nat
  | .echo _ => 2
  | .store _ => 1
  | _ => 0

/-- A backlog that does not fit has to be in somebody's hand. -/
theorem Books.someHand {cap : Nat} {s : State} (h : Books s) (hpipe : s.pipe.length ≤ cap)
    (hover : s.file.length + cap < s.received) :
    ∃ k piece, s.services k = .echo piece ∨ s.services k = .store piece := by
  by_contra hno
  push Not at hno
  have hnone : ∀ k, inHand (s.services k) = 0 := by
    intro k
    cases hk : s.services k with
    | echo piece => exact absurd hk (hno k piece).1
    | store piece => exact absurd hk (hno k piece).2
    | _ => rfl
  have hb := h.balance
  simp only [hands, total, hnone, Finset.sum_const_zero] at hb
  omega

/-- A backlog that does not fit wedges a child once the children have gone on to the pipe. -/
theorem Books.overflow_wedges {cap : Nat} {s : State} (h : Books s)
    (hpipe : s.pipe.length ≤ cap) (hexit : s.storage = .exited)
    (hover : s.file.length + cap < s.received) :
    ∃ as t, run (step cap) s as = some t ∧ Wedged cap t := by
  -- by induction on the steps that the children have left
  induction hn : total s.forks (fun k => stepsLeft (s.services k)) using
    Nat.strong_induction_on generalizing s with
  | _ n ih =>
    obtain ⟨k, piece, hk⟩ := h.someHand hpipe hover
    have hless : ∀ pc, stepsLeft pc < stepsLeft (s.services k) →
        total s.forks (fun j => stepsLeft ((s.setService k pc).services j)) < n := by
      intro pc hpc
      have hborn : k < s.forks := h.born (by rcases hk with hk | hk <;> simp [hk])
      have hc := total_change (fun j => stepsLeft (s.services j))
        (fun j => stepsLeft ((s.setService k pc).services j)) hborn
        (fun j hj => by simp only [State.setService, Function.update_of_ne hj])
      simp only [State.setService, Function.update_self] at hc ⊢
      omega
    rcases hk with hk | hk
    · have hstep : step cap s (.echo k) = some (s.setService k (.store piece)) := by
        simp [step, hk]
      obtain ⟨as, t, ht, hw⟩ := ih _ (hless (.store piece) (by simp [hk, stepsLeft]))
        (books_step h (step_move hstep)) hpipe hexit hover rfl
      exact ⟨.echo k :: as, t, run_cons_some.mpr ⟨_, hstep, ht⟩, hw⟩
    · by_cases hroom : s.pipe.length + piece.length ≤ cap
      · have hstep : step cap s (.store k) =
            some { s.setService k .reading with pipe := s.pipe ++ piece } := by
          simp [step, hk, hroom]
        obtain ⟨as, t, ht, hw⟩ := ih _ (hless .reading (by simp [hk, stepsLeft]))
          (books_step h (step_move hstep)) (by simpa using hroom) hexit hover rfl
        exact ⟨.store k :: as, t, run_cons_some.mpr ⟨_, hstep, ht⟩, hw⟩
      · exact ⟨[], s, rfl, hexit, k, piece, hk, by omega⟩

theorem pipe_le_step {cap : Nat} (s : State) (a : Label) (t : State)
    (h : s.pipe.length ≤ cap) (hs : step cap s a = some t) : t.pipe.length ≤ cap := by
  cases step_move hs with
  | store k piece _ room => simpa using room
  | storageRead i len =>
    simp only [List.length_drop]
    omega
  | _ => exact h

/-- The condition is sharp: after a step that does not meet it, the run can go on to
a wedged state. -/
theorem unfit_step_wedges {cap : Nat} {as : List Label} {s t : State} {a : Label}
    (hrun : run (step cap) start as = some s) (hs : step cap s a = some t)
    (hunfit : ¬ FitsPipe cap s a) :
    ∃ bs u, run (step cap) t bs = some u ∧ Wedged cap u := by
  have hbooks : Books s :=
    run_invariant (fun s _ t h hs => books_step h (step_move hs)) books_start hrun
  have hpipe : s.pipe.length ≤ cap := run_invariant pipe_le_step (Nat.zero_le _) hrun
  have hm := step_move hs
  have hwedge := (books_step hbooks hm).overflow_wedges (pipe_le_step s a t hpipe hs)
  cases hm with
  | storageExit => exact hwedge rfl (Nat.lt_of_not_le hunfit)
  | read k piece | eof k =>
    obtain ⟨hexit, hover⟩ := Classical.not_imp.mp hunfit
    exact hwedge hexit (Nat.lt_of_not_le hover)
  | _ => exact absurd trivial hunfit

/-- One client sends a byte, and it is echoed and put into the pipe. -/
def oneByte : List Label := [.read 0 [104], .echo 0, .store 0]

/-- One client sends ten bytes that all go into the file, and then the storage child exits. -/
def tenStored : List Label :=
  .connect :: ((List.replicate 10 (oneByte ++ [.storageRead 1])).flatten ++ [.storageExit])

theorem never_wedged_small_backlog :
    Throughout (step 65536) (fun s => ¬ Wedged 65536 s) start (tenStored ++ oneByte) :=
  never_wedged 65536 _ (by decide)

/-- The storage child is gone, the first service child reads, `n` bytes are in the pipe. -/
structure Filled (n : Nat) (s : State) : Prop where
  exited : s.storage = .exited
  reading : s.services 0 = .reading
  length : s.pipe.length = n

/-- The first child has read a byte and echoed it. -/
theorem Filled.echoed {n : Nat} {s : State} (h : Filled n s) (cap : Nat) :
    ∃ t, run (step cap) s [.read 0 [104], .echo 0] = some t ∧ t.storage = .exited ∧
      t.services 0 = .store [104] ∧ t.pipe.length = n := by
  let s₁ : State := { s.setService 0 (.echo [104]) with received := s.received + 1 }
  have hread : step cap s (.read 0 [104]) = some s₁ := by
    simp [step, h.reading, bufSize, s₁]
  have hecho : step cap s₁ (.echo 0) = some (s₁.setService 0 (.store [104])) := by
    simp [step, s₁, State.setService]
  refine ⟨_, run_cons_some.mpr ⟨s₁, hread, run_cons_some.mpr ⟨_, hecho, rfl⟩⟩, ?_⟩
  exact ⟨h.exited, by simp [State.setService], h.length⟩

theorem Filled.fill {m : Nat} {s : State} (h : Filled m s) (cap n : Nat) (hn : m + n ≤ cap) :
    ∃ as t, run (step cap) s as = some t ∧ Filled (m + n) t := by
  induction n with
  | zero => exact ⟨[], s, rfl, h⟩
  | succ n ih =>
    obtain ⟨as, t, hrun, ht⟩ := ih (by omega)
    obtain ⟨u, hu, hexit, hstore, hlen⟩ := ht.echoed cap
    let v : State := { u.setService 0 .reading with pipe := u.pipe ++ [104] }
    have hroom : u.pipe.length + 1 ≤ cap := by omega
    have hv : step cap u (.store 0) = some v := by simp [step, hstore, hroom, v]
    refine ⟨as ++ ([.read 0 [104], .echo 0] ++ [.store 0]), v, run_append_some.mpr ⟨t, hrun,
      run_append_some.mpr ⟨u, hu, run_cons_some.mpr ⟨v, hv, rfl⟩⟩⟩, hexit, ?_, ?_⟩
    · simp [v, State.setService]
    · simp only [v, List.length_append, List.length_singleton, hlen]
      omega

/-- When the pipe is full, the next byte that the first child reads wedges it. -/
theorem Filled.wedges {cap : Nat} {s : State} (h : Filled cap s) :
    ∃ t, run (step cap) s [.read 0 [104], .echo 0] = some t ∧ Wedged cap t := by
  obtain ⟨t, ht, hexit, hstore, hlen⟩ := h.echoed cap
  refine ⟨t, ht, hexit, 0, [104], hstore, ?_⟩
  simp [hlen]

/-- The client goes on sending after the tenth read until the pipe is full. -/
theorem full_pipe_wedges :
    ¬ ∀ as t, run (step 65536) start as = some t → ¬ Wedged 65536 t := by
  intro h
  obtain ⟨s, hs, hfilled⟩ : ∃ s, run (step 65536) start tenStored = some s ∧ Filled 0 s :=
    ⟨_, rfl, rfl, rfl, rfl⟩
  obtain ⟨as, t, ht, hfull⟩ := hfilled.fill 65536 65536 (by omega)
  rw [Nat.zero_add] at hfull
  obtain ⟨u, hu, hwedged⟩ := hfull.wedges
  have hrun := run_append_some.mpr ⟨s, hs, run_append_some.mpr ⟨t, ht, hu⟩⟩
  exact h _ u hrun hwedged

end NetworkProgramming.StoreBacklog
