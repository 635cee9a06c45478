import NetworkProgramming.SelectServer.Watched

/-!
# Failing calls in the select server

What the program makes of an `accept` that fails or returns a descriptor outside
an `fd_set`, and of a `read` that fails. It looks at neither result.
-/
namespace NetworkProgramming.SelectFailures

open Buffer Transition SelectLoop SelectWatched

/-- The argument of an `FD_SET` in the next step. -/
def setArgument : Pc → Option Int
  | .accepted _ clntSock => some clntSock
  | _ => none

/-- The argument of an `FD_CLR` in the next step. -/
def clrArgument : Pc → Option Int
  | .received i strLen => if strLen = 0 then some i else none
  | _ => none

/-- The length that the next step passes to `write`. -/
def writeLength : Pc → Option Int
  | .received _ strLen => if strLen = 0 then none else some strLen
  | _ => none

/-- The descriptor is open and fits into an `fd_set`. -/
def OpenInSet (servSock : Nat) (s : Server) (fd : Int) : Prop :=
  (fd = servSock ∨ s.connection fd ≠ none) ∧ 0 ≤ fd ∧ fd < fdSetSize

/-- No call of the program is given a bad argument, and a failed one changes nothing but the
watched state of the client that it was made for. -/
structure Contained (servSock : Nat) (s : Server) : Prop where
  sets : ∀ fd ∈ setArgument s.pc, OpenInSet servSock s fd
  clears : ∀ fd ∈ clrArgument s.pc, OpenInSet servSock s fd
  writes : ∀ len ∈ writeLength s.pc, 0 ≤ len
  acceptFailed : ∀ i, s.pc = .accepted i (-1) →
    next servSock s = some { s with pc := .scan (i + 1) }
  readFailed : ∀ i, s.pc = .received i (-1) →
    next servSock s = some { s with
      reads := s.reads.erase i, connection := Function.update s.connection i none
      pc := .scan (i + 1) }

/-- The watched clients fit into an `fd_set`. -/
def Low (servSock : Nat) (s : Server) : Prop :=
  ∀ d ∈ s.reads, d ≠ servSock → d < fdSetSize

/-- The result of a call that did not fail. -/
def Succeeded (s : Server) : Pc → Prop
  | .accepted _ clntSock => 0 ≤ clntSock ∧ clntSock < fdSetSize
  | .received i strLen => 0 ≤ strLen ∧ i ∈ s.reads
  | _ => True

variable {servSock : Nat} {s t : Server} {a : Label}

theorem low_step (h : Low servSock s) (hs : step servSock s a = some t) : Low servSock t := by
  cases step_move hs with
  | watch i fd _ _ high =>
    intro d hd hne
    rcases Finset.mem_insert.mp hd with rfl | hd
    · exact high
    · exact h d hd hne
  | close i => exact fun d hd hne => h d (Finset.mem_of_mem_erase hd) hne
  | _ => exact h

/-- The client that a `read` is made for is watched. -/
theorem reading_watched {i : Int} (h : Invariant servSock s) (hpc : s.pc = .read i) :
    i ∈ s.reads ∧ i ≠ servSock := by
  have hp := h.place
  rw [hpc] at hp
  obtain ⟨hpass, hi, hne⟩ := hp
  obtain ⟨hsome, heq⟩ := hpass.waiting i hi (Int.le_refl i) hne
  exact ⟨(h.settled (by simp [hpc]) i).mpr (.inr (heq ▸ hsome)), hne⟩

theorem succeeded_step (h : Invariant servSock s) (hg : Succeeds s a)
    (hs : step servSock s a = some t) : Succeeded t t.pc := by
  cases step_move hs with
  | acceptFailed | accept => exact hg
  | readFailed => exact absurd rfl hg
  | eof i pc => exact ⟨Int.le_refl 0, (reading_watched h pc).1⟩
  | data i chunk pc => exact ⟨Int.natCast_nonneg _, (reading_watched h pc).1⟩
  | timeout pc =>
    simp only [pc]
    trivial
  | _ => trivial

/-- A call that has failed gives the next one a bad argument. -/
theorem failure_not_contained (hg : ¬ Succeeds s a) (hs : step servSock s a = some t) :
    ¬ Contained servSock t := by
  intro hc
  cases step_move hs with
  | acceptFailed i =>
    have hset := (hc.sets (-1) rfl).2.1
    omega
  | accept i fd _ low => exact hg ⟨low, (hc.sets fd rfl).2.2⟩
  | readFailed i =>
    have hlen := hc.writes (-1) rfl
    omega
  | eof | data => exact hg (by simp [Succeeds])
  | _ => exact hg trivial

theorem contained_of_succeeded (h : Invariant servSock s) (hlow : Low servSock s)
    (hok : Succeeded s s.pc) : Contained servSock s where
  sets := by
    intro fd hfd
    have hp := h.place
    cases hpc : s.pc with
    | accepted i clntSock =>
      rw [hpc] at hfd hok hp
      cases hfd
      exact ⟨.inr hp.2, hok⟩
    | _ => simp [hpc, setArgument] at hfd
  clears := by
    intro fd hfd
    have hp := h.place
    cases hpc : s.pc with
    | received i strLen =>
      rw [hpc] at hfd hok hp
      simp only [clrArgument, Option.mem_def, Option.ite_none_right_eq_some, Option.some.injEq]
        at hfd
      obtain ⟨-, rfl⟩ := hfd
      exact ⟨(h.settled (by simp [hpc]) i).mp hok.2, (h.low i hok.2).1, hlow i hok.2 hp.2⟩
    | _ => simp [hpc, clrArgument] at hfd
  writes := by
    intro len hlen
    cases hpc : s.pc with
    | received i strLen =>
      rw [hpc] at hlen hok
      simp only [writeLength, Option.mem_def, Option.ite_none_left_eq_some, Option.some.injEq]
        at hlen
      obtain ⟨-, rfl⟩ := hlen
      exact hok.1
    | _ => simp [hpc, writeLength] at hlen
  acceptFailed := by
    intro i hpc
    rw [hpc] at hok
    exact absurd hok.1 (by decide)
  readFailed := by
    intro i hpc
    rw [hpc] at hok
    exact absurd hok.1 (by decide)

theorem contained_start (servSock : Nat) (buf : List Byte) :
    Contained servSock (start servSock buf) :=
  contained_of_succeeded (invariant_start servSock buf) (by simp [Low, start]) trivial

/-- In every run of the server, failures stay local exactly as long as there is none. -/
theorem contained_iff_succeeds (servSock : Nat) (buf : List Byte) (labels : List Label)
    (t : Server) (hrun : run (step servSock) (start servSock buf) labels = some t) :
    Throughout (step servSock) (Contained servSock) (start servSock buf) labels ↔
      Along (step servSock) Succeeds (start servSock buf) labels := by
  have hpossible := along_of_run (P := fun _ => True)
    (throughout_invariant (fun _ _ _ _ _ => trivial) trivial labels) hrun
  refine throughout_iff_along_within
    (I := fun s => Contained servSock s → Invariant servSock s ∧ Low servSock s)
    (fun s a t hI hc _ hs => ?_) (fun s a hd hnone => by simp [hnone] at hd)
    (fun _ => ⟨invariant_start servSock buf, by simp [Low, start]⟩)
    (contained_start servSock buf) hpossible
  obtain ⟨hinv, hlow⟩ := hI hc
  by_cases hg : Succeeds s a
  · have hinv' := invariant_step s a t hinv hg hs
    have hlow' := low_step hlow hs
    exact ⟨fun _ => ⟨hinv', hlow'⟩,
      iff_of_true (contained_of_succeeded hinv' hlow' (succeeded_step hinv hg hs)) hg⟩
  · have hnot := failure_not_contained hg hs
    exact ⟨fun h => absurd h hnot, iff_of_false hnot hg⟩

/-- A run without a failure. -/
theorem contained_twoClients :
    Throughout (step 3) (Contained 3) (start 3 (List.replicate 100 0)) twoClients :=
  (contained_iff_succeeds 3 _ twoClients _ rfl).mpr succeeds_twoClients

/-- A failed `accept` makes -1 the next argument of `FD_SET`. -/
theorem failed_accept_not_contained : ¬ ∀ servSock buf labels t,
    run (step servSock) (start servSock buf) labels = some t →
      Throughout (step servSock) (Contained servSock) (start servSock buf) labels := by
  intro h
  have hall := h 3 (List.replicate 100 0)
    [.ready {3}, .next, .next, .next, .next, .accept (-1)] _ rfl
  exact absurd ((hall.last rfl).sets (-1) rfl).2.1 (by decide)

end NetworkProgramming.SelectFailures
