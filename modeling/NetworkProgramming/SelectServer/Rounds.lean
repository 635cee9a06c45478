import NetworkProgramming.Library.Progress
import NetworkProgramming.SelectServer.Watched

/-!
# A pass of the select server

What happens between two calls of `select`: how many steps it takes at most, and in
which order the reported descriptors are served. No pass goes on for ever, so every
reported descriptor has its turn.
-/
namespace NetworkProgramming.SelectRounds

open Buffer Transition SelectLoop SelectWatched

/-- The steps of a pass, with calls that succeed. -/
def InPass (s : Server) (a : Label) : Prop :=
  Succeeds s a ∧
    match a with
    | .timeout | .selectError | .ready _ => False
    | .accept _ | .read _ | .next => True

instance (s : Server) : DecidablePred (InPass s)
  | .timeout | .selectError | .ready _ => isFalse fun h => h.2
  | .accept fd => inferInstanceAs (Decidable (Succeeds s (.accept fd) ∧ True))
  | .read res => inferInstanceAs (Decidable (Succeeds s (.read res) ∧ True))
  | .next => inferInstanceAs (Decidable (Succeeds s .next ∧ True))

/-- Above every descriptor that is scanned. -/
def limit (servSock : Nat) : Int := max fdSetSize (servSock + 1)

/-- The steps of the pass that are left, three for each descriptor. -/
def left (servSock : Nat) : Pc → Nat
  | .top | .ended => 0
  | .scan i => 3 * (limit servSock - i).toNat + 1
  | .accept i | .read i => 3 * (limit servSock - i).toNat
  | .accepted i _ | .received i _ => 3 * (limit servSock - i).toNat - 1

def InSet (fd : Int) : Prop := 0 ≤ fd ∧ fd < fdSetSize

/-- Every descriptor that `accept` could return is in use. -/
def Full (servSock : Nat) (s : Server) : Prop :=
  ∀ fd, InSet fd → fd ≠ servSock → s.connection fd ≠ none

/-- Each descriptor of the last report was served once, from the lowest to the highest. -/
structure Swept (s : Server) : Prop where
  ascending : s.handled.Pairwise (· < ·)
  reported : ∀ fd, fd ∈ s.handled ↔ fd ∈ s.reported

/-- However the pass goes on from here, it comes back to the top of the main loop, unless every
descriptor that `accept` could return is in use, and has then handled what `select` reported,
each descriptor once. -/
structure PassEnds (servSock : Nat) (s : Server) : Prop where
  bounded : ∀ rest t, Along (step servSock) InPass s rest → run (step servSock) s rest = some t →
    rest.length ≤ 3 * (limit servSock).toNat + 1
  ends : ∀ rest t, Along (step servSock) InPass s rest → run (step servSock) s rest = some t →
    s.pc ≠ .ended → Stuck (step servSock) InPass t →
      (t.pc = .top ∧ t.handled.Nodup ∧ ∀ d, d ∈ t.handled ↔ d ∈ s.reported) ∨
        (∃ i, t.pc = .accept i) ∧ Full servSock t

/-- The descriptors in use at this place are below the limit. -/
def Placed (servSock : Nat) : Pc → Prop
  | .top | .ended => True
  | .scan i => 0 ≤ i
  | .accept i | .read i | .received i _ => 0 ≤ i ∧ i < limit servSock
  | .accepted i clntSock => (0 ≤ i ∧ i < limit servSock) ∧ InSet clntSock

structure Orderly (servSock : Nat) (s : Server) : Prop where
  invariant : Invariant servSock s
  fdMax : s.fdMax < limit servSock
  ascending : s.handled.Pairwise (· < ·)
  placed : Placed servSock s.pc

variable {servSock : Nat} {s t : Server} {a : Label}

theorem orderly_start (servSock : Nat) (buf : List Byte) :
    Orderly servSock (start servSock buf) :=
  ⟨invariant_start servSock buf, lt_max_of_lt_right (Int.lt_succ _), .nil, trivial⟩

/-- What is served next lies above everything that was served in this pass. -/
theorem Orderly.serve {i : Int} (h : Orderly servSock s) (hpass : Pass servSock s i) :
    (s.handled ++ [i]).Pairwise (· < ·) := by
  rw [List.pairwise_append]
  refine ⟨h.ascending, List.pairwise_singleton _ i, fun d hd j hj => ?_⟩
  rw [List.mem_singleton.mp hj]
  exact ((hpass.handled d).mp hd).2

theorem Orderly.serving {i : Int} (h : Orderly servSock s) (pc : s.pc = .scan i)
    (hpass : Pass servSock s i) (hi : i ∈ s.reported) : 0 ≤ i ∧ i < limit servSock := by
  have h0 := h.placed
  rw [pc] at h0
  exact ⟨h0, Int.lt_of_le_of_lt (hpass.low i hi) h.fdMax⟩

theorem Orderly.step (h : Orderly servSock s) (hg : Succeeds s a)
    (hs : SelectLoop.step servSock s a = some t) : Orderly servSock t := by
  have hI := invariant_step s a t h.invariant hg hs
  have hp := h.invariant.place
  have hplaced := h.placed
  cases step_move hs with
  | timeout pc => exact ⟨hI, h.fdMax, h.ascending, hplaced⟩
  | selectError pc => exact ⟨hI, h.fdMax, h.ascending, trivial⟩
  | ready fds pc _ watched _ => exact ⟨hI, h.fdMax, .nil, Int.le_refl 0⟩
  | acceptFailed => exact absurd hg.1 (by omega)
  | accept i fd pc =>
    rw [pc] at hp hplaced
    exact ⟨hI, h.fdMax, h.serve hp.1, hplaced, hg⟩
  | readFailed => exact absurd rfl hg
  | eof i pc | data i _ pc =>
    rw [pc] at hp hplaced
    exact ⟨hI, h.fdMax, h.serve hp.1, hplaced⟩
  | skip i pc =>
    rw [pc] at hplaced
    exact ⟨hI, h.fdMax, h.ascending, Int.le_add_one hplaced⟩
  | listener pc set | client _ pc set =>
    rw [pc] at hp
    exact ⟨hI, h.fdMax, h.ascending, h.serving pc hp (hp.copied ▸ set)⟩
  | passDone i pc => exact ⟨hI, h.fdMax, h.ascending, trivial⟩
  | watch i fd pc _ high =>
    rw [pc] at hplaced
    refine ⟨hI, ?_, h.ascending, Int.le_add_one hplaced.1.1⟩
    split
    · exact lt_max_of_lt_left high
    · exact h.fdMax
  | close i pc | echo i _ pc =>
    rw [pc] at hplaced
    exact ⟨hI, h.fdMax, h.ascending, Int.le_add_one hplaced.1⟩

/-- The loop goes on only below `fd_max + 1`. -/
theorem scan_next {i : Int} (pc : s.pc = .scan i) (hs : next servSock s = some t) :
    i < s.fdMax + 1 ∨ t.pc = .top := by
  by_cases hi : i < s.fdMax + 1
  · exact .inl hi
  · simp only [next, pc, hi, if_false, Option.some.injEq] at hs
    exact .inr (hs ▸ rfl)

theorem Orderly.left_step (h : Orderly servSock s) (hg : InPass s a)
    (hs : SelectLoop.step servSock s a = some t) : left servSock t.pc < left servSock s.pc := by
  have hplaced := h.placed
  have hmax := h.fdMax
  obtain ⟨hsucceeds, hpass⟩ := hg
  cases step_move hs with
  | timeout | selectError | ready => exact hpass.elim
  | acceptFailed => exact absurd hsucceeds.1 (by omega)
  | readFailed => exact absurd rfl hsucceeds
  | accept i fd pc | eof i pc | data i _ pc =>
    rw [pc] at hplaced ⊢
    simp only [Placed, left] at hplaced ⊢
    omega
  | skip i pc =>
    have hi := (scan_next pc hs).resolve_right (by simp)
    rw [pc]
    simp only [left]
    omega
  | listener pc | client i pc =>
    rw [pc]
    simp only [left]
    omega
  | passDone i pc =>
    rw [pc]
    simp only [left]
    omega
  | watch i fd pc | close i pc | echo i _ pc =>
    rw [pc] at hplaced ⊢
    simp only [Placed, left] at hplaced ⊢
    omega

theorem Orderly.left_le (h : Orderly servSock s) :
    left servSock s.pc ≤ 3 * (limit servSock).toNat + 1 := by
  have hplaced := h.placed
  cases pc : s.pc <;> rw [pc] at hplaced <;> simp only [Placed, InSet, left] at hplaced ⊢ <;> omega

/-- Only the end of the pass stops the server, or the lack of a descriptor. -/
theorem Orderly.stuck (h : Orderly servSock s) (hloop : s.pc ≠ .ended)
    (hstuck : Stuck (SelectLoop.step servSock) InPass s) :
    s.pc = .top ∨ (∃ i, s.pc = .accept i) ∧ Full servSock s := by
  cases pc : s.pc with
  | top => exact .inl rfl
  | ended => exact absurd pc hloop
  | scan i =>
    have hnext := hstuck .next ⟨trivial, trivial⟩
    simp only [SelectLoop.step, next, pc] at hnext
    split at hnext
    · split at hnext
      · split at hnext
        all_goals cases hnext
      · cases hnext
    · cases hnext
  | accept i =>
    refine .inr ⟨⟨i, rfl⟩, fun fd hfd hne hfree => ?_⟩
    have haccept := hstuck (.accept fd) ⟨hfd, trivial⟩
    have hfail : fd ≠ -1 := by
      rintro rfl
      exact absurd hfd.1 (by decide)
    simp [SelectLoop.step, accept, pc, hfail, hfd.1, hne, hfree] at haccept
  | accepted i fd =>
    have hplaced := h.placed
    rw [pc] at hplaced
    have hnext := hstuck .next ⟨trivial, trivial⟩
    simp [SelectLoop.step, next, pc, hplaced.2.1, hplaced.2.2] at hnext
  | read i =>
    have hread := hstuck (.read .eof) ⟨by simp [Succeeds], trivial⟩
    simp [SelectLoop.step, SelectLoop.read, pc] at hread
  | received i n =>
    have hnext := hstuck .next ⟨trivial, trivial⟩
    simp only [SelectLoop.step, next, pc] at hnext
    split at hnext
    all_goals cases hnext

/-- A pass neither ends the server nor changes what `select` has reported. -/
theorem inPass_step (hg : InPass s a) (hs : SelectLoop.step servSock s a = some t) :
    (t.pc = .ended → s.pc = .ended) ∧ t.reported = s.reported := by
  cases step_move hs with
  | timeout | selectError | ready => exact hg.2.elim
  | _ => exact ⟨by simp, rfl⟩

/-- How the pass goes on from an orderly state. -/
theorem Orderly.goesOn (h : Orderly servSock s) {rest : List Label}
    (hrest : Along (SelectLoop.step servSock) InPass s rest)
    (ht : run (SelectLoop.step servSock) s rest = some t) :
    rest.length ≤ 3 * (limit servSock).toNat + 1 ∧ Orderly servSock t ∧
      (t.pc = .ended → s.pc = .ended) ∧ t.reported = s.reported := by
  have hstep : ∀ s a t, Orderly servSock s → InPass s a → SelectLoop.step servSock s a = some t →
      Orderly servSock t ∧ left servSock t.pc < left servSock s.pc :=
    fun _ _ _ h hg hs => ⟨h.step hg.1 hs, h.left_step hg hs⟩
  refine ⟨?_, run_of_step (fun s a t h hg hs => (hstep s a t h hg hs).1) h hrest ht, ?_⟩
  · have hlength := length_le_of_lowers hstep h hrest ht
    have hle := h.left_le
    omega
  · have hkept := run_of_step (I := fun u => (u.pc = .ended → s.pc = .ended) ∧
        u.reported = s.reported) (fun u a v hu hg hv => ?_) ⟨id, rfl⟩ hrest ht
    · exact hkept
    · obtain ⟨hended, hreported⟩ := inPass_step hg hv
      exact ⟨fun hv => hu.1 (hended hv), hreported.trans hu.2⟩

/-- At the top of the main loop the last pass has served what was reported, from the lowest
descriptor to the highest. -/
theorem Orderly.served (h : Orderly servSock s) (pc : s.pc = .top) : Swept s :=
  ⟨h.ascending, (h.invariant.result.once pc).2⟩

theorem Orderly.passEnds (h : Orderly servSock s) : PassEnds servSock s where
  bounded := fun rest t hrest ht => (h.goesOn hrest ht).1
  ends := by
    intro rest t hrest ht hloop hstuck
    obtain ⟨-, hI, hended, hreported⟩ := h.goesOn hrest ht
    refine (hI.stuck (fun hpc => hloop (hended hpc)) hstuck).imp_left fun hpc => ?_
    rw [← hreported]
    exact ⟨hpc, hI.invariant.result.once hpc⟩

/-- In every run whose system calls succeed: at the top of the main loop the
watched set is the listener with the open clients, none above `fd_max`; every pass ends
and handles every reported descriptor once; a `read` is made on the connection that
`select` reported. -/
theorem watched_throughout (servSock : Nat) (buf : List Byte) (as : List Label)
    (hg : Along (step servSock) Succeeds (start servSock buf) as) :
    Throughout (step servSock) (fun s => Watched servSock s ∧ PassEnds servSock s)
      (start servSock buf) as :=
  (throughout_of_step (fun _ _ _ h hg hs => h.step hg hs) (orderly_start servSock buf) hg).mono
    fun _ h => ⟨h.invariant.result, h.passEnds⟩

theorem watched_twoClients :
    ∃ t, run (step 3) (start 3 (List.replicate 100 0)) twoClients = some t ∧
      t.pc = .top ∧ t.handled = [4, 5] ∧
      Throughout (step 3) (fun s => Watched 3 s ∧ PassEnds 3 s)
        (start 3 (List.replicate 100 0)) twoClients :=
  ⟨_, rfl, rfl, rfl, watched_throughout 3 _ twoClients succeeds_twoClients⟩

/-- From every state of the main loop that the server reaches with calls that succeed, it goes
on for at most three steps for each descriptor of the set until it calls `select` again, unless
`accept` is called and there is no descriptor left for a new client, and it has then served each
reported descriptor once, in ascending order. -/
theorem pass_ends (hserv : (servSock : Int) < fdSetSize) (buf : List Byte) (as : List Label)
    (hg : Along (step servSock) Succeeds (start servSock buf) as)
    (hrun : run (step servSock) (start servSock buf) as = some s) (rest : List Label) (t : Server)
    (hrest : Along (step servSock) InPass s rest) (ht : run (step servSock) s rest = some t) :
    rest.length ≤ 3 * fdSetSize.toNat + 1 ∧
      (s.pc ≠ .ended → Stuck (step servSock) InPass t →
        t.pc = .top ∧ Swept t ∨ (∃ i, t.pc = .accept i) ∧ Full servSock t) := by
  have hI : Orderly servSock s :=
    run_of_step (fun _ _ _ h hg hs => h.step hg hs) (orderly_start servSock buf) hg hrun
  obtain ⟨hlength, hI', hended, -⟩ := hI.goesOn hrest ht
  have hlimit : limit servSock = fdSetSize := max_eq_left (Int.add_one_le_of_lt hserv)
  rw [hlimit] at hlength
  refine ⟨hlength, fun hloop hstuck => ?_⟩
  exact (hI'.stuck (fun hpc => hloop (hended hpc)) hstuck).imp_left fun pc => ⟨pc, hI'.served pc⟩

/-- The listener is ready, and a client comes as descriptor 4. -/
theorem pass_ends_oneClient :
    ∃ s t : Server, run (step 3) (start 3 (List.replicate 100 0)) [.ready {3}] = some s ∧
      run (step 3) s [.next, .next, .next, .next, .accept 4, .next, .next, .next] = some t ∧
      t.pc = .top ∧ Swept t := by
  have hg : Along (step 3) Succeeds (start 3 (List.replicate 100 0)) [.ready {3}] := by decide
  refine ⟨_, _, rfl, rfl, rfl, ?_⟩
  have hends := (pass_ends (by decide) (List.replicate 100 0) [.ready {3}] hg rfl
    [.next, .next, .next, .next, .accept 4, .next, .next, .next] _ (by decide) rfl).2
    (by simp) ?_
  · exact (hends.resolve_right (by simp)).2
  · intro a ha
    cases a with
    | next => rfl
    | accept | read => rfl
    | timeout | selectError | ready => exact ha.2.elim

end NetworkProgramming.SelectRounds
