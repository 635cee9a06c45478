import NetworkProgramming.SelectServer.Loop

/-!
# What the select server watches

Every open client is watched, and a pass handles each reported descriptor once,
on the connection that was reported. A descriptor that is still to be handled is
open, so `accept` cannot give its number to a new connection before its turn.
-/
namespace NetworkProgramming.SelectWatched

open Buffer Transition SelectLoop

/-- `accept` gives a descriptor that fits into an `fd_set`, and `read` does not fail. -/
def Succeeds (_ : Server) : Label → Prop
  | .accept fd => 0 ≤ fd ∧ fd < fdSetSize
  | .read res => res ≠ .error
  | _ => True

instance : ∀ (s : Server) (a : Label), Decidable (Succeeds s a)
  | _, .accept fd => inferInstanceAs (Decidable (0 ≤ fd ∧ fd < fdSetSize))
  | _, .read res => inferInstanceAs (Decidable (res ≠ .error))
  | _, .timeout | _, .selectError | _, .ready _ | _, .next => inferInstanceAs (Decidable True)

/-- The watched set at the top of the main loop, what the last pass has handled
there, and the connection that a `read` is made on. -/
structure Watched (servSock : Nat) (s : Server) : Prop where
  exact : s.pc = .top → ∀ d, d ∈ s.reads ↔ d = servSock ∨ s.connection d ≠ none
  max : s.pc = .top → ∀ d ∈ s.reads, d ≤ s.fdMax
  once : s.pc = .top → s.handled.Nodup ∧ ∀ d, d ∈ s.handled ↔ d ∈ s.reported
  reported : ∀ i, s.pc = .read i → i ∈ s.reported ∧ s.reportedConnection i ≠ none ∧
    s.connection i = s.reportedConnection i

/-- In a pass that has reached the bound: the descriptors below it are handled,
and the clients from it on still have the connection that was reported. -/
structure Pass (servSock : Nat) (s : Server) (bound : Int) : Prop where
  copied : s.cpyReads = s.reported
  low : ∀ d ∈ s.reported, d ≤ s.fdMax
  nodup : s.handled.Nodup
  handled : ∀ d, d ∈ s.handled ↔ d ∈ s.reported ∧ d < bound
  waiting : ∀ d ∈ s.reported, bound ≤ d → d ≠ servSock →
    s.reportedConnection d ≠ none ∧ s.connection d = s.reportedConnection d

def AtPc (servSock : Nat) (s : Server) : Pc → Prop
  | .top => s.handled.Nodup ∧ ∀ d, d ∈ s.handled ↔ d ∈ s.reported
  | .scan i => Pass servSock s i
  | .accept i => Pass servSock s i ∧ i ∈ s.reported
  | .accepted i fd => Pass servSock s (i + 1) ∧ s.connection fd ≠ none
  | .read i => Pass servSock s i ∧ i ∈ s.reported ∧ i ≠ servSock
  | .received i _ => Pass servSock s (i + 1) ∧ i ≠ servSock
  | .ended => True

structure Invariant (servSock : Nat) (s : Server) : Prop where
  listener : s.connection servSock = none
  low : ∀ d ∈ s.reads, 0 ≤ d ∧ d ≤ s.fdMax
  /-- Between `accept` and `FD_SET` the new client is open and not yet watched. -/
  watched : ∀ d, d ∈ s.reads ↔ d = servSock ∨ (s.connection d ≠ none ∧
    ∀ i, s.pc ≠ .accepted i d)
  place : AtPc servSock s s.pc

theorem invariant_start (servSock : Nat) (buf : List Byte) :
    Invariant servSock (start servSock buf) where
  listener := rfl
  low := by simp [start]
  watched := by simp [start]
  place := by simp [start, AtPc]

theorem Invariant.result {servSock : Nat} {s : Server} (h : Invariant servSock s) :
    Watched servSock s where
  exact := by
    intro hpc d
    rw [h.watched d]
    simp [hpc]
  max := fun _ d hd => (h.low d hd).2
  once := by
    intro hpc
    have hp := h.place
    rwa [hpc] at hp
  reported := by
    intro i hpc
    have hp := h.place
    rw [hpc] at hp
    obtain ⟨hpass, hi, hne⟩ := hp
    exact ⟨hi, hpass.waiting i hi (Int.le_refl i) hne⟩

section Passes
variable {servSock : Nat} {s : Server} {i : Int}

/-- A descriptor that was not reported is passed over. -/
theorem Pass.skip (h : Pass servSock s i) (hi : i ∉ s.cpyReads) : Pass servSock s (i + 1) where
  copied := h.copied
  low := h.low
  nodup := h.nodup
  handled := by
    intro d
    rw [h.handled d]
    apply and_congr_right
    intro hd
    have hne : d ≠ i := by
      rintro rfl
      exact hi (h.copied ▸ hd)
    omega
  waiting := fun d hd hb => h.waiting d hd (by omega)

/-- A reported descriptor is handled at its turn, for the first time. -/
theorem Pass.handle {t : Server} (h : Pass servSock s i) (hi : i ∈ s.reported)
    (hcopy : t.cpyReads = s.cpyReads) (hreported : t.reported = s.reported)
    (hmax : t.fdMax = s.fdMax) (hhandled : t.handled = s.handled ++ [i])
    (hconn : t.reportedConnection = s.reportedConnection)
    (hopen : ∀ d, s.connection d ≠ none → t.connection d = s.connection d) :
    Pass servSock t (i + 1) where
  copied := by rw [hcopy, hreported, h.copied]
  low := by simpa only [hreported, hmax] using h.low
  nodup := by
    have hnew : i ∉ s.handled := fun hm => by
      have := ((h.handled i).mp hm).2
      omega
    rw [hhandled, List.nodup_append_comm]
    exact List.nodup_cons.mpr ⟨hnew, h.nodup⟩
  handled := by
    intro d
    rw [hhandled, hreported, List.mem_append, List.mem_singleton, h.handled d]
    constructor
    · rintro (⟨hd, hb⟩ | rfl)
      · exact ⟨hd, by omega⟩
      · exact ⟨hi, by omega⟩
    · rintro ⟨hd, hb⟩
      by_cases hdi : d = i
      · exact .inr hdi
      · exact .inl ⟨hd, by omega⟩
  waiting := by
    intro d hd hb hne
    rw [hreported] at hd
    obtain ⟨hsome, heq⟩ := h.waiting d hd (by omega) hne
    rw [hconn]
    refine ⟨hsome, ?_⟩
    rw [hopen d (heq ▸ hsome), heq]

/-- Watching a new client or closing one that had its turn leaves the rest of the pass. -/
theorem Pass.change {t : Server} (h : Pass servSock s i) (hcopy : t.cpyReads = s.cpyReads)
    (hreported : t.reported = s.reported) (hmax : s.fdMax ≤ t.fdMax)
    (hhandled : t.handled = s.handled)
    (hconn : t.reportedConnection = s.reportedConnection)
    (hopen : ∀ d, i ≤ d → t.connection d = s.connection d) : Pass servSock t i where
  copied := by rw [hcopy, hreported, h.copied]
  low := by
    intro d hd
    have := h.low d (hreported ▸ hd)
    omega
  nodup := hhandled ▸ h.nodup
  handled := by simpa only [hhandled, hreported] using h.handled
  waiting := by
    intro d hd hb hne
    rw [hconn, hopen d hb]
    exact h.waiting d (hreported ▸ hd) hb hne

/-- At the end of the pass every reported descriptor is below the bound. -/
theorem Pass.done (h : Pass servSock s i) (hi : ¬ i < s.fdMax + 1) :
    s.handled.Nodup ∧ ∀ d, d ∈ s.handled ↔ d ∈ s.reported := by
  refine ⟨h.nodup, fun d => ?_⟩
  rw [h.handled d]
  apply and_iff_left_of_imp
  intro hd
  have := h.low d hd
  omega

end Passes

section Steps
variable {servSock : Nat} {s t : Server}

theorem Invariant.settled (h : Invariant servSock s) (hpc : ∀ i d, s.pc ≠ .accepted i d) (d : Int) :
    d ∈ s.reads ↔ d = servSock ∨ s.connection d ≠ none := by
  rw [h.watched d]
  simp [hpc]

/-- A step that opens, closes and watches nothing. -/
theorem Invariant.move (h : Invariant servSock s) (hpc : ∀ i d, s.pc ≠ .accepted i d)
    (hpc' : ∀ i d, t.pc ≠ .accepted i d) (hreads : t.reads = s.reads)
    (hmax : t.fdMax = s.fdMax) (hconn : t.connection = s.connection)
    (hplace : AtPc servSock t t.pc) : Invariant servSock t where
  listener := hconn ▸ h.listener
  low := by simpa only [hreads, hmax] using h.low
  watched := by
    intro d
    rw [hreads, hconn, h.settled hpc d]
    simp [hpc']
  place := hplace

/-- The new descriptor is none of those that wait for their turn. -/
theorem Invariant.accept (h : Invariant servSock s) {i fd : Int} (hpc : s.pc = .accept i)
    (hne : fd ≠ servSock) (hclosed : s.connection fd = none) :
    Invariant servSock { s with
      pc := .accepted i fd, handled := s.handled ++ [i]
      connection := Function.update s.connection fd (some s.accepted)
      accepted := s.accepted + 1 } where
  listener := (Function.update_of_ne (Ne.symm hne) _ _).trans h.listener
  low := h.low
  watched := by
    intro d
    rw [h.settled (by simp [hpc]) d]
    by_cases hd : d = fd
    · subst hd
      simp [hne, hclosed]
    · simp [Function.update_of_ne hd, Ne.symm hd]
  place := by
    have hp := h.place
    rw [hpc] at hp
    refine ⟨hp.1.handle hp.2 rfl rfl rfl rfl rfl ?_, by simp⟩
    intro d hd
    apply Function.update_of_ne
    rintro rfl
    exact hd hclosed

theorem Invariant.watch (h : Invariant servSock s) {i fd : Int} (hpc : s.pc = .accepted i fd)
    (h0 : 0 ≤ fd) :
    Invariant servSock { s with
      reads := insert fd s.reads
      fdMax := if s.fdMax < fd then fd else s.fdMax
      pc := .scan (i + 1) } where
  listener := h.listener
  low := by
    intro d hd
    rcases Finset.mem_insert.mp hd with rfl | hd
    · simp only
      split <;> omega
    · have := h.low d hd
      simp only
      split <;> omega
  watched := by
    have hp := h.place
    rw [hpc] at hp
    intro d
    rw [Finset.mem_insert, h.watched d]
    by_cases hd : d = fd
    · subst hd
      simp [hp.2]
    · simp [hd, hpc, Ne.symm hd]
  place := by
    have hp := h.place
    rw [hpc] at hp
    refine hp.1.change rfl rfl ?_ rfl rfl fun _ _ => rfl
    simp only
    split <;> omega

/-- The closed client has had its turn. -/
theorem Invariant.close (h : Invariant servSock s) {i : Int} (hpc : s.pc = .received i 0) :
    Invariant servSock { s with
      reads := s.reads.erase i, connection := Function.update s.connection i none
      pc := .scan (i + 1) } := by
  have hp := h.place
  rw [hpc] at hp
  refine ⟨?_, fun d hd => h.low d (Finset.mem_of_mem_erase hd), ?_, ?_⟩
  · exact (Function.update_of_ne (Ne.symm hp.2) _ _).trans h.listener
  · intro d
    rw [Finset.mem_erase, h.settled (by simp [hpc]) d]
    by_cases hd : d = i
    · subst hd
      simp [hp.2]
    · simp [hd]
  · refine hp.1.change rfl rfl (Int.le_refl _) rfl rfl fun d hd => ?_
    exact Function.update_of_ne (by omega) _ _

/-- A pass starts with all reported descriptors before it, each of them open. -/
theorem Invariant.ready (h : Invariant servSock s) {fds : Finset Int} (hpc : s.pc = .top)
    (hsub : fds ⊆ s.reads) :
    Pass servSock { s with
      cpyReads := fds, pc := .scan 0
      reported := fds, reportedConnection := s.connection, handled := [] } 0 where
  copied := rfl
  low := fun d hd => (h.low d (hsub hd)).2
  nodup := List.nodup_nil
  handled := by
    intro d
    refine iff_of_false (by simp) ?_
    rintro ⟨hd, hneg⟩
    have := (h.low d (hsub hd)).1
    omega
  waiting := by
    intro d hd _ hne
    have hw := (h.settled (by simp [hpc]) d).mp (hsub hd)
    exact ⟨hw.resolve_left hne, rfl⟩

end Steps

/-- Every step whose system call succeeds preserves the invariant. -/
theorem invariant_step {servSock : Nat} (s : Server) (a : Label) (t : Server)
    (h : Invariant servSock s) (hg : Succeeds s a) (hs : step servSock s a = some t) :
    Invariant servSock t := by
  have hp := h.place
  cases step_move hs with
  | timeout pc =>
    refine h.move (by simp [pc]) (by simp [pc]) rfl rfl rfl ?_
    rw [pc] at hp ⊢
    exact hp
  | selectError pc => exact h.move (by simp [pc]) (by simp) rfl rfl rfl trivial
  | ready fds pc _ watched _ =>
    exact h.move (by simp [pc]) (by simp) rfl rfl rfl (h.ready pc watched)
  | acceptFailed => exact absurd hg.1 (by omega)
  | accept i fd pc _ other closed => exact h.accept pc other closed
  | readFailed => exact absurd rfl hg
  | eof i pc | data i _ pc =>
    rw [pc] at hp
    refine h.move (by simp [pc]) (by simp) rfl rfl rfl ⟨?_, hp.2.2⟩
    exact hp.1.handle hp.2.1 rfl rfl rfl rfl rfl fun _ _ => rfl
  | skip i pc unset =>
    rw [pc] at hp
    refine h.move (by simp [pc]) (by simp) rfl rfl rfl ?_
    exact (hp.skip unset).change rfl rfl (Int.le_refl _) rfl rfl fun _ _ => rfl
  | listener pc set =>
    rw [pc] at hp
    refine h.move (by simp [pc]) (by simp) rfl rfl rfl ⟨?_, hp.copied ▸ set⟩
    exact hp.change rfl rfl (Int.le_refl _) rfl rfl fun _ _ => rfl
  | client i pc set other =>
    rw [pc] at hp
    refine h.move (by simp [pc]) (by simp) rfl rfl rfl ⟨?_, hp.copied ▸ set, other⟩
    exact hp.change rfl rfl (Int.le_refl _) rfl rfl fun _ _ => rfl
  | passDone i pc behind =>
    rw [pc] at hp
    exact h.move (by simp [pc]) (by simp) rfl rfl rfl (hp.done behind)
  | watch i fd pc low => exact h.watch pc low
  | close i pc => exact h.close pc
  | echo i strLen pc =>
    rw [pc] at hp
    refine h.move (by simp [pc]) (by simp) rfl rfl rfl ?_
    exact hp.1.change rfl rfl (Int.le_refl _) rfl rfl fun _ _ => rfl

/-- Two clients come as descriptors 4 and 5, the second while the first is served. In the last
pass the first one leaves and the second is echoed. -/
def twoClients : List Label :=
  [.ready {3}, .next, .next, .next, .next, .accept 4, .next, .next, .next] ++
    [.timeout, .ready {3, 4}, .next, .next, .next, .next, .accept 5, .next, .next,
      .read (.data [104]), .next, .next, .next] ++
    [.ready {4, 5}, .next, .next, .next, .next, .next, .read .eof, .next, .next,
      .read (.data [105, 10]), .next, .next]

theorem succeeds_twoClients :
    Along (step 3) Succeeds (start 3 (List.replicate 100 0)) twoClients := by
  decide

end NetworkProgramming.SelectWatched
