import NetworkProgramming.Library.Transition
import NetworkProgramming.ForkServer.Tables

/-!
# The children of the calculator and of the file service

Both leave their child's branch at its end without leaving the process: the child
comes to the head of the loop and calls `accept` like its parent.
-/
namespace NetworkProgramming.ForkServer

open Transition

variable {π : Type} {P : Program π} {servSock : Nat} {s t : State π} {k : Nat} {a : Label}

/-- A child's place between `fork` and the close of its connection. -/
def AtWork : Pc π → Prop
  | .closeListener | .serve true _ => True
  | _ => False

/-- Only the original parent calls `accept`, and every child works on a connection that
it holds or has exited. -/
structure ServesOne (s : State π) : Prop where
  accepts : ∀ k, (s.procs k).pc = .accept → k = 0
  works : ∀ k, k ≠ 0 → k < s.forks →
    (AtWork (s.procs k).pc ∧ ∃ c, (s.procs k).client = some c ∧ Holds s k c) ∨
      (s.procs k).pc = .exited

/-- The child does not close its connection in this step, unless it exits. -/
def Stays (P : Program π) (s : State π) : Label → Prop
  | .serve k n => ∀ p, (s.procs k).pc = .serve true p →
      P.step p n ≠ some .loop ∧ ∀ q, P.step p n ≠ some (.close q)
  | _ => True

theorem hasConn_of_atWork {pc : Pc π} (h : AtWork pc) : HasConn pc := by
  cases pc with
  | closeListener => trivial
  | serve held p => cases held <;> trivial
  | _ => exact h.elim

/-- What a child at work holds follows from the tables. -/
theorem Tables.servesOne_iff (h : Tables servSock s) :
    ServesOne s ↔ ∀ k, k ≠ 0 → k < s.forks →
      AtWork (s.procs k).pc ∨ (s.procs k).pc = .exited := by
  constructor
  · intro hs k hk hforks
    exact (hs.works k hk hforks).imp_left And.left
  · intro hall
    refine ⟨fun k hpc => ?_, fun k hk hforks => (hall k hk hforks).imp_left fun hw => ?_⟩
    · by_contra hk
      rcases hall k hk (h.lt_forks (by simp [hpc])) with hw | he
      · simp [hpc, AtWork] at hw
      · simp [hpc] at he
    · obtain ⟨c, hc, -⟩ := h.client k (hasConn_of_atWork hw)
      exact ⟨hw, c, hc, h.holds_iff.mpr ⟨hasConn_of_atWork hw, hc⟩⟩

theorem Tables.onlyParent (h : Tables servSock s) (hs : ServesOne s) : OnlyParent s := by
  intro k hk hloop
  by_cases hforks : k < s.forks
  · rcases h.servesOne_iff.mp hs k hk hforks with hw | he
    · cases hpc : (s.procs k).pc <;> simp_all [AtWork, InLoop]
    · simp [he, InLoop] at hloop
  · rw [h.unborn k (by omega)] at hloop
    exact hloop.elim

/-- One process changes its place and is still at work or has exited, if it is a child. -/
theorem servesOne_set {p : Process π} {n : Nat} (h : Tables servSock s) (hs : ServesOne s)
    (ht : Tables servSock { s.set k p with connections := n })
    (hp : k ≠ 0 → AtWork p.pc ∨ p.pc = .exited) :
    ServesOne { s.set k p with connections := n } :=
  ht.servesOne_iff.mpr <| (Function.forall_update_iff s.procs fun j q =>
    j ≠ 0 → j < s.forks → AtWork q.pc ∨ q.pc = .exited).mpr
      ⟨fun hk _ => hp hk, fun j _ => h.servesOne_iff.mp hs j⟩

/-- A step leads out of the property exactly when a child closes its connection and
goes on. -/
theorem servesOne_step (h : Tables servSock s) (hs : ServesOne s) (hm : Move P servSock s a t) :
    ServesOne t ↔ Stays P s a := by
  have ho := h.onlyParent hs
  have ht := h.step ho hm
  have hchild : ∀ {k p held}, (s.procs k).pc = .serve held p →
      k ≠ 0 ∧ k < s.forks ∧ held = true := by
    intro k p held hpc
    have hk := h.ne_zero (k := k) (by simp [hpc, InLoop])
    have hforks := h.lt_forks (k := k) (by simp [hpc])
    refine ⟨hk, hforks, ?_⟩
    have hw := h.servesOne_iff.mp hs k hk hforks
    cases held <;> simp [hpc, AtWork] at hw ⊢
  cases hm with
  | acceptFails => exact iff_of_true hs trivial
  | accept k fd pc | forkFails k pc | parentClose k pc =>
    have hk := ho.eq_zero (k := k) (by simp [pc, InLoop])
    exact iff_of_true (servesOne_set h hs ht fun h0 => absurd hk h0) trivial
  | fork k pc =>
    refine iff_of_true (ht.servesOne_iff.mpr fun j hj hforks => ?_) trivial
    have hk := ho.eq_zero (k := k) (by simp [pc, InLoop])
    by_cases hnew : j = s.forks
    · simp [State.set, hnew, AtWork]
    · have hlt : j < s.forks := by
        simp only at hforks
        omega
      have hjk : j ≠ k := hk ▸ hj
      simpa [State.set, Function.update_of_ne hnew, Function.update_of_ne hjk]
        using h.servesOne_iff.mp hs j hj hlt
  | closeListener k pc =>
    exact iff_of_true (servesOne_set h hs ht fun _ => .inl trivial) trivial
  | serve k n held p q pc next =>
    obtain ⟨hk, hforks, rfl⟩ := hchild pc
    refine iff_of_true (servesOne_set h hs ht fun _ => .inl trivial) fun p' hp' => ?_
    obtain ⟨-, rfl⟩ := Pc.serve.inj (pc.symm.trans hp')
    simp [next]
  | close k n held p q pc next =>
    obtain ⟨hk, hforks, rfl⟩ := hchild pc
    refine iff_of_false (fun hs' => ?_) fun hstays => (hstays p pc).2 q next
    simpa [State.set, AtWork] using ht.servesOne_iff.mp hs' k hk hforks
  | loop k n held p pc next =>
    obtain ⟨hk, hforks, rfl⟩ := hchild pc
    refine iff_of_false (fun hs' => ?_) fun hstays => (hstays p pc).1 next
    simpa [State.set, AtWork] using ht.servesOne_iff.mp hs' k hk hforks
  | exit k n held p pc next =>
    obtain ⟨hk, hforks, rfl⟩ := hchild pc
    refine iff_of_true (servesOne_set h hs ht fun _ => .inr rfl) fun p' hp' => ?_
    obtain ⟨-, rfl⟩ := Pc.serve.inj (pc.symm.trans hp')
    simp [next]
  | kill => exact iff_of_true (servesOne_set h hs ht fun _ => .inr rfl) trivial

theorem stays_of_none (s : State π) (a : Label) (hs : step P servSock s a = none) :
    Stays P s a := by
  cases a with
  | serve k n =>
    intro p hpc
    simp only [step, serveStep, hpc, Option.map_eq_none_iff] at hs
    simp [hs]
  | _ => trivial

theorem servesOne_iff_stays (P : Program π) (servSock : Nat) (opened : List Nat)
    (as : List Label) :
    Throughout (step P servSock) ServesOne (start servSock opened) as ↔
      Along (step P servSock) (Stays P) (start servSock opened) as := by
  have h₀ : Tables servSock (start servSock opened : State π) := tables_start servSock opened
  apply throughout_iff_along _ stays_of_none h₀
  · rw [h₀.servesOne_iff]
    intro k hk hforks
    simp only [start] at hforks
    omega
  · intro s a t h hs hstep
    have hm := step_move hstep
    exact ⟨h.step (h.onlyParent hs) hm, servesOne_step h hs hm⟩

/-- No `recv` of a calculating child returns 0. -/
def NoEndOfStream (s : State CalcPc) : Label → Prop
  | .serve k n => (s.procs k).pc = .serve true .recv → n ≠ 0
  | _ => True

/-- No child of the file service comes to the end of its notice of a missing file, nor of
the `read` behind a transfer. -/
def NoEndOfTransfer (s : State FilePc) : Label → Prop
  | .serve k _ => (s.procs k).pc ≠ .serve true .notice ∧ (s.procs k).pc ≠ .serve true .read
  | _ => True

theorem stays_calc : Stays calcService = NoEndOfStream := by
  funext s a
  cases a with
  | serve k n =>
    apply propext
    constructor
    · rintro h hpc rfl
      exact (h _ hpc).1 rfl
    · intro h p hpc
      cases p with
      | recv => simp [calcService, h hpc]
      | send =>
        simp only [calcService]
        split <;> simp
  | _ => rfl

theorem stays_file : Stays fileService = NoEndOfTransfer := by
  funext s a
  cases a with
  | serve k n =>
    apply propext
    constructor
    · intro h
      exact ⟨fun hpc => (h _ hpc).2 _ rfl, fun hpc => (h _ hpc).1 rfl⟩
    · rintro ⟨hnotice, hread⟩ p hpc
      cases p with
      | notice => exact absurd hpc hnotice
      | read => exact absurd hpc hread
      | fread fp =>
        cases fp with
        | null => simp [fileService]
        | _ =>
          simp only [fileService]
          split <;> simp
      | fopen =>
        simp only [fileService]
        split <;> simp
      | _ => simp [fileService]
  | _ => rfl

/-- In every state only the parent accepts, and the children work or have exited, exactly
as long as no child finishes its client. -/
theorem servesOne_throughout_iff (servSock : Nat) (opened : List Nat) (as : List Label) :
    (Throughout (step calcService servSock) ServesOne (start servSock opened) as ↔
      Along (step calcService servSock) NoEndOfStream (start servSock opened) as) ∧
    (Throughout (step fileService servSock) ServesOne (start servSock opened) as ↔
      Along (step fileService servSock) NoEndOfTransfer (start servSock opened) as) := by
  rw [← stays_calc, ← stays_file]
  exact ⟨servesOne_iff_stays calcService servSock opened as,
    servesOne_iff_stays fileService servSock opened as⟩

/-- A client of the calculator leaves, and its child calls `accept`. -/
theorem child_accepts :
    ¬ ∀ servSock opened as,
      Throughout (step calcService servSock) ServesOne (start servSock opened) as ∧
        Throughout (step fileService servSock) ServesOne (start servSock opened) as := by
  intro h
  have hs := (h 3 [] [.accept 0 (some 4), .fork 0 true, .closeListener 1, .serve 1 0]).1.last rfl
  exact absurd (hs.accepts 1 rfl) (by decide)

end NetworkProgramming.ForkServer
