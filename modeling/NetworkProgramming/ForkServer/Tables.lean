import NetworkProgramming.ForkServer.Services

/-!
# The descriptor tables of the forking servers

What the tables hold in the places of the code, as long as no child runs the
parent's part of the loop.
-/
namespace NetworkProgramming.ForkServer

variable {π : Type} {P : Program π} {servSock : Nat} {s t : State π} {k c : Nat} {a : Label}

/-- The places where `connFd` stands for an open connection. -/
def HasConn : Pc π → Prop
  | .fork | .parentClose | .closeListener | .serve true _ => True
  | _ => False

/-- The places of `main`'s loop outside the child's branch. -/
def InLoop : Pc π → Prop
  | .accept | .fork | .parentClose => True
  | _ => False

/-- No child runs the parent's part of the loop. -/
def OnlyParent (s : State π) : Prop := ∀ k, k ≠ 0 → ¬ InLoop (s.procs k).pc

def Holds (s : State π) (k c : Nat) : Prop := ∃ fd, (s.procs k).table fd = some (.conn c)

/-- What the descriptor tables hold as long as only the parent runs its part. -/
structure Tables (servSock : Nat) (s : State π) : Prop where
  unborn : ∀ k, s.forks ≤ k → s.procs k = unbornProcess
  born : 0 < s.forks
  parent : InLoop (s.procs 0).pc
  listening : ∀ k, k = 0 ∨ (s.procs k).pc = .closeListener →
    (s.procs k).table servSock = some .listener
  conns : ∀ k fd c, (s.procs k).table fd = some (.conn c) ↔
    HasConn (s.procs k).pc ∧ fd = (s.procs k).connFd ∧ (s.procs k).client = some c
  client : ∀ k, HasConn (s.procs k).pc → ∃ c, (s.procs k).client = some c ∧ c < s.connections

theorem Tables.holds_iff (h : Tables servSock s) :
    Holds s k c ↔ HasConn (s.procs k).pc ∧ (s.procs k).client = some c := by
  constructor
  · rintro ⟨fd, hfd⟩
    obtain ⟨hhas, -, hc⟩ := (h.conns k fd c).mp hfd
    exact ⟨hhas, hc⟩
  · rintro ⟨hhas, hc⟩
    exact ⟨_, (h.conns k _ c).mpr ⟨hhas, rfl, hc⟩⟩

/-- A process whose place is none of the unborn ones. -/
theorem Tables.lt_forks (h : Tables servSock s) (hpc : (s.procs k).pc ≠ .unborn) :
    k < s.forks := by
  by_contra hle
  exact hpc (by rw [h.unborn k (by omega)]; rfl)

theorem Tables.ne_zero (h : Tables servSock s) (hpc : ¬ InLoop (s.procs k).pc) : k ≠ 0 := by
  rintro rfl
  exact hpc h.parent

/-- The connection is not the listening socket. -/
theorem Tables.connFd_ne (h : Tables servSock s) (hhas : HasConn (s.procs k).pc)
    (hk : k = 0 ∨ (s.procs k).pc = .closeListener) : servSock ≠ (s.procs k).connFd := by
  obtain ⟨c, hc, -⟩ := h.client k hhas
  intro he
  have hconn := (h.conns k _ c).mpr ⟨hhas, rfl, hc⟩
  rw [← he, h.listening k hk] at hconn
  cases hconn

/-- After the close of `connFd` no connection is left in the table. -/
theorem Tables.close_connFd (h : Tables servSock s) (k fd c : Nat) :
    ((s.procs k).close (s.procs k).connFd).table fd ≠ some (.conn c) := by
  intro hfd
  simp only [Process.close] at hfd
  by_cases he : fd = (s.procs k).connFd
  · simp [he] at hfd
  · rw [Function.update_of_ne he] at hfd
    exact he ((h.conns k fd c).mp hfd).2.1

/-- A process changes. -/
theorem Tables.set (h : Tables servSock s) (hk : k < s.forks) {p : Process π} {n : Nat}
    (hn : s.connections ≤ n) (hparent : k = 0 → InLoop p.pc)
    (hlistening : k = 0 ∨ p.pc = .closeListener → p.table servSock = some .listener)
    (hconns : ∀ fd c, p.table fd = some (.conn c) ↔
      HasConn p.pc ∧ fd = p.connFd ∧ p.client = some c)
    (hclient : HasConn p.pc → ∃ c, p.client = some c ∧ c < n) :
    Tables servSock { s.set k p with connections := n } where
  unborn := by
    intro j hj
    exact (Function.update_of_ne (by simp only [State.set] at hj; omega) _ _).trans (h.unborn j hj)
  born := h.born
  parent := by
    by_cases h0 : k = 0
    · subst h0
      simpa [State.set] using hparent rfl
    · simpa [State.set, Function.update_of_ne (Ne.symm h0)] using h.parent
  listening := (Function.forall_update_iff s.procs fun j q =>
    j = 0 ∨ q.pc = .closeListener → q.table servSock = some .listener).mpr
    ⟨hlistening, fun j _ => h.listening j⟩
  conns := (Function.forall_update_iff s.procs fun j q => ∀ fd c, q.table fd = some (.conn c) ↔
    HasConn q.pc ∧ fd = q.connFd ∧ q.client = some c).mpr ⟨hconns, fun j _ => h.conns j⟩
  client := (Function.forall_update_iff s.procs fun j q =>
    HasConn q.pc → ∃ c, q.client = some c ∧ c < n).mpr
    ⟨hclient, fun j _ hj => (h.client j hj).imp fun c hc => ⟨hc.1, by omega⟩⟩

/-- A new process. -/
theorem Tables.join (h : Tables servSock s) {p : Process π}
    (hlistening : p.pc = .closeListener → p.table servSock = some .listener)
    (hconns : ∀ fd c, p.table fd = some (.conn c) ↔
      HasConn p.pc ∧ fd = p.connFd ∧ p.client = some c)
    (hclient : HasConn p.pc → ∃ c, p.client = some c ∧ c < s.connections) :
    Tables servSock { s.set s.forks p with forks := s.forks + 1 } where
  unborn := by
    intro j hj
    simp only at hj
    exact (Function.update_of_ne (by omega) _ _).trans (h.unborn j (by omega))
  born := Nat.succ_pos _
  parent := by
    have h0 : 0 ≠ s.forks := Nat.ne_of_lt h.born
    simpa [State.set, Function.update_of_ne h0] using h.parent
  listening := (Function.forall_update_iff s.procs fun j q =>
    j = 0 ∨ q.pc = .closeListener → q.table servSock = some .listener).mpr
    ⟨fun hj => hlistening (hj.resolve_left (Nat.ne_of_gt h.born)), fun j _ => h.listening j⟩
  conns := (Function.forall_update_iff s.procs fun j q => ∀ fd c, q.table fd = some (.conn c) ↔
    HasConn q.pc ∧ fd = q.connFd ∧ q.client = some c).mpr ⟨hconns, fun j _ => h.conns j⟩
  client := (Function.forall_update_iff s.procs fun j q =>
    HasConn q.pc → ∃ c, q.client = some c ∧ c < s.connections).mpr
    ⟨hclient, fun j _ => h.client j⟩

/-- A process closes its connection and goes on without one. -/
theorem Tables.close (h : Tables servSock s) (hk : k < s.forks) {pc : Pc π} (hpc : ¬ HasConn pc)
    (hchild : pc ≠ .closeListener) (h0 : k = 0 → InLoop pc ∧ HasConn (s.procs k).pc) :
    Tables servSock (s.set k { (s.procs k).close (s.procs k).connFd with pc := pc }) := by
  apply h.set hk (Nat.le_refl _) (fun hk0 => (h0 hk0).1)
  · rintro (hk0 | hcl)
    · have hne := h.connFd_ne (h0 hk0).2 (.inl hk0)
      exact (Function.update_of_ne hne _ _).trans (h.listening k (.inl hk0))
    · exact absurd hcl hchild
  · intro fd c
    exact iff_of_false (h.close_connFd k fd c) fun hn => hpc hn.1
  · exact fun hhas => absurd hhas hpc

theorem Tables.exit (h : Tables servSock s) (hk : k < s.forks) (h0 : k ≠ 0) :
    Tables servSock (s.set k (s.procs k).exit) := by
  apply h.set hk (Nat.le_refl _) (fun hk0 => absurd hk0 h0)
  · rintro (hk0 | hcl)
    · exact absurd hk0 h0
    · cases hcl
  · intro fd c
    simp [Process.exit, noFiles, HasConn]
  · exact fun hhas => hhas.elim

theorem OnlyParent.eq_zero (h : OnlyParent s) (hpc : InLoop (s.procs k).pc) : k = 0 := by
  by_contra hk
  exact h k hk hpc

/-- What the tables hold is preserved, whatever the children do for their clients. -/
theorem Tables.step (h : Tables servSock s) (ho : OnlyParent s) (hm : Move P servSock s a t) :
    Tables servSock t := by
  cases hm with
  | acceptFails => exact h
  | accept k fd pc listening free =>
    obtain rfl := ho.eq_zero (k := k) (by simp [pc, InLoop])
    have hne : servSock ≠ fd := by
      rintro rfl
      simp [listening] at free
    apply h.set (p := ⟨.fork, fd, some s.connections, _⟩) h.born (Nat.le_succ _) (fun _ => trivial)
    · exact fun _ => (Function.update_of_ne hne _ _).trans listening
    · intro fd' c
      by_cases hfd : fd' = fd
      · subst hfd
        simp [HasConn]
      · -- at `accept` the parent holds no other connection
        have hno : ¬ (s.procs 0).table fd' = some (.conn c) := by
          rw [h.conns]
          simp [pc, HasConn]
        simp [hno, hfd]
    · exact fun _ => ⟨s.connections, rfl, Nat.lt_succ_self _⟩
  | forkFails k pc =>
    obtain rfl := ho.eq_zero (k := k) (by simp [pc, InLoop])
    exact h.close h.born (by simp [HasConn]) (by simp) fun _ => by simp [pc, InLoop, HasConn]
  | parentClose k pc =>
    obtain rfl := ho.eq_zero (k := k) (by simp [pc, InLoop])
    exact h.close h.born (by simp [HasConn]) (by simp) fun _ => by simp [pc, InLoop, HasConn]
  | fork k pc =>
    obtain rfl := ho.eq_zero (k := k) (by simp [pc, InLoop])
    have hconns : ∀ fd c, (s.procs 0).table fd = some (.conn c) ↔
        True ∧ fd = (s.procs 0).connFd ∧ (s.procs 0).client = some c := by
      simpa [pc, HasConn] using h.conns 0
    have hclient := h.client 0 (by simp [pc, HasConn])
    have hparent : Tables servSock (s.set 0 { s.procs 0 with pc := .parentClose }) :=
      h.set h.born (Nat.le_refl _) (fun _ => trivial) (fun _ => h.listening 0 (.inl rfl))
        hconns (fun _ => hclient)
    exact hparent.join (fun _ => h.listening 0 (.inl rfl)) hconns (fun _ => hclient)
  | closeListener k pc =>
    have hk := h.ne_zero (k := k) (by simp [pc, InLoop])
    have hne := h.connFd_ne (by simp [pc, HasConn]) (.inr pc)
    apply h.set (h.lt_forks (by simp [pc])) (Nat.le_refl _) (fun h0 => absurd h0 hk)
    · rintro (h0 | hcl)
      · exact absurd h0 hk
      · cases hcl
    · intro fd c
      by_cases hfd : fd = servSock
      · subst hfd
        simp [Process.close, hne]
      · simpa [Process.close, Function.update_of_ne hfd, pc, HasConn] using h.conns k fd c
    · exact fun _ => h.client k (by simp [pc, HasConn])
  | serve k n held p q pc =>
    have hhas : HasConn (.serve held q) ↔ HasConn (s.procs k).pc := by
      rw [pc]
      cases held <;> simp [HasConn]
    have hk := h.ne_zero (k := k) (by simp [pc, InLoop])
    apply h.set (h.lt_forks (by simp [pc])) (Nat.le_refl _) (fun h0 => absurd h0 hk)
    · rintro (h0 | hcl)
      · exact absurd h0 hk
      · cases hcl
    · intro fd c
      rw [hhas]
      exact h.conns k fd c
    · exact fun hq => h.client k (hhas.mp hq)
  | close k n held p q pc | loop k n held p pc =>
    have hk := h.ne_zero (k := k) (by simp [pc, InLoop])
    exact h.close (h.lt_forks (by simp [pc])) (by simp [HasConn]) (by simp) fun h0 => absurd h0 hk
  | exit k n held p pc =>
    have hk := h.ne_zero (k := k) (by simp [pc, InLoop])
    exact h.exit (h.lt_forks (by simp [pc])) hk
  | kill k child born => exact h.exit born child

theorem initialTable_ne_conn (servSock : Nat) (opened : List Nat) (fd c : Nat) :
    initialTable servSock opened fd ≠ some (.conn c) := by
  unfold initialTable
  split
  · simp
  · split <;> simp

theorem tables_start (servSock : Nat) (opened : List Nat) :
    Tables servSock (start servSock opened : State π) := by
  have hprocs : ∀ k, (start servSock opened : State π).procs k =
      if k = 0 then parentProcess servSock opened else unbornProcess := by
    intro k
    by_cases hk : k = 0 <;> simp [start, hk]
  refine ⟨fun k hk => ?_, Nat.one_pos, ?_, fun k hk => ?_, fun k fd c => ?_, fun k hk => ?_⟩
  · rw [hprocs, if_neg (by simp only [start] at hk; omega)]
  · rw [hprocs]
    trivial
  · by_cases h0 : k = 0
    · simp [hprocs, h0, parentProcess, initialTable]
    · simp [hprocs, h0, unbornProcess] at hk
  · by_cases h0 : k = 0
    · simp [hprocs, h0, parentProcess, HasConn, initialTable_ne_conn]
    · simp [hprocs, h0, unbornProcess, noFiles, HasConn]
  · by_cases h0 : k = 0 <;> simp [hprocs, h0, parentProcess, unbornProcess, HasConn] at hk

theorem tables_startWith (servSock : Nat) (opened : List Nat) (task : π) :
    Tables servSock (startWith servSock opened task) :=
  (tables_start servSock opened).join (p := ⟨.serve false task, 0, none, _⟩) (by simp)
    (by simp [HasConn, initialTable_ne_conn]) (by simp [HasConn])

end NetworkProgramming.ForkServer
