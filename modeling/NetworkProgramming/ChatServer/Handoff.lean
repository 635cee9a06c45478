import NetworkProgramming.ChatServer.Threads

/-!
# Handing a connection to its thread

Every thread gets the address of the one `clnt_sock` of `main`. It reads the
socket it was created for when it takes its first step before the next `accept`.
-/
namespace NetworkProgramming.ChatHandoff

open Buffer Transition ChatThreads

variable {ν ε : Type}

/-- The thread has read its argument and has not closed its socket. -/
def Working (pc : HandlerPc) : Prop := pc ≠ .unborn ∧ pc ≠ .start ∧ pc ≠ .finished

instance : DecidablePred Working := fun _ => inferInstanceAs (Decidable (_ ∧ _))

/-- Every thread serves the connection it was created for, and a connection is
served by no other thread. The `k`-th thread is created for the `k`-th connection. -/
structure HandedOff (s : State ν) : Prop where
  own : ∀ k, (s.handlers k).pc ≠ .unborn → (s.handlers k).pc ≠ .start →
    s.accepted[k]? = some (s.handlers k).clntSock
  only : ∀ j k fd, Working (s.handlers j).pc → s.accepted[k]? = some fd → 0 ≤ fd →
    (s.handlers k).pc ≠ .finished → (s.handlers j).clntSock = fd → j = k

/-- While a thread has not read its argument, `accept` returns nothing but the value
that is in `clnt_sock` already. -/
def AcceptsAfterStart (s : State ν) : Label ε → Prop
  | .accept fd => ∀ k < s.created, (s.handlers k).pc = .start → fd = s.clntSock
  | _ => True

instance : ∀ (s : State ν) (a : Label ε), Decidable (AcceptsAfterStart s a)
  | s, .accept fd => inferInstanceAs (Decidable
      (∀ k < s.created, (s.handlers k).pc = .start → fd = s.clntSock))
  | _, .main | _, .handler _ | _, .read _ _ | _, .peer _ => inferInstanceAs (Decidable True)

/-- A thread reads its argument, closes its socket, or keeps both as they are. -/
theorem move_handoff {L : SocketLayer ν ε} {argument : Int} {self : Tid}
    {h h' : Handler} {sh sh' : Shared ν} (hm : HandlerMove L argument self h sh h' sh') :
    (h.pc = .start ∧ h' = ⟨.read, argument⟩ ∧ sh'.opened = sh.opened) ∨
    (h.pc = .close ∧ h' = ⟨.finished, h.clntSock⟩ ∧
      sh'.opened = sh.opened.erase h.clntSock) ∨
    (Working h.pc ∧ Working h'.pc ∧ h'.clntSock = h.clntSock ∧ sh'.opened = sh.opened) := by
  cases hm with
  | start sock => exact .inl ⟨rfl, rfl, rfl⟩
  | close sock => exact .inr (.inl ⟨rfl, rfl, rfl⟩)
  | _ => simp [Working]

/-- A read result moves a working handler on, with its socket. -/
theorem readStep_handoff {h h' : Handler} {res : ReadResult} (hs : readStep h res = some h') :
    Working h.pc ∧ Working h'.pc ∧ h'.clntSock = h.clntSock := by
  obtain ⟨hpc, hsock, hpc' | ⟨msg, hpc'⟩⟩ := readStep_spec hs <;>
    simp [Working, hpc, hpc', hsock]

/-- What admitted steps preserve. Between `accept` and `pthread_create` the
pending connection is the one at index `created`. -/
structure Invariant (s : State ν) : Prop where
  count : s.accepted.length = s.created + if s.main = .accept then 0 else 1
  unborn : ∀ k, s.created ≤ k → (s.handlers k).pc = .unborn
  born : ∀ k < s.created, (s.handlers k).pc ≠ .unborn
  pending : s.main ≠ .accept → s.accepted[s.created]? = some s.clntSock
  started : ∀ k, (s.handlers k).pc = .start → s.accepted[k]? = some s.clntSock
  own : ∀ k, (s.handlers k).pc ≠ .unborn → (s.handlers k).pc ≠ .start →
    s.accepted[k]? = some (s.handlers k).clntSock
  opened : ∀ k fd, s.accepted[k]? = some fd → 0 ≤ fd → (s.handlers k).pc ≠ .finished →
    fd ∈ s.shared.opened
  distinct : ∀ j k fd, s.accepted[j]? = some fd → s.accepted[k]? = some fd → 0 ≤ fd →
    (s.handlers j).pc ≠ .finished → (s.handlers k).pc ≠ .finished → j = k

theorem invariant_start (net : ν) : Invariant (start net) := by
  constructor <;> simp [start]

theorem Invariant.handedOff {s : State ν} (h : Invariant s) : HandedOff s where
  own := h.own
  only := by
    intro j k fd hj hk h0 hf he
    have hown := h.own j hj.1 hj.2.1
    rw [he] at hown
    exact h.distinct j k fd hown hk h0 hj.2.2 hf

/-- One thread behind its start moves, and keeps the socket of its connection. -/
theorem Invariant.update {s : State ν} (h : Invariant s) {k : Nat} {h' : Handler}
    {sh : Shared ν} (hborn : (s.handlers k).pc ≠ .unborn)
    (hborn' : h'.pc ≠ .unborn) (hstart' : h'.pc ≠ .start)
    (hfin : (s.handlers k).pc = .finished → h'.pc = .finished)
    (hown : s.accepted[k]? = some h'.clntSock)
    (hopen : ∀ j fd, s.accepted[j]? = some fd → 0 ≤ fd →
      (Function.update s.handlers k h' j).pc ≠ .finished → fd ∈ sh.opened) :
    Invariant { s with shared := sh, handlers := Function.update s.handlers k h' } := by
  have hk : k < s.created := by
    by_contra hk
    exact hborn (h.unborn k (by omega))
  have hlive : ∀ j, (Function.update s.handlers k h' j).pc ≠ .finished →
      (s.handlers j).pc ≠ .finished :=
    (Function.forall_update_iff s.handlers
      fun j x => x.pc ≠ .finished → (s.handlers j).pc ≠ .finished).mpr
      ⟨fun hf => mt hfin hf, fun _ _ => id⟩
  refine ⟨h.count, ?_, ?_, ?_, ?_, ?_, hopen, ?_⟩
  · apply (Function.forall_update_iff s.handlers
      fun j x => s.created ≤ j → x.pc = .unborn).mpr
    exact ⟨fun hle => absurd hk (by omega), fun j _ => h.unborn j⟩
  · apply (Function.forall_update_iff s.handlers
      fun j x => j < s.created → x.pc ≠ .unborn).mpr
    exact ⟨fun _ => hborn', fun j _ => h.born j⟩
  · exact h.pending
  · apply (Function.forall_update_iff s.handlers
      fun j x => x.pc = .start → s.accepted[j]? = some s.clntSock).mpr
    exact ⟨fun hp => absurd hp hstart', fun j _ => h.started j⟩
  · apply (Function.forall_update_iff s.handlers
      fun j x => x.pc ≠ .unborn → x.pc ≠ .start → s.accepted[j]? = some x.clntSock).mpr
    exact ⟨fun _ _ => hown, fun j _ => h.own j⟩
  · intro i j fd hi hj h0 hpi hpj
    exact h.distinct i j fd hi hj h0 (hlive i hpi) (hlive j hpj)

/-- A working thread goes on with its socket. -/
theorem Invariant.work {s : State ν} (h : Invariant s) {k : Nat} {h' : Handler}
    {sh : Shared ν} (hw : Working (s.handlers k).pc) (hw' : Working h'.pc)
    (hsock : h'.clntSock = (s.handlers k).clntSock) (hopen : sh.opened = s.shared.opened) :
    Invariant { s with shared := sh, handlers := Function.update s.handlers k h' } := by
  refine h.update hw.1 hw'.1 hw'.2.1 (fun hf => absurd hf hw.2.2) ?_ ?_
  · rw [hsock]
    exact h.own k hw.1 hw.2.1
  · intro j fd hj h0 hp
    rw [hopen]
    apply h.opened j fd hj h0
    by_cases hjk : j = k
    · exact hjk ▸ hw.2.2
    · simpa only [Function.update_of_ne hjk] using hp

theorem Invariant.handler {s : State ν} {L : SocketLayer ν ε} (h : Invariant s) {k : Nat}
    {h' : Handler} {sh : Shared ν}
    (hm : HandlerMove L s.clntSock (.handler k) (s.handlers k) s.shared h' sh) :
    Invariant { s with shared := sh, handlers := Function.update s.handlers k h' } := by
  rcases move_handoff hm with ⟨hpc, rfl, ho⟩ | ⟨hpc, rfl, ho⟩ | ⟨hw, hw', hsock, ho⟩
  · -- the argument still points to the socket of this thread's connection
    refine h.update (by simp [hpc]) (by simp) (by simp) (by simp [hpc]) (h.started k hpc) ?_
    intro j fd hj h0 hp
    rw [ho]
    apply h.opened j fd hj h0
    by_cases hjk : j = k
    · simp [hjk, hpc]
    · simpa only [Function.update_of_ne hjk] using hp
  · have hown := h.own k (by simp [hpc]) (by simp [hpc])
    refine h.update (by simp [hpc]) (by simp) (by simp) (fun _ => rfl) hown ?_
    intro j fd hj h0 hp
    by_cases hjk : j = k
    · simp [hjk] at hp
    · rw [Function.update_of_ne hjk] at hp
      have hmem := h.opened j fd hj h0 hp
      rw [ho]
      apply (List.mem_erase_of_ne _).mpr hmem
      -- closing one thread's socket leaves the others open, since theirs differ
      rintro rfl
      exact hjk (h.distinct j k _ hj hown h0 hp (by simp [hpc]))
  · exact h.work hw hw' hsock ho

/-- Between `accept` and `pthread_create` the pending connection stays the same. -/
theorem Invariant.advance {s : State ν} (h : Invariant s) {sh : Shared ν} {pc : MainPc}
    (hm : s.main ≠ .accept) (hpc : pc ≠ .accept) (hopen : sh.opened = s.shared.opened) :
    Invariant { s with shared := sh, main := pc } where
  count := by simpa only [hm, hpc, if_false] using h.count
  unborn := h.unborn
  born := h.born
  pending := fun _ => h.pending hm
  started := h.started
  own := h.own
  opened := by simpa only [hopen] using h.opened
  distinct := h.distinct

/-- `pthread_create` starts the thread of the pending connection. -/
theorem Invariant.create {s : State ν} (h : Invariant s) (hm : s.main = .create) :
    Invariant { s with
      handlers := Function.update s.handlers s.created ⟨.start, 0⟩
      created := s.created + 1
      main := .accept } := by
  have hne : s.main ≠ .accept := by simp [hm]
  have hnew := h.unborn s.created (Nat.le_refl _)
  have hold : ∀ j, (Function.update s.handlers s.created ⟨.start, 0⟩ j).pc ≠ .finished →
      (s.handlers j).pc ≠ .finished :=
    (Function.forall_update_iff s.handlers
      fun j x => x.pc ≠ .finished → (s.handlers j).pc ≠ .finished).mpr
      ⟨fun _ => by simp [hnew], fun _ _ => id⟩
  refine ⟨?_, ?_, ?_, fun hf => absurd rfl hf, ?_, ?_, ?_, ?_⟩
  · simpa only [hne, if_false, if_true] using h.count
  · apply (Function.forall_update_iff s.handlers
      fun j x => s.created + 1 ≤ j → x.pc = .unborn).mpr
    exact ⟨fun hle => absurd hle (by omega), fun j _ hle => h.unborn j (by omega)⟩
  · apply (Function.forall_update_iff s.handlers
      fun j x => j < s.created + 1 → x.pc ≠ .unborn).mpr
    exact ⟨by simp, fun j hj hlt => h.born j (by omega)⟩
  · apply (Function.forall_update_iff s.handlers
      fun j x => x.pc = .start → s.accepted[j]? = some s.clntSock).mpr
    exact ⟨fun _ => h.pending hne, fun j _ => h.started j⟩
  · apply (Function.forall_update_iff s.handlers
      fun j x => x.pc ≠ .unborn → x.pc ≠ .start → s.accepted[j]? = some x.clntSock).mpr
    exact ⟨by simp, fun j _ => h.own j⟩
  · intro j fd hj h0 hp
    exact h.opened j fd hj h0 (hold j hp)
  · intro i j fd hi hj h0 hpi hpj
    exact h.distinct i j fd hi hj h0 (hold i hpi) (hold j hpj)

/-- A new connection is pending; its descriptor is none of those that are open. -/
theorem Invariant.accept {s : State ν} (h : Invariant s) {sh : Shared ν} {fd : Int}
    (hm : s.main = .accept)
    (hstart : ∀ k < s.created, (s.handlers k).pc = .start → fd = s.clntSock)
    (hfresh : 0 ≤ fd → fd ∉ s.shared.opened ∧ fd ∈ sh.opened)
    (hkeep : ∀ x ∈ s.shared.opened, x ∈ sh.opened) :
    Invariant { s with
      shared := sh, main := .lock, clntSock := fd, accepted := s.accepted ++ [fd] } := by
  have hlen : s.accepted.length = s.created := by simpa [hm] using h.count
  have hnew : (s.accepted ++ [fd])[s.created]? = some fd := by simp [← hlen]
  have hold : ∀ (k : Nat) (x : Int), s.accepted[k]? = some x →
      (s.accepted ++ [fd])[k]? = some x := by
    intro k x hk
    obtain ⟨hlt, -⟩ := List.getElem?_eq_some_iff.mp hk
    rwa [List.getElem?_append_left hlt]
  have hcase : ∀ (k : Nat) (x : Int), (s.accepted ++ [fd])[k]? = some x →
      s.accepted[k]? = some x ∨ (k = s.created ∧ x = fd) := by
    intro k x hk
    by_cases hlt : k < s.accepted.length
    · rw [List.getElem?_append_left hlt] at hk
      exact .inl hk
    · rw [List.getElem?_append_right (by omega), List.getElem?_singleton] at hk
      split at hk
      next h0 => exact .inr ⟨by omega, (Option.some.inj hk).symm⟩
      next => cases hk
  refine ⟨by simp [hlen], h.unborn, h.born, fun _ => hnew, ?_, ?_, ?_, ?_⟩
  · intro k hk
    have hlt : k < s.created := by
      by_contra hle
      simp [h.unborn k (by omega)] at hk
    have ho := hold k _ (h.started k hk)
    rwa [← hstart k hlt hk] at ho
  · intro k hu hs
    exact hold k _ (h.own k hu hs)
  · intro k x hk h0 hp
    rcases hcase k x hk with hk | ⟨-, rfl⟩
    · exact hkeep x (h.opened k x hk h0 hp)
    · exact (hfresh h0).2
  · intro j k x hj hk h0 hpj hpk
    rcases hcase j x hj with hjo | ⟨rfl, rfl⟩
    · rcases hcase k x hk with hko | ⟨rfl, rfl⟩
      · exact h.distinct j k x hjo hko h0 hpj hpk
      · exact absurd (h.opened j x hjo h0 hpj) (hfresh h0).1
    · rcases hcase k x hk with hko | ⟨rfl, -⟩
      · exact absurd (h.opened k x hko h0 hpk) (hfresh h0).1
      · rfl

/-- Every admitted step preserves the invariant. -/
theorem invariant_step {L : SocketLayer ν ε} (s : State ν) (a : Label ε) (t : State ν)
    (h : Invariant s) (hg : AcceptsAfterStart s a) (hs : step L s a = some t) :
    Invariant t := by
  cases (step_move hs).2 with
  | handler k h' sh moved => exact h.handler moved
  | read k res h' stepped =>
    obtain ⟨hw, hw', hsock⟩ := readStep_handoff stepped
    exact h.work hw hw' hsock rfl
  | accept fd _ accepted =>
    obtain ⟨hm, sh, rfl, -, -, -, hfresh, hkeep⟩ := acceptStep_spec accepted
    exact h.accept hm hg hfresh hkeep
  | main _ moved =>
    cases moved with
    | lock pc | register pc | unlock pc => exact h.advance (by simp [pc]) (by simp) rfl
    | create pc => exact h.create pc
  | peer e net moved =>
    exact ⟨h.count, h.unborn, h.born, h.pending, h.started, h.own, h.opened, h.distinct⟩

/-- In every run in which no `accept` overtakes the first step of a created thread,
every connection is served by the thread created for it and by no other,
in every state that the run reaches. -/
theorem handedOff_throughout (L : SocketLayer ν ε) (net : ν) (as : List (Label ε))
    (hg : Along (step L) AcceptsAfterStart (start net) as) :
    Throughout (step L) HandedOff (start net) as :=
  (throughout_of_step invariant_step (invariant_start net) hg).mono
    fun _ h => h.handedOff

/-- The condition is sharp: an `accept` that does not meet it lets a thread take
another connection than its own. -/
theorem overtaken_thread {L : SocketLayer ν ε} {net : ν} {as : List (Label ε)}
    {s t : State ν} {fd : Int} (hg : Along (step L) AcceptsAfterStart (start net) as)
    (hrun : run (step L) (start net) as = some s) (hs : step L s (.accept fd) = some t)
    (hlate : ¬ AcceptsAfterStart s (.accept fd : Label ε)) :
    ∃ k u, step L t (.handler k) = some u ∧ ¬ HandedOff u := by
  have h := run_of_step invariant_step (invariant_start net) hg hrun
  obtain ⟨k, hk⟩ := not_forall.mp hlate
  obtain ⟨-, hk⟩ := Classical.not_imp.mp hk
  obtain ⟨hpc, hne⟩ := Classical.not_imp.mp hk
  have hpend := h.started k hpc
  obtain ⟨hlive, moved⟩ := step_move hs
  cases moved with
  | accept _ _ accepted =>
    obtain ⟨-, sh, rfl, -, -, hkilled, -⟩ := acceptStep_spec accepted
    refine ⟨k, { s with
      shared := sh
      main := .lock
      clntSock := fd
      handlers := Function.update s.handlers k ⟨.read, fd⟩
      accepted := s.accepted ++ [fd] }, ?_, fun hu => ?_⟩
    · simp [step, handlerStep, hkilled, hlive, hpc]
    -- the thread now holds `fd`, its own connection is still the one before
    have hown := hu.own k (by simp) (by simp)
    obtain ⟨hlt, -⟩ := List.getElem?_eq_some_iff.mp hpend
    simp only [List.getElem?_append_left hlt, hpend, Function.update_self] at hown
    exact hne (Option.some.inj hown).symm

/-- Two connections, each handed to its thread before the next `accept`. -/
theorem handedOff_two_connections :
    Throughout (step openSockets) HandedOff (start ())
      [.accept 4, .main, .main, .main, .main, .handler 0,
        .accept 5, .main, .main, .main, .main, .handler 1] :=
  handedOff_throughout _ _ _ (by decide)

/-- The second `accept` overtakes the first thread, which then reads socket 5
from `clnt_sock` instead of its own socket 4. -/
theorem accept_overtakes_thread :
    ¬ ∀ as t, run (step openSockets) (start ()) as = some t →
      Throughout (step openSockets) HandedOff (start ()) as := by
  intro h
  have hx := h [.accept 4, .main, .main, .main, .main, .accept 5, .handler 0] _ rfl
  have hown := (hx.last rfl).own 0 (by decide) (by decide)
  exact absurd hown (by decide)

end NetworkProgramming.ChatHandoff
