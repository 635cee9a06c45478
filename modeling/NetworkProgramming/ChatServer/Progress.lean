import NetworkProgramming.ChatServer.Bounds
import NetworkProgramming.Library.Progress

/-!
# The chat server comes to rest

What the threads do on what they have got, until all of them wait for the outside:
`main` for a connection and the handlers for their clients.
-/
namespace NetworkProgramming.ChatProgress

open Buffer Transition Ledger ChatRegistry ChatMessages ChatThreads ChatBroadcast ChatBounds

variable {ν ε : Type} {L : SocketLayer ν ε} {s t : State ν} {a : Label ε}

/-- A step that no connection and no client has a part in; a section under the mutex is
entered only with room. -/
def OwnStep (s : State ν) (a : Label ε) : Prop :=
  HasRoom s a ∧
    match a with
    | .main | .handler _ => True
    | .accept _ | .read _ _ | .peer _ => False

instance (s : State ν) : DecidablePred (OwnStep (ε := ε) s)
  | .main => inferInstanceAs (Decidable (HasRoom s .main ∧ True))
  | .handler k => inferInstanceAs (Decidable (HasRoom s (.handler k) ∧ True))
  | .accept _ | .read _ _ | .peer _ => isFalse fun h => h.2

/-- Everybody waits for the outside, and the mutex is free. -/
structure Resting (s : State ν) : Prop where
  main : s.main = .accept
  mutx : s.shared.mutx = none
  handlers : ∀ k, (s.handlers k).pc = .read ∨ (s.handlers k).pc = .finished ∨
    (s.handlers k).pc = .unborn

/-- The owner of the mutex waits in a `write`. -/
def Blocked (L : SocketLayer ν ε) (s : State ν) : Prop :=
  ∃ k msg i fd, s.shared.mutx = some (.handler k) ∧ (s.handlers k).pc = .send msg i ∧
    load s.shared.registry i = some fd ∧ L.write s.shared.net fd msg = .blocked

/-- The array is full, and somebody is about to go into it. -/
def Crowded (s : State ν) : Prop :=
  maxClnt ≤ s.shared.registry.clntCnt ∧
    (s.main = .lock ∨ ∃ k, (s.handlers k).pc = .removeLock)

/-- The steps of a disconnect section and behind it. -/
def removeLeft : RemovePc → Nat
  | .search i => (maxClnt - i).toNat + 5
  | .shift i => (maxClnt - i).toNat + 4
  | .decrement => 3
  | .finished => 2

/-- The steps of a handler until it waits for its client or has ended. -/
def handlerLeft : HandlerPc → Nat
  | .unborn | .read | .finished => 0
  | .start | .sendUnlock | .close => 1
  | .sendLock _ => maxClnt.toNat + 3
  | .send _ i => (maxClnt - i).toNat + 2
  | .removeLock => maxClnt.toNat + 6
  | .remove pc => removeLeft pc

def mainLeft : MainPc → Nat
  | .accept => 0
  | .lock => 5
  | .register => 4
  | .unlock => 3
  | .create => 2

/-- The steps of all threads; SIGPIPE ends them. -/
def left (s : State ν) : Nat :=
  if s.shared.killed then 0
  else 1 + mainLeft s.main + total s.created fun k => handlerLeft (s.handlers k).pc

theorem removeLeft_move {clntSock : Int} {r r' : Registry} {pc next : RemovePc}
    (hm : RemoveMove clntSock r pc next r') : removeLeft next < removeLeft pc := by
  cases hm with
  | found i => exact Nat.lt_succ_self _
  | passed i inside => simp only [removeLeft]; omega
  | missing i | shiftDone i => simp only [removeLeft]; omega
  | moved i inside => simp only [removeLeft]; omega
  | decrement => exact Nat.lt_succ_self _

/-- A handler does one of its steps, or is ended with all others. -/
theorem handlerLeft_move {argument : Int} {self : Tid} {h h' : Handler} {sh sh' : Shared ν}
    (hm : HandlerMove L argument self h sh h' sh') (hmax : sh.registry.clntCnt ≤ maxClnt) :
    sh'.killed = true ∨ sh'.killed = sh.killed ∧ handlerLeft h'.pc < handlerLeft h.pc := by
  cases hm with
  | sigpipe => exact .inl rfl
  | start | sendUnlock | close => exact .inr ⟨rfl, Nat.one_pos⟩
  | sendLock => exact .inr ⟨rfl, Nat.lt_succ_self _⟩
  | removeLock => exact .inr ⟨rfl, Nat.lt_succ_self _⟩
  | write msg i _ _ _ _ inside =>
    refine .inr ⟨rfl, ?_⟩
    simp only [handlerLeft]
    omega
  | sendDone =>
    refine .inr ⟨rfl, ?_⟩
    simp only [handlerLeft]
    omega
  | remove pc next sock _ r stepped =>
    exact .inr ⟨rfl, removeLeft_move (removeStep_move stepped)⟩
  | removeUnlock => exact .inr ⟨rfl, Nat.lt_succ_self _⟩

theorem left_killed (h : s.shared.killed = true) : left s = 0 := if_pos h

theorem left_alive (h : s.shared.killed = false) :
    left s = 1 + mainLeft s.main + total s.created fun k => handlerLeft (s.handlers k).pc := by
  rw [left, h, if_neg Bool.false_ne_true]

theorem left_step (h : ChatBounds.Invariant s) (ha : OwnStep s a) (hs : step L s a = some t) :
    left t < left s := by
  obtain ⟨halive, hm⟩ := step_move hs
  rw [left_alive halive]
  cases hm with
  | accept | read | peer => exact ha.2.elim
  | handler k h' sh moved =>
    have hk : k < s.created := by
      by_contra hle
      have hunborn := h.guarded.unborn k (by omega)
      generalize s.handlers k = g at moved hunborn
      cases moved <;> cases hunborn
    rcases handlerLeft_move moved h.atMost with hkilled | ⟨hkilled, hlt⟩
    · rw [left_killed hkilled]
      omega
    · have htotal := total_change (fun j => handlerLeft (s.handlers j).pc)
        (fun j => handlerLeft (Function.update s.handlers k h' j).pc) hk
        (fun j hj => by simp only [Function.update_of_ne hj])
      simp only [Function.update_self] at htotal
      rw [left_alive (hkilled.trans halive)]
      simp only
      omega
  | main _ moved =>
    have halive' : t.shared.killed = false := by
      cases moved
      all_goals exact halive
    rw [left_alive halive']
    cases moved with
    | lock pc | register pc | unlock pc =>
      simp only [pc, mainLeft]
      omega
    | create pc =>
      have hnew : handlerLeft (Function.update s.handlers s.created ⟨.start, 0⟩ s.created).pc =
          1 := by
        rw [Function.update_self]
        rfl
      have htotal := total_join (fun j => handlerLeft (s.handlers j).pc)
        (fun j => handlerLeft (Function.update s.handlers s.created ⟨.start, 0⟩ j).pc)
        (n := s.created) (fun j hj => by simp only [Function.update_of_ne (Nat.ne_of_lt hj)])
      simp only [htotal, hnew, pc, mainLeft]
      omega

theorem handlerLeft_le {pc : HandlerPc} (hsend : ∀ msg i, pc = .send msg i → 0 ≤ i)
    {r : Registry} {clntSock : Int} (h : Searching r clntSock pc) :
    handlerLeft pc ≤ maxClnt.toNat + 6 := by
  cases pc with
  | send msg i =>
    have h0 := hsend msg i rfl
    simp only [handlerLeft]
    omega
  | remove pc =>
    cases pc with
    | search i | shift i =>
      have h0 := h.1
      simp only [handlerLeft, removeLeft]
      omega
    | decrement | finished => simp only [handlerLeft, removeLeft]; omega
  | _ => simp only [handlerLeft]; omega

/-- A handler has at most so many steps left as one that is about to leave, and `main` has its
five. -/
theorem left_le (h : ChatBounds.Invariant s) :
    left s ≤ s.created * (maxClnt.toNat + 6) + 6 := by
  have htotal : total s.created (fun k => handlerLeft (s.handlers k).pc) ≤
      s.created * (maxClnt.toNat + 6) := by
    have hsum := Finset.sum_le_card_nsmul (Finset.range s.created)
      (fun k => handlerLeft (s.handlers k).pc) (maxClnt.toNat + 6)
      fun k _ => handlerLeft_le (h.guarded.index k) (h.searching k)
    rwa [Finset.card_range] at hsum
  have hmain : mainLeft s.main ≤ 5 := by
    cases s.main <;> simp [mainLeft]
  rw [left]
  split
  · exact Nat.zero_le _
  · omega

/-- Inside of the array every iteration of a disconnect section can be made. -/
theorem removeStep_some {r : Registry} {clntSock : Int} {pc : RemovePc} (hpc : pc ≠ .finished)
    (h : Searching r clntSock (.remove pc)) (hmax : r.clntCnt ≤ maxClnt) :
    ∃ next, removeStep clntSock pc r = some next := by
  cases pc with
  | search i =>
    have h0 := h.1
    simp only [removeStep]
    split
    next hi =>
      rw [load_some h0 (by omega)]
      exact ⟨_, rfl⟩
    next => exact ⟨_, rfl⟩
  | shift i =>
    obtain ⟨h0, hlast⟩ := h
    simp only [removeStep]
    split
    next hi =>
      rw [load_some (by omega) (by omega), Option.bind_some, store_some _ (by omega) (by omega)]
      exact ⟨_, rfl⟩
    next => exact ⟨_, rfl⟩
  | decrement => exact ⟨_, rfl⟩
  | finished => exact absurd rfl hpc

/-- The owner of the mutex can go on if it is not in a `write` that waits. -/
theorem inside_moves (h : ChatBounds.Invariant s) {k : Nat}
    (hin : HandlerPc.Inside (s.handlers k).pc) (hblocked : ¬ Blocked L s) :
    ∃ next, handlerStep L s.clntSock (.handler k) (s.handlers k) s.shared = some next := by
  have hmutx := (h.guarded.exclusive (.handler k)).mp hin
  have hindex := h.guarded.index k
  have hsearching := h.searching k
  cases pc : (s.handlers k).pc with
  | send msg i =>
    have h0 := hindex msg i pc
    simp only [handlerStep, pc]
    split
    next hi =>
      have hload : load s.shared.registry i = some (s.shared.registry.clntSocks i) :=
        load_some h0 (Int.lt_of_lt_of_le hi h.atMost)
      rw [hload, Option.bind_some]
      cases hw : L.write s.shared.net (s.shared.registry.clntSocks i) msg with
      | sent net => exact ⟨_, rfl⟩
      | blocked => exact absurd ⟨k, msg, i, _, hmutx, pc, hload, hw⟩ hblocked
      | sigpipe => exact ⟨_, rfl⟩
    next => exact ⟨_, rfl⟩
  | sendUnlock => exact ⟨_, by simp only [handlerStep, pc]; rfl⟩
  | remove rpc =>
    simp only [handlerStep, pc]
    split
    next => exact ⟨_, rfl⟩
    next hne =>
      rw [pc] at hsearching
      obtain ⟨next, hnext⟩ := removeStep_some hne hsearching h.atMost
      rw [hnext]
      exact ⟨_, rfl⟩
  | unborn | start | read | sendLock msg | removeLock | close | finished =>
    rw [pc] at hin
    exact hin.elim

section AtRest
variable (halive : s.shared.killed = false) (hstuck : Stuck (step L) OwnStep s)
include halive hstuck

theorem handler_waits {k : Nat}
    (hroom : (s.handlers k).pc = .removeLock →
      Removable s.shared.registry (s.handlers k).clntSock) :
    handlerStep L s.clntSock (.handler k) (s.handlers k) s.shared = none := by
  have hnone := hstuck (.handler k) ⟨hroom, trivial⟩
  simpa [step, halive] using hnone

theorem main_waits (hroom : s.main = .lock → s.shared.registry.clntCnt < maxClnt) :
    mainStep s = none := by
  have hnone := hstuck .main ⟨hroom, trivial⟩
  simpa [step, halive] using hnone

/-- Nobody is in a section, since its owner could go on. -/
theorem mutx_free (h : ChatBounds.Invariant s) (hblocked : ¬ Blocked L s) :
    s.shared.mutx = none := by
  cases hmutx : s.shared.mutx with
  | none => rfl
  | some owner =>
    have hin := (h.guarded.exclusive owner).mpr hmutx
    cases owner with
    | main =>
      have hcount := h.counts
      cases pc : s.main with
      | register =>
        obtain ⟨r, hr, -⟩ :=
          register_spec s.clntSock s.shared.registry (by omega) (h.room pc)
        have hnone := main_waits halive hstuck (by simp [pc])
        simp [mainStep, pc, hr] at hnone
      | unlock =>
        have hnone := main_waits halive hstuck (by simp [pc])
        simp [mainStep, pc] at hnone
      | accept | lock | create =>
        simp only [Inside, pc] at hin
        exact hin.elim
    | handler k =>
      obtain ⟨next, hnext⟩ := inside_moves (L := L) h hin hblocked
      have hroom : (s.handlers k).pc = .removeLock →
          Removable s.shared.registry (s.handlers k).clntSock := by
        intro pc
        simp only [Inside, pc] at hin
        exact hin.elim
      rw [handler_waits halive hstuck hroom] at hnext
      cases hnext

theorem resting_of_stuck (h : ChatBounds.Invariant s) (hblocked : ¬ Blocked L s)
    (hcrowded : ¬ Crowded s) : Resting s := by
  have hfree := mutx_free halive hstuck h hblocked
  have hroom : ∀ k, (s.handlers k).pc = .removeLock →
      Removable s.shared.registry (s.handlers k).clntSock := by
    intro k pc
    by_contra hfull
    rw [Removable, not_or] at hfull
    exact hcrowded ⟨Int.not_lt.mp hfull.1, .inr ⟨k, pc⟩⟩
  constructor
  · have hnone := main_waits halive hstuck fun pc => by
      by_contra hfull
      exact hcrowded ⟨Int.not_lt.mp hfull, .inl pc⟩
    cases pc : s.main with
    | accept => rfl
    | lock => simp [mainStep, pc, lock, hfree] at hnone
    | create => simp [mainStep, pc] at hnone
    | register | unlock =>
      have hown := (h.guarded.exclusive .main).mp (by simp [Inside, pc, MainPc.Inside])
      rw [hfree] at hown
      cases hown
  · exact hfree
  · intro k
    have hnone := handler_waits halive hstuck (hroom k)
    cases pc : (s.handlers k).pc with
    | read => exact .inl rfl
    | finished => exact .inr (.inl rfl)
    | unborn => exact .inr (.inr rfl)
    | start | close => simp [handlerStep, pc] at hnone
    | sendLock msg | removeLock => simp [handlerStep, pc, lock, hfree] at hnone
    | send msg i | sendUnlock | remove rpc =>
      have hown := (h.guarded.exclusive (.handler k)).mp
        (by simp [Inside, pc, HandlerPc.Inside])
      rw [hfree] at hown
      cases hown

end AtRest

/-- The threads never wait for each other: whatever connections and messages have come in, they
take at most a fixed number of steps for each handler on their own, and where they can take no
more, everybody waits for the outside, unless a signal has killed the process, the owner of the
mutex waits for a client that does not read, or somebody needs a place in a full array. -/
theorem comes_to_rest (L : SocketLayer ν ε) (net : ν) (labels : List (Label ε))
    (hroom : Along (step L) HasRoom (start net) labels)
    (hrun : run (step L) (start net) labels = some s) (rest : List (Label ε))
    (hrest : Along (step L) OwnStep s rest) (ht : run (step L) s rest = some t) :
    rest.length ≤ s.created * (maxClnt.toNat + 6) + 6 ∧
      (Stuck (step L) OwnStep t →
        Resting t ∨ t.shared.killed = true ∨ Blocked L t ∨ Crowded t) := by
  have hI := run_of_step invariant_step (invariant_start net) hroom hrun
  have hstep : ∀ (s : State ν) a t, ChatBounds.Invariant s → OwnStep s a → step L s a = some t →
      ChatBounds.Invariant t ∧ left t < left s :=
    fun s a t h ha hs => ⟨invariant_step s a t h ha.1 hs, left_step h ha hs⟩
  constructor
  · have hlength := length_le_of_lowers hstep hI hrest ht
    have hle := left_le hI
    omega
  · intro hstuck
    have hI' := run_of_step (fun s a t h ha hs => (hstep s a t h ha hs).1) hI hrest ht
    by_cases halive : t.shared.killed = true
    · exact .inr (.inl halive)
    by_cases hblocked : Blocked L t
    · exact .inr (.inr (.inl hblocked))
    by_cases hcrowded : Crowded t
    · exact .inr (.inr (.inr hcrowded))
    exact .inl (resting_of_stuck (by simpa using halive) hstuck hI' hblocked hcrowded)

/-- Two clients have come, and the first has said "hi". -/
theorem rests_two_clients :
    ∃ s t, run (step openSockets) (start ()) (twoClients ++ [.read 0 (.data [104, 105])]) =
        some s ∧
      run (step openSockets) s (List.replicate 5 (.handler 0)) = some t ∧
      5 ≤ s.created * (maxClnt.toNat + 6) + 6 ∧
      (Stuck (step openSockets) OwnStep t →
        Resting t ∨ t.shared.killed = true ∨ Blocked openSockets t ∨ Crowded t) :=
  ⟨_, _, rfl, rfl, comes_to_rest openSockets () (twoClients ++ [.read 0 (.data [104, 105])])
    (by decide +kernel) rfl (List.replicate 5 (.handler 0)) (by decide +kernel) rfl⟩

end NetworkProgramming.ChatProgress
