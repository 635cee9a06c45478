import NetworkProgramming.Library.Ledger
import NetworkProgramming.ChatServer.Broadcast

/-!
# The bounds of the registry

`clnt_cnt` counts the handlers that have not lowered it yet. Nothing compares it
with `MAX_CLNT`, and the shift loop reads one place behind the last entry.
-/
namespace NetworkProgramming.ChatBounds

open Buffer Transition Ledger ChatRegistry ChatMessages ChatThreads ChatBroadcast

variable {ν ε : Type}

/-- The indices of `clnt_socks` that the next step of a handler uses. -/
def indices (r : Registry) : HandlerPc → List Int
  | .send _ i | .remove (.search i) => if i < r.clntCnt then [i] else []
  | .remove (.shift i) => if i < r.clntCnt - 1 then [i + 1, i + 1 + 1] else []
  | _ => []

/-- The index that the registration uses. -/
def mainIndices (r : Registry) : MainPc → List Int
  | .register => [r.clntCnt]
  | _ => []

structure InBounds (s : State ν) : Prop where
  count : 0 ≤ s.shared.registry.clntCnt ∧ s.shared.registry.clntCnt ≤ maxClnt
  main : ∀ i ∈ mainIndices s.shared.registry s.main, 0 ≤ i ∧ i < maxClnt
  handlers : ∀ k, ∀ i ∈ indices s.shared.registry (s.handlers k).pc, 0 ≤ i ∧ i < maxClnt

/-- The disconnect section stays inside the array: it is not full, or the socket is not in
front of its last place. -/
def Removable (r : Registry) (clntSock : Int) : Prop :=
  r.clntCnt < maxClnt ∨ clntSock ∉ (entries r).dropLast

instance (r : Registry) (clntSock : Int) : Decidable (Removable r clntSock) :=
  inferInstanceAs (Decidable (_ ∨ _))

/-- `main` takes the mutex for a registration only while the array has a free place, and a
handler takes it only if its disconnect section stays inside. -/
def HasRoom (s : State ν) : Label ε → Prop
  | .main => s.main = .lock → s.shared.registry.clntCnt < maxClnt
  | .handler k => (s.handlers k).pc = .removeLock →
      Removable s.shared.registry (s.handlers k).clntSock
  | _ => True

instance (s : State ν) : DecidablePred (HasRoom (ε := ε) s)
  | .main => inferInstanceAs (Decidable (s.main = .lock → s.shared.registry.clntCnt < maxClnt))
  | .handler k => inferInstanceAs (Decidable ((s.handlers k).pc = .removeLock →
      Removable s.shared.registry (s.handlers k).clntSock))
  | .accept _ | .read _ _ | .peer _ => inferInstanceAs (Decidable True)

/-- The handler's connection is still counted in `clnt_cnt`. -/
def counted : HandlerPc → Nat
  | .unborn | .remove .finished | .close | .finished => 0
  | _ => 1

/-- `main` has registered a connection and not created its thread. -/
def mainCounted : MainPc → Nat
  | .unlock | .create => 1
  | _ => 0

/-- What a handler in its disconnect section knows about its index. -/
def Searching (r : Registry) (clntSock : Int) : HandlerPc → Prop
  | .remove (.search i) => 0 ≤ i ∧ Removable r clntSock
  | .remove (.shift i) => 0 ≤ i ∧ (r.clntCnt < maxClnt ∨ r.clntCnt - 1 ≤ i)
  | _ => True

structure Invariant (s : State ν) : Prop where
  guarded : Guarded s
  counts : s.shared.registry.clntCnt =
    (total s.created (fun k => counted (s.handlers k).pc) + mainCounted s.main : Nat)
  atMost : s.shared.registry.clntCnt ≤ maxClnt
  room : s.main = .register → s.shared.registry.clntCnt < maxClnt
  searching : ∀ k, Searching s.shared.registry (s.handlers k).clntSock (s.handlers k).pc

theorem invariant_start (net : ν) : Invariant (start net) where
  guarded := guarded_start net
  counts := rfl
  atMost := (by decide : (0 : Int) ≤ maxClnt)
  room := by simp [start]
  searching := fun _ => trivial

theorem mem_dropLast_entries {r : Registry} {v : Int} :
    v ∈ (entries r).dropLast ↔ ∃ p, 0 ≤ p ∧ p < r.clntCnt - 1 ∧ r.clntSocks p = v := by
  simp only [List.mem_iff_getElem, List.getElem_dropLast, entries_getElem, List.length_dropLast,
    entries_length]
  constructor
  · rintro ⟨p, hp, rfl⟩
    exact ⟨p, by omega, by omega, rfl⟩
  · rintro ⟨p, h0, hp, rfl⟩
    obtain ⟨p, rfl⟩ := Int.eq_ofNat_of_zero_le h0
    exact ⟨p, by omega, rfl⟩

theorem searching_outside {r : Registry} {clntSock : Int} {pc : HandlerPc}
    (h : ¬ HandlerPc.Inside pc) : Searching r clntSock pc := by
  cases pc with
  | remove => exact absurd trivial h
  | _ => trivial

/-- The indices of a handler are inside, if the array is not overfull. -/
theorem indices_inside {r : Registry} {clntSock : Int} {pc : HandlerPc}
    (hmax : r.clntCnt ≤ maxClnt) (hsend : ∀ msg i, pc = .send msg i → 0 ≤ i)
    (h : Searching r clntSock pc) : ∀ i ∈ indices r pc, 0 ≤ i ∧ i < maxClnt := by
  intro i hi
  cases pc with
  | send msg j =>
    have h0 := hsend msg j rfl
    simp only [indices, List.mem_ite_nil_right, List.mem_singleton] at hi
    omega
  | remove pc =>
    cases pc with
    | search j =>
      have h0 := h.1
      simp only [indices, List.mem_ite_nil_right, List.mem_singleton] at hi
      omega
    | shift j =>
      obtain ⟨h0, hlast⟩ := h
      simp only [indices, List.mem_ite_nil_right, List.mem_cons, List.not_mem_nil, or_false] at hi
      omega
    | decrement | finished => simp [indices] at hi
  | _ => simp [indices] at hi

theorem Invariant.inBounds {s : State ν} (h : Invariant s) : InBounds s where
  count := ⟨by have := h.counts; omega, h.atMost⟩
  main := by
    intro i hi
    have h0 := h.counts
    cases hm : s.main with
    | register =>
      have hroom := h.room hm
      simp only [hm, mainIndices, List.mem_singleton] at hi
      omega
    | _ => simp [hm, mainIndices] at hi
  handlers := fun k => indices_inside h.atMost (h.guarded.index k) (h.searching k)

/-- A handler lowers the count when it gives up its own place in it. -/
theorem move_counted {L : SocketLayer ν ε} {argument : Int} {self : Tid} {h h' : Handler}
    {sh sh' : Shared ν} (hm : HandlerMove L argument self h sh h' sh') :
    sh'.registry.clntCnt ≤ sh.registry.clntCnt ∧
      sh'.registry.clntCnt + counted h.pc = sh.registry.clntCnt + counted h'.pc := by
  cases hm with
  | remove pc next sock _ r stepped =>
    cases removeStep_move stepped with
    | decrement => simp [counted]
    | _ => exact ⟨Int.le_refl _, rfl⟩
  | _ => exact ⟨Int.le_refl _, rfl⟩

/-- A step of the handler that is in its disconnect section. -/
theorem searching_move {L : SocketLayer ν ε} {argument : Int} {self : Tid} {h h' : Handler}
    {sh sh' : Shared ν} (hm : HandlerMove L argument self h sh h' sh')
    (hs : Searching sh.registry h.clntSock h.pc)
    (hlock : h.pc = .removeLock → Removable sh.registry h.clntSock) :
    Searching sh'.registry h'.clntSock h'.pc := by
  cases hm with
  | removeLock => exact ⟨Int.le_refl 0, hlock rfl⟩
  | remove pc next sock _ r stepped =>
    cases removeStep_move stepped with
    | found i inside low _ here =>
      refine ⟨low, hs.2.imp_right fun hnot => ?_⟩
      by_contra hlast
      exact hnot (mem_dropLast_entries.mpr ⟨i, low, Int.not_le.mp hlast, here⟩)
    | passed i _ low => exact ⟨by omega, hs.2⟩
    | moved i _ low =>
      refine ⟨low, hs.2.imp_right fun (hlast : sh.registry.clntCnt - 1 ≤ i) => ?_⟩
      exact Int.le_trans hlast (by omega)
    | missing | shiftDone | decrement => trivial
  | _ => trivial

theorem Invariant.handler {L : SocketLayer ν ε} {s : State ν} (h : Invariant s) {k : Nat}
    {h' : Handler} {sh : Shared ν}
    (hm : HandlerMove L s.clntSock (.handler k) (s.handlers k) s.shared h' sh)
    (hlock : (s.handlers k).pc = .removeLock →
      Removable s.shared.registry (s.handlers k).clntSock) :
    Invariant { s with shared := sh, handlers := Function.update s.handlers k h' } := by
  have hk : k < s.created := by
    by_contra hle
    have hunborn := h.guarded.unborn k (by omega)
    generalize s.handlers k = g at hm hunborn
    cases hm <;> cases hunborn
  obtain ⟨hle, hcnt⟩ := move_counted hm
  have htotal := total_change (fun j => counted (s.handlers j).pc)
    (fun j => counted (Function.update s.handlers k h' j).pc) hk
    (fun j hj => by simp only [Function.update_of_ne hj])
  simp only [Function.update_self] at htotal
  have hcounts := h.counts
  refine ⟨h.guarded.handler hm, ?_, Int.le_trans hle h.atMost,
    fun hr => Int.lt_of_le_of_lt hle (h.room hr), fun j => ?_⟩
  · simp only
    omega
  · by_cases hjk : j = k
    · subst hjk
      simpa only [Function.update_self] using searching_move hm (h.searching j) hlock
    · simp only [Function.update_of_ne hjk]
      by_cases hin : HandlerPc.Inside (s.handlers j).pc
      · have hown := (h.guarded.exclusive (.handler j)).mp hin
        obtain ⟨-, hreg, -⟩ :=
          outside_move hm (h.guarded.others_outside hin hjk) (by simp [hown])
        rw [hreg]
        exact h.searching j
      · exact searching_outside hin

/-- A handler that does not change the array leaves the searches of the others alone. -/
theorem Invariant.searching_update {s : State ν} (h : Invariant s) (k : Nat) {h' : Handler}
    (hnew : Searching s.shared.registry h'.clntSock h'.pc) (j : Nat) :
    Searching s.shared.registry (Function.update s.handlers k h' j).clntSock
      (Function.update s.handlers k h' j).pc :=
  (Function.forall_update_iff s.handlers fun _ g =>
    Searching s.shared.registry g.clntSock g.pc).mpr ⟨hnew, fun i _ => h.searching i⟩ j

/-- Every step with room keeps the invariant. -/
theorem invariant_step {L : SocketLayer ν ε} (s : State ν) (a : Label ε) (t : State ν)
    (h : Invariant s) (hroom : HasRoom s a) (hs : step L s a = some t) : Invariant t := by
  have hg := guarded_step s a t h.guarded hs
  have hcounts := h.counts
  cases (step_move hs).2 with
  | handler k h' sh moved => exact h.handler moved hroom
  | accept fd _ accepted =>
    obtain ⟨hm, sh, rfl, hreg, -⟩ := acceptStep_spec accepted
    refine ⟨hg, ?_, ?_, by simp, ?_⟩
    · simpa only [hreg, hm, mainCounted] using hcounts
    · simpa only [hreg] using h.atMost
    · simpa only [hreg] using h.searching
  | read k res h' stepped =>
    obtain ⟨hpc, -, hpc'⟩ := readStep_spec stepped
    have hsame : ∀ j, counted (Function.update s.handlers k h' j).pc =
        counted (s.handlers j).pc := by
      intro j
      by_cases hjk : j = k
      · subst hjk
        rcases hpc' with hpc' | ⟨msg, hpc'⟩ <;> simp [hpc, hpc', counted]
      · rw [Function.update_of_ne hjk]
    refine ⟨hg, ?_, h.atMost, h.room, h.searching_update k ?_⟩
    · simpa only [hsame] using hcounts
    · rcases hpc' with hpc' | ⟨msg, hpc'⟩ <;> simp [hpc', Searching]
  | peer e net moved => exact ⟨hg, hcounts, h.atMost, h.room, h.searching⟩
  | main _ moved =>
    cases moved with
    | lock pc free =>
      refine ⟨hg, ?_, h.atMost, fun _ => hroom pc, h.searching⟩
      simpa only [pc, mainCounted] using hcounts
    | register pc r stored =>
      -- nobody else is inside, so nobody searches in the array that changes
      have hlt := h.room pc
      obtain ⟨r', hr', hcnt, -⟩ := register_spec s.clntSock s.shared.registry (by omega) hlt
      obtain rfl : r' = r := Option.some.inj (hr'.symm.trans stored)
      refine ⟨hg, ?_, ?_, by simp, fun k => ?_⟩
      · simp only [hcnt, hcounts, pc, mainCounted]
        omega
      · simp only
        omega
      · exact searching_outside (h.guarded.outside_of_main (by simp [pc, MainPc.Inside]) k)
    | unlock pc =>
      refine ⟨hg, ?_, h.atMost, by simp, h.searching⟩
      simpa only [pc, mainCounted] using hcounts
    | create pc =>
      have htotal := total_join (fun j => counted (s.handlers j).pc)
        (fun j => counted (Function.update s.handlers s.created ⟨.start, 0⟩ j).pc)
        (n := s.created) (fun j hj => by simp only [Function.update_of_ne (Nat.ne_of_lt hj)])
      simp only [Function.update_self] at htotal
      refine ⟨hg, ?_, h.atMost, by simp, h.searching_update s.created trivial⟩
      simp only [htotal]
      simpa only [pc, mainCounted, counted] using hcounts

/-- As long as a registration and a removal find room, the count and all indices stay in the
array. -/
theorem inBounds_throughout (L : SocketLayer ν ε) (net : ν) (labels : List (Label ε))
    (h : Along (step L) HasRoom (start net) labels) :
    Throughout (step L) InBounds (start net) labels :=
  (throughout_of_step invariant_step (invariant_start net) h).mono fun _ hI => hI.inBounds

/-- Two clients come, the first speaks and leaves. -/
theorem two_clients_inBounds :
    Throughout (step openSockets) InBounds (start ())
      (twoClients ++ firstSaysHi ++ .read 0 .eof :: List.replicate 6 (.handler 0)) :=
  inBounds_throughout openSockets () _ (by decide +kernel)

/-- A client connects. -/
theorem accept_step {s : State Unit} {fd : Int} (hm : s.main = .accept)
    (halive : s.shared.killed = false) (h0 : 0 ≤ fd) (hfresh : fd ∉ s.shared.opened) :
    step openSockets s (.accept fd) = some { s with
      shared := { s.shared with opened := fd :: s.shared.opened, net := () }
      main := .lock
      clntSock := fd
      accepted := s.accepted ++ [fd] } := by
  have hok : ¬ fd = -1 := by omega
  simp only [step, acceptStep, halive, hm, hok, h0, hfresh, Bool.false_eq_true, if_true, if_false,
    not_false_eq_true, and_self]

/-- `main` registers the pending connection and creates its thread. -/
theorem register_steps {L : SocketLayer ν ε} {s : State ν} (hm : s.main = .lock)
    (halive : s.shared.killed = false) (hfree : s.shared.mutx = none)
    (h0 : 0 ≤ s.shared.registry.clntCnt) (hmax : s.shared.registry.clntCnt < maxClnt) :
    ∃ t, run (step L) s [.main, .main, .main, .main] = some t ∧ t.main = .accept ∧
      t.shared.mutx = none ∧ t.shared.killed = false ∧
      t.shared.registry.clntCnt = s.shared.registry.clntCnt + 1 ∧
      t.shared.opened = s.shared.opened := by
  obtain ⟨r, hr, hcnt, -⟩ := register_spec s.clntSock s.shared.registry h0 hmax
  refine ⟨{ s with
    shared := { s.shared with registry := r, mutx := none }
    main := .accept
    handlers := Function.update s.handlers s.created ⟨.start, 0⟩
    created := s.created + 1 }, ?_, rfl, rfl, halive, hcnt, rfl⟩
  simp [run, step, mainStep, hm, halive, hfree, hr, lock, unlock]

/-- So many clients connect, as the descriptors from 4 on. -/
def connects : Nat → List (Label Empty)
  | 0 => []
  | n + 1 => connects n ++ .accept (n + 4) :: [.main, .main, .main, .main]

/-- The array takes 256 clients. -/
theorem connects_fill (n : Nat) (hn : (n : Int) ≤ maxClnt) :
    ∃ s, run (step openSockets) (start ()) (connects n) = some s ∧ s.main = .accept ∧
      s.shared.mutx = none ∧ s.shared.killed = false ∧ s.shared.registry.clntCnt = n ∧
      ∀ x ∈ s.shared.opened, x < n + 4 := by
  induction n with
  | zero => exact ⟨_, rfl, rfl, rfl, rfl, rfl, by simp [start]⟩
  | succ n ih =>
    obtain ⟨s, hs, hm, hfree, halive, hcnt, hopened⟩ := ih (by omega)
    have hfresh : (n + 4 : Int) ∉ s.shared.opened := fun hmem => by
      have := hopened _ hmem
      omega
    have haccept := accept_step hm halive (by omega) hfresh
    obtain ⟨t, ht, hm', hfree', halive', hcnt', hopened'⟩ := register_steps (L := openSockets)
      (s := { s with
        shared := { s.shared with opened := (n + 4 : Int) :: s.shared.opened, net := () }
        main := .lock
        clntSock := (n + 4 : Int)
        accepted := s.accepted ++ [(n + 4 : Int)] })
      rfl halive hfree (by simp only; omega) (by simp only; omega)
    refine ⟨t, run_append_some.mpr ⟨s, hs, run_cons_some.mpr ⟨_, haccept, ht⟩⟩, hm', hfree',
      halive', by simp [hcnt', hcnt], fun x hx => ?_⟩
    rw [hopened'] at hx
    rcases List.mem_cons.mp hx with rfl | hx
    · omega
    · have := hopened x hx
      omega

/-- A registration that finds the array full uses the place behind it. -/
theorem full_registration_overruns {L : SocketLayer ν ε} {s : State ν} (hm : s.main = .lock)
    (halive : s.shared.killed = false) (hfree : s.shared.mutx = none)
    (hfull : maxClnt ≤ s.shared.registry.clntCnt) :
    ∃ t, step L s .main = some t ∧ ¬ InBounds t := by
  refine ⟨{ s with shared := { s.shared with mutx := some .main }, main := .register }, ?_, ?_⟩
  · simp [step, mainStep, halive, hm, hfree, lock]
  · intro h
    have hlt := (h.main s.shared.registry.clntCnt (by simp [mainIndices])).2
    omega

/-- The 257th client finds no free place. -/
theorem overfull_registration : ¬ ∀ labels : List (Label Empty),
    Throughout (step openSockets) InBounds (start ()) labels := by
  intro h
  obtain ⟨s, hs, hm, hfree, halive, hcnt, hopened⟩ := connects_fill 256 (by decide)
  have hfresh : (260 : Int) ∉ s.shared.opened := fun hmem => absurd (hopened _ hmem) (by decide)
  have haccept := accept_step hm halive (by decide) hfresh
  obtain ⟨t, ht, hout⟩ := full_registration_overruns (L := openSockets)
    (s := { s with
      shared := { s.shared with opened := (260 : Int) :: s.shared.opened, net := () }
      main := .lock
      clntSock := (260 : Int)
      accepted := s.accepted ++ [(260 : Int)] })
    rfl halive hfree (by simp only [hcnt]; decide)
  have hrun : run (step openSockets) (start ()) (connects 256 ++ [.accept 260, .main]) = some t :=
    run_append_some.mpr ⟨s, hs, run_cons_some.mpr ⟨_, haccept, run_cons_some.mpr ⟨t, ht, rfl⟩⟩⟩
  exact hout ((h _).last hrun)

/-- A step of a handler in its disconnect section. -/
theorem remove_step {L : SocketLayer ν ε} {s : State ν} {k : Nat} {pc next : RemovePc}
    {sock : Int} {r : Registry} (hk : s.handlers k = ⟨.remove pc, sock⟩)
    (halive : s.shared.killed = false) (hpc : pc ≠ .finished)
    (hr : removeStep sock pc s.shared.registry = some (next, r)) :
    step L s (.handler k) = some { s with
      shared := { s.shared with registry := r }
      handlers := Function.update s.handlers k ⟨.remove next, sock⟩ } := by
  simp [step, handlerStep, halive, hk, hpc, hr]

/-- The shift loop of a full array reads behind it. -/
theorem full_shift_overruns {L : SocketLayer ν ε} {s : State ν} {k : Nat} {i sock : Int}
    (hk : s.handlers k = ⟨.remove (.shift i), sock⟩) (halive : s.shared.killed = false)
    (hfull : s.shared.registry.clntCnt = maxClnt) (h0 : 0 ≤ i) (hi : i < maxClnt - 1) :
    ∃ n t, run (step L) s (List.replicate n (.handler k)) = some t ∧ ¬ InBounds t := by
  obtain ⟨d, hd⟩ : ∃ d : Nat, i + d = maxClnt - 2 := ⟨(maxClnt - 2 - i).toNat, by omega⟩
  induction d generalizing s i with
  | zero =>
    refine ⟨0, s, rfl, fun h => ?_⟩
    have hin : i + 1 + 1 ∈ indices s.shared.registry (s.handlers k).pc := by
      simp [hk, indices, hfull, hi]
    have := (h.handlers k _ hin).2
    omega
  | succ d ih =>
    have hload := load_some (r := s.shared.registry) (i := i + 1 + 1) (by omega) (by omega)
    have hstore := store_some (r := s.shared.registry) (i := i + 1)
      (s.shared.registry.clntSocks (i + 1 + 1)) (by omega) (by omega)
    have hstep := remove_step (L := L) hk halive (by simp)
      (by rw [removeStep, hfull, if_pos hi, hload, Option.bind_some, hstore, Option.map_some])
    obtain ⟨n, t, ht, hout⟩ := ih (i := i + 1)
      (s := { s with
        shared := { s.shared with registry := { s.shared.registry with
          clntSocks := Function.update s.shared.registry.clntSocks (i + 1)
            (s.shared.registry.clntSocks (i + 1 + 1)) } }
        handlers := Function.update s.handlers k ⟨.remove (.shift (i + 1)), sock⟩ })
      (Function.update_self ..) halive hfull (by omega) (by omega) (by omega)
    exact ⟨n + 1, t, run_cons_some.mpr ⟨_, hstep, ht⟩, hout⟩

/-- The search loop that finds its socket there goes on to the shift loop. -/
theorem full_found_overruns {L : SocketLayer ν ε} {s : State ν} {k : Nat} {i sock : Int}
    (hk : s.handlers k = ⟨.remove (.search i), sock⟩) (halive : s.shared.killed = false)
    (hfull : s.shared.registry.clntCnt = maxClnt) (h0 : 0 ≤ i) (hi : i < maxClnt - 1)
    (hfound : s.shared.registry.clntSocks i = sock) :
    ∃ n t, run (step L) s (List.replicate n (.handler k)) = some t ∧ ¬ InBounds t := by
  have hnext : removeStep sock (.search i) s.shared.registry =
      some (.shift i, s.shared.registry) := by
    rw [removeStep, if_pos (by omega), load_some h0 (by omega), Option.map_some,
      if_pos hfound.symm]
  obtain ⟨n, t, ht, hout⟩ := full_shift_overruns (L := L)
    (s := { s with handlers := Function.update s.handlers k ⟨.remove (.shift i), sock⟩ })
    (Function.update_self ..) halive hfull h0 hi
  exact ⟨n + 1, t, run_cons_some.mpr ⟨_, remove_step hk halive (by simp) hnext, ht⟩, hout⟩

/-- A disconnect section whose socket stands in front of the last place of a full array reads
behind the array, without anybody else taking a step. -/
theorem full_removal_overruns {L : SocketLayer ν ε} {s : State ν} {k : Nat} {i p sock : Int}
    (hk : s.handlers k = ⟨.remove (.search i), sock⟩) (halive : s.shared.killed = false)
    (hfull : s.shared.registry.clntCnt = maxClnt) (h0 : 0 ≤ i) (hip : i ≤ p)
    (hp : p < maxClnt - 1) (hfound : s.shared.registry.clntSocks p = sock) :
    ∃ n t, run (step L) s (List.replicate n (.handler k)) = some t ∧ ¬ InBounds t := by
  obtain ⟨d, rfl⟩ : ∃ d : Nat, p = i + d := ⟨(p - i).toNat, by omega⟩
  induction d generalizing s i with
  | zero => exact full_found_overruns hk halive hfull h0 (by omega) (by simpa using hfound)
  | succ d ih =>
    by_cases he : s.shared.registry.clntSocks i = sock
    · exact full_found_overruns hk halive hfull h0 (by omega) he
    · have hnext : removeStep sock (.search i) s.shared.registry =
          some (.search (i + 1), s.shared.registry) := by
        rw [removeStep, if_pos (by omega), load_some h0 (by omega), Option.map_some,
          if_neg (Ne.symm he)]
      have hplace : i + ((d + 1 : Nat) : Int) = i + 1 + d := by omega
      rw [hplace] at hp hfound
      obtain ⟨n, t, ht, hout⟩ := ih (i := i + 1)
        (s := { s with handlers := Function.update s.handlers k ⟨.remove (.search (i + 1)), sock⟩ })
        (Function.update_self ..) halive hfull (by omega) (by omega) hp hfound
      exact ⟨n + 1, t, run_cons_some.mpr ⟨_, remove_step hk halive (by simp) hnext, ht⟩, hout⟩

end NetworkProgramming.ChatBounds
