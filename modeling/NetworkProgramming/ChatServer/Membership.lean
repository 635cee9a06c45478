import NetworkProgramming.Library.Transition
import NetworkProgramming.ChatServer.Registry

/-!
# Who is registered with the chat server

Runs of connects and disconnects with the two registry sections as single
steps. The history records which clients have arrived and not left, so the
registry can be compared with it after every step.
-/
namespace NetworkProgramming.ChatMembership

open Transition ChatRegistry

/-- The registry beside the history of its clients. -/
structure Server where
  registry : Registry
  /-- Sockets whose client is registered and has not run its disconnect section,
  in order of arrival. -/
  live : List Int
  /-- What `accept` returned to `main` and is not registered yet. -/
  accepted : Option Int
  /-- Sockets behind the disconnect section that are not closed yet. -/
  leaving : List Int

def start : Server := ⟨initial, [], none, []⟩

inductive Event where
  | accept (clntSock : Int)
  | register
  | disconnect (clntSock : Int)
  | close (clntSock : Int)
  deriving DecidableEq, Repr

/-- `accept` returns a descriptor that is not open at that moment; each handler
has the socket it was started for. -/
def step (s : Server) : Event → Option Server
  | .accept fd =>
    if s.accepted = none ∧ 0 ≤ fd ∧ fd ∉ s.live ∧ fd ∉ s.leaving then
      some { s with accepted := some fd }
    else none
  | .register =>
    s.accepted.bind fun fd => (register fd s.registry).map fun r =>
      { s with registry := r, live := s.live ++ [fd], accepted := none }
  | .disconnect fd =>
    if fd ∈ s.live then
      (disconnect fd s.registry).map fun r =>
        { s with registry := r, live := s.live.erase fd, leaving := fd :: s.leaving }
    else none
  | .close fd =>
    if fd ∈ s.leaving then some { s with leaving := s.leaving.erase fd } else none

/-- The registered part of the array is exactly the clients that are there, each
once and in order of arrival. -/
def Exact (s : Server) : Prop := entries s.registry = s.live ∧ s.live.Nodup

instance : DecidablePred Exact := fun _ => inferInstanceAs (Decidable (_ ∧ _))

/-- Fewer than `MAX_CLNT` clients are registered. -/
def BelowMax (s : Server) : Prop := (s.live.length : Int) < maxClnt

instance : DecidablePred BelowMax := fun _ => inferInstanceAs (Decidable (_ < _))

/-- A client that disconnects is the last arrival among those registered. -/
def LastLeaves (s : Server) : Event → Prop
  | .disconnect fd => s.live.getLast? = some fd
  | _ => True

instance : ∀ s e, Decidable (LastLeaves s e)
  | s, .disconnect fd => inferInstanceAs (Decidable (s.live.getLast? = some fd))
  | _, .accept _ | _, .register | _, .close _ => inferInstanceAs (Decidable True)

/-- What holds in every run, whether or not the array is right. -/
structure Counted (s : Server) : Prop where
  count : s.registry.clntCnt = s.live.length
  nodup : s.live.Nodup
  fresh : ∀ fd ∈ s.accepted, fd ∉ s.live

theorem counted_start : Counted start :=
  ⟨rfl, List.nodup_nil, by simp [start]⟩

/-- In a list without repetition, losing an element and losing its right
neighbour are different. -/
theorem eraseIdx_ne_succ {α : Type*} {l : List α} (h : l.Nodup) {p : Nat}
    (hp : p + 1 < l.length) : l.eraseIdx (p + 1) ≠ l.eraseIdx p := by
  intro he
  have hl : p < (l.eraseIdx p).length := by
    rw [List.length_eraseIdx_of_lt (by omega)]
    omega
  have hk : (l.eraseIdx (p + 1))[p]? = (l.eraseIdx p)[p]? := by rw [he]
  rw [List.getElem?_eraseIdx_of_lt (by omega), List.getElem?_eraseIdx_of_ge (by omega),
    List.getElem?_eq_getElem (by omega), List.getElem?_eq_getElem hp] at hk
  have := h.getElem_inj_iff.mp (Option.some.inj hk)
  omega

/-- The disconnect section of a registered client, on a registry that is exact. -/
theorem disconnect_exact_iff {s : Server} {fd : Int} (hc : Counted s) (he : Exact s)
    (hmax : BelowMax s) (hfd : fd ∈ s.live) :
    ∃ r, disconnect fd s.registry = some r ∧ r.clntCnt = s.registry.clntCnt - 1 ∧
      (entries r = s.live.erase fd ↔ s.live.getLast? = some fd) := by
  obtain ⟨p, hp, rfl⟩ := List.getElem_of_mem hfd
  have hcount := hc.count
  have hlive := he.1
  have hd : disconnect s.live[p] s.registry =
      some ⟨s.registry.clntCnt - 1, shifted s.registry.clntSocks p s.registry.clntCnt⟩ := by
    have h := disconnect_spec s.registry p (by rw [hcount]; exact hmax)
      (hlive.symm ▸ hc.nodup) (by simpa only [hlive] using hp)
    simpa only [hlive] using h
  refine ⟨_, hd, rfl, ?_⟩
  rw [hc.nodup.erase_getElem]
  by_cases hlast : p + 1 = s.live.length
  · rw [entries_shifted_last _ _ (by omega), hlive, List.getLast?_eq_getElem?]
    have hi : s.live.length - 1 = p := by omega
    simp [hi, hp]
  · rw [entries_shifted_earlier _ _ (by omega), hlive, List.getLast?_eq_getElem?]
    constructor
    · intro h
      exact absurd h (eraseIdx_ne_succ hc.nodup (by omega))
    · intro h
      have hi : s.live.length - 1 < s.live.length := by omega
      rw [List.getElem?_eq_getElem hi, Option.some.injEq] at h
      have := hc.nodup.getElem_inj_iff.mp h
      omega

/-- One step keeps the history consistent, and keeps an exact registry exact
unless a client that is not the last arrival disconnects. -/
theorem step_spec {s t : Server} {e : Event} (hc : Counted s) (he : Exact s)
    (hmax : BelowMax s) (h : step s e = some t) :
    Counted t ∧ (Exact t ↔ LastLeaves s e) := by
  have hcount := hc.count
  cases e with
  | accept fd =>
    simp only [step] at h
    split at h
    next hg =>
      cases h
      exact ⟨⟨hc.count, hc.nodup, by simpa using hg.2.2.1⟩, iff_of_true he trivial⟩
    next => cases h
  | register =>
    simp only [step, Option.bind_eq_some_iff, Option.map_eq_some_iff] at h
    obtain ⟨fd, hfd, r, hr, rfl⟩ := h
    obtain ⟨r', hr', hcnt, hent⟩ := register_spec fd s.registry (by omega)
      (by rw [hcount]; exact hmax)
    obtain rfl : r' = r := Option.some.inj (hr'.symm.trans hr)
    have hnew := hc.fresh fd hfd
    have hnodup : (s.live ++ [fd]).Nodup := by
      rw [List.nodup_append_comm]
      exact List.nodup_cons.mpr ⟨hnew, hc.nodup⟩
    refine ⟨⟨?_, hnodup, by simp⟩, ?_⟩
    · simp only [hcnt, hcount, List.length_append, List.length_singleton]
      omega
    · simpa [LastLeaves, Exact, hent, he.1] using hnodup
  | disconnect fd =>
    simp only [step] at h
    split at h
    next hfd =>
      obtain ⟨r, hr, hcnt, hiff⟩ := disconnect_exact_iff hc he hmax hfd
      simp only [hr, Option.map_some, Option.some.injEq] at h
      subst h
      have hnodup := hc.nodup.erase fd
      refine ⟨⟨?_, hnodup, ?_⟩, ?_⟩
      · have hpos := List.length_pos_of_mem hfd
        simp only [hcnt, hcount, List.length_erase_of_mem hfd]
        omega
      · intro x hx hm
        exact hc.fresh x hx (List.mem_of_mem_erase hm)
      · simpa [LastLeaves, Exact, hnodup] using hiff
    next => cases h
  | close fd =>
    simp only [step] at h
    split at h
    next =>
      cases h
      exact ⟨⟨hc.count, hc.nodup, hc.fresh⟩, iff_of_true he trivial⟩
    next => cases h

/-- The registry is right after every step of a run if and only if every client
that disconnects is the last arrival among those registered at that moment. -/
theorem exact_throughout_iff (es : List Event) (t : Server)
    (hrun : run step start es = some t) (hmax : Throughout step BelowMax start es) :
    Throughout step Exact start es ↔ Along step LastLeaves start es :=
  throughout_iff_along_within (fun _ _ _ hc he hd h => step_spec hc he hd.1 h)
    (fun _ _ hd hnone => by simp [hnone] at hd) counted_start ⟨rfl, List.nodup_nil⟩
    (along_of_run hmax hrun)

/-- Two clients come and the second one leaves. -/
theorem exact_second_leaves :
    Throughout step Exact start
      [.accept 4, .register, .accept 5, .register, .disconnect 5, .close 5] :=
  (exact_throughout_iff _ _ rfl (by decide)).mpr (by decide)

/-- Two clients come and the first one leaves: the array keeps its closed socket
and loses the client that stays. -/
theorem first_leaves_not_exact :
    ¬ ∀ es t, run step start es = some t → Throughout step BelowMax start es →
      Throughout step Exact start es := by
  intro h
  have hx := h [.accept 4, .register, .accept 5, .register, .disconnect 4] _ rfl (by decide)
  exact absurd hx (by decide)

end NetworkProgramming.ChatMembership