import NetworkProgramming.ChatServer.Underway

/-!
# Clients that disconnect

The sockets of the chat server with connections that their peers may close at any
time. The server installs no handler for SIGPIPE, so a `write` on a connection
that is already reset ends the process.
-/
namespace NetworkProgramming.ChatDisconnects

open Buffer Transition ChatRegistry ChatMessages ChatThreads ChatBroadcast ChatUnderway

inductive Connection where
  | live
  | closedByPeer
  | reset
  deriving DecidableEq, Repr

/-- The connection behind each open socket. -/
abbrev Connections := Int → Option Connection

/-- A client ends its connection. -/
structure Leaving where
  sock : Int
  deriving DecidableEq, Repr

/-- `write` on a connection whose peer has closed it makes it reset. The result of `write` is
not looked at, so the error on a descriptor that is not open changes nothing. -/
def writeTo (net : Connections) (fd : Int) : WriteResult Connections :=
  match net fd with
  | none | some .live => .sent net
  | some .closedByPeer => .sent (Function.update net fd (some .reset))
  | some .reset => .sigpipe

def peerSockets : SocketLayer Connections Leaving where
  accept net fd := Function.update net fd (some .live)
  write net fd _ := writeTo net fd
  close net fd := Function.update net fd none
  peer net l :=
    if net l.sock = some .live then some (Function.update net l.sock (some .closedByPeer))
    else none

def start : State Connections := ChatThreads.start fun _ => none

/-- One `write` to each of the sockets in turn finds no connection reset. -/
def Endures (net : Connections) (socks : List Int) : Prop :=
  ∀ fd ∈ socks, net fd ≠ some .reset ∧ (net fd = some .closedByPeer → socks.count fd ≤ 1)

instance (net : Connections) (socks : List Int) : Decidable (Endures net socks) :=
  inferInstanceAs (Decidable (∀ fd ∈ socks, _))

/-- The sockets that the thread in `send_msg`, if any, still has to write to. -/
def toWrite (s : State Connections) : List Int :=
  match s.shared.mutx with
  | some (.handler k) =>
    match (s.handlers k).pc with
    | .send _ i => (entries s.shared.registry).drop i.toNat
    | _ => []
  | _ => []

/-- A handler that is about to broadcast finds no connection that will not endure it. -/
def FindsClosedOnce (sh : Shared Connections) : HandlerPc → Prop
  | .sendLock _ => Endures sh.net (entries sh.registry)
  | _ => True

instance (sh : Shared Connections) : DecidablePred (FindsClosedOnce sh)
  | .sendLock _ => inferInstanceAs (Decidable (Endures sh.net (entries sh.registry)))
  | .unborn | .start | .read | .send _ _ | .sendUnlock | .removeLock | .remove _ | .close
  | .finished => inferInstanceAs (Decidable True)

/-- When `send_msg` takes the mutex, no registered connection is reset, and one that its
peer has closed is registered once; a client that leaves during a broadcast has its socket at
most once among those still to be written to. -/
def RemovedInTime (s : State Connections) : Label Leaving → Prop
  | .handler k => FindsClosedOnce s.shared (s.handlers k).pc
  | .peer l => (toWrite s).count l.sock ≤ 1
  | _ => True

instance (s : State Connections) : DecidablePred (RemovedInTime s)
  | .handler k => inferInstanceAs (Decidable (FindsClosedOnce s.shared (s.handlers k).pc))
  | .peer l => inferInstanceAs (Decidable ((toWrite s).count l.sock ≤ 1))
  | .accept _ | .main | .read _ _ => inferInstanceAs (Decidable True)

theorem writeTo_sigpipe_iff {net : Connections} {fd : Int} :
    writeTo net fd = .sigpipe ↔ net fd = some .reset := by
  unfold writeTo
  cases net fd with
  | none => simp
  | some c => cases c <;> simp

/-- A `write` that goes through touches no other connection, and resets its own if the peer
has closed it. -/
theorem writeTo_sent {net net' : Connections} {dest : Int} (h : writeTo net dest = .sent net') :
    (∀ fd, fd ≠ dest → net' fd = net fd) ∧
      (net dest = some .closedByPeer ∧ net' dest = some .reset ∨
        net dest ≠ some .closedByPeer ∧ net dest ≠ some .reset ∧ net' dest = net dest) := by
  unfold writeTo at h
  cases hc : net dest with
  | none =>
    simp only [hc] at h
    cases h
    exact ⟨fun _ _ => rfl, .inr ⟨by simp, by simp, hc⟩⟩
  | some c =>
    simp only [hc] at h
    cases c with
    | live =>
      cases h
      exact ⟨fun _ _ => rfl, .inr ⟨by simp, by simp, hc⟩⟩
    | closedByPeer =>
      cases h
      exact ⟨fun fd hfd => Function.update_of_ne hfd _ _, .inl ⟨rfl, Function.update_self ..⟩⟩
    | reset => cases h

/-- The rest of a broadcast endures exactly when the broadcast does. -/
theorem endures_cons_iff {net net' : Connections} {dest : Int} {socks : List Int}
    (h : writeTo net dest = .sent net') :
    Endures net (dest :: socks) ↔ Endures net' socks := by
  obtain ⟨hothers, hdest⟩ := writeTo_sent h
  have hcount : ∀ fd, fd ≠ dest → (dest :: socks).count fd = socks.count fd :=
    fun fd hfd => List.count_cons_of_ne (Ne.symm hfd)
  constructor
  · intro he fd hfd
    obtain ⟨hreset, hclosed⟩ := he fd (List.mem_cons_of_mem dest hfd)
    by_cases hd : fd = dest
    · subst hd
      rcases hdest with ⟨hc, -⟩ | ⟨hc, -, hsame⟩
      · -- the socket occurs again, so the peer has not closed it
        have hone := hclosed hc
        have hpos := List.count_pos_iff.mpr hfd
        rw [List.count_cons_self] at hone
        omega
      · rw [hsame]
        exact ⟨hreset, fun h => absurd h hc⟩
    · rw [hothers fd hd, ← hcount fd hd]
      exact ⟨hreset, hclosed⟩
  · intro he fd hfd
    by_cases hd : fd = dest
    · subst hd
      rcases hdest with ⟨hc, hreset⟩ | ⟨hc, hreset, -⟩
      · refine ⟨by simp [hc], fun _ => ?_⟩
        have hnot : fd ∉ socks := fun hm => (he fd hm).1 hreset
        rw [List.count_cons_self, List.count_eq_zero.mpr hnot]
      · exact ⟨hreset, fun h => absurd h hc⟩
    · have hin := he fd ((List.mem_cons.mp hfd).resolve_left hd)
      rwa [hothers fd hd, ← hcount fd hd] at hin

theorem Endures.update {net : Connections} {socks : List Int} (h : Endures net socks) (fd : Int)
    {c : Option Connection} (hc : c ≠ some .reset)
    (hone : c = some .closedByPeer → socks.count fd ≤ 1) :
    Endures (Function.update net fd c) socks := by
  intro x hx
  by_cases hfd : x = fd
  · subst hfd
    simp only [Function.update_self]
    exact ⟨hc, hone⟩
  · simp only [Function.update_of_ne hfd]
    exact h x hx

theorem endures_lasting : Lasting peerSockets fun net socks _ => Endures net socks where
  accept h := h.update _ (by simp) (by simp)
  close h := h.update _ (by simp) (by simp)
  write h hw := (endures_cons_iff hw).mp h

/-- Every broadcast under way endures. -/
abbrev Enduring (s : State Connections) : Prop :=
  Underway (fun net socks _ => Endures net socks) s

theorem toWrite_sender {s : State Connections} (hg : Guarded s) {k : Nat} {msg : List Byte}
    {i : Int} (hk : (s.handlers k).pc = .send msg i) :
    toWrite s = (entries s.shared.registry).drop i.toNat := by
  simp only [toWrite, hg.sender hk, hk]

theorem enduring_step {s t : State Connections} {a : Label Leaving} (hg : Guarded s)
    (he : Enduring s) (hin : RemovedInTime s a) (hs : step peerSockets s a = some t) :
    Enduring t := by
  refine underway_step endures_lasting hg he ?_ ?_ hs
  · rintro k msg rfl hk
    simpa only [RemovedInTime, FindsClosedOnce, hk] using hin
  · rintro l net rfl hl k msg i hk
    obtain ⟨-, hl⟩ := Option.ite_none_right_eq_some.mp hl
    obtain rfl := Option.some.inj hl
    refine (he k msg i hk).update _ (by simp) fun _ => ?_
    rw [← toWrite_sender hg hk]
    exact hin

/-- Only SIGPIPE in a broadcast ends the process. -/
theorem killed_step {ν ε : Type} {L : SocketLayer ν ε} {s t : State ν} {a : Label ε}
    (hs : step L s a = some t) (hk : t.shared.killed = true) :
    ∃ k msg i dest, (s.handlers k).pc = .send msg i ∧ i < s.shared.registry.clntCnt ∧
      load s.shared.registry i = some dest ∧ L.write s.shared.net dest msg = .sigpipe := by
  obtain ⟨halive, hmove⟩ := step_move hs
  cases hmove with
  | accept fd _ accepted =>
    obtain ⟨-, sh, rfl, -, -, hkilled, -⟩ := acceptStep_spec accepted
    exact absurd (hkilled.symm.trans hk) (by simp [halive])
  | main _ moved => cases moved <;> simp [halive] at hk
  | handler k h' sh moved =>
    generalize hh : s.handlers k = h at moved
    cases moved with
    | sigpipe msg i sock dest _ inside loaded raised =>
      exact ⟨k, msg, i, dest, by rw [hh], inside, loaded, raised⟩
    | _ => simp [halive] at hk
  | read | peer => simp [halive] at hk

/-- A broadcast that endures does not end the process. -/
theorem Enduring.survives {s t : State Connections} {a : Label Leaving} (hg : Guarded s)
    (he : Enduring s) (hs : step peerSockets s a = some t) : t.shared.killed = false := by
  by_contra hk
  obtain ⟨k, msg, i, dest, hpc, hi, hload, hsig⟩ := killed_step hs (by simpa using hk)
  have hend := he k msg i hpc
  rw [entries_drop s.shared.registry (hg.index k msg i hpc) hi hload] at hend
  exact (hend dest List.mem_cons_self).1 (writeTo_sigpipe_iff.mp hsig)

/-- As long as a broadcast finds no connection that was reset and none twice that its peer
has closed, no disconnection ends the server. -/
theorem server_survives (labels : List (Label Leaving))
    (h : Along (step peerSockets) RemovedInTime start labels) :
    Throughout (step peerSockets) (fun s => s.shared.killed = false) start labels := by
  have hinv := throughout_of_step
    (I := fun s => Guarded s ∧ Enduring s ∧ s.shared.killed = false)
    (fun s a t hI hin hs => ⟨guarded_step s a t hI.1 hs, enduring_step hI.1 hI.2.1 hin hs,
      hI.2.1.survives hI.1 hs⟩)
    ⟨guarded_start _, fun _ _ _ h => absurd h (by simp [ChatThreads.start]), rfl⟩ h
  exact hinv.mono fun s hI => hI.2.2

/-- Clients 4 and 5 come, client 5 leaves, and client 4 says "hi". -/
def leavesAndHears : List (Label Leaving) :=
  [.accept 4, .main, .main, .main, .main, .handler 0,
    .accept 5, .main, .main, .main, .main, .handler 1,
    .peer ⟨5⟩, .read 0 (.data [104, 105, 10])] ++ List.replicate 5 (.handler 0)

/-- The handler of client 5 removes it before the second message. -/
theorem removed_in_time_survives :
    Throughout (step peerSockets) (fun s => s.shared.killed = false) start
      (leavesAndHears ++ .read 1 .eof :: List.replicate 7 (.handler 1) ++
        .read 0 (.data [104, 105, 10]) :: List.replicate 4 (.handler 0)) :=
  server_survives _ (by decide +kernel)

/-- Two messages before client 5 is removed: the first resets its connection, the second
ends the process. -/
theorem second_broadcast_kills : ¬ ∀ labels,
    Throughout (step peerSockets) (fun s => s.shared.killed = false) start labels := by
  intro h
  have hlast := (h (leavesAndHears ++
    .read 0 (.data [104, 105, 10]) :: List.replicate 3 (.handler 0))).last rfl
  exact absurd hlast (by decide)

/-- The sender's next `write`. -/
theorem write_step {s : State Connections} {k : Nat} {msg : List Byte} {i dest sock : Int}
    (hk : s.handlers k = ⟨.send msg i, sock⟩) (halive : s.shared.killed = false)
    (hi : i < s.shared.registry.clntCnt) (hload : load s.shared.registry i = some dest) :
    step peerSockets s (.handler k) =
      match writeTo s.shared.net dest with
      | .sent net => some { s with
          shared := { s.shared with net := net }
          handlers := Function.update s.handlers k ⟨.send msg (i + 1), sock⟩ }
      | .blocked => none
      | .sigpipe => some { s with
          shared := { s.shared with killed := true }
          handlers := Function.update s.handlers k ⟨.send msg i, sock⟩ } := by
  simp only [step, halive, Bool.false_eq_true, if_false, handlerStep, hk, hi, if_true, hload,
    Option.bind_some, peerSockets]
  cases writeTo s.shared.net dest <;> rfl

/-- The condition is sharp: a broadcast that will not endure ends the server without
anybody else taking a step. -/
theorem broadcast_kills {s : State Connections} {k : Nat} {msg : List Byte} {i sock : Int}
    (hk : s.handlers k = ⟨.send msg i, sock⟩) (halive : s.shared.killed = false) (h0 : 0 ≤ i)
    (hmax : s.shared.registry.clntCnt ≤ maxClnt)
    (hnot : ¬ Endures s.shared.net ((entries s.shared.registry).drop i.toNat)) :
    ∃ n t, run (step peerSockets) s (List.replicate n (.handler k)) = some t ∧
      t.shared.killed = true := by
  generalize hd : (entries s.shared.registry).drop i.toNat = socks at hnot
  induction socks generalizing s i with
  | nil => exact absurd (fun _ h => absurd h (by simp)) hnot
  | cons dest socks ih =>
    have hi : i < s.shared.registry.clntCnt := by
      have hlen := congrArg List.length hd
      simp only [List.length_drop, entries_length, List.length_cons] at hlen
      omega
    have hload := load_some (r := s.shared.registry) h0 (Int.lt_of_lt_of_le hi hmax)
    rw [entries_drop s.shared.registry h0 hi hload] at hd
    obtain ⟨rfl, hrest⟩ := List.cons.inj hd
    have hstep := write_step hk halive hi hload
    cases hw : writeTo s.shared.net (s.shared.registry.clntSocks i) with
    | sent net =>
      rw [hw] at hstep
      obtain ⟨n, t, ht, hkilled⟩ := ih
        (s := { s with
          shared := { s.shared with net := net }
          handlers := Function.update s.handlers k ⟨.send msg (i + 1), sock⟩ })
        (Function.update_self ..) halive (by omega) hmax hrest
        (fun he => hnot ((endures_cons_iff hw).mpr he))
      exact ⟨n + 1, t, run_cons_some.mpr ⟨_, hstep, ht⟩, hkilled⟩
    | blocked =>
      unfold writeTo at hw
      split at hw <;> cases hw
    | sigpipe =>
      rw [hw] at hstep
      exact ⟨1, _, run_cons_some.mpr ⟨_, hstep, rfl⟩, rfl⟩

end NetworkProgramming.ChatDisconnects
