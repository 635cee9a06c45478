import NetworkProgramming.ChatServer.Underway

/-!
# Clients that do not read

The sockets of the chat server with outgoing queues of finite size. A `write`
waits until the queue has room for the whole message, and `send_msg` writes
under the mutex.
-/
namespace NetworkProgramming.ChatBackpressure

open Buffer Transition Mutex ChatRegistry ChatMessages ChatThreads ChatBroadcast ChatUnderway

/-- The bytes that the client has not read, for each open socket. -/
abbrev Queues := Int → Option (List Byte)

def queued (net : Queues) (fd : Int) : List Byte := (net fd).getD []

/-- A client takes bytes out of its queue. -/
structure Reading where
  sock : Int
  len : Nat
  deriving DecidableEq, Repr

/-- The result of `write` is not looked at, so the error on a descriptor that is not open
leaves everything as it is. -/
def boundedWrite (cap : Int → Nat) (net : Queues) (fd : Int) (msg : List Byte) :
    WriteResult Queues :=
  match net fd with
  | none => .sent net
  | some queue =>
    if queue.length + msg.length ≤ cap fd then
      .sent (Function.update net fd (some (queue ++ msg)))
    else .blocked

def boundedSockets (cap : Int → Nat) : SocketLayer Queues Reading where
  accept net fd := Function.update net fd (some [])
  write := boundedWrite cap
  close net fd := Function.update net fd none
  peer net r :=
    (net r.sock).bind fun queue =>
      if 0 < r.len ∧ r.len ≤ queue.length then
        some (Function.update net r.sock (some (queue.drop r.len)))
      else none

def start : State Queues := ChatThreads.start fun _ => none

variable {cap : Int → Nat}

/-- The owner of the mutex is blocked in `write` on the queue of this socket. -/
def Blocked (cap : Int → Nat) (fd : Int) (s : State Queues) : Prop :=
  ∃ k msg i, s.shared.mutx = some (.handler k) ∧ (s.handlers k).pc = .send msg i ∧
    i < s.shared.registry.clntCnt ∧ load s.shared.registry i = some fd ∧
    boundedWrite cap s.shared.net fd msg = .blocked

/-- The thread is at a `pthread_mutex_lock(&mutx)`. -/
def Waits (s : State Queues) : Tid → Prop
  | .main => s.main = .lock
  | .handler k => (s.handlers k).pc = .removeLock ∨ ∃ msg, (s.handlers k).pc = .sendLock msg

/-- The full queue of one client holds up the accept loop or another handler. -/
def BlocksOthers (cap : Int → Nat) (s : State Queues) : Prop :=
  (∃ fd, Blocked cap fd s) ∧ ∃ t, Waits s t

/-- The queues have room for the message as often as it is still to be written to them. -/
def RoomFor (cap : Int → Nat) (net : Queues) (socks : List Int) (msg : List Byte) : Prop :=
  ∀ fd ∈ socks, (queued net fd).length + socks.count fd * msg.length ≤ cap fd

instance (net : Queues) (socks : List Int) (msg : List Byte) :
    Decidable (RoomFor cap net socks msg) :=
  inferInstanceAs (Decidable (∀ fd ∈ socks, _))

/-- A handler that is about to broadcast finds room for its message. -/
def FindsRoom (cap : Int → Nat) (sh : Shared Queues) : HandlerPc → Prop
  | .sendLock msg => RoomFor cap sh.net (entries sh.registry) msg
  | _ => True

instance (sh : Shared Queues) : DecidablePred (FindsRoom cap sh)
  | .sendLock msg => inferInstanceAs (Decidable (RoomFor cap sh.net (entries sh.registry) msg))
  | .unborn | .start | .read | .send _ _ | .sendUnlock | .removeLock | .remove _ | .close
  | .finished => inferInstanceAs (Decidable True)

/-- Whenever `send_msg` takes the mutex, the registered clients have read enough to leave
room for its message. -/
def ReadsInTime (cap : Int → Nat) (s : State Queues) : Label Reading → Prop
  | .handler k => FindsRoom cap s.shared (s.handlers k).pc
  | _ => True

instance (s : State Queues) : DecidablePred (ReadsInTime cap s)
  | .handler k => inferInstanceAs (Decidable (FindsRoom cap s.shared (s.handlers k).pc))
  | .accept _ | .main | .read _ _ | .peer _ => inferInstanceAs (Decidable True)

theorem boundedWrite_blocked_iff {net : Queues} {fd : Int} {msg : List Byte} :
    boundedWrite cap net fd msg = .blocked ↔
      ∃ queue, net fd = some queue ∧ cap fd < queue.length + msg.length := by
  unfold boundedWrite
  cases net fd with
  | none => simp
  | some queue =>
    by_cases hfits : queue.length + msg.length ≤ cap fd
    · simp [hfits]
    · exact iff_of_true (by simp [hfits]) ⟨queue, rfl, Nat.lt_of_not_le hfits⟩

/-- A `write` that goes through lengthens one queue by the message, if any. -/
theorem boundedWrite_sent {net net' : Queues} {dest : Int} {msg : List Byte}
    (h : boundedWrite cap net dest msg = .sent net') (fd : Int) :
    (queued net' fd).length ≤
      (queued net fd).length + if fd = dest then msg.length else 0 := by
  unfold boundedWrite at h
  cases hq : net dest with
  | none =>
    rw [hq] at h
    cases h
    exact Nat.le_add_right _ _
  | some queue =>
    rw [hq] at h
    simp only at h
    split at h
    next =>
      cases h
      by_cases hfd : fd = dest
      · subst hfd
        simp [queued, hq]
      · simp [queued, hfd]
    next => cases h

theorem RoomFor.shrink {net net' : Queues} {socks : List Int} {msg : List Byte}
    (h : RoomFor cap net socks msg)
    (hle : ∀ fd, (queued net' fd).length ≤ (queued net fd).length) :
    RoomFor cap net' socks msg := by
  intro fd hfd
  have := h fd hfd
  have := hle fd
  omega

theorem RoomFor.write {net net' : Queues} {dest : Int} {socks : List Int} {msg : List Byte}
    (h : RoomFor cap net (dest :: socks) msg)
    (hw : boundedWrite cap net dest msg = .sent net') : RoomFor cap net' socks msg := by
  intro fd hfd
  have hroom := h fd (List.mem_cons_of_mem dest hfd)
  have hlen := boundedWrite_sent hw fd
  rw [List.count_cons, Nat.add_mul] at hroom
  by_cases hd : fd = dest
  · subst hd
    simp only [if_true, beq_self_eq_true] at hroom hlen
    omega
  · simp only [hd, if_false] at hlen
    omega

theorem RoomFor.not_blocked {net : Queues} {dest : Int} {socks : List Int} {msg : List Byte}
    (h : RoomFor cap net (dest :: socks) msg) : boundedWrite cap net dest msg ≠ .blocked := by
  intro hb
  obtain ⟨queue, hq, hfull⟩ := boundedWrite_blocked_iff.mp hb
  have hroom := h dest List.mem_cons_self
  rw [List.count_cons_self, Nat.add_mul, Nat.one_mul] at hroom
  simp only [queued, hq, Option.getD_some] at hroom
  omega

/-- Every broadcast under way has room for the rest of its writes. -/
def Fits (cap : Int → Nat) (s : State Queues) : Prop :=
  ∀ k msg i, (s.handlers k).pc = .send msg i →
    RoomFor cap s.shared.net ((entries s.shared.registry).drop i.toNat) msg

theorem fits_start : Fits cap start := fun _ _ _ h => nomatch h

/-- A client only shortens its own queue. -/
theorem peer_net {net net' : Queues} {r : Reading}
    (h : (boundedSockets cap).peer net r = some net') :
    ∃ queue, net r.sock = some queue ∧
      net' = Function.update net r.sock (some (queue.drop r.len)) := by
  obtain ⟨queue, hq, h⟩ := Option.bind_eq_some_iff.mp h
  obtain ⟨-, h⟩ := Option.ite_none_right_eq_some.mp h
  exact ⟨queue, hq, (Option.some.inj h).symm⟩

theorem queued_update_le (net : Queues) (fd : Int) {queue : Option (List Byte)}
    (h : (queue.getD []).length ≤ (queued net fd).length) (x : Int) :
    (queued (Function.update net fd queue) x).length ≤ (queued net x).length := by
  by_cases hx : x = fd
  · subst hx
    simpa [queued] using h
  · simp [queued, hx]

theorem roomFor_lasting : Lasting (boundedSockets cap) (RoomFor cap) where
  accept h := h.shrink (queued_update_le _ _ (Nat.zero_le _))
  close h := h.shrink (queued_update_le _ _ (Nat.zero_le _))
  write h hw := h.write hw

/-- Every step keeps the room of the broadcasts, if the clients read in time. -/
theorem fits_step {s t : State Queues} {a : Label Reading} (hg : Guarded s) (hf : Fits cap s)
    (hread : ReadsInTime cap s a) (hs : step (boundedSockets cap) s a = some t) :
    Fits cap t := by
  refine underway_step roomFor_lasting hg hf ?_ ?_ hs
  · rintro k msg rfl hk
    simpa only [ReadsInTime, FindsRoom, hk] using hread
  · rintro r net rfl hr k msg i hk
    refine (hf k msg i hk).shrink fun x => ?_
    obtain ⟨queue, hq, rfl⟩ := peer_net hr
    exact queued_update_le _ _ (by simp [queued, hq]) x

theorem Fits.not_blocked {s : State Queues} (hg : Guarded s) (hf : Fits cap s) (fd : Int) :
    ¬ Blocked cap fd s := by
  rintro ⟨k, msg, i, -, hpc, hi, hload, hblocked⟩
  have hroom := hf k msg i hpc
  rw [entries_drop s.shared.registry (hg.index k msg i hpc) hi hload] at hroom
  exact hroom.not_blocked hblocked

/-- As long as the clients read in time for every broadcast, none of them blocks the
others. -/
theorem unblocked_throughout (cap : Int → Nat) (labels : List (Label Reading))
    (h : Along (step (boundedSockets cap)) (ReadsInTime cap) start labels) :
    Throughout (step (boundedSockets cap)) (fun s => ¬ BlocksOthers cap s) start labels := by
  have hinv := throughout_of_step (I := fun s => Guarded s ∧ Fits cap s)
    (fun s a t hI hread hs => ⟨guarded_step s a t hI.1 hs, fits_step hI.1 hI.2 hread hs⟩)
    ⟨guarded_start _, fits_start⟩ h
  exact hinv.mono fun s hI hb => hb.1.elim fun fd hfd => hI.2.not_blocked hI.1 fd hfd

/-- Clients 4 and 5 come, and client 4 sends 98 characters, which leaves no room for as many
again. -/
def firstBroadcast : List (Label Reading) :=
  [.accept 4, .main, .main, .main, .main, .handler 0,
    .accept 5, .main, .main, .main, .main, .handler 1,
    .read 0 (.data (List.replicate 98 97 ++ [10])),
    .handler 0, .handler 0, .handler 0, .handler 0, .handler 0]

/-- Both clients read before the second message. -/
theorem readers_do_not_block :
    Throughout (step (boundedSockets fun _ => 100)) (fun s => ¬ BlocksOthers (fun _ => 100) s)
      start (firstBroadcast ++ [.peer ⟨4, 98⟩, .peer ⟨5, 98⟩,
        .read 0 (.data (List.replicate 98 97 ++ [10])), .handler 0, .handler 0, .handler 0]) :=
  unblocked_throughout _ _ (by decide +kernel)

/-- Client 5 does not read, so the second message stops before its socket while `main` has
accepted another client. -/
theorem stopped_reader_blocks : ¬ ∀ cap labels,
    Throughout (step (boundedSockets cap)) (fun s => ¬ BlocksOthers cap s) start labels := by
  intro h
  have hlast := (h (fun _ => 100) (firstBroadcast ++ [.peer ⟨4, 98⟩,
    .read 0 (.data (List.replicate 98 97 ++ [10])), .handler 0, .handler 0, .accept 6])).last rfl
  exact hlast ⟨⟨5, 0, List.replicate 98 97, 1, rfl, rfl, by decide, rfl, rfl⟩, .main, rfl⟩

/-- Nothing happens to this socket. -/
def Untouched (fd : Int) (s : State Queues) : Label Reading → Prop
  | .accept sock => sock ≠ fd
  | .handler k => (s.handlers k).pc = .close → (s.handlers k).clntSock ≠ fd
  | .peer r => r.sock ≠ fd
  | .main | .read _ _ => True

theorem boundedWrite_congr {net net' : Queues} {fd : Int} (h : net' fd = net fd)
    {msg : List Byte} (hb : boundedWrite cap net fd msg = .blocked) :
    boundedWrite cap net' fd msg = .blocked :=
  boundedWrite_blocked_iff.mpr (h ▸ boundedWrite_blocked_iff.mp hb)

/-- Whatever the others do, the owner of the mutex stays blocked. -/
theorem blocked_step {fd : Int} {s t : State Queues} {a : Label Reading} (hg : Guarded s)
    (hb : Blocked cap fd s) (hquiet : Untouched fd s a)
    (hs : step (boundedSockets cap) s a = some t) : Blocked cap fd t := by
  obtain ⟨k, msg, i, hown, hpc, hi, hload, hblocked⟩ := hb
  cases (step_move hs).2 with
  | accept sock _ accepted =>
    obtain ⟨-, sh, rfl, hreg, hmutx, -⟩ := acceptStep_spec accepted
    refine ⟨k, msg, i, hmutx.trans hown, hpc, hreg ▸ hi, hreg ▸ hload, ?_⟩
    rcases acceptStep_net accepted with hnet | hnet
    · exact boundedWrite_congr (congrFun hnet fd) hblocked
    · refine boundedWrite_congr ?_ hblocked
      rw [hnet]
      exact Function.update_of_ne (Ne.symm hquiet) _ _
  | main _ moved =>
    cases moved with
    | lock pc free => exact absurd (free.symm.trans hown) (by simp)
    | register pc | unlock pc =>
      have hmain := (hg.exclusive .main).mp (by simp [Inside, pc, MainPc.Inside])
      exact absurd (hmain.symm.trans hown) (by simp)
    | create pc =>
      have hne : k ≠ s.created := by
        rintro rfl
        simp [hg.unborn s.created (Nat.le_refl _)] at hpc
      exact ⟨k, msg, i, hown, by simpa [Function.update_of_ne hne], hi, hload, hblocked⟩
  | handler j h' sh moved =>
    by_cases hkj : k = j
    · -- the owner itself cannot move
      subst hkj
      generalize s.handlers k = h at moved hpc
      cases moved with
      | write _ _ _ dest _ _ _ loaded sent =>
        cases hpc
        obtain rfl := Option.some.inj (loaded.symm.trans hload)
        exact absurd (sent.symm.trans hblocked) (by simp)
      | sigpipe _ _ _ dest _ _ loaded raised =>
        cases hpc
        obtain rfl := Option.some.inj (loaded.symm.trans hload)
        exact absurd (raised.symm.trans hblocked) (by simp)
      | sendDone _ _ _ _ behind =>
        cases hpc
        exact absurd hi behind
      | _ => cases hpc
    · obtain ⟨hmutx, hreg, hnet⟩ :=
        outside_move moved (hg.others_outside (hpc ▸ trivial) hkj) (by simp [hown])
      refine ⟨k, msg, i, hmutx.trans hown, by simpa [Function.update_of_ne hkj], hreg ▸ hi,
        hreg ▸ hload, ?_⟩
      rcases hnet with hnet | ⟨hclose, hnet⟩
      · exact boundedWrite_congr (congrFun hnet fd) hblocked
      · refine boundedWrite_congr ?_ hblocked
        rw [hnet]
        exact Function.update_of_ne (Ne.symm (hquiet hclose)) _ _
  | read j res h' stepped =>
    have hkj : k ≠ j := by
      rintro rfl
      simp [(readStep_spec stepped).1] at hpc
    exact ⟨k, msg, i, hown, by simpa [Function.update_of_ne hkj], hi, hload, hblocked⟩
  | peer r net moved =>
    refine ⟨k, msg, i, hown, hpc, hi, hload, boundedWrite_congr ?_ hblocked⟩
    obtain ⟨queue, -, rfl⟩ := peer_net moved
    exact Function.update_of_ne (Ne.symm hquiet) _ _

/-- A client that has stopped reading holds the mutex with its full queue, in all that the
others do. -/
theorem blocked_until_read {fd : Int} {labels rest : List (Label Reading)} {s : State Queues}
    (hs : run (step (boundedSockets cap)) start labels = some s) (hb : Blocked cap fd s)
    (hquiet : Along (step (boundedSockets cap)) (Untouched fd) s rest) :
    Throughout (step (boundedSockets cap)) (Blocked cap fd) s rest := by
  have hg : Guarded s := run_invariant guarded_step (guarded_start _) hs
  have hinv := throughout_of_step (I := fun s => Guarded s ∧ Blocked cap fd s)
    (fun s a t hI hq hs => ⟨guarded_step s a t hI.1 hs, blocked_step hI.1 hI.2 hq hs⟩)
    ⟨hg, hb⟩ hquiet
  exact hinv.mono fun _ hI => hI.2

end NetworkProgramming.ChatBackpressure
