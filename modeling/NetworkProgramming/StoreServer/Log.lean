import NetworkProgramming.StoreServer.Backlog

/-!
# The log of the storing echo server

The service children put whole chunks into the pipe, and the storage child takes
out of it whatever its reads get.
-/
namespace NetworkProgramming.StoreLog

open Buffer Transition StoreProcesses StoreBacklog

/-- The chunk that a step writes to the pipe, with the number of its writer. -/
def pipeWrites (s : State) : Label → List (Nat × List Byte)
  | .store k =>
    match s.services k with
    | .store piece => [(k, piece)]
    | _ => []
  | _ => []

/-- The chunk that child `k` reads from its client in a step. -/
def clientReads (k : Nat) (_ : State) : Label → List (List Byte)
  | .read j piece => if j = k ∧ piece ≠ [] then [piece] else []
  | _ => []

/-- The bytes of the chunks, each with the number of its writer. -/
def tagged (writes : List (Nat × List Byte)) : List (Nat × Byte) :=
  writes.flatMap fun w => w.2.map (w.1, ·)

/-- The bytes that come from child `k`. -/
def partOf (k : Nat) (bytes : List (Nat × Byte)) : List Byte :=
  (bytes.filter fun b => b.1 = k).map Prod.snd

/-- The chunk in the hand of a service child. -/
def handPiece : ServicePc → List (List Byte)
  | .echo piece | .store piece => [piece]
  | _ => []

@[simp] theorem handPiece_unborn : handPiece .unborn = [] := rfl
@[simp] theorem handPiece_reading : handPiece .reading = [] := rfl
@[simp] theorem handPiece_echo (piece : List Byte) : handPiece (.echo piece) = [piece] := rfl
@[simp] theorem handPiece_store (piece : List Byte) : handPiece (.store piece) = [piece] := rfl
@[simp] theorem handPiece_closing : handPiece .closing = [] := rfl
@[simp] theorem handPiece_exited : handPiece .exited = [] := rfl

/-- What the file is after a run: the front of the chunks written to the pipe, one whole
chunk after the other, of which the pipe still has the rest; every child has written, in order,
the chunks it has read from its client, so the client's part of the file is a prefix of what it
sent. -/
structure Faithful (cap : Nat) (as : List Label) (t : State) : Prop where
  written : t.file ++ t.pipe = (trace (step cap) pipeWrites start as).flatMap Prod.snd
  log : t.file <+: (trace (step cap) pipeWrites start as).flatMap Prod.snd
  chunks : ∀ k, ((trace (step cap) pipeWrites start as).filter fun w => w.1 = k).map Prod.snd <+:
    trace (step cap) (clientReads k) start as
  bytes : t.file =
    ((tagged (trace (step cap) pipeWrites start as)).take t.file.length).map Prod.snd
  client : ∀ k,
    partOf k ((tagged (trace (step cap) pipeWrites start as)).take t.file.length) <+:
      (trace (step cap) (clientReads k) start as).flatten

theorem tagged_snd (writes : List (Nat × List Byte)) :
    (tagged writes).map Prod.snd = writes.flatMap Prod.snd := by
  simp [tagged, List.map_flatMap, Function.comp_def]

theorem partOf_tagged (k : Nat) (writes : List (Nat × List Byte)) :
    partOf k (tagged writes) = ((writes.filter fun w => w.1 = k).map Prod.snd).flatten := by
  induction writes with
  | nil => rfl
  | cons w writes ih =>
    have hcons : tagged (w :: writes) = w.2.map (w.1, ·) ++ tagged writes := rfl
    simp only [partOf] at ih
    rw [partOf, hcons, List.filter_append, List.map_append, ih]
    by_cases hw : w.1 = k
    · simp [hw, List.filter_map, Function.comp_def]
    · simp [hw, List.filter_map, Function.comp_def]

/-- Nothing is lost or torn between the pipe and the file. -/
theorem file_pipe_step {cap : Nat} (s : State) (a : Label) (t : State)
    (hs : step cap s a = some t) :
    t.file ++ t.pipe = s.file ++ s.pipe ++ (pipeWrites s a).flatMap Prod.snd := by
  cases step_move hs with
  | store k piece pc => simp [pipeWrites, pc, State.setService, List.append_assoc]
  | storageRead i len =>
    simp [pipeWrites, List.append_assoc]
  | _ => simp [pipeWrites, State.setService]

theorem handPiece_setService (s : State) (j k : Nat) (pc : ServicePc) :
    handPiece ((s.setService j pc).services k) =
      if j = k then handPiece pc else handPiece (s.services k) := by
  by_cases hjk : j = k
  · simp [State.setService, hjk]
  · simp [State.setService, hjk, Function.update_of_ne (Ne.symm hjk)]

/-- What child `k` writes to the pipe, and what it has in hand, is what it reads. -/
theorem hand_step {cap : Nat} (k : Nat) (s : State) (a : Label) (t : State) (hb : Books s)
    (hs : step cap s a = some t) :
    ((pipeWrites s a).filter fun w => w.1 = k).map Prod.snd ++ handPiece (t.services k) =
      handPiece (s.services k) ++ clientReads k s a := by
  cases step_move hs with
  | connect =>
    have hnew := hb.unborn s.forks (Nat.le_refl _)
    have hset := handPiece_setService s s.forks k .reading
    by_cases hk : s.forks = k
    · subst hk
      simp [pipeWrites, clientReads, hset, hnew]
    · simp [pipeWrites, clientReads, hset, hk]
  | eof j pc | close j pc | echo j piece pc =>
    by_cases hk : j = k
    · subst hk
      simp [pipeWrites, clientReads, handPiece_setService, pc]
    · simp [pipeWrites, clientReads, handPiece_setService, hk]
  | read j piece pc _ hpiece =>
    have hset := handPiece_setService s j k (.echo piece)
    by_cases hk : j = k
    · subst hk
      simp [pipeWrites, clientReads, hset, pc, hpiece]
    · simp [pipeWrites, clientReads, hset, hk]
  | store j piece pc =>
    have hset := handPiece_setService s j k .reading
    by_cases hk : j = k
    · subst hk
      simp [pipeWrites, clientReads, hset, pc]
    · simp [pipeWrites, clientReads, hset, pc, hk]
  | storageRead | storageExit => simp [pipeWrites, clientReads]

theorem file_pipe {cap : Nat} {as : List Label} {t : State}
    (h : run (step cap) start as = some t) :
    t.file ++ t.pipe = (trace (step cap) pipeWrites start as).flatMap Prod.snd := by
  rw [trace_hom (step cap) pipeWrites (List.flatMap Prod.snd) rfl (by simp)]
  exact trace_collects _ (fun s => s.file ++ s.pipe) file_pipe_step h

/-- The chunks that child `k` has written are the first ones of those it has read. -/
theorem chunks_prefix {cap : Nat} {as : List Label} {t : State}
    (h : run (step cap) start as = some t) (k : Nat) :
    ((trace (step cap) pipeWrites start as).filter fun w => w.1 = k).map Prod.snd <+:
      trace (step cap) (clientReads k) start as := by
  have hbooks : Throughout (step cap) Books start as :=
    throughout_invariant (fun s a t h hs => books_step h (step_move hs)) books_start as
  have hbalance := trace_balance _ (clientReads k) (fun s => handPiece (s.services k))
    (hand_step k) hbooks h
  rw [trace_hom (step cap) pipeWrites (fun l => (l.filter fun w => w.1 = k).map Prod.snd) rfl
    (by simp)]
  exact ⟨_, hbalance⟩

/-- In every state of every run the file is the front of whole chunks of the clients, in
the order in which these were written to the pipe, and has a prefix of what each child has
read from its client. -/
theorem log_faithful (cap : Nat) (as : List Label) (t : State)
    (h : run (step cap) start as = some t) : Faithful cap as t := by
  have hlog : t.file <+: (trace (step cap) pipeWrites start as).flatMap Prod.snd :=
    ⟨t.pipe, file_pipe h⟩
  refine ⟨file_pipe h, hlog, chunks_prefix h, ?_, fun k => ?_⟩
  · rw [List.map_take, tagged_snd]
    exact (List.prefix_iff_eq_take.mp hlog)
  · -- the file's part of child `k` is a prefix of all that the child has written
    have hpart : partOf k ((tagged (trace (step cap) pipeWrites start as)).take t.file.length) <+:
        partOf k (tagged (trace (step cap) pipeWrites start as)) :=
      ((List.take_prefix _ _).filter _).map _
    rw [partOf_tagged] at hpart
    obtain ⟨rest, hrest⟩ := chunks_prefix h k
    refine hpart.trans ⟨rest.flatten, ?_⟩
    rw [← hrest, List.flatten_append]

/-- Two clients' chunks, of which the storage child gets one and a part of the other until its
ten reads are over. -/
def twoChunks : List Label :=
  [.connect, .connect, .read 0 [104, 101, 108, 108, 111, 10], .read 1 [119, 111, 114, 108, 100, 10],
    .echo 0, .echo 1, .store 1] ++ List.replicate 4 (.storageRead 1) ++ [.store 0] ++
    List.replicate 5 (.storageRead 1) ++ [.storageRead 2, .storageExit]

theorem two_chunks_logged :
    ∃ t, run (step 65536) start twoChunks = some t ∧ t.storage = .exited ∧
      t.file = [119, 111, 114, 108, 100, 10, 104, 101, 108, 108, 111] ∧
      Faithful 65536 twoChunks t :=
  ⟨_, rfl, rfl, rfl, log_faithful 65536 twoChunks _ rfl⟩

end NetworkProgramming.StoreLog
