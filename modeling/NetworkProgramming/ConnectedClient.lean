import NetworkProgramming.UdpEcho

/-!
# The connected UDP client

`uecho_connect_client.c` runs the loop of `uecho_client.c` on a socket that is
connected to the server. The world around a client is what its user types and what
arrives at its port, from anyone at any moment, in the light of what it has sent.
-/
namespace NetworkProgramming.ConnectedClient

open Buffer Datagram UserInput UdpEcho

structure Arrival (α : Type) where
  source : α
  bytes : List Byte
  deriving DecidableEq, Repr

structure World (α : Type) where
  /-- `serv_adr`. -/
  server : α
  stdin : List Byte
  stack : Fin clientSize → Byte
  arrivals : Nat → List (List Byte) → List (Arrival α)

structure State (α : Type) where
  client : Client
  /-- What the socket has for `recvfrom`, in the order of arrival. -/
  queue : List (Arrival α)
  /-- History: what `recvfrom` has taken. -/
  taken : List (Arrival α)

inductive Socket where
  | unconnected
  | connected
  deriving DecidableEq, Repr

variable {α : Type} [DecidableEq α]

def Arrival.fromServer (server : α) (d : Arrival α) : Bool := d.source = server

/-- What the system delivers to the socket. -/
def Socket.delivered (socket : Socket) (server : α) (arrived : List (Arrival α)) :
    List (Arrival α) :=
  match socket with
  | .unconnected => arrived
  | .connected => arrived.filter (Arrival.fromServer server)

/-- The next step of the loop; without a datagram `recvfrom` waits. There is none where `strlen`,
`printf` or the zero byte would leave the buffer. -/
def State.turn (s : State α) : Option (State α) :=
  match s.client.pc, s.queue with
  | .fgets, _ =>
    let c := s.client.fgets
    (text c.message).map fun t =>
      { s with client := if isQuit t then { c with pc := .closed } else c.sendto t }
  | .recvfrom, d :: queue =>
    some { client := s.client.recvfrom d.bytes, queue := queue, taken := s.taken ++ [d] }
  | .received strLen, _ => (s.client.display strLen).map fun c => { s with client := c }
  | .recvfrom, [] | .closed, _ => some s

/-- The client after so many moments, in each of which datagrams arrive before it takes a step. -/
def run (socket : Socket) (w : World α) : Nat → Option (State α)
  | 0 => some ⟨⟨.fgets, List.ofFn w.stack, w.stdin, [], []⟩, [], []⟩
  | n + 1 => (run socket w n).bind fun s =>
    { s with queue := s.queue ++
        socket.delivered w.server (w.arrivals n s.client.sent) }.turn

/-- The datagrams a client has sent and the messages it has displayed. -/
def shown (socket : Socket) (w : World α) (n : Nat) :
    Option (List (List Byte) × List (List Byte)) :=
  (run socket w n).map fun s => (s.client.sent, s.client.displayed)

/-- The same world with nobody but the server. -/
def World.serverOnly (w : World α) : World α :=
  { w with arrivals := fun n sent => (w.arrivals n sent).filter (Arrival.fromServer w.server) }

/-- Up to this moment, what the unconnected client has taken is from the server. -/
def World.TakenFromServer (w : World α) (n : Nat) : Prop :=
  ∀ m ≤ n, ∀ s ∈ run .unconnected w m, ∀ d ∈ s.taken, d.source = w.server

instance (w : World α) (n : Nat) : Decidable (w.TakenFromServer n) :=
  inferInstanceAs (Decidable (∀ m ≤ n, ∀ s ∈ run .unconnected w m, ∀ d ∈ s.taken,
    d.source = w.server))

/-- The same client with what the server has sent. -/
def State.filtered (server : α) (s : State α) : State α :=
  { s with queue := s.queue.filter (Arrival.fromServer server) }

/-- Connecting the socket is removing the others from the world. -/
theorem run_connected (w : World α) (n : Nat) :
    run .connected w n = run .unconnected w.serverOnly n := by
  induction n with
  | zero => rfl
  | succ n ih => rw [run, run, ih]; rfl

/-- A turn that takes nothing from others does not see what they have sent. -/
theorem State.turn_filtered {server : α} {s : State α}
    (h : ∀ t ∈ s.turn, ∀ d ∈ t.taken, d.source = server) :
    (s.filtered server).turn = s.turn.map (State.filtered server) := by
  obtain ⟨c, queue, taken⟩ := s
  cases hpc : c.pc with
  | fgets => simp [State.turn, State.filtered, hpc, Function.comp_def]
  | received n => simp [State.turn, State.filtered, hpc, Function.comp_def]
  | closed => simp [State.turn, State.filtered, hpc]
  | recvfrom =>
    cases queue with
    | nil => simp [State.turn, State.filtered, hpc]
    | cons d queue =>
      have hd : d.source = server := by
        refine h _ (by rw [State.turn, hpc]; rfl) d ?_
        simp
      simp [State.turn, State.filtered, hpc, Arrival.fromServer, hd]

/-- The connected client is the unconnected one with a filtered queue, for as long as that takes
nothing from others. -/
theorem run_filtered {w : World α} {n : Nat} (h : w.TakenFromServer n) :
    run .connected w n = (run .unconnected w n).map (State.filtered w.server) := by
  induction n with
  | zero => rfl
  | succ n ih =>
    rw [run, ih fun m hm => h m (Nat.le_succ_of_le hm)]
    cases hs : run .unconnected w n with
    | none => simp [run, hs]
    | some s =>
      have hturn := h (n + 1) (Nat.le_refl _)
      simp only [run, hs, Option.bind_some] at hturn ⊢
      rw [← State.turn_filtered hturn]
      simp [State.filtered, Socket.delivered]

/-- The connected client does what the unconnected one does without the other senders, and
what that does with them until it takes one of their datagrams. -/
theorem connected_shows (w : World α) (n : Nat) :
    shown .connected w n = shown .unconnected w.serverOnly n ∧
      (w.TakenFromServer n → shown .connected w n = shown .unconnected w n) := by
  constructor
  · rw [shown, run_connected, shown]
  · intro h
    rw [shown, run_filtered h, Option.map_map, shown]
    rfl

/-- The user types "a"; these datagrams arrive behind it, `true` being the server. -/
def oneLine (arrived : List (Arrival Bool)) : World Bool where
  server := true
  stdin := [97, 10]
  stack _ := 0
  arrivals n _ := if n = 1 then arrived else []

/-- A stranger's datagram behind the server's is not taken yet. -/
theorem connected_shows_reply :
    shown .connected (oneLine [⟨true, [97, 10]⟩, ⟨false, [98]⟩]) 3 =
      shown .unconnected (oneLine [⟨true, [97, 10]⟩, ⟨false, [98]⟩]) 3 :=
  (connected_shows _ 3).2 (by decide)

/-- A stranger's datagram in front of the server's is displayed by the unconnected client only. -/
theorem stranger_not_shown : ¬ ∀ (w : World Bool) (n : Nat),
    shown .connected w n = shown .unconnected w n := by
  intro h
  exact absurd (h (oneLine [⟨false, [98]⟩, ⟨true, [97, 10]⟩]) 3) (by decide)

end NetworkProgramming.ConnectedClient
