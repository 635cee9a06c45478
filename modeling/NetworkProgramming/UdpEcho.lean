import Mathlib.Data.Fintype.BigOperators
import Mathlib.Logic.Function.Basic
import NetworkProgramming.Library.Datagram
import NetworkProgramming.Library.Ledger
import NetworkProgramming.Library.Progress
import NetworkProgramming.Library.Transition
import NetworkProgramming.UserInput

/-!
# The UDP echo server and its clients

Any number of clients, told apart by their addresses, and one server with one
buffer and one address variable. The network delivers what is under way in any
order, each datagram once.
-/
namespace NetworkProgramming.UdpEcho

open Buffer Datagram Ledger Transition UserInput

/-- The `BUF_SIZE` of the server. -/
def serverSize : Nat := 50

/-- The `BUF_SIZE` of the client. -/
def clientSize : Nat := 30

/-- `received` stands behind `recvfrom`, with its result. -/
inductive ClientPc where
  | fgets
  | recvfrom
  | received (strLen : Nat)
  | closed
  deriving DecidableEq, Repr

structure Client where
  pc : ClientPc
  message : List Byte
  stdin : List Byte
  /-- History: the datagrams it has sent. -/
  sent : List (List Byte)
  /-- History: the messages it has printed. -/
  displayed : List (List Byte)

/-- `fgets(message, sizeof(message), stdin)`. -/
def Client.fgets (c : Client) : Client :=
  let read := Buffer.fgets clientSize c.message c.stdin
  { c with message := read.1, stdin := read.2 }

def Client.sendto (c : Client) (t : List Byte) : Client :=
  { c with pc := .recvfrom, sent := c.sent ++ [t] }

def Client.recvfrom (c : Client) (bytes : List Byte) : Client :=
  let read := Datagram.recvfrom clientSize c.message bytes
  { c with pc := .received read.2, message := read.1 }

/-- `message[str_len] = 0` and the `printf`. -/
def Client.display (c : Client) (strLen : Nat) : Option Client :=
  (endText c.message strLen).bind fun message => (text message).map fun t =>
    { c with pc := .fgets, message := message, displayed := c.displayed ++ [t] }

inductive ServerPc (ι : Type) where
  | recvfrom
  | received (clntAdr : ι) (strLen : Nat)
  deriving DecidableEq, Repr

structure State (ι : Type) where
  clients : ι → Client
  server : ServerPc ι
  message : List Byte
  /-- Under way, with the addresses of their senders. -/
  toServer : Multiset (ι × List Byte)
  /-- Under way, with the addresses of their receivers. -/
  toClients : Multiset (ι × List Byte)

variable {ι : Type} [DecidableEq ι]

/-- All programs are at the heads of their loops; the buffers are not initialised. -/
def start (stdin : ι → List Byte) (stack : ι → Fin clientSize → Byte)
    (serverStack : Fin serverSize → Byte) : State ι where
  clients i := ⟨.fgets, List.ofFn (stack i), stdin i, [], []⟩
  server := .recvfrom
  message := List.ofFn serverStack
  toServer := 0
  toClients := 0

/-- One step of a program. -/
inductive Label (ι : Type) where
  /-- The client reads a line and sends it, or leaves its loop. -/
  | fgets (i : ι)
  | serverRecvfrom (d : ι × List Byte)
  | serverSendto
  | clientRecvfrom (i : ι) (bytes : List Byte)
  | display (i : ι)

def State.set (s : State ι) (i : ι) (c : Client) : State ι :=
  { s with clients := Function.update s.clients i c }

/-- There is no step where `strlen`, `printf` or the zero byte would leave a buffer. -/
def step (s : State ι) : Label ι → Option (State ι)
  | .fgets i =>
    let c := (s.clients i).fgets
    if c.pc = .fgets then
      (text c.message).map fun t =>
        if isQuit t then s.set i { c with pc := .closed }
        else { s.set i (c.sendto t) with toServer := (i, t) ::ₘ s.toServer }
    else none
  | .serverRecvfrom d =>
    let read := recvfrom serverSize s.message d.2
    if s.server = .recvfrom ∧ d ∈ s.toServer then
      some { s with
        server := .received d.1 read.2, message := read.1, toServer := s.toServer.erase d }
    else none
  | .serverSendto =>
    match s.server with
    | .recvfrom => none
    | .received clntAdr strLen =>
      (endText s.message strLen).map fun message =>
        { s with
          server := .recvfrom, message := message
          toClients := (clntAdr, message.take strLen) ::ₘ s.toClients }
  | .clientRecvfrom i bytes =>
    if (s.clients i).pc = .recvfrom ∧ (i, bytes) ∈ s.toClients then
      some { s.set i ((s.clients i).recvfrom bytes) with
        toClients := s.toClients.erase (i, bytes) }
    else none
  | .display i =>
    match (s.clients i).pc with
    | .received strLen => ((s.clients i).display strLen).map (s.set i)
    | _ => none

/-- Each client is answered with its own text, and the zero bytes are put inside. -/
structure Echoed (s : State ι) : Prop where
  /-- What is on its way to a client is what that client has sent last. -/
  reply : ∀ i bytes, (i, bytes) ∈ s.toClients →
    (s.clients i).pc = .recvfrom ∧ (s.clients i).sent.getLast? = some bytes
  received : ∀ i n, (s.clients i).pc = .received n →
    (s.clients i).sent.getLast? = some ((s.clients i).message.take n) ∧ n < clientSize
  displayed : ∀ i, (s.clients i).displayed <+: (s.clients i).sent
  inOrder : ∀ i, (s.clients i).pc = .fgets ∨ (s.clients i).pc = .closed →
    (s.clients i).displayed = (s.clients i).sent
  inside : ∀ a n, s.server = .received a n → n < serverSize

variable {s t : State ι} {c c' : Client} {away : Multiset (List Byte)}

/-- What a step can do. -/
inductive Move (s : State ι) : Label ι → State ι → Prop where
  | quit (i) (pc : (s.clients i).pc = .fgets) :
      Move s (.fgets i) (s.set i { (s.clients i).fgets with pc := .closed })
  | sendto (i bytes) (pc : (s.clients i).pc = .fgets)
      (htext : text (s.clients i).fgets.message = some bytes) :
      Move s (.fgets i)
        { s.set i ((s.clients i).fgets.sendto bytes) with toServer := (i, bytes) ::ₘ s.toServer }
  | serverRecvfrom (a bytes net) (server : s.server = .recvfrom)
      (toServer : s.toServer = (a, bytes) ::ₘ net) :
      Move s (.serverRecvfrom (a, bytes))
        { s with
          server := .received a (recvfrom serverSize s.message bytes).2
          message := (recvfrom serverSize s.message bytes).1
          toServer := net }
  | serverSendto (a n message) (server : s.server = .received a n)
      (hend : endText s.message n = some message) :
      Move s .serverSendto
        { s with
          server := .recvfrom, message := message
          toClients := (a, message.take n) ::ₘ s.toClients }
  | clientRecvfrom (i bytes net) (pc : (s.clients i).pc = .recvfrom)
      (toClients : s.toClients = (i, bytes) ::ₘ net) :
      Move s (.clientRecvfrom i bytes)
        { s.set i ((s.clients i).recvfrom bytes) with toClients := net }
  | display (i n c) (pc : (s.clients i).pc = .received n)
      (hdisplay : (s.clients i).display n = some c) : Move s (.display i) (s.set i c)

theorem move_of_step {a : Label ι} (h : step s a = some t) : Move s a t := by
  cases a with
  | fgets i =>
    obtain ⟨pc, h⟩ := Option.ite_none_right_eq_some.mp h
    obtain ⟨bytes, htext, h⟩ := Option.map_eq_some_iff.mp h
    split at h
    · exact h ▸ .quit i pc
    · exact h ▸ .sendto i bytes pc htext
  | serverRecvfrom d =>
    obtain ⟨⟨server, hmem⟩, h⟩ := Option.ite_none_right_eq_some.mp h
    obtain ⟨net, hnet⟩ := Multiset.exists_cons_of_mem hmem
    rw [hnet, Multiset.erase_cons_head] at h
    exact Option.some.inj h ▸ .serverRecvfrom d.1 d.2 net server hnet
  | serverSendto =>
    simp only [step] at h
    split at h
    · cases h
    next a n server =>
      obtain ⟨message, hend, h⟩ := Option.map_eq_some_iff.mp h
      exact h ▸ .serverSendto a n message server hend
  | clientRecvfrom i bytes =>
    obtain ⟨⟨pc, hmem⟩, h⟩ := Option.ite_none_right_eq_some.mp h
    obtain ⟨net, hnet⟩ := Multiset.exists_cons_of_mem hmem
    rw [hnet, Multiset.erase_cons_head] at h
    exact Option.some.inj h ▸ .clientRecvfrom i bytes net pc hnet
  | display i =>
    simp only [step] at h
    split at h
    next n pc =>
      obtain ⟨c, hdisplay, h⟩ := Option.map_eq_some_iff.mp h
      exact h ▸ .display i n c pc hdisplay
    · cases h

/-- The text that the client has sent without having displayed its echo. -/
structure Client.Awaits (c : Client) (bytes : List Byte) : Prop where
  books : c.sent = c.displayed ++ [bytes]
  short : bytes.length < clientSize
  noNul : 0 ∉ bytes

/-- Where the client is decides what it has under way. -/
def Client.Paired (c : Client) (away : Multiset (List Byte)) : Prop :=
  match c.pc with
  | .fgets | .closed => c.sent = c.displayed ∧ away = 0
  | .recvfrom => ∃ bytes, c.Awaits bytes ∧ away = {bytes}
  | .received n => ∃ bytes, c.Awaits bytes ∧ away = 0 ∧ n = bytes.length ∧ c.message.take n = bytes

/-- What the server has taken from this client without having answered it. -/
def State.held (s : State ι) (i : ι) : Multiset (List Byte) :=
  match s.server with
  | .recvfrom => 0
  | .received a n => if a = i then {s.message.take n} else 0

/-- The texts of this client that are under way: in the server, there or back. -/
def State.underway (s : State ι) (i : ι) : Multiset (List Byte) :=
  s.held i + addressed i s.toServer + addressed i s.toClients

structure Invariant (s : State ι) : Prop where
  paired : ∀ i, (s.clients i).Paired (s.underway i)
  messages : ∀ i, (s.clients i).message.length = clientSize
  message : s.message.length = serverSize
  strLen : ∀ a n, s.server = .received a n → n ≤ serverSize

theorem invariant_start (stdin : ι → List Byte) (stack : ι → Fin clientSize → Byte)
    (serverStack : Fin serverSize → Byte) : Invariant (start stdin stack serverStack) where
  paired _ := ⟨rfl, rfl⟩
  messages _ := List.length_ofFn
  message := List.length_ofFn
  strLen _ _ h := by cases h

/-- Only a client at its `recvfrom` has something under way, and it is one text. -/
theorem Client.Paired.awaits (h : c.Paired away) {bytes : List Byte} (hmem : bytes ∈ away) :
    c.pc = .recvfrom ∧ c.Awaits bytes ∧ away = {bytes} := by
  rw [Client.Paired] at h
  split at h
  · simp [h.2] at hmem
  · simp [h.2] at hmem
  next pc =>
    obtain ⟨t, hawaits, rfl⟩ := h
    obtain rfl := Multiset.mem_singleton.mp hmem
    exact ⟨pc, hawaits, rfl⟩
  · obtain ⟨t, -, rfl, -⟩ := h
    simp at hmem

theorem mem_underway_of_server {a : ι} {n : Nat} (h : s.server = .received a n) :
    s.message.take n ∈ s.underway a := by
  simp [State.underway, State.held, h]

/-- What the server takes off the network is in its buffer. -/
theorem underway_taken {a : ι} {bytes message : List Byte} {n : Nat}
    {net : Multiset (ι × List Byte)} (server : s.server = .recvfrom)
    (toServer : s.toServer = (a, bytes) ::ₘ net) (htake : message.take n = bytes) (j : ι) :
    State.underway ⟨s.clients, .received a n, message, net, s.toClients⟩ j = s.underway j := by
  by_cases hj : a = j
  · subst hj
    simp [State.underway, State.held, server, toServer, htake]
  · simp [State.underway, State.held, server, toServer, hj]

/-- What the server answers is what it has held. -/
theorem underway_answered {a : ι} {message : List Byte} {n : Nat}
    (server : s.server = .received a n) (htake : message.take n = s.message.take n) (j : ι) :
    State.underway ⟨s.clients, .recvfrom, message, s.toServer,
      (a, message.take n) ::ₘ s.toClients⟩ j = s.underway j := by
  by_cases hj : a = j
  · subst hj
    simp [State.underway, State.held, server, htake]
  · simp [State.underway, State.held, server, hj]

/-- The server holds a whole text, with room behind it. -/
theorem Invariant.inside (h : Invariant s) {a : ι} {n : Nat} (hserver : s.server = .received a n) :
    n < clientSize := by
  have hshort := ((h.paired a).awaits (mem_underway_of_server hserver)).2.1.short
  rw [List.length_take, h.message, Nat.min_eq_left (h.strLen a n hserver)] at hshort
  exact hshort

theorem Invariant.echoed (h : Invariant s) : Echoed s := by
  have hpaired := h.paired
  constructor
  · intro i bytes hmem
    obtain ⟨pc, hawaits, -⟩ :=
      (hpaired i).awaits (Multiset.mem_add.mpr (.inr (mem_addressed.mpr hmem)))
    exact ⟨pc, by rw [hawaits.books, List.getLast?_concat]⟩
  · intro i n pc
    have hi := hpaired i
    simp only [Client.Paired, pc] at hi
    obtain ⟨bytes, hawaits, -, hn, htake⟩ := hi
    rw [hawaits.books, List.getLast?_concat, htake]
    exact ⟨rfl, hn ▸ hawaits.short⟩
  · intro i
    have hi := hpaired i
    rw [Client.Paired] at hi
    split at hi
    · exact hi.1 ▸ List.prefix_refl _
    · exact hi.1 ▸ List.prefix_refl _
    · obtain ⟨bytes, hawaits, -⟩ := hi
      exact hawaits.books ▸ List.prefix_append ..
    · obtain ⟨bytes, hawaits, -⟩ := hi
      exact hawaits.books ▸ List.prefix_append ..
  · rintro i (pc | pc)
    all_goals
      have hi := hpaired i
      simp only [Client.Paired, pc] at hi
      exact hi.1.symm
  · intro a n hserver
    exact Nat.lt_trans (h.inside hserver) (by decide)

/-- A step of one client. -/
theorem Invariant.set (h : Invariant s) {i : ι} {toServer toClients : Multiset (ι × List Byte)}
    (hlength : c.message.length = clientSize)
    (hpaired : c.Paired (s.held i + addressed i toServer + addressed i toClients))
    (hothers : ∀ j, j ≠ i → addressed j toServer = addressed j s.toServer ∧
      addressed j toClients = addressed j s.toClients) :
    Invariant { s.set i c with toServer := toServer, toClients := toClients } where
  paired := by
    refine (Function.forall_update_iff s.clients fun j c =>
      c.Paired (s.held j + addressed j toServer + addressed j toClients)).mpr ⟨hpaired, ?_⟩
    intro j hj
    rw [(hothers j hj).1, (hothers j hj).2]
    exact h.paired j
  messages := (Function.forall_update_iff s.clients fun _ c =>
    c.message.length = clientSize).mpr ⟨hlength, fun j _ => h.messages j⟩
  message := h.message
  strLen := h.strLen

theorem length_message_fgets (h : c.message.length = clientSize) :
    c.fgets.message.length = clientSize :=
  length_fgets c.stdin (by decide) h

theorem Client.Paired.sendto (h : c.Paired away) (pc : c.pc = .fgets) {bytes : List Byte}
    (hlength : c.message.length = clientSize) (htext : text c.fgets.message = some bytes) :
    (c.fgets.sendto bytes).Paired (bytes ::ₘ away) := by
  simp only [Client.Paired, pc] at h
  obtain ⟨hbooks, rfl⟩ := h
  refine ⟨bytes, ⟨?_, ?_, (text_eq_some_iff.mp htext).1⟩, rfl⟩
  · exact congrArg (· ++ [bytes]) hbooks
  · exact length_message_fgets hlength ▸ length_lt_of_text htext

theorem Client.Paired.recvfrom {bytes : List Byte} (h : c.Paired (bytes ::ₘ away)) :
    (c.recvfrom bytes).Paired away := by
  obtain ⟨-, hawaits, haway⟩ := h.awaits (Multiset.mem_cons_self bytes away)
  have hread : Datagram.recvfrom clientSize c.message bytes =
      (readInto c.message bytes, bytes.length) :=
    recvfrom_of_short (Nat.le_of_lt hawaits.short)
  refine ⟨bytes, ⟨hawaits.books, hawaits.short, hawaits.noNul⟩, ?_, ?_, ?_⟩
  · exact (Multiset.cons_inj_right bytes).mp haway
  · rw [hread]
  · simp [Client.recvfrom, hread]

theorem Client.Paired.display (h : c.Paired away) {n : Nat} (pc : c.pc = .received n)
    (hlength : c.message.length = clientSize) (hdisplay : c.display n = some c') :
    c'.Paired away ∧ c'.message.length = clientSize := by
  simp only [Client.Paired, pc] at h
  obtain ⟨bytes, hawaits, haway, rfl, htake⟩ := h
  obtain ⟨message, hend, hdisplay⟩ := Option.bind_eq_some_iff.mp hdisplay
  obtain ⟨t, htext, rfl⟩ := Option.map_eq_some_iff.mp hdisplay
  have hroom : bytes.length < c.message.length := hlength ▸ hawaits.short
  have hmessage : c.message = readInto c.message bytes := by
    rw [readInto, ← congrArg (· ++ _) htake, List.take_append_drop]
  refine ⟨⟨?_, haway⟩, (length_endText hend).trans hlength⟩
  rw [hmessage, endText_readInto hroom] at hend
  obtain rfl := Option.some.inj hend
  rw [text_append_zero _ _ hawaits.noNul] at htext
  obtain rfl := Option.some.inj htext
  exact hawaits.books

/-- A step of the server, which does not change what any client has under way. -/
theorem Invariant.server (h : Invariant s) {server : ServerPc ι} {message : List Byte}
    {toServer toClients : Multiset (ι × List Byte)} (hmessage : message.length = serverSize)
    (hstrLen : ∀ a n, server = .received a n → n ≤ serverSize)
    (hunderway : ∀ j, State.underway ⟨s.clients, server, message, toServer, toClients⟩ j =
      s.underway j) :
    Invariant ⟨s.clients, server, message, toServer, toClients⟩ where
  paired j := (hunderway j).symm ▸ h.paired j
  messages := h.messages
  message := hmessage
  strLen := hstrLen

theorem Invariant.step (h : Invariant s) {a : Label ι} (hstep : step s a = some t) :
    Invariant t := by
  cases move_of_step hstep with
  | quit i pc =>
    refine h.set (length_message_fgets (h.messages i)) ?_ fun j _ => ⟨rfl, rfl⟩
    have hi := h.paired i
    simp only [Client.Paired, pc] at hi
    exact hi
  | sendto i bytes pc htext =>
    refine h.set (length_message_fgets (h.messages i)) ?_ fun j hj =>
      ⟨addressed_cons_of_ne (Ne.symm hj), rfl⟩
    rw [addressed_cons_self, Multiset.add_cons, Multiset.cons_add]
    exact (h.paired i).sendto pc (h.messages i) htext
  | serverRecvfrom a bytes net server toServer =>
    have hmem : bytes ∈ s.underway a := by simp [State.underway, toServer]
    have hshort := ((h.paired a).awaits hmem).2.1.short
    have hread : recvfrom serverSize s.message bytes =
        (readInto s.message bytes, bytes.length) :=
      recvfrom_of_short (Nat.le_of_lt (Nat.lt_trans hshort (by decide)))
    refine h.server ?_ ?_ (underway_taken server toServer (by simp [hread]))
    · exact (length_recvfrom (Nat.le_of_eq h.message.symm)).trans h.message
    · rintro _ n ⟨⟩
      exact List.length_take_le ..
  | serverSendto a n message server hend =>
    exact h.server ((length_endText hend).trans h.message) (by simp)
      (underway_answered server (take_endText hend))
  | clientRecvfrom i bytes net pc toClients =>
    refine h.set ?_ ?_ fun j hj => ⟨rfl, ?_⟩
    · exact (length_recvfrom (Nat.le_of_eq (h.messages i).symm)).trans (h.messages i)
    · refine Client.Paired.recvfrom ?_
      rw [← Multiset.add_cons, ← addressed_cons_self, ← toClients]
      exact h.paired i
    · rw [toClients, addressed_cons_of_ne (Ne.symm hj)]
  | display i n c pc hdisplay =>
    obtain ⟨hpaired, hlength⟩ := (h.paired i).display pc (h.messages i) hdisplay
    exact h.set hlength hpaired fun j _ => ⟨rfl, rfl⟩

/-- With any number of clients, inputs and orders of delivery, each client gets back what it has
sent last, and displays what it has sent in order. -/
theorem echoed_throughout (stdin : ι → List Byte) (stack : ι → Fin clientSize → Byte)
    (serverStack : Fin serverSize → Byte) (labels : List (Label ι)) :
    Throughout step Echoed (start stdin stack serverStack) labels :=
  (throughout_invariant (fun _ _ _ h hstep => h.step hstep)
    (invariant_start stdin stack serverStack) labels).mono fun _ h => h.echoed

/-- The replies to two clients overtake each other. -/
example :
    (run step (start (fun i => if i then [97, 10] else [98, 10]) (fun _ _ => 0) fun _ => 0)
      [.fgets true, .fgets false, .serverRecvfrom (false, [98, 10]), .serverSendto,
        .serverRecvfrom (true, [97, 10]), .serverSendto, .clientRecvfrom true [97, 10],
        .clientRecvfrom false [98, 10], .display false, .display true]).map
      (fun s => ((s.clients true).displayed, (s.clients false).displayed)) =
      some ([[97, 10]], [[98, 10]]) := by decide

/-- What a client still has to do with what it has received. -/
def ClientPc.left : ClientPc → Nat
  | .received _ => 1
  | .fgets | .recvfrom | .closed => 0

def ServerPc.left : ServerPc ι → Nat
  | .recvfrom => 0
  | .received .. => 3

/-- Steps without new input. -/
def Unprompted (_ : State ι) : Label ι → Prop
  | .fgets _ => False
  | _ => True

/-- Every client is at its `fgets` or has left its loop, and nothing is under way. -/
structure Settled (s : State ι) : Prop where
  clients : ∀ i, (s.clients i).pc = .fgets ∨ (s.clients i).pc = .closed
  server : s.server = .recvfrom
  toServer : s.toServer = 0
  toClients : s.toClients = 0

theorem Invariant.sendto_some (h : Invariant s) (hserver : s.server ≠ .recvfrom) :
    ∃ t, UdpEcho.step s .serverSendto = some t := by
  cases server : s.server with
  | recvfrom => exact absurd server hserver
  | received a n =>
    have hroom : n < s.message.length := h.message ▸ Nat.lt_trans (h.inside server) (by decide)
    simp [UdpEcho.step, server, endText, hroom]

/-- The zero byte ends the message inside of the client's buffer. -/
theorem Invariant.display_some (h : Invariant s) {i : ι} {n : Nat}
    (pc : (s.clients i).pc = .received n) : ∃ t, UdpEcho.step s (.display i) = some t := by
  have hi := h.paired i
  simp only [Client.Paired, pc] at hi
  obtain ⟨bytes, hawaits, -, rfl, htake⟩ := hi
  have hroom : bytes.length < (s.clients i).message.length := h.messages i ▸ hawaits.short
  have hmessage : (s.clients i).message = readInto (s.clients i).message bytes := by
    rw [readInto, ← congrArg (· ++ _) htake, List.take_append_drop]
  have hend := endText_readInto hroom
  rw [← hmessage] at hend
  have htext := text_append_zero bytes ((s.clients i).message.drop (bytes.length + 1)) hawaits.noNul
  simp only [UdpEcho.step, pc, Client.display, hend, htext, Option.bind_some, Option.map_some]
  exact ⟨_, rfl⟩

theorem Invariant.settled_of_stuck (h : Invariant s) (hstuck : Stuck UdpEcho.step Unprompted s) :
    Settled s := by
  have hserver : s.server = .recvfrom := by
    by_contra hne
    obtain ⟨t, ht⟩ := h.sendto_some hne
    rw [hstuck .serverSendto trivial] at ht
    cases ht
  have hto : s.toServer = 0 := by
    refine Multiset.eq_zero_of_forall_notMem fun d hd => ?_
    have hnone := hstuck (.serverRecvfrom d) trivial
    simp [UdpEcho.step, hserver, hd] at hnone
  have hback : s.toClients = 0 := by
    refine Multiset.eq_zero_of_forall_notMem fun d hd => ?_
    have hpc := (h.echoed.reply d.1 d.2 hd).1
    have hnone := hstuck (.clientRecvfrom d.1 d.2) trivial
    simp [UdpEcho.step, hpc, hd] at hnone
  refine ⟨fun i => ?_, hserver, hto, hback⟩
  cases pc : (s.clients i).pc with
  | fgets => exact .inl rfl
  | closed => exact .inr rfl
  | recvfrom =>
    -- the text it waits for is nowhere
    have hi := h.paired i
    simp only [Client.Paired, pc] at hi
    obtain ⟨bytes, -, hunderway⟩ := hi
    simp [State.underway, State.held, hserver, hto, hback, addressed] at hunderway
  | received n =>
    obtain ⟨t, ht⟩ := h.display_some pc
    rw [hstuck (.display i) trivial] at ht
    cases ht

theorem Settled.stuck (h : Settled s) : Stuck step Unprompted s := by
  intro a ha
  cases a with
  | fgets i => exact ha.elim
  | serverRecvfrom d => simp [UdpEcho.step, h.toServer]
  | serverSendto => simp [UdpEcho.step, h.server]
  | clientRecvfrom i bytes => simp [UdpEcho.step, h.toClients]
  | display i =>
    rcases h.clients i with pc | pc
    · simp [UdpEcho.step, pc]
    · simp [UdpEcho.step, pc]

/-- Nothing new is sent. -/
theorem sent_step {a : Label ι} (ha : Unprompted s a) (hstep : step s a = some t) (i : ι) :
    (t.clients i).sent = (s.clients i).sent := by
  have hset : ∀ (j : ι) (c : Client), c.sent = (s.clients j).sent →
      (Function.update s.clients j c i).sent = (s.clients i).sent := by
    intro j c hc
    by_cases hj : i = j
    · subst hj
      rw [Function.update_self, hc]
    · rw [Function.update_of_ne hj]
  cases move_of_step hstep with
  | quit j pc => exact ha.elim
  | sendto j bytes pc htext => exact ha.elim
  | serverRecvfrom a bytes net server toServer => rfl
  | serverSendto a n message server hend => rfl
  | clientRecvfrom j bytes net pc toClients => exact hset j _ rfl
  | display j n c pc hdisplay =>
    obtain ⟨message, -, hdisplay⟩ := Option.bind_eq_some_iff.mp hdisplay
    obtain ⟨bytes, -, rfl⟩ := Option.map_eq_some_iff.mp hdisplay
    exact hset j _ rfl

section Left
variable [Fintype ι]

/-- The steps until everything that has been sent is displayed: four for each text. -/
def left (s : State ι) : Nat :=
  4 * s.toServer.card + s.server.left + 2 * s.toClients.card + ∑ i, (s.clients i).pc.left

theorem left_set (i : ι) (c : Client) :
    ∑ j, (Function.update s.clients i c j).pc.left + (s.clients i).pc.left =
      ∑ j, (s.clients j).pc.left + c.pc.left := by
  have hsum := sum_change (Finset.mem_univ i) (fun j => (s.clients j).pc.left)
    (fun j => (Function.update s.clients i c j).pc.left)
    fun j hj => by rw [Function.update_of_ne hj]
  simp only [Function.update_self] at hsum
  omega

/-- Every step without new input does one of the things that are left to do. -/
theorem left_step {a : Label ι} (ha : Unprompted s a) (hstep : step s a = some t) :
    left t + 1 = left s := by
  cases move_of_step hstep with
  | quit i pc => exact ha.elim
  | sendto i bytes pc htext => exact ha.elim
  | serverRecvfrom a bytes net server toServer =>
    simp only [left, server, toServer, ServerPc.left, Multiset.card_cons]
    omega
  | serverSendto a n message server hend =>
    simp only [left, server, ServerPc.left, Multiset.card_cons]
    omega
  | clientRecvfrom i bytes net pc toClients =>
    have hold : (s.clients i).pc.left = 0 := by rw [pc]; rfl
    have hnew : ((s.clients i).recvfrom bytes).pc.left = 1 := rfl
    have hsum := left_set (s := s) i ((s.clients i).recvfrom bytes)
    simp only [left, State.set, toClients, Multiset.card_cons]
    omega
  | display i n c pc hdisplay =>
    obtain ⟨message, -, hdisplay⟩ := Option.bind_eq_some_iff.mp hdisplay
    obtain ⟨bytes, -, rfl⟩ := Option.map_eq_some_iff.mp hdisplay
    have hold : (s.clients i).pc.left = 1 := by rw [pc]; rfl
    have hsum := left_set (s := s) i
      { s.clients i with
        pc := .fgets, message := message, displayed := (s.clients i).displayed ++ [bytes] }
    have hnew : ClientPc.fgets.left = 0 := rfl
    simp only [hold, hnew] at hsum
    simp only [left, State.set]
    omega

omit [DecidableEq ι] in
theorem Settled.left (h : Settled s) : left s = 0 := by
  have hzero : ∀ i, (s.clients i).pc.left = 0 := by
    intro i
    rcases h.clients i with pc | pc
    · rw [pc]
      rfl
    · rw [pc]
      rfl
  simp [UdpEcho.left, h.server, h.toServer, h.toClients, hzero, ServerPc.left]

/-- From every state that the programs can reach, any steps without new input end after as many
as are left, and then every client has displayed all that it had sent. Nobody waits for good. -/
theorem settles (stdin : ι → List Byte) (stack : ι → Fin clientSize → Byte)
    (serverStack : Fin serverSize → Byte) (labels : List (Label ι))
    (hrun : run step (start stdin stack serverStack) labels = some s) :
    (Stuck step Unprompted s ↔ Settled s) ∧
      (∀ rest t, Along step Unprompted s rest → run step s rest = some t →
        rest.length + left t = left s) ∧
      ∃ rest t, Along step Unprompted s rest ∧ run step s rest = some t ∧ Settled t ∧
        rest.length = left s ∧ ∀ i, (t.clients i).displayed = (s.clients i).sent := by
  have hI : Invariant s := run_invariant (fun _ _ _ h hstep => h.step hstep)
    (invariant_start stdin stack serverStack) hrun
  have hstep : ∀ (s : State ι) a t, Invariant s → Unprompted s a → step s a = some t →
      Invariant t ∧ left t + 1 = left s :=
    fun _ _ _ h ha hs => ⟨h.step hs, left_step ha hs⟩
  have hlength : ∀ rest t, Along step Unprompted s rest → run step s rest = some t →
      rest.length + left t = left s := fun _ _ ha ht => length_of_counts hstep hI ha ht
  refine ⟨⟨hI.settled_of_stuck, Settled.stuck⟩, hlength, ?_⟩
  obtain ⟨rest, t, halong, hrest, hstuck⟩ := exists_stuck
    (fun s a t h ha hs => (hstep s a t h ha hs).imp_right Nat.le_of_eq) hI
  have hI' := run_invariant (fun _ _ _ h hstep => h.step hstep) hI hrest
  have hsettled := hI'.settled_of_stuck hstuck
  have hcount := hlength rest t halong hrest
  rw [hsettled.left, Nat.add_zero] at hcount
  refine ⟨rest, t, halong, hrest, hsettled, hcount, fun i => ?_⟩
  have hsent : ∀ i, (t.clients i).sent = (s.clients i).sent :=
    run_of_step (I := fun t => ∀ i, (t.clients i).sent = (s.clients i).sent)
      (fun _ _ _ hu ha hs i => (sent_step ha hs i).trans (hu i)) (fun _ => rfl) halong hrest
  rw [hI'.echoed.inOrder i (hsettled.clients i), hsent i]

/-- Two clients with a line each, one of which is on its way. -/
theorem settles_two :
    ∃ s : State Bool, left s = 4 ∧
      (Stuck step Unprompted s ↔ Settled s) ∧
      (∀ rest t, Along step Unprompted s rest → run step s rest = some t →
        rest.length + left t = left s) ∧
      ∃ rest t, Along step Unprompted s rest ∧ run step s rest = some t ∧ Settled t ∧
        rest.length = left s ∧ ∀ i, (t.clients i).displayed = (s.clients i).sent :=
  ⟨_, rfl, settles (fun i => if i then [97, 10] else [98, 10]) (fun _ _ => 0) (fun _ => 0)
    [.fgets true] rfl⟩

end Left

end NetworkProgramming.UdpEcho
