import NetworkProgramming.Quiz2.Selection

/-!
# The main loop of the quiz 2 server

The parent process, one system call a step. The datagrams for its multicast
socket wait in the order in which they arrive; the results of all other calls,
and the datagrams for the chat socket, are labels.
-/
namespace NetworkProgramming.QuizServer

open Buffer UserInput QuizSelection

structure Datagram where
  source : Nat
  data : List Byte
  deriving DecidableEq, Repr

/-- A service 1 session: what was taken for its selection and for its request. -/
structure Session where
  selection : Datagram
  request : Datagram
  deriving DecidableEq, Repr

/-- The call that comes next: `select` is the head of the loop, the next five stand
inside service 1 and the four behind them inside service 2. -/
inductive Pc where
  | select
  | request | reply | listen | accept | fork
  | socket | bind | chat | answer
  | exited
  deriving DecidableEq, Repr

structure State where
  pc : Pc
  servOpen : Bool
  tcpOpen : Bool
  udpOpen : Bool
  /-- The text in `buf`. -/
  buf : List Byte
  /-- The sender of the last datagram; 0 after `memset`. -/
  clntAdr : Nat
  /-- What will reach `serv_sock`. -/
  inbox : List Datagram
  /-- History: the datagrams received at the head of the loop. -/
  selections : List Datagram
  /-- History: the service 1 sessions. -/
  sessions : List Session
  /-- History: what `sendto` has sent from `serv_sock`, with the receiver. -/
  replies : List (Nat × List Byte)

/-- After the set-up. -/
def start (inbox : List Datagram) : State where
  pc := .select
  servOpen := true
  tcpOpen := true
  udpOpen := false
  buf := []
  clntAdr := 0
  inbox := inbox
  selections := []
  sessions := []
  replies := []

def ascii (s : String) : List Byte := s.toList.map fun c => c.toNat.toUInt8

/-- `"konkuk.txt, OK, 127.0.0.1, "` and the port. -/
def replyText (port : Nat) : List Byte :=
  ascii "konkuk.txt, " ++ ascii "OK, " ++ ascii "127.0.0.1, " ++
    (Nat.toDigits 10 port).map fun c => c.toNat.toUInt8

/-- `false` is the failure of the call. -/
inductive Label where
  | receive
  | reply
  | listen (ok : Bool)
  | accept (ok : Bool)
  | fork (ok : Bool)
  | socket (ok : Bool)
  | bind (ok : Bool)
  | chat (d : Datagram)
  | answer (line : List Byte)
  deriving DecidableEq, Repr

/-- What follows when this datagram has been received at the head of the loop. -/
def selected (s : State) (d : Datagram) : State :=
  let s := { s with
    buf := receivedText d.data, clntAdr := d.source, selections := s.selections ++ [d] }
  match serverService (receivedText d.data) with
  | .one => { s with pc := .request }
  | .two => { s with servOpen := false, pc := .socket }
  | .none => s

/-- `recvfrom(serv_sock, …)`. On the closed socket it fails and `buf` stays cleared, so
no service is selected. -/
def receiveStep (s : State) : Option State :=
  match s.pc with
  | .select =>
    if s.servOpen then
      match s.inbox with
      | [] => none
      | d :: inbox => some (selected { s with inbox := inbox } d)
    else some { s with buf := [], clntAdr := 0 }
  | .request =>
    match s.inbox with
    | [] => none
    | d :: inbox =>
      some { s with
        inbox := inbox
        buf := receivedText d.data
        clntAdr := d.source
        sessions := s.sessions ++ [⟨⟨s.clntAdr, s.buf⟩, d⟩]
        pc := .reply }
  | _ => none

/-- The chat reads `"q\n"` or `"Q\n"`, or goes on with the operator's answer. A piece
that fills `buf` puts the zero byte behind it, where nothing of this model lives. -/
def chatStep (s : State) (d : Datagram) : State :=
  let s := { s with buf := receivedText d.data, clntAdr := d.source }
  if isQuit (receivedText d.data) then { s with udpOpen := false, pc := .select }
  else { s with pc := .answer }

/-- One call of the parent. It only closes its copy of `clisocket` after `fork`, and the
child has its own copies of the other sockets. -/
def step (port : Nat) (s : State) : Label → Option State
  | .receive => receiveStep s
  | .reply =>
    if s.pc = .reply then
      some { s with
        buf := replyText port
        replies := s.replies ++ [(s.clntAdr, replyText port)]
        pc := .listen }
    else none
  | .listen ok =>
    if s.pc = .listen then some { s with pc := if ok then .accept else .exited } else none
  | .accept ok =>
    if s.pc = .accept then some { s with pc := if ok then .fork else .select } else none
  | .fork _ => if s.pc = .fork then some { s with pc := .select } else none
  | .socket ok =>
    if s.pc = .socket then some { s with udpOpen := ok, pc := if ok then .bind else .exited }
    else none
  | .bind ok => if s.pc = .bind then some { s with pc := if ok then .chat else .exited } else none
  | .chat d => if s.pc = .chat then some (chatStep s d) else none
  | .answer line => if s.pc = .answer then some { s with buf := line, pc := .chat } else none

/-- Everything a step can do. -/
inductive Move (port : Nat) (s : State) : Label → State → Prop where
  | select (d : Datagram) (inbox : List Datagram) (pc : s.pc = .select)
      (isOpen : s.servOpen = true) (next : s.inbox = d :: inbox) :
      Move port s .receive (selected { s with inbox := inbox } d)
  | selectClosed (pc : s.pc = .select) (closed : s.servOpen = false) :
      Move port s .receive { s with buf := [], clntAdr := 0 }
  | request (d : Datagram) (inbox : List Datagram) (pc : s.pc = .request)
      (next : s.inbox = d :: inbox) :
      Move port s .receive { s with
        inbox := inbox
        buf := receivedText d.data
        clntAdr := d.source
        sessions := s.sessions ++ [⟨⟨s.clntAdr, s.buf⟩, d⟩]
        pc := .reply }
  | reply (pc : s.pc = .reply) :
      Move port s .reply { s with
        buf := replyText port
        replies := s.replies ++ [(s.clntAdr, replyText port)]
        pc := .listen }
  | listen (ok : Bool) (pc : s.pc = .listen) :
      Move port s (.listen ok) { s with pc := if ok then .accept else .exited }
  | accept (ok : Bool) (pc : s.pc = .accept) :
      Move port s (.accept ok) { s with pc := if ok then .fork else .select }
  | fork (ok : Bool) (pc : s.pc = .fork) : Move port s (.fork ok) { s with pc := .select }
  | socket (ok : Bool) (pc : s.pc = .socket) :
      Move port s (.socket ok) { s with udpOpen := ok, pc := if ok then .bind else .exited }
  | bind (ok : Bool) (pc : s.pc = .bind) :
      Move port s (.bind ok) { s with pc := if ok then .chat else .exited }
  | chat (d : Datagram) (pc : s.pc = .chat) : Move port s (.chat d) (chatStep s d)
  | answer (line : List Byte) (pc : s.pc = .answer) :
      Move port s (.answer line) { s with buf := line, pc := .chat }

theorem receiveStep_move {port : Nat} {s t : State} (hs : receiveStep s = some t) :
    Move port s .receive t := by
  unfold receiveStep at hs
  split at hs
  next hpc =>
    split at hs
    next hopen =>
      split at hs
      next => cases hs
      next d inbox hin =>
        cases hs
        exact .select d inbox hpc hopen hin
    next hclosed =>
      cases hs
      exact .selectClosed hpc (by simpa using hclosed)
  next hpc =>
    split at hs
    next => cases hs
    next d inbox hin =>
      cases hs
      exact .request d inbox hpc hin
  next => cases hs

theorem step_move {port : Nat} {s t : State} {a : Label} (hs : step port s a = some t) :
    Move port s a t := by
  cases a with
  | receive => exact receiveStep_move hs
  | reply =>
    obtain ⟨hpc, hs⟩ := Option.ite_none_right_eq_some.mp hs
    cases hs
    exact .reply hpc
  | listen ok =>
    obtain ⟨hpc, hs⟩ := Option.ite_none_right_eq_some.mp hs
    cases hs
    exact .listen ok hpc
  | accept ok =>
    obtain ⟨hpc, hs⟩ := Option.ite_none_right_eq_some.mp hs
    cases hs
    exact .accept ok hpc
  | fork ok =>
    obtain ⟨hpc, hs⟩ := Option.ite_none_right_eq_some.mp hs
    cases hs
    exact .fork ok hpc
  | socket ok =>
    obtain ⟨hpc, hs⟩ := Option.ite_none_right_eq_some.mp hs
    cases hs
    exact .socket ok hpc
  | bind ok =>
    obtain ⟨hpc, hs⟩ := Option.ite_none_right_eq_some.mp hs
    cases hs
    exact .bind ok hpc
  | chat d =>
    obtain ⟨hpc, hs⟩ := Option.ite_none_right_eq_some.mp hs
    cases hs
    exact .chat d hpc
  | answer line =>
    obtain ⟨hpc, hs⟩ := Option.ite_none_right_eq_some.mp hs
    cases hs
    exact .answer line hpc

end NetworkProgramming.QuizServer
