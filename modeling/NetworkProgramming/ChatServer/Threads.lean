import NetworkProgramming.Library.Transition
import NetworkProgramming.ChatServer.Registry
import NetworkProgramming.ChatServer.Messages

/-!
# The threads of the chat server

`main` and any number of `handle_clnt` threads, one mutex operation, one loop
iteration or one system call a step. What the sockets do with a `write` is a
parameter: it may queue the bytes, block, or raise SIGPIPE.
-/
namespace NetworkProgramming.ChatThreads

open Buffer Transition ChatRegistry ChatMessages

inductive WriteResult (ν : Type) where
  | sent (net : ν)
  | blocked
  | sigpipe

/-- The sockets of the process and what their peers do. -/
structure SocketLayer (ν ε : Type) where
  accept : ν → Int → ν
  write : ν → Int → List Byte → WriteResult ν
  close : ν → Int → ν
  peer : ν → ε → Option ν

/-- Sockets that take every `write` at once and have silent peers. -/
def openSockets : SocketLayer Unit Empty where
  accept _ _ := ()
  write _ _ _ := .sent ()
  close _ _ := ()
  peer _ e := e.elim

inductive Tid where
  | main
  | handler (k : Nat)
  deriving DecidableEq, Repr

inductive MainPc where
  | accept | lock | register | unlock | create
  deriving DecidableEq, Repr

/-- Where a handler is. `send` and `remove` are the sections under the mutex. -/
inductive HandlerPc where
  | unborn
  | start
  | read
  | sendLock (msg : List Byte)
  | send (msg : List Byte) (i : Int)
  | sendUnlock
  | removeLock
  | remove (pc : RemovePc)
  | close
  | finished
  deriving DecidableEq, Repr

/-- A handler thread with its local `clnt_sock`. -/
structure Handler where
  pc : HandlerPc
  clntSock : Int
  deriving DecidableEq, Repr

/-- What all threads share. -/
structure Shared (ν : Type) where
  registry : Registry
  mutx : Option Tid
  opened : List Int
  killed : Bool
  net : ν

structure State (ν : Type) where
  shared : Shared ν
  main : MainPc
  /-- The local variable of `main` whose address every thread gets. -/
  clntSock : Int
  handlers : Nat → Handler
  created : Nat
  /-- History: what `accept` returned, one entry a connection. -/
  accepted : List Int

variable {ν ε : Type}

def start (net : ν) : State ν where
  shared := ⟨initial, none, [], false, net⟩
  main := .accept
  clntSock := 0
  handlers := fun _ => ⟨.unborn, 0⟩
  created := 0
  accepted := []

/-- `pthread_mutex_lock(&mutx)` returns only while the mutex is free. -/
def lock (self : Tid) (sh : Shared ν) : Option (Shared ν) :=
  if sh.mutx = none then some { sh with mutx := some self } else none

theorem lock_some {self : Tid} {sh sh' : Shared ν} (h : lock self sh = some sh') :
    sh.mutx = none ∧ sh' = { sh with mutx := some self } := by
  unfold lock at h
  split at h
  next hfree => exact ⟨hfree, (Option.some.inj h).symm⟩
  next => cases h

def unlock (sh : Shared ν) : Shared ν := { sh with mutx := none }

/-- One step of `handle_clnt` or of the `send_msg` it calls; `argument` is what
its argument points to at that moment. -/
def handlerStep (L : SocketLayer ν ε) (argument : Int) (self : Tid) (h : Handler)
    (sh : Shared ν) : Option (Handler × Shared ν) :=
  match h.pc with
  | .unborn => none
  | .start => some (⟨.read, argument⟩, sh)
  | .read => none
  | .sendLock msg => (lock self sh).map fun sh => (⟨.send msg 0, h.clntSock⟩, sh)
  | .send msg i =>
    if i < sh.registry.clntCnt then
      (load sh.registry i).bind fun sock =>
        match L.write sh.net sock msg with
        | .sent net => some (⟨.send msg (i + 1), h.clntSock⟩, { sh with net := net })
        | .blocked => none
        | .sigpipe => some (h, { sh with killed := true })
    else some (⟨.sendUnlock, h.clntSock⟩, sh)
  | .sendUnlock => some (⟨.read, h.clntSock⟩, unlock sh)
  | .removeLock => (lock self sh).map fun sh => (⟨.remove (.search 0), h.clntSock⟩, sh)
  | .remove pc =>
    if pc = .finished then some (⟨.close, h.clntSock⟩, unlock sh)
    else
      (removeStep h.clntSock pc sh.registry).map fun next =>
        (⟨.remove next.1, h.clntSock⟩, { sh with registry := next.2 })
  | .close =>
    some (⟨.finished, h.clntSock⟩,
      { sh with opened := sh.opened.erase h.clntSock, net := L.close sh.net h.clntSock })
  | .finished => none

/-- Everything a step of a handler can do, one constructor a kind of step. -/
inductive HandlerMove (L : SocketLayer ν ε) (argument : Int) (self : Tid) :
    Handler → Shared ν → Handler → Shared ν → Prop where
  | start (sock : Int) (sh : Shared ν) :
      HandlerMove L argument self ⟨.start, sock⟩ sh ⟨.read, argument⟩ sh
  | sendLock (msg : List Byte) (sock : Int) (sh : Shared ν) (free : sh.mutx = none) :
      HandlerMove L argument self ⟨.sendLock msg, sock⟩ sh ⟨.send msg 0, sock⟩
        { sh with mutx := some self }
  | write (msg : List Byte) (i sock dest : Int) (sh : Shared ν) (net : ν)
      (inside : i < sh.registry.clntCnt) (loaded : load sh.registry i = some dest)
      (sent : L.write sh.net dest msg = .sent net) :
      HandlerMove L argument self ⟨.send msg i, sock⟩ sh ⟨.send msg (i + 1), sock⟩
        { sh with net := net }
  | sigpipe (msg : List Byte) (i sock dest : Int) (sh : Shared ν)
      (inside : i < sh.registry.clntCnt) (loaded : load sh.registry i = some dest)
      (raised : L.write sh.net dest msg = .sigpipe) :
      HandlerMove L argument self ⟨.send msg i, sock⟩ sh ⟨.send msg i, sock⟩
        { sh with killed := true }
  | sendDone (msg : List Byte) (i sock : Int) (sh : Shared ν)
      (behind : ¬ i < sh.registry.clntCnt) :
      HandlerMove L argument self ⟨.send msg i, sock⟩ sh ⟨.sendUnlock, sock⟩ sh
  | sendUnlock (sock : Int) (sh : Shared ν) :
      HandlerMove L argument self ⟨.sendUnlock, sock⟩ sh ⟨.read, sock⟩ { sh with mutx := none }
  | removeLock (sock : Int) (sh : Shared ν) (free : sh.mutx = none) :
      HandlerMove L argument self ⟨.removeLock, sock⟩ sh ⟨.remove (.search 0), sock⟩
        { sh with mutx := some self }
  | remove (pc next : RemovePc) (sock : Int) (sh : Shared ν) (r : Registry)
      (stepped : removeStep sock pc sh.registry = some (next, r)) :
      HandlerMove L argument self ⟨.remove pc, sock⟩ sh ⟨.remove next, sock⟩
        { sh with registry := r }
  | removeUnlock (sock : Int) (sh : Shared ν) :
      HandlerMove L argument self ⟨.remove .finished, sock⟩ sh ⟨.close, sock⟩
        { sh with mutx := none }
  | close (sock : Int) (sh : Shared ν) :
      HandlerMove L argument self ⟨.close, sock⟩ sh ⟨.finished, sock⟩
        { sh with opened := sh.opened.erase sock, net := L.close sh.net sock }

theorem handlerStep_move {L : SocketLayer ν ε} {argument : Int} {self : Tid} {h h' : Handler}
    {sh sh' : Shared ν} (hs : handlerStep L argument self h sh = some (h', sh')) :
    HandlerMove L argument self h sh h' sh' := by
  obtain ⟨pc, sock⟩ := h
  cases pc with
  | unborn | read | finished => cases hs
  | start =>
    cases hs
    exact .start sock sh
  | sendLock msg =>
    obtain ⟨sh₁, hl, he⟩ := Option.map_eq_some_iff.mp hs
    obtain ⟨hfree, rfl⟩ := lock_some hl
    cases he
    exact .sendLock msg sock sh hfree
  | send msg i =>
    simp only [handlerStep] at hs
    split at hs
    next hi =>
      obtain ⟨dest, hload, hs⟩ := Option.bind_eq_some_iff.mp hs
      split at hs
      next net hw =>
        cases hs
        exact .write msg i sock dest sh net hi hload hw
      next => cases hs
      next hw =>
        cases hs
        exact .sigpipe msg i sock dest sh hi hload hw
    next hi =>
      cases hs
      exact .sendDone msg i sock sh hi
  | sendUnlock =>
    cases hs
    exact .sendUnlock sock sh
  | removeLock =>
    obtain ⟨sh₁, hl, he⟩ := Option.map_eq_some_iff.mp hs
    obtain ⟨hfree, rfl⟩ := lock_some hl
    cases he
    exact .removeLock sock sh hfree
  | remove pc =>
    simp only [handlerStep] at hs
    split at hs
    next hp =>
      subst hp
      cases hs
      exact .removeUnlock sock sh
    next =>
      obtain ⟨next, hr, he⟩ := Option.map_eq_some_iff.mp hs
      cases he
      exact .remove pc next.1 sock sh next.2 hr
  | close =>
    cases hs
    exact .close sock sh

/-- A read result sends the handler into `send_msg`, or behind its loop. -/
def readStep (h : Handler) (res : ReadResult) : Option Handler :=
  if h.pc = .read then
    match res with
    | .eof => some ⟨.removeLock, h.clntSock⟩
    | .error => (relayText []).map fun msg => ⟨.sendLock msg, h.clntSock⟩
    | .data chunk =>
      if 0 < chunk.length ∧ chunk.length ≤ bufSize then
        (relayText chunk).map fun msg => ⟨.sendLock msg, h.clntSock⟩
      else none
  else none

/-- One step of `main` behind its `accept`. -/
def mainStep (s : State ν) : Option (State ν) :=
  match s.main with
  | .accept => none
  | .lock => (lock .main s.shared).map fun sh => { s with shared := sh, main := .register }
  | .register =>
    (register s.clntSock s.shared.registry).map fun r =>
      { s with shared := { s.shared with registry := r }, main := .unlock }
  | .unlock => some { s with shared := unlock s.shared, main := .create }
  | .create =>
    some { s with
      handlers := Function.update s.handlers s.created ⟨.start, 0⟩
      created := s.created + 1
      main := .accept }

/-- `accept` fails with -1 or returns a descriptor that is not open. -/
def acceptStep (L : SocketLayer ν ε) (s : State ν) (fd : Int) : Option (State ν) :=
  if s.main = .accept then
    if fd = -1 then
      some { s with main := .lock, clntSock := fd, accepted := s.accepted ++ [fd] }
    else if 0 ≤ fd ∧ fd ∉ s.shared.opened then
      some { s with
        shared := { s.shared with
          opened := fd :: s.shared.opened, net := L.accept s.shared.net fd }
        main := .lock
        clntSock := fd
        accepted := s.accepted ++ [fd] }
    else none
  else none

inductive Label (ε : Type) where
  | accept (fd : Int)
  | main
  | handler (k : Nat)
  | read (k : Nat) (res : ReadResult)
  | peer (e : ε)
  deriving DecidableEq, Repr

/-- One step of the process or of a peer; a killed process takes none. -/
def step (L : SocketLayer ν ε) (s : State ν) (a : Label ε) : Option (State ν) :=
  if s.shared.killed then none
  else
    match a with
    | .accept fd => acceptStep L s fd
    | .main => mainStep s
    | .handler k =>
      (handlerStep L s.clntSock (.handler k) (s.handlers k) s.shared).map fun next =>
        { s with shared := next.2, handlers := Function.update s.handlers k next.1 }
    | .read k res =>
      (readStep (s.handlers k) res).map fun h =>
        { s with handlers := Function.update s.handlers k h }
    | .peer e =>
      (L.peer s.shared.net e).map fun net => { s with shared := { s.shared with net := net } }

/-- Everything a step of `main` behind its `accept` can do. -/
inductive MainMove (s : State ν) : State ν → Prop where
  | lock (pc : s.main = .lock) (free : s.shared.mutx = none) :
      MainMove s { s with shared := { s.shared with mutx := some .main }, main := .register }
  | register (pc : s.main = .register) (r : Registry)
      (stored : register s.clntSock s.shared.registry = some r) :
      MainMove s { s with shared := { s.shared with registry := r }, main := .unlock }
  | unlock (pc : s.main = .unlock) :
      MainMove s { s with shared := { s.shared with mutx := none }, main := .create }
  | create (pc : s.main = .create) :
      MainMove s { s with
        handlers := Function.update s.handlers s.created ⟨.start, 0⟩
        created := s.created + 1
        main := .accept }

theorem mainStep_move {s t : State ν} (hs : mainStep s = some t) : MainMove s t := by
  unfold mainStep at hs
  cases hm : s.main with
  | accept =>
    rw [hm] at hs
    cases hs
  | lock =>
    rw [hm] at hs
    obtain ⟨sh, hl, rfl⟩ := Option.map_eq_some_iff.mp hs
    obtain ⟨hfree, rfl⟩ := lock_some hl
    exact .lock hm hfree
  | register =>
    rw [hm] at hs
    obtain ⟨r, hr, rfl⟩ := Option.map_eq_some_iff.mp hs
    exact .register hm r hr
  | unlock =>
    rw [hm] at hs
    cases hs
    exact .unlock hm
  | create =>
    rw [hm] at hs
    cases hs
    exact .create hm

/-- A read result takes the handler to one of its two locks, with its socket. -/
theorem readStep_spec {h h' : Handler} {res : ReadResult} (hs : readStep h res = some h') :
    h.pc = .read ∧ h'.clntSock = h.clntSock ∧
      (h'.pc = .removeLock ∨ ∃ msg, h'.pc = .sendLock msg) := by
  unfold readStep at hs
  split at hs
  next hpc =>
    refine ⟨hpc, ?_⟩
    cases res with
    | eof =>
      cases hs
      exact ⟨rfl, .inl rfl⟩
    | error =>
      obtain ⟨msg, -, rfl⟩ := Option.map_eq_some_iff.mp hs
      exact ⟨rfl, .inr ⟨msg, rfl⟩⟩
    | data chunk =>
      obtain ⟨-, hs⟩ := Option.ite_none_right_eq_some.mp hs
      obtain ⟨msg, -, rfl⟩ := Option.map_eq_some_iff.mp hs
      exact ⟨rfl, .inr ⟨msg, rfl⟩⟩
  next => cases hs

/-- `accept` makes its result pending; a descriptor it returns was not open. -/
theorem acceptStep_spec {L : SocketLayer ν ε} {s t : State ν} {fd : Int}
    (hs : acceptStep L s fd = some t) :
    s.main = .accept ∧ ∃ sh : Shared ν,
      t = { s with
        shared := sh, main := .lock, clntSock := fd, accepted := s.accepted ++ [fd] } ∧
      sh.registry = s.shared.registry ∧ sh.mutx = s.shared.mutx ∧
      sh.killed = s.shared.killed ∧
      (0 ≤ fd → fd ∉ s.shared.opened ∧ fd ∈ sh.opened) ∧
      ∀ x ∈ s.shared.opened, x ∈ sh.opened := by
  simp only [acceptStep] at hs
  obtain ⟨hm, hs⟩ := Option.ite_none_right_eq_some.mp hs
  refine ⟨hm, ?_⟩
  split at hs
  next hfail =>
    cases hs
    exact ⟨s.shared, rfl, rfl, rfl, rfl, fun h0 => by omega, fun x hx => hx⟩
  next =>
    obtain ⟨⟨h0, hfresh⟩, hs⟩ := Option.ite_none_right_eq_some.mp hs
    cases hs
    exact ⟨_, rfl, rfl, rfl, rfl, fun _ => ⟨hfresh, by simp⟩, fun x hx => by simp [hx]⟩

/-- Everything a step of the whole system can do. -/
inductive Move (L : SocketLayer ν ε) (s : State ν) : Label ε → State ν → Prop where
  | accept (fd : Int) (t : State ν) (accepted : acceptStep L s fd = some t) :
      Move L s (.accept fd) t
  | main (t : State ν) (moved : MainMove s t) : Move L s .main t
  | handler (k : Nat) (h : Handler) (sh : Shared ν)
      (moved : HandlerMove L s.clntSock (.handler k) (s.handlers k) s.shared h sh) :
      Move L s (.handler k)
        { s with shared := sh, handlers := Function.update s.handlers k h }
  | read (k : Nat) (res : ReadResult) (h : Handler)
      (stepped : readStep (s.handlers k) res = some h) :
      Move L s (.read k res) { s with handlers := Function.update s.handlers k h }
  | peer (e : ε) (net : ν) (moved : L.peer s.shared.net e = some net) :
      Move L s (.peer e) { s with shared := { s.shared with net := net } }

theorem step_move {L : SocketLayer ν ε} {s t : State ν} {a : Label ε}
    (hs : step L s a = some t) : s.shared.killed = false ∧ Move L s a t := by
  simp only [step] at hs
  obtain ⟨hk, hs⟩ := Option.ite_none_left_eq_some.mp hs
  refine ⟨by simpa using hk, ?_⟩
  cases a with
  | accept fd => exact .accept fd t hs
  | main => exact .main t (mainStep_move hs)
  | handler k =>
    obtain ⟨next, hn, rfl⟩ := Option.map_eq_some_iff.mp hs
    exact .handler k next.1 next.2 (handlerStep_move hn)
  | read k res =>
    obtain ⟨h, hr, rfl⟩ := Option.map_eq_some_iff.mp hs
    exact .read k res h hr
  | peer e =>
    obtain ⟨net, hp, rfl⟩ := Option.map_eq_some_iff.mp hs
    exact .peer e net hp

end NetworkProgramming.ChatThreads
