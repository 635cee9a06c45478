import Mathlib.Data.Finset.Basic
import Mathlib.Logic.Function.Basic
import NetworkProgramming.Library.Buffer
import NetworkProgramming.Library.Transition

/-!
# The main loop of the select server

One system call or one test of the `for` loop a step. The kernel's side is the
table of open client descriptors; connections are numbered in the order in which
they are accepted.
-/
namespace NetworkProgramming.SelectLoop

open Buffer

/-- `FD_SETSIZE`. -/
def fdSetSize : Int := 1024

def bufSize : Nat := 100

inductive Pc where
  | top
  | scan (i : Int)
  | accept (i : Int)
  | accepted (i clntSock : Int)
  | read (i : Int)
  | received (i strLen : Int)
  | ended
  deriving DecidableEq, Repr

structure Server where
  reads : Finset Int
  cpyReads : Finset Int
  fdMax : Int
  /-- The one buffer for all clients. -/
  buf : List Byte
  pc : Pc
  /-- The connection behind every open client descriptor. -/
  connection : Int → Option Nat
  accepted : Nat
  /-- History: what the last `select` reported, and the connections behind it. -/
  reported : Finset Int
  reportedConnection : Int → Option Nat
  /-- History: the descriptors handled in this pass. -/
  handled : List Int

/-- Behind `FD_SET(serv_sock, &reads)`; the buffer holds what the stack held. -/
def start (servSock : Nat) (buf : List Byte) : Server where
  reads := {(servSock : Int)}
  cpyReads := ∅
  fdMax := servSock
  buf := buf
  pc := .top
  connection := fun _ => none
  accepted := 0
  reported := ∅
  reportedConnection := fun _ => none
  handled := []

/-- The results of the system calls, and `next` for a step of the program. -/
inductive Label where
  | timeout
  | selectError
  | ready (fds : Finset Int)
  | accept (fd : Int)
  | read (res : ReadResult)
  | next
  deriving DecidableEq

/-- `select(fd_max + 1, &cpy_reads, ...)` leaves the ready descriptors in the copy. -/
def ready (s : Server) (fds : Finset Int) : Option Server :=
  if s.pc = .top ∧ fds.Nonempty ∧ fds ⊆ s.reads ∧ ∀ d ∈ fds, d < s.fdMax + 1 then
    some { s with
      cpyReads := fds, pc := .scan 0
      reported := fds, reportedConnection := s.connection, handled := [] }
  else none

/-- `accept` fails with -1 or returns a descriptor that is not open. -/
def accept (servSock : Int) (s : Server) (fd : Int) : Option Server :=
  match s.pc with
  | .accept i =>
    if fd = -1 then some { s with pc := .accepted i fd, handled := s.handled ++ [i] }
    else if 0 ≤ fd ∧ fd ≠ servSock ∧ s.connection fd = none then
      some { s with
        pc := .accepted i fd, handled := s.handled ++ [i]
        connection := Function.update s.connection fd (some s.accepted)
        accepted := s.accepted + 1 }
    else none
  | _ => none

/-- `str_len = read(i, buf, BUF_SIZE)`. -/
def read (s : Server) (res : ReadResult) : Option Server :=
  match s.pc with
  | .read i =>
    match res with
    | .error => some { s with pc := .received i (-1), handled := s.handled ++ [i] }
    | .eof => some { s with pc := .received i 0, handled := s.handled ++ [i] }
    | .data chunk =>
      if 0 < chunk.length ∧ chunk.length ≤ bufSize then
        some { s with
          pc := .received i chunk.length, handled := s.handled ++ [i]
          buf := readInto s.buf chunk }
      else none
  | _ => none

/-- What the program does by itself; `FD_SET` outside the set is undefined. -/
def next (servSock : Int) (s : Server) : Option Server :=
  match s.pc with
  | .scan i =>
    if i < s.fdMax + 1 then
      if i ∈ s.cpyReads then
        if i = servSock then some { s with pc := .accept i } else some { s with pc := .read i }
      else some { s with pc := .scan (i + 1) }
    else some { s with pc := .top }
  | .accepted i clntSock =>
    if 0 ≤ clntSock ∧ clntSock < fdSetSize then
      some { s with
        reads := insert clntSock s.reads
        fdMax := if s.fdMax < clntSock then clntSock else s.fdMax
        pc := .scan (i + 1) }
    else none
  | .received i strLen =>
    if strLen = 0 then
      some { s with
        reads := s.reads.erase i, connection := Function.update s.connection i none
        pc := .scan (i + 1) }
    else some { s with pc := .scan (i + 1) }
  | _ => none

def step (servSock : Nat) (s : Server) : Label → Option Server
  | .timeout => if s.pc = .top then some { s with cpyReads := ∅ } else none
  | .selectError => if s.pc = .top then some { s with pc := .ended } else none
  | .ready fds => ready s fds
  | .accept fd => accept servSock s fd
  | .read res => read s res
  | .next => next servSock s

/-- Everything a step can do. -/
inductive Move (servSock : Nat) (s : Server) : Label → Server → Prop where
  | timeout (pc : s.pc = .top) : Move servSock s .timeout { s with cpyReads := ∅ }
  | selectError (pc : s.pc = .top) : Move servSock s .selectError { s with pc := .ended }
  | ready (fds : Finset Int) (pc : s.pc = .top) (some : fds.Nonempty)
      (watched : fds ⊆ s.reads) (low : ∀ d ∈ fds, d < s.fdMax + 1) :
      Move servSock s (.ready fds) { s with
        cpyReads := fds, pc := .scan 0
        reported := fds, reportedConnection := s.connection, handled := [] }
  | acceptFailed (i : Int) (pc : s.pc = .accept i) :
      Move servSock s (.accept (-1))
        { s with pc := .accepted i (-1), handled := s.handled ++ [i] }
  | accept (i fd : Int) (pc : s.pc = .accept i) (low : 0 ≤ fd) (other : fd ≠ servSock)
      (closed : s.connection fd = none) :
      Move servSock s (.accept fd) { s with
        pc := .accepted i fd, handled := s.handled ++ [i]
        connection := Function.update s.connection fd (some s.accepted)
        accepted := s.accepted + 1 }
  | readFailed (i : Int) (pc : s.pc = .read i) :
      Move servSock s (.read .error)
        { s with pc := .received i (-1), handled := s.handled ++ [i] }
  | eof (i : Int) (pc : s.pc = .read i) :
      Move servSock s (.read .eof) { s with pc := .received i 0, handled := s.handled ++ [i] }
  | data (i : Int) (chunk : List Byte) (pc : s.pc = .read i) (some : 0 < chunk.length)
      (fits : chunk.length ≤ bufSize) :
      Move servSock s (.read (.data chunk)) { s with
        pc := .received i chunk.length, handled := s.handled ++ [i]
        buf := readInto s.buf chunk }
  | skip (i : Int) (pc : s.pc = .scan i) (unset : i ∉ s.cpyReads) :
      Move servSock s .next { s with pc := .scan (i + 1) }
  | listener (pc : s.pc = .scan servSock) (set : (servSock : Int) ∈ s.cpyReads) :
      Move servSock s .next { s with pc := .accept servSock }
  | client (i : Int) (pc : s.pc = .scan i) (set : i ∈ s.cpyReads) (other : i ≠ servSock) :
      Move servSock s .next { s with pc := .read i }
  | passDone (i : Int) (pc : s.pc = .scan i) (behind : ¬ i < s.fdMax + 1) :
      Move servSock s .next { s with pc := .top }
  | watch (i fd : Int) (pc : s.pc = .accepted i fd) (low : 0 ≤ fd) (high : fd < fdSetSize) :
      Move servSock s .next { s with
        reads := insert fd s.reads
        fdMax := if s.fdMax < fd then fd else s.fdMax
        pc := .scan (i + 1) }
  | close (i : Int) (pc : s.pc = .received i 0) :
      Move servSock s .next { s with
        reads := s.reads.erase i, connection := Function.update s.connection i none
        pc := .scan (i + 1) }
  | echo (i strLen : Int) (pc : s.pc = .received i strLen) (some : strLen ≠ 0) :
      Move servSock s .next { s with pc := .scan (i + 1) }

theorem next_move {servSock : Nat} {s t : Server} (hs : next servSock s = some t) :
    Move servSock s .next t := by
  unfold next at hs
  cases hpc : s.pc with
  | top | accept | read | ended =>
    rw [hpc] at hs
    cases hs
  | scan i =>
    simp only [hpc] at hs
    split at hs
    next =>
      split at hs
      next hset =>
        split at hs
        next hi =>
          cases hs
          subst hi
          exact .listener hpc hset
        next hi =>
          cases hs
          exact .client i hpc hset hi
      next hset =>
        cases hs
        exact .skip i hpc hset
    next hi =>
      cases hs
      exact .passDone i hpc hi
  | accepted i fd =>
    simp only [hpc] at hs
    obtain ⟨⟨h0, h1⟩, hs⟩ := Option.ite_none_right_eq_some.mp hs
    cases hs
    exact .watch i fd hpc h0 h1
  | received i strLen =>
    simp only [hpc] at hs
    split at hs
    next h0 =>
      subst h0
      cases hs
      exact .close i hpc
    next h0 =>
      cases hs
      exact .echo i strLen hpc h0

theorem step_move {servSock : Nat} {s t : Server} {a : Label}
    (hs : step servSock s a = some t) : Move servSock s a t := by
  cases a with
  | timeout =>
    obtain ⟨hpc, hs⟩ := Option.ite_none_right_eq_some.mp hs
    cases hs
    exact .timeout hpc
  | selectError =>
    obtain ⟨hpc, hs⟩ := Option.ite_none_right_eq_some.mp hs
    cases hs
    exact .selectError hpc
  | ready fds =>
    obtain ⟨⟨hpc, hne, hsub, hlow⟩, hs⟩ := Option.ite_none_right_eq_some.mp hs
    cases hs
    exact .ready fds hpc hne hsub hlow
  | accept fd =>
    simp only [step, accept] at hs
    split at hs
    next i hpc =>
      split at hs
      next hfail =>
        subst hfail
        cases hs
        exact .acceptFailed i hpc
      next =>
        obtain ⟨⟨h0, hne, hclosed⟩, hs⟩ := Option.ite_none_right_eq_some.mp hs
        cases hs
        exact .accept i fd hpc h0 hne hclosed
    next => cases hs
  | read res =>
    simp only [step, read] at hs
    split at hs
    next i hpc =>
      cases res with
      | error =>
        cases hs
        exact .readFailed i hpc
      | eof =>
        cases hs
        exact .eof i hpc
      | data chunk =>
        obtain ⟨⟨h0, hl⟩, hs⟩ := Option.ite_none_right_eq_some.mp hs
        cases hs
        exact .data i chunk hpc h0 hl
    next => cases hs
  | next => exact next_move hs

end NetworkProgramming.SelectLoop
