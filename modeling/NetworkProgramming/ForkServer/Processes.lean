import Mathlib.Logic.Function.Basic

/-!
# Servers that fork a child for each connection

`main` of these servers, run by the parent and, behind `fork`, by its children:
each process has its own place in the code and its own descriptor table, which
`fork` copies. What a child does for its client is a parameter.
-/
namespace NetworkProgramming.ForkServer

inductive File where
  | listener
  | other
  | conn (c : Nat)
  deriving DecidableEq, Repr

abbrev Table := Nat → Option File

/-- What follows a call of a child's service. `close` closes the connection, and so does
`loop` before it goes back to the head of `main`'s loop. -/
inductive Next (π : Type) where
  | serve (p : π)
  | close (p : π)
  | loop
  | exit
  deriving DecidableEq, Repr

/-- The service of a child, one system call a step; the call's result is the argument. -/
structure Program (π : Type) where
  first : π
  step : π → Int → Option (Next π)

/-- Where a process is. The flag of `serve` says whether it still has its connection. -/
inductive Pc (π : Type) where
  | unborn
  | accept
  | fork
  | parentClose
  | closeListener
  | serve (held : Bool) (p : π)
  | exited
  deriving DecidableEq, Repr

structure Process (π : Type) where
  pc : Pc π
  /-- The variable with `accept`'s result. -/
  connFd : Nat
  /-- History: the connection that `connFd` stood for when it was set. -/
  client : Option Nat
  table : Table

/-- Process 0 is the original parent. -/
structure State (π : Type) where
  procs : Nat → Process π
  forks : Nat
  connections : Nat

variable {π : Type}

def State.set (s : State π) (k : Nat) (p : Process π) : State π :=
  { s with procs := Function.update s.procs k p }

def noFiles : Table := fun _ => none

/-- The table in front of the loop: the listening socket and what else is open. -/
def initialTable (servSock : Nat) (opened : List Nat) : Table := fun fd =>
  if fd = servSock then some .listener else if fd ∈ opened then some .other else none

def unbornProcess : Process π := ⟨.unborn, 0, none, noFiles⟩

/-- The parent at the head of the loop. -/
def parentProcess (servSock : Nat) (opened : List Nat) : Process π :=
  ⟨.accept, 0, none, initialTable servSock opened⟩

def start (servSock : Nat) (opened : List Nat) : State π where
  procs := Function.update (fun _ => unbornProcess) 0 (parentProcess servSock opened)
  forks := 1
  connections := 0

/-- The start of a server that forks a child for another task before its loop. -/
def startWith (servSock : Nat) (opened : List Nat) (task : π) : State π where
  procs := Function.update
    (Function.update (fun _ => unbornProcess) 0 (parentProcess servSock opened)) 1
    ⟨.serve false task, 0, none, initialTable servSock opened⟩
  forks := 2
  connections := 0

def Process.exit (p : Process π) : Process π := { p with pc := .exited, table := noFiles }

/-- `close(fd)`. -/
def Process.close (p : Process π) (fd : Nat) : Process π :=
  { p with table := Function.update p.table fd none }

inductive Label where
  | accept (k : Nat) (fd : Option Nat)
  | fork (k : Nat) (ok : Bool)
  | parentClose (k : Nat)
  | closeListener (k : Nat)
  | serve (k : Nat) (n : Int)
  | kill (k : Nat)
  deriving DecidableEq, Repr

/-- `accept` fails, or gives a new connection a descriptor that the process has free. -/
def acceptStep (servSock : Nat) (s : State π) (k : Nat) (fd : Option Nat) : Option (State π) :=
  let p := s.procs k
  match p.pc, fd with
  | .accept, none => some s
  | .accept, some fd =>
    if p.table servSock = some .listener ∧ p.table fd = none then
      some { s.set k ⟨.fork, fd, some s.connections,
          Function.update p.table fd (some (.conn s.connections))⟩ with
        connections := s.connections + 1 }
    else none
  | _, _ => none

/-- `fork` copies the process; when it fails, the connection is closed. -/
def forkStep (s : State π) (k : Nat) (ok : Bool) : Option (State π) :=
  let p := s.procs k
  match p.pc with
  | .fork =>
    if ok then
      some { (s.set k { p with pc := .parentClose }).set s.forks { p with pc := .closeListener }
        with forks := s.forks + 1 }
    else some (s.set k { p.close p.connFd with pc := .accept })
  | _ => none

/-- One call of a child's service, or of what stands behind it. -/
def serveStep (P : Program π) (s : State π) (k : Nat) (n : Int) : Option (State π) :=
  let p := s.procs k
  match p.pc with
  | .serve held q =>
    (P.step q n).map fun next =>
      match next with
      | .serve q => s.set k { p with pc := .serve held q }
      | .close q => s.set k { p.close p.connFd with pc := .serve false q }
      | .loop => s.set k { p.close p.connFd with pc := .accept }
      | .exit => s.set k p.exit
  | _ => none

/-- A step of process `k`. A child can be killed at any time, by SIGPIPE or by what it
computes. -/
def step (P : Program π) (servSock : Nat) (s : State π) : Label → Option (State π)
  | .accept k fd => acceptStep servSock s k fd
  | .fork k ok => forkStep s k ok
  | .parentClose k =>
    match (s.procs k).pc with
    | .parentClose => some (s.set k { (s.procs k).close (s.procs k).connFd with pc := .accept })
    | _ => none
  | .closeListener k =>
    match (s.procs k).pc with
    | .closeListener =>
      some (s.set k { (s.procs k).close servSock with pc := .serve true P.first })
    | _ => none
  | .serve k n => serveStep P s k n
  | .kill k => if k ≠ 0 ∧ k < s.forks then some (s.set k (s.procs k).exit) else none

/-- Everything a step can do. -/
inductive Move (P : Program π) (servSock : Nat) (s : State π) : Label → State π → Prop where
  | acceptFails (k : Nat) (pc : (s.procs k).pc = .accept) :
      Move P servSock s (.accept k none) s
  | accept (k fd : Nat) (pc : (s.procs k).pc = .accept)
      (listening : (s.procs k).table servSock = some .listener)
      (free : (s.procs k).table fd = none) :
      Move P servSock s (.accept k (some fd))
        { s.set k ⟨.fork, fd, some s.connections,
            Function.update (s.procs k).table fd (some (.conn s.connections))⟩ with
          connections := s.connections + 1 }
  | forkFails (k : Nat) (pc : (s.procs k).pc = .fork) :
      Move P servSock s (.fork k false)
        (s.set k { (s.procs k).close (s.procs k).connFd with pc := .accept })
  | fork (k : Nat) (pc : (s.procs k).pc = .fork) :
      Move P servSock s (.fork k true)
        { (s.set k { s.procs k with pc := .parentClose }).set s.forks
            { s.procs k with pc := .closeListener } with
          forks := s.forks + 1 }
  | parentClose (k : Nat) (pc : (s.procs k).pc = .parentClose) :
      Move P servSock s (.parentClose k)
        (s.set k { (s.procs k).close (s.procs k).connFd with pc := .accept })
  | closeListener (k : Nat) (pc : (s.procs k).pc = .closeListener) :
      Move P servSock s (.closeListener k)
        (s.set k { (s.procs k).close servSock with pc := .serve true P.first })
  | serve (k : Nat) (n : Int) (held : Bool) (p q : π) (pc : (s.procs k).pc = .serve held p)
      (next : P.step p n = some (.serve q)) :
      Move P servSock s (.serve k n) (s.set k { s.procs k with pc := .serve held q })
  | close (k : Nat) (n : Int) (held : Bool) (p q : π) (pc : (s.procs k).pc = .serve held p)
      (next : P.step p n = some (.close q)) :
      Move P servSock s (.serve k n)
        (s.set k { (s.procs k).close (s.procs k).connFd with pc := .serve false q })
  | loop (k : Nat) (n : Int) (held : Bool) (p : π) (pc : (s.procs k).pc = .serve held p)
      (next : P.step p n = some .loop) :
      Move P servSock s (.serve k n)
        (s.set k { (s.procs k).close (s.procs k).connFd with pc := .accept })
  | exit (k : Nat) (n : Int) (held : Bool) (p : π) (pc : (s.procs k).pc = .serve held p)
      (next : P.step p n = some .exit) :
      Move P servSock s (.serve k n) (s.set k (s.procs k).exit)
  | kill (k : Nat) (child : k ≠ 0) (born : k < s.forks) :
      Move P servSock s (.kill k) (s.set k (s.procs k).exit)

theorem serveStep_move {P : Program π} {servSock : Nat} {s t : State π} {k : Nat} {n : Int}
    (hs : serveStep P s k n = some t) : Move P servSock s (.serve k n) t := by
  simp only [serveStep] at hs
  split at hs
  next held p hpc =>
    obtain ⟨next, hnext, rfl⟩ := Option.map_eq_some_iff.mp hs
    cases next with
    | serve q => exact .serve k n held p q hpc hnext
    | close q => exact .close k n held p q hpc hnext
    | loop => exact .loop k n held p hpc hnext
    | exit => exact .exit k n held p hpc hnext
  next => cases hs

theorem step_move {P : Program π} {servSock : Nat} {s t : State π} {a : Label}
    (hs : step P servSock s a = some t) : Move P servSock s a t := by
  cases a with
  | accept k fd =>
    simp only [step, acceptStep] at hs
    split at hs
    next hpc =>
      cases hs
      exact .acceptFails k hpc
    next fd hpc =>
      obtain ⟨⟨hlistening, hfree⟩, hs⟩ := Option.ite_none_right_eq_some.mp hs
      cases hs
      exact .accept k fd hpc hlistening hfree
    next => cases hs
  | fork k ok =>
    simp only [step, forkStep] at hs
    split at hs
    next hpc =>
      cases ok with
      | false =>
        cases hs
        exact .forkFails k hpc
      | true =>
        cases hs
        exact .fork k hpc
    next => cases hs
  | parentClose k =>
    simp only [step] at hs
    split at hs
    next hpc =>
      cases hs
      exact .parentClose k hpc
    next => cases hs
  | closeListener k =>
    simp only [step] at hs
    split at hs
    next hpc =>
      cases hs
      exact .closeListener k hpc
    next => cases hs
  | serve k n => exact serveStep_move hs
  | kill k =>
    obtain ⟨⟨hchild, hborn⟩, hs⟩ := Option.ite_none_right_eq_some.mp hs
    cases hs
    exact .kill k hchild hborn

end NetworkProgramming.ForkServer
