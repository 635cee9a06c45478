import Mathlib.Logic.Function.Basic
import NetworkProgramming.Library.Buffer
import NetworkProgramming.Library.Transition

/-!
# The processes of the storing echo server

The storage child behind the pipe and one service child a connection, one system
call a step. All of them keep both ends of the pipe open, so a `read` never sees
its end and a `write` never raises SIGPIPE.
-/
namespace NetworkProgramming.StoreProcesses

open Buffer

def bufSize : Nat := 100

/-- The bound of the storage child's `for` loop. -/
def storeReads : Nat := 10

inductive StoragePc where
  | reading (i : Nat)
  | exited
  deriving DecidableEq, Repr

/-- A service child; the piece it works on is the front of its `buf`. -/
inductive ServicePc where
  | unborn
  | reading
  | echo (piece : List Byte)
  | store (piece : List Byte)
  | closing
  | exited
  deriving DecidableEq, Repr

structure State where
  pipe : List Byte
  /-- What `fwrite` has put into `echomsg.txt`. -/
  file : List Byte
  storage : StoragePc
  services : Nat → ServicePc
  forks : Nat
  /-- History: the bytes that the service children have read from their clients. -/
  received : Nat

def start : State where
  pipe := []
  file := []
  storage := .reading 0
  services := fun _ => .unborn
  forks := 0
  received := 0

/-- `read k []` is the end of the client's stream. -/
inductive Label where
  | connect
  | read (k : Nat) (piece : List Byte)
  | echo (k : Nat)
  | store (k : Nat)
  | close (k : Nat)
  | storageRead (len : Nat)
  | storageExit
  deriving DecidableEq, Repr

def State.setService (s : State) (k : Nat) (pc : ServicePc) : State :=
  { s with services := Function.update s.services k pc }

/-- `connect` is the parent's `accept` and `fork`. The labels with a child's number
are its loop, and `write(fds[1], buf, str_len)` waits until the pipe has room for all
of the piece; the last two are the storage child's loop and what stands behind it. -/
def step (cap : Nat) (s : State) : Label → Option State
  | .connect => some { s.setService s.forks .reading with forks := s.forks + 1 }
  | .read k piece =>
    if s.services k = .reading ∧ piece.length ≤ bufSize then
      if piece = [] then some (s.setService k .closing)
      else some { s.setService k (.echo piece) with received := s.received + piece.length }
    else none
  | .echo k =>
    match s.services k with
    | .echo piece => some (s.setService k (.store piece))
    | _ => none
  | .store k =>
    match s.services k with
    | .store piece =>
      if s.pipe.length + piece.length ≤ cap then
        some { s.setService k .reading with pipe := s.pipe ++ piece }
      else none
    | _ => none
  | .close k => if s.services k = .closing then some (s.setService k .exited) else none
  | .storageRead len =>
    match s.storage with
    | .reading i =>
      if i < storeReads ∧ 0 < len ∧ len ≤ bufSize ∧ len ≤ s.pipe.length then
        some { s with
          pipe := s.pipe.drop len, file := s.file ++ s.pipe.take len, storage := .reading (i + 1) }
      else none
    | .exited => none
  | .storageExit =>
    if s.storage = .reading storeReads then some { s with storage := .exited } else none

/-- Everything a step can do. -/
inductive Move (cap : Nat) (s : State) : Label → State → Prop where
  | connect : Move cap s .connect { s.setService s.forks .reading with forks := s.forks + 1 }
  | eof (k : Nat) (pc : s.services k = .reading) :
      Move cap s (.read k []) (s.setService k .closing)
  | read (k : Nat) (piece : List Byte) (pc : s.services k = .reading)
      (fits : piece.length ≤ bufSize) (some : piece ≠ []) :
      Move cap s (.read k piece)
        { s.setService k (.echo piece) with received := s.received + piece.length }
  | echo (k : Nat) (piece : List Byte) (pc : s.services k = .echo piece) :
      Move cap s (.echo k) (s.setService k (.store piece))
  | store (k : Nat) (piece : List Byte) (pc : s.services k = .store piece)
      (room : s.pipe.length + piece.length ≤ cap) :
      Move cap s (.store k) { s.setService k .reading with pipe := s.pipe ++ piece }
  | close (k : Nat) (pc : s.services k = .closing) :
      Move cap s (.close k) (s.setService k .exited)
  | storageRead (i len : Nat) (pc : s.storage = .reading i) (more : i < storeReads)
      (some : 0 < len) (fits : len ≤ bufSize) (queued : len ≤ s.pipe.length) :
      Move cap s (.storageRead len) { s with
        pipe := s.pipe.drop len, file := s.file ++ s.pipe.take len, storage := .reading (i + 1) }
  | storageExit (pc : s.storage = .reading storeReads) :
      Move cap s .storageExit { s with storage := .exited }

theorem step_move {cap : Nat} {s t : State} {a : Label} (hs : step cap s a = some t) :
    Move cap s a t := by
  cases a with
  | connect =>
    cases hs
    exact .connect
  | read k piece =>
    simp only [step] at hs
    obtain ⟨⟨hpc, hfits⟩, hs⟩ := Option.ite_none_right_eq_some.mp hs
    by_cases hnil : piece = []
    · subst hnil
      rw [if_pos rfl] at hs
      cases hs
      exact .eof k hpc
    · rw [if_neg hnil] at hs
      cases hs
      exact .read k piece hpc hfits hnil
  | echo k =>
    simp only [step] at hs
    split at hs
    next piece hpc =>
      cases hs
      exact .echo k piece hpc
    next => cases hs
  | store k =>
    simp only [step] at hs
    split at hs
    next piece hpc =>
      obtain ⟨hroom, hs⟩ := Option.ite_none_right_eq_some.mp hs
      cases hs
      exact .store k piece hpc hroom
    next => cases hs
  | close k =>
    obtain ⟨hpc, hs⟩ := Option.ite_none_right_eq_some.mp hs
    cases hs
    exact .close k hpc
  | storageRead len =>
    simp only [step] at hs
    split at hs
    next i hpc =>
      obtain ⟨⟨hmore, hsome, hfits, hqueued⟩, hs⟩ := Option.ite_none_right_eq_some.mp hs
      cases hs
      exact .storageRead i len hpc hmore hsome hfits hqueued
    next => cases hs
  | storageExit =>
    obtain ⟨hpc, hs⟩ := Option.ite_none_right_eq_some.mp hs
    cases hs
    exact .storageExit hpc

end NetworkProgramming.StoreProcesses
