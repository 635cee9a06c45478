import NetworkProgramming.Library.Buffer
import NetworkProgramming.Library.Transition

/-!
# The echo loop of a forking server

`while((str_len = read(clnt_sock, buf, BUF_SIZE)) != 0) write(clnt_sock, buf, str_len);`
and the `close` behind it, as a machine that takes the events of its connection.
-/
namespace NetworkProgramming.EchoLoop

open Buffer Transition

def bufSize : Nat := 100

inductive Event where
  | read (chunk : List Byte)
  | eof
  | write (bytes : List Byte)
  | close
  deriving DecidableEq, Repr

inductive Pc where
  | reading
  | writing (strLen : Nat)
  | closing
  | closed
  deriving DecidableEq, Repr

structure State where
  pc : Pc
  buf : List Byte
  deriving DecidableEq, Repr

def start (buf : List Byte) : State := ⟨.reading, buf⟩

def step (s : State) : Event → Option State
  | .read chunk =>
    if s.pc = .reading ∧ 0 < chunk.length ∧ chunk.length ≤ bufSize then
      some ⟨.writing chunk.length, readInto s.buf chunk⟩
    else none
  | .eof => if s.pc = .reading then some ⟨.closing, s.buf⟩ else none
  | .write bytes =>
    match s.pc with
    | .writing strLen => if bytes = s.buf.take strLen then some ⟨.reading, s.buf⟩ else none
    | _ => none
  | .close => if s.pc = .closing then some ⟨.closed, s.buf⟩ else none

/-- The events by which the peer moves the loop. -/
def isInput : Event → Bool
  | .read _ | .eof => true
  | .write _ | .close => false

/-- An input with the loop's answer to it. -/
def respond : Event → List Event
  | .read chunk => [.read chunk, .write chunk]
  | .eof => [.eof, .close]
  | _ => []

/-- The answer that the loop still has to give. -/
def pending (s : State) : List Event :=
  match s.pc with
  | .writing strLen => [.write (s.buf.take strLen)]
  | .closing => [.close]
  | _ => []

def received (events : List Event) : List Byte :=
  events.flatMap fun
    | .read chunk => chunk
    | _ => []

def sent (events : List Event) : List Byte :=
  events.flatMap fun
    | .write bytes => bytes
    | _ => []

theorem step_responds {s t : State} {e : Event} (hs : step s e = some t) :
    e :: pending t = pending s ++ if isInput e then respond e else [] := by
  obtain ⟨pc, buf⟩ := s
  cases e with
  | read chunk =>
    obtain ⟨⟨rfl, -⟩, hs⟩ := Option.ite_none_right_eq_some.mp hs
    cases hs
    simp [pending, isInput, respond]
  | eof =>
    obtain ⟨rfl, hs⟩ := Option.ite_none_right_eq_some.mp hs
    cases hs
    rfl
  | write bytes =>
    cases pc with
    | writing strLen =>
      simp only [step] at hs
      obtain ⟨hb, hs⟩ := Option.ite_none_right_eq_some.mp hs
      cases hs
      simp [pending, isInput, hb]
    | _ => cases hs
  | close =>
    obtain ⟨rfl, hs⟩ := Option.ite_none_right_eq_some.mp hs
    cases hs
    rfl

/-- A run is the inputs, each with its answer, up to the last answer. -/
theorem run_responds {s t : State} {events : List Event} (hs : run step s events = some t) :
    events ++ pending t = pending s ++ (events.filter isInput).flatMap respond := by
  induction events generalizing s with
  | nil =>
    cases hs
    simp
  | cons e events ih =>
    obtain ⟨u, hu, hut⟩ := run_cons_some.mp hs
    have he := step_responds hu
    rw [List.cons_append, ih hut, ← List.cons_append, he, List.append_assoc, List.filter_cons]
    split <;> simp

theorem sent_respond (events : List Event) :
    sent ((events.filter isInput).flatMap respond) = received events := by
  induction events with
  | nil => rfl
  | cons e events ih =>
    simp only [sent, received] at ih ⊢
    cases e <;> simp [List.filter_cons, isInput, respond, ih]

/-- The bytes sent are the bytes received, but for an answer that is pending. -/
theorem sent_eq_received {buf : List Byte} {t : State} {events : List Event}
    (hs : run step (start buf) events = some t) :
    sent events ++ sent (pending t) = received events := by
  have hr := run_responds hs
  rw [← sent_respond events, show pending (start buf) = [] from rfl] at *
  rw [List.nil_append] at hr
  rw [← hr]
  simp [sent]

end NetworkProgramming.EchoLoop
