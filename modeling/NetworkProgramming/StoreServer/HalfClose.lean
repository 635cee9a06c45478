import NetworkProgramming.Library.ByteStream
import NetworkProgramming.Library.Transition
import NetworkProgramming.UserInput

/-!
# The half-close of the split client

The client's write process, its read process and a service child of the storing
echo server on one connection. The write process ends the upward stream by
`shutdown`; a `close` ends a stream only for the last process that holds it.
-/
namespace NetworkProgramming.HalfClose

open Buffer ByteStream Transition UserInput

def clientBufSize : Nat := 30

def serverBufSize : Nat := 100

/-- `write_routine` and the `close(sock)` behind it in `main`. -/
inductive WriterPc where
  | fgets
  | compare
  | close
  | exited
  deriving DecidableEq, Repr

/-- `read_routine` and the `close(sock)` behind it in `main`. -/
inductive ReaderPc where
  | read
  | close
  | exited
  deriving DecidableEq, Repr

/-- The service child; the piece it works on is the front of its `buf`. -/
inductive ServicePc where
  | read
  | echo (piece : List Byte)
  | store (piece : List Byte)
  | close
  | exited
  deriving DecidableEq, Repr

structure State where
  up : Stream Byte
  down : Stream Byte
  writer : WriterPc
  buf : List Byte
  stdin : List Byte
  reader : ReaderPc
  service : ServicePc
  /-- The server's parent process has closed its copy of `clnt_sock`. -/
  parentClosed : Bool
  /-- History: the bytes that `write_routine` has written. -/
  written : List Byte
  /-- History: the pieces that `read_routine` has read. -/
  chunks : List (List Byte)

/-- Both forks are done; `buf` holds what the stack held. -/
def start (buf stdin : List Byte) : State where
  up := .empty
  down := .empty
  writer := .fgets
  buf := buf
  stdin := stdin
  reader := .read
  service := .read
  parentClosed := false
  written := []
  chunks := []

/-- A step of a party; a read says how many bytes it gets. -/
inductive Label where
  | writer
  | read (len : Nat)
  | readerClose
  | serviceRead (len : Nat)
  | service
  | parentClose
  deriving DecidableEq, Repr

def writerStep (s : State) : Option State :=
  match s.writer with
  | .fgets =>
    let next := fgets clientBufSize s.buf s.stdin
    some { s with buf := next.1, stdin := next.2, writer := .compare }
  | .compare =>
    (text s.buf).map fun line =>
      if isQuit line then { s with up := s.up.finish, writer := .close }
      else { s with up := s.up.send line, written := s.written ++ line, writer := .fgets }
  | .close =>
    some { s with up := if s.reader = .exited then s.up.finish else s.up, writer := .exited }
  | .exited => none

/-- `read_routine` prints each piece and goes on; a piece of all 30 bytes puts the
zero byte behind `buf`, where nothing of this model lives. -/
def readStep (s : State) (len : Nat) : Option State :=
  if s.reader = .read then
    (s.down.receive clientBufSize len).map fun next =>
      if next.1 = [] then { s with reader := .close }
      else { s with down := next.2, chunks := s.chunks ++ [next.1] }
  else none

def serviceReadStep (s : State) (len : Nat) : Option State :=
  if s.service = .read then
    (s.up.receive serverBufSize len).map fun next =>
      if next.1 = [] then { s with service := .close }
      else { s with up := next.2, service := .echo next.1 }
  else none

/-- The pipe takes the piece sooner or later, or never. -/
def serviceStep (s : State) : Option State :=
  match s.service with
  | .read => none
  | .echo piece => some { s with down := s.down.send piece, service := .store piece }
  | .store _ => some { s with service := .read }
  | .close =>
    some { s with
      down := if s.parentClosed then s.down.finish else s.down, service := .exited }
  | .exited => none

def step (s : State) : Label → Option State
  | .writer => writerStep s
  | .read len => readStep s len
  | .readerClose =>
    if s.reader = .close then
      some { s with up := if s.writer = .exited then s.up.finish else s.up, reader := .exited }
    else none
  | .serviceRead len => serviceReadStep s len
  | .service => serviceStep s
  | .parentClose =>
    if s.parentClosed then none
    else
      some { s with
        down := if s.service = .exited then s.down.finish else s.down, parentClosed := true }

/-- The bytes that the service child has read and not yet echoed. -/
def inHand : ServicePc → List Byte
  | .echo piece => piece
  | _ => []

/-- What is written is read back, on its way down, in the service child's hand or
on its way up. Each end mark is there only when nothing can follow it, and has
been seen only when nothing was left before it. -/
structure Invariant (s : State) : Prop where
  flow : s.chunks.flatten ++ (s.down.queue ++ (inHand s.service ++ s.up.queue)) = s.written
  shut : s.up.ended = true → s.writer = .close ∨ s.writer = .exited
  drained : s.service = .close ∨ s.service = .exited → s.up.queue = [] ∧ s.up.ended = true
  ended : s.down.ended = true → s.service = .exited
  finished : s.reader ≠ .read → s.down.queue = [] ∧ s.down.ended = true

theorem invariant_start (buf stdin : List Byte) : Invariant (start buf stdin) := by
  constructor <;> simp [start, Stream.empty, inHand]

/-- When `read_routine` has returned, everything that was written has come back, and
`write_routine` has shut the stream down. -/
def AllEchoed (s : State) : Prop :=
  s.reader ≠ .read →
    s.chunks.flatten = s.written ∧ (s.writer = .close ∨ s.writer = .exited)

theorem Invariant.allEchoed {s : State} (h : Invariant s) : AllEchoed s := by
  intro hr
  obtain ⟨hdown, hend⟩ := h.finished hr
  have hservice := h.ended hend
  obtain ⟨hup, hupEnd⟩ := h.drained (.inr hservice)
  refine ⟨?_, h.shut hupEnd⟩
  have hflow := h.flow
  rw [hdown, hup, hservice] at hflow
  simpa [inHand] using hflow

theorem Invariant.writer {s t : State} (h : Invariant s) (hs : writerStep s = some t) :
    Invariant t := by
  unfold writerStep at hs
  split at hs
  next hw =>
    cases hs
    refine ⟨h.flow, fun hu => ?_, h.drained, h.ended, h.finished⟩
    simpa [hw] using h.shut hu
  next hw =>
    obtain ⟨line, -, rfl⟩ := Option.map_eq_some_iff.mp hs
    -- the stream is open, so the service child has not seen its end
    have hopen : s.up.ended ≠ true := fun hu => by simpa [hw] using h.shut hu
    have hserving : ¬ (s.service = .close ∨ s.service = .exited) :=
      fun hc => hopen (h.drained hc).2
    split
    · exact ⟨h.flow, fun _ => .inl rfl, fun hc => absurd hc hserving, h.ended, h.finished⟩
    · refine ⟨?_, fun hu => absurd hu hopen, fun hc => absurd hc hserving, h.ended, h.finished⟩
      simp only [Stream.send, ← h.flow, List.append_assoc]
  next hw =>
    cases hs
    refine ⟨?_, fun _ => .inr rfl, fun hc => ?_, h.ended, h.finished⟩
    · simp only
      split <;> exact h.flow
    · obtain ⟨hq, he⟩ := h.drained hc
      simp only
      split <;> simp [Stream.finish, hq, he]
  next => cases hs

theorem Invariant.read {s t : State} {len : Nat} (h : Invariant s)
    (hs : readStep s len = some t) : Invariant t := by
  obtain ⟨hr, hs⟩ := Option.ite_none_right_eq_some.mp hs
  obtain ⟨⟨piece, down⟩, hreceive, rfl⟩ := Option.map_eq_some_iff.mp hs
  obtain ⟨hq, he, hend⟩ := Stream.receive_spec hreceive
  split
  next hnil => exact ⟨h.flow, h.shut, h.drained, h.ended, fun _ => hend hnil⟩
  next =>
    refine ⟨?_, h.shut, h.drained, ?_, fun hne => absurd hr hne⟩
    · simp only [List.flatten_append, List.flatten_singleton, List.append_assoc, ← h.flow, ← hq]
    · simpa only [he] using h.ended

theorem Invariant.serviceRead {s t : State} {len : Nat} (h : Invariant s)
    (hs : serviceReadStep s len = some t) : Invariant t := by
  obtain ⟨hr, hs⟩ := Option.ite_none_right_eq_some.mp hs
  obtain ⟨⟨piece, up⟩, hreceive, rfl⟩ := Option.map_eq_some_iff.mp hs
  obtain ⟨hq, he, hend⟩ := Stream.receive_spec hreceive
  have hdown : s.down.ended ≠ true := fun hd => by simpa [hr] using h.ended hd
  split
  next hnil =>
    refine ⟨?_, h.shut, fun _ => hend hnil, fun hd => absurd hd hdown, h.finished⟩
    simpa only [hr, inHand] using h.flow
  next =>
    refine ⟨?_, ?_, by simp, fun hd => absurd hd hdown, h.finished⟩
    · simpa only [hr, inHand, hq, List.nil_append] using h.flow
    · simpa only [he] using h.shut

theorem Invariant.service {s t : State} (h : Invariant s) (hs : serviceStep s = some t) :
    Invariant t := by
  have hopen : s.service ≠ .exited → s.down.ended ≠ true ∧ s.reader = .read := by
    intro hne
    have hdown : s.down.ended ≠ true := fun hd => hne (h.ended hd)
    exact ⟨hdown, by_contra fun hr => hdown (h.finished hr).2⟩
  unfold serviceStep at hs
  split at hs
  next => cases hs
  next piece hc =>
    cases hs
    obtain ⟨hdown, hr⟩ := hopen (by simp [hc])
    refine ⟨?_, h.shut, by simp, fun hd => absurd hd hdown, fun hne => absurd hr hne⟩
    simpa only [hc, inHand, Stream.send, List.append_assoc, List.nil_append] using h.flow
  next piece hc =>
    cases hs
    obtain ⟨hdown, hr⟩ := hopen (by simp [hc])
    refine ⟨?_, h.shut, by simp, fun hd => absurd hd hdown, fun hne => absurd hr hne⟩
    simpa only [hc, inHand] using h.flow
  next hc =>
    cases hs
    obtain ⟨hdown, hr⟩ := hopen (by simp [hc])
    refine ⟨?_, h.shut, fun _ => h.drained (.inl hc), fun _ => rfl, fun hne => absurd hr hne⟩
    have hflow := h.flow
    simp only [hc, inHand] at hflow ⊢
    split <;> exact hflow
  next => cases hs

theorem invariant_step (s : State) (a : Label) (t : State) (h : Invariant s)
    (hs : step s a = some t) : Invariant t := by
  cases a with
  | writer => exact h.writer hs
  | read len => exact h.read hs
  | serviceRead len => exact h.serviceRead hs
  | service => exact h.service hs
  | readerClose =>
    obtain ⟨hr, hs⟩ := Option.ite_none_right_eq_some.mp hs
    cases hs
    obtain ⟨hq, he⟩ := h.finished (by simp [hr])
    obtain ⟨huq, hue⟩ := h.drained (.inr (h.ended he))
    refine ⟨?_, fun _ => h.shut hue, fun _ => ?_, h.ended, fun _ => ⟨hq, he⟩⟩
    · simp only
      split <;> exact h.flow
    · simp only
      split <;> simp [Stream.finish, huq, hue]
  | parentClose =>
    obtain ⟨-, hs⟩ := Option.ite_none_left_eq_some.mp hs
    cases hs
    refine ⟨?_, h.shut, h.drained, ?_, fun hr => ?_⟩
    · simp only
      split <;> exact h.flow
    · simp only
      split
      next hc => exact fun _ => hc
      next => exact h.ended
    · obtain ⟨hq, he⟩ := h.finished hr
      simp only
      split <;> simp [Stream.finish, hq, he]

/-- Whatever is typed, however the streams are cut and in whatever order the
parties take their steps: in every state of a run in which `read_routine` has
returned, it has read exactly the bytes that were written before the shutdown. -/
theorem half_close_loses_nothing (buf stdin : List Byte) (as : List Label) :
    Throughout step AllEchoed (start buf stdin) as :=
  (throughout_invariant invariant_step (invariant_start buf stdin) as).mono
    fun _ h => h.allEchoed

/-- A line is echoed and `read_routine` returns. -/
example : (run step (start (List.replicate 30 0) [104, 105, 10, 113, 10])
    [.writer, .writer, .writer, .writer, .serviceRead 3, .service, .service, .serviceRead 0,
      .service, .parentClose, .read 2, .read 1, .read 0]).map
    (fun s => (s.reader, s.chunks)) = some (.close, [[104, 105], [10]]) := by decide

end NetworkProgramming.HalfClose
