import NetworkProgramming.Library.Progress
import NetworkProgramming.StoreServer.HalfClose

/-!
# The end of a half-closed session

A user who quits ends all processes of the session: the shutdown ends the service
child, and its `close` ends the read process. The pipe is taken to accept what the
child stores.
-/
namespace NetworkProgramming.Shutdown

open Buffer ByteStream Transition UserInput HalfClose

/-- The pieces of the input in front of the first quit line, as far as they are written. -/
def Typed (input : List Byte) (k : Nat) (s : State) : Prop :=
  match s.writer with
  | .fgets => s.stdin = (fgetsRest (room clientBufSize))^[k] input
  | .compare =>
    s.stdin = (fgetsRest (room clientBufSize))^[k + 1] input ∧
      text s.buf = some (fgetsNth (room clientBufSize) input k)
  | .close | .exited => isQuit (fgetsNth (room clientBufSize) input k) ∧ s.up.ended

structure Proceeds (input : List Byte) (s : State) : Prop where
  invariant : Invariant s
  typed : ∃ k, (∀ j < k, ¬ isQuit (fgetsNth (room clientBufSize) input j)) ∧
    s.written = (List.range k).flatMap (fgetsNth (room clientBufSize) input) ∧ Typed input k s
  closed : s.service = .exited → s.parentClosed → s.down.ended

/-- All processes of the session are done with the connection. -/
structure Ended (s : State) : Prop where
  writer : s.writer = .exited
  reader : s.reader = .exited
  service : s.service = .exited
  parent : s.parentClosed

/-- A byte is read, handed on and stored by the server child and read by the client. -/
def byteCost : Nat := 4

def writerLeft (s : State) : Nat :=
  match s.writer with
  | .fgets => 6 * s.stdin.length + 3
  | .compare => 6 * s.stdin.length + byteCost * ((text s.buf).getD []).length + 4
  | .close => 1
  | .exited => 0

def readerLeft : ReaderPc → Nat
  | .read => 2
  | .close => 1
  | .exited => 0

def serviceLeft : ServicePc → Nat
  | .read => 2
  | .echo piece => piece.length + 4
  | .store _ => 3
  | .close => 1
  | .exited => 0

/-- The steps of all processes that are left. -/
def left (s : State) : Nat :=
  writerLeft s + byteCost * s.up.queue.length + serviceLeft s.service + s.down.queue.length +
    readerLeft s.reader + if s.parentClosed then 0 else 1

variable {input : List Byte} {s t : State}

/-- In front of the first quit line there is something to read. -/
theorem stdin_ne_nil {k : Nat} (hquit : ∃ k, isQuit (fgetsNth (room clientBufSize) input k))
    (hbefore : ∀ j < k, ¬ isQuit (fgetsNth (room clientBufSize) input j)) :
    (fgetsRest (room clientBufSize))^[k] input ≠ [] := by
  obtain ⟨n, hn⟩ := hquit
  intro hnil
  obtain ⟨d, rfl⟩ := Nat.exists_eq_add_of_le (Nat.not_lt.mp fun hlt => hbefore n hlt hn)
  have hrest : fgetsRest (room clientBufSize) [] = [] := List.drop_nil
  rw [fgetsNth, Nat.add_comm, Function.iterate_add_apply, hnil, Function.iterate_fixed hrest] at hn
  exact absurd hn (by decide)

/-- Only the writer reads the input and writes to the server. -/
theorem Proceeds.keep (h : Proceeds input s) (hI : Invariant t) (hwriter : t.writer = s.writer)
    (hbuf : t.buf = s.buf) (hstdin : t.stdin = s.stdin) (hwritten : t.written = s.written)
    (hended : s.up.ended → t.up.ended)
    (hclosed : t.service = .exited → t.parentClosed → t.down.ended) : Proceeds input t := by
  obtain ⟨k, hbefore, hpieces, htyped⟩ := h.typed
  refine ⟨hI, ⟨k, hbefore, hwritten.trans hpieces, ?_⟩, hclosed⟩
  rw [Typed] at htyped ⊢
  rw [hwriter, hbuf, hstdin]
  cases hw : s.writer with
  | fgets | compare => simpa only [hw] using htyped
  | close | exited =>
    simp only [hw] at htyped
    exact ⟨htyped.1, hended htyped.2⟩

/-- A piece that is read is the next one of the input. -/
theorem Proceeds.fgets (h : Proceeds input s) (hnul : 0 ∉ input)
    (hquit : ∃ k, isQuit (fgetsNth (room clientBufSize) input k)) (hw : s.writer = .fgets)
    (hs : writerStep s = some t) : Proceeds input t ∧ left t < left s := by
  have hI := h.invariant.writer hs
  obtain ⟨k, hbefore, hwritten, htyped⟩ := h.typed
  simp only [Typed, hw] at htyped
  simp only [writerStep, hw, Option.some.injEq] at hs
  subst hs
  have hsize : 1 < clientBufSize := by decide
  obtain ⟨b, tail, rest, hsplit, hline, htext, hrest⟩ := fgets_spec s.buf hsize
    (htyped ▸ stdin_ne_nil hquit hbefore) (htyped ▸ noNul_iterate_fgetsRest hnul k)
  refine ⟨⟨hI, ⟨k, hbefore, hwritten, ?_, ?_⟩, h.closed⟩, ?_⟩
  · rw [fgets_rest, htyped, Function.iterate_succ_apply']
  · rw [htext, ← hline, fgetsNth, ← htyped]
  · have hlen := congrArg List.length hsplit
    rw [List.length_append, List.length_cons] at hlen
    simp only [left, writerLeft, hw, htext, hrest, Option.getD_some, List.length_cons, byteCost]
    omega

/-- A piece is written if it is no line to quit. -/
theorem Proceeds.compare (h : Proceeds input s) (hw : s.writer = .compare)
    (hs : writerStep s = some t) : Proceeds input t ∧ left t < left s := by
  have hI := h.invariant.writer hs
  obtain ⟨k, hbefore, hwritten, htyped⟩ := h.typed
  simp only [Typed, hw] at htyped
  obtain ⟨hstdin, htext⟩ := htyped
  by_cases hq : isQuit (fgetsNth (room clientBufSize) input k) = true
  · simp only [writerStep, hw, htext, Option.map_some, hq, if_true, Option.some.injEq] at hs
    subst hs
    refine ⟨⟨hI, ⟨k, hbefore, hwritten, hq, rfl⟩, h.closed⟩, ?_⟩
    simp only [left, writerLeft, hw, Stream.finish]
    omega
  · simp only [writerStep, hw, htext, Option.map_some, hq, Bool.false_eq_true, if_false,
      Option.some.injEq] at hs
    subst hs
    refine ⟨⟨hI, ⟨k + 1, fun j hj => ?_, ?_, hstdin⟩, h.closed⟩, ?_⟩
    · rcases Nat.lt_succ_iff_lt_or_eq.mp hj with hj | rfl
      · exact hbefore j hj
      · exact hq
    · rw [hwritten, List.range_succ, List.flatMap_append, List.flatMap_singleton]
    · simp only [left, writerLeft, hw, htext, Option.getD_some, Stream.send,
        List.length_append, byteCost]
      omega

theorem Proceeds.writer (h : Proceeds input s) (hnul : 0 ∉ input)
    (hquit : ∃ k, isQuit (fgetsNth (room clientBufSize) input k)) (hs : writerStep s = some t) :
    Proceeds input t ∧ left t < left s := by
  cases hw : s.writer with
  | fgets => exact h.fgets hnul hquit hw hs
  | compare => exact h.compare hw hs
  | close =>
    have hI := h.invariant.writer hs
    obtain ⟨k, hbefore, hwritten, htyped⟩ := h.typed
    simp only [Typed, hw] at htyped
    simp only [writerStep, hw, Option.some.injEq] at hs
    subst hs
    refine ⟨⟨hI, ⟨k, hbefore, hwritten, htyped.1, ?_⟩, h.closed⟩, ?_⟩
    · simp only
      split
      · rfl
      · exact htyped.2
    · simp only [left, writerLeft, hw, apply_ite Stream.queue, Stream.finish, ite_self]
      omega
  | exited =>
    simp only [writerStep, hw] at hs
    cases hs

theorem Proceeds.read {len : Nat} (h : Proceeds input s) (hs : readStep s len = some t) :
    Proceeds input t ∧ left t < left s := by
  have hI := h.invariant.read hs
  obtain ⟨hr, hs⟩ := Option.ite_none_right_eq_some.mp hs
  obtain ⟨⟨piece, down⟩, hreceive, hs⟩ := Option.map_eq_some_iff.mp hs
  obtain ⟨hq, he, -⟩ := Stream.receive_spec hreceive
  by_cases hnil : piece = []
  · simp only [hnil, if_true] at hs
    subst hs
    refine ⟨h.keep hI rfl rfl rfl rfl id h.closed, ?_⟩
    simp only [left, writerLeft, hr, readerLeft]
    omega
  · simp only [hnil, if_false] at hs
    subst hs
    refine ⟨h.keep hI rfl rfl rfl rfl id fun hservice hparent => ?_, ?_⟩
    · exact he.trans (h.closed hservice hparent)
    · have hlen := congrArg List.length hq
      have hpos := List.length_pos_iff.mpr hnil
      rw [List.length_append] at hlen
      simp only [left, writerLeft]
      omega

theorem Proceeds.serviceRead {len : Nat} (h : Proceeds input s)
    (hs : serviceReadStep s len = some t) : Proceeds input t ∧ left t < left s := by
  have hI := h.invariant.serviceRead hs
  obtain ⟨hr, hs⟩ := Option.ite_none_right_eq_some.mp hs
  obtain ⟨⟨piece, up⟩, hreceive, hs⟩ := Option.map_eq_some_iff.mp hs
  obtain ⟨hq, he, -⟩ := Stream.receive_spec hreceive
  by_cases hnil : piece = []
  · simp only [hnil, if_true] at hs
    subst hs
    refine ⟨h.keep hI rfl rfl rfl rfl id (by simp), ?_⟩
    simp only [left, writerLeft, hr, serviceLeft]
    omega
  · simp only [hnil, if_false] at hs
    subst hs
    refine ⟨h.keep hI rfl rfl rfl rfl he.trans (by simp), ?_⟩
    have hlen := congrArg List.length hq
    have hpos := List.length_pos_iff.mpr hnil
    rw [List.length_append] at hlen
    simp only [left, writerLeft, hr, serviceLeft, byteCost]
    omega

theorem Proceeds.service (h : Proceeds input s) (hs : serviceStep s = some t) :
    Proceeds input t ∧ left t < left s := by
  have hI := h.invariant.service hs
  cases hr : s.service with
  | read | exited =>
    simp only [serviceStep, hr] at hs
    cases hs
  | echo piece =>
    simp only [serviceStep, hr, Option.some.injEq] at hs
    subst hs
    refine ⟨h.keep hI rfl rfl rfl rfl id (by simp), ?_⟩
    simp only [left, writerLeft, hr, serviceLeft, Stream.send, List.length_append]
    omega
  | store piece =>
    simp only [serviceStep, hr, Option.some.injEq] at hs
    subst hs
    refine ⟨h.keep hI rfl rfl rfl rfl id (by simp), ?_⟩
    simp only [left, writerLeft, hr, serviceLeft]
    omega
  | close =>
    simp only [serviceStep, hr, Option.some.injEq] at hs
    subst hs
    refine ⟨h.keep hI rfl rfl rfl rfl id fun _ hparent => ?_, ?_⟩
    · simp only at hparent ⊢
      rw [if_pos hparent]
      rfl
    · simp only [left, writerLeft, hr, serviceLeft, apply_ite Stream.queue, Stream.finish,
        ite_self]
      omega

theorem Proceeds.step {a : Label} (h : Proceeds input s) (hnul : 0 ∉ input)
    (hquit : ∃ k, isQuit (fgetsNth (room clientBufSize) input k))
    (hs : HalfClose.step s a = some t) :
    Proceeds input t ∧ left t < left s := by
  have hI := invariant_step s a t h.invariant hs
  cases a with
  | writer => exact h.writer hnul hquit hs
  | read len => exact h.read hs
  | serviceRead len => exact h.serviceRead hs
  | service => exact h.service hs
  | readerClose =>
    obtain ⟨hr, hs⟩ := Option.ite_none_right_eq_some.mp hs
    cases hs
    refine ⟨h.keep hI rfl rfl rfl rfl (fun hended => ?_) h.closed, ?_⟩
    · simp only
      split
      · rfl
      · exact hended
    · simp only [left, writerLeft, hr, readerLeft, apply_ite Stream.queue, Stream.finish, ite_self]
      omega
  | parentClose =>
    obtain ⟨hopen, hs⟩ := Option.ite_none_left_eq_some.mp hs
    cases hs
    refine ⟨h.keep hI rfl rfl rfl rfl id fun hservice _ => ?_, ?_⟩
    · simp only at hservice ⊢
      rw [if_pos hservice]
      rfl
    · simp only [left, writerLeft, hopen, apply_ite Stream.queue, Stream.finish, ite_self,
        if_true, Bool.false_eq_true, if_false]
      omega

/-- The writer can always go on. -/
theorem Proceeds.writer_exited (h : Proceeds input s)
    (hstuck : Stuck HalfClose.step (fun _ _ => True) s) : s.writer = .exited ∧ s.up.ended := by
  have hnone : writerStep s = none := hstuck .writer trivial
  obtain ⟨k, -, -, htyped⟩ := h.typed
  cases hw : s.writer with
  | fgets | close => simp [writerStep, hw] at hnone
  | compare =>
    simp only [Typed, hw] at htyped
    simp [writerStep, hw, htyped.2] at hnone
  | exited =>
    simp only [Typed, hw] at htyped
    exact ⟨rfl, htyped.2⟩

/-- A reader at an ended stream gets a byte or the end of it. -/
theorem receive_ended {st : Stream Byte} (limit : Nat) (hlimit : 0 < limit) (h : st.ended) :
    ∃ len next, st.receive limit len = some next := by
  by_cases hq : st.queue = []
  · exact ⟨0, ([], st), by simp [Stream.receive, hq, h]⟩
  · exact ⟨1, _, Stream.receive_one hq hlimit⟩

/-- Where nothing can go on, everything is over: the shutdown has ended the service child, and
its `close` the read process. -/
theorem Proceeds.ended (h : Proceeds input s)
    (hstuck : Stuck HalfClose.step (fun _ _ => True) s) : Ended s := by
  obtain ⟨hwriter, hup⟩ := h.writer_exited hstuck
  have hservice : s.service = .exited := by
    have hnone : serviceStep s = none := hstuck .service trivial
    cases hr : s.service with
    | read =>
      obtain ⟨len, next, hnext⟩ := receive_ended serverBufSize (by decide) hup
      have hread : serviceReadStep s len = none := hstuck (.serviceRead len) trivial
      simp [serviceReadStep, hr, hnext] at hread
    | echo | store | close => simp [serviceStep, hr] at hnone
    | exited => rfl
  have hparent : s.parentClosed = true := by
    by_contra hopen
    have hclose := hstuck .parentClose trivial
    simp [HalfClose.step, hopen] at hclose
  have hreader : s.reader = .exited := by
    cases hr : s.reader with
    | read =>
      obtain ⟨len, next, hnext⟩ := receive_ended clientBufSize (by decide)
        (h.closed hservice hparent)
      have hread : readStep s len = none := hstuck (.read len) trivial
      simp [readStep, hr, hnext] at hread
    | close =>
      have hclose := hstuck .readerClose trivial
      simp [HalfClose.step, hr] at hclose
    | exited => rfl
  exact ⟨hwriter, hreader, hservice, hparent⟩

end NetworkProgramming.Shutdown
