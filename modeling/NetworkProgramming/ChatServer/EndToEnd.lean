import Mathlib.Logic.Function.Basic
import NetworkProgramming.ChatServer.Lines
import NetworkProgramming.ChatServer.Messages
import NetworkProgramming.Library.Transition

/-!
# The chat from end to end

The send threads of all clients, their handlers, and the receive thread of one
client that stays registered. A handler's read and the broadcast of what it got are
one step: what other handlers do in between can be done before the read.
-/
namespace NetworkProgramming.ChatEndToEnd

open Buffer Transition Frames UserInput ChatMessages ChatLines

/-- `NAME_SIZE + BUF_SIZE - 1`. -/
def readLimit : Nat := 119

structure State where
  /-- The messages that client `c` has sent, with those bytes that its handler has not read. -/
  toServer : Nat → List (Message × List Byte)
  /-- `close(sock)` and `exit(0)` of client `c` after `q` or `Q`. -/
  left : Nat → Bool
  /-- What the server has written to the receiver's socket and the receiver has not read,
  one frame a `write`, with the messages that the handler's read had completed. -/
  toReceiver : List (List Message × List Byte)
  /-- The buffer of `recv_msg`. -/
  nameMsg : List Byte
  displayed : List Byte
  /-- History: the messages broadcast, each when its last byte was read. -/
  broadcast : List Message
  /-- History: all bytes that were written to the receiver's socket. -/
  delivered : List Byte

/-- The buffer holds what the stack held. -/
def start (nameMsg : List Byte) : State where
  toServer := fun _ => []
  left := fun _ => false
  toReceiver := []
  nameMsg := nameMsg
  displayed := []
  broadcast := []
  delivered := []

/-- `send c piece`: client `c` gets the piece from `fgets`; `handle c len`: its handler
reads so many bytes; `display len`: the receiver does. -/
inductive Label where
  | send (c : Nat) (piece : Piece bufSize)
  | handle (c len : Nat)
  | display (len : Nat)

/-- `send_msg` of the client. -/
def send (names : Nat → Name) (s : State) (c : Nat) (piece : Piece bufSize) : Option State :=
  if s.left c then none
  else if isQuit piece.chars then some { s with left := Function.update s.left c true }
  else
    let m : Message := ⟨names c, piece⟩
    some { s with
      toServer := Function.update s.toServer c (s.toServer c ++ [(m, m.sent)]) }

/-- A round of `handle_clnt` and its `send_msg`; `none` where the code leaves its buffer. -/
def handle (s : State) (c len : Nat) : Option State :=
  let stream := bytes (s.toServer c)
  if 0 < len ∧ len ≤ bufSize ∧ len ≤ stream.length then
    (ChatMessages.relayText (stream.take len)).map fun msg =>
      let read := consume len (s.toServer c)
      { s with
        toServer := Function.update s.toServer c read.2
        toReceiver := s.toReceiver ++ [(read.1, msg)]
        broadcast := s.broadcast ++ read.1
        delivered := s.delivered ++ msg }
  else none

/-- A round of `recv_msg`: `name_msg[str_len] = '\n'`, and `fputs` up to the first zero byte. -/
def display (s : State) (len : Nat) : Option State :=
  let stream := bytes s.toReceiver
  if 0 < len ∧ len ≤ readLimit ∧ len ≤ stream.length then
    let nameMsg := (readInto s.nameMsg (stream.take len)).set len 10
    (text nameMsg).map fun shown =>
      { s with
        toReceiver := (consume len s.toReceiver).2
        nameMsg := nameMsg
        displayed := s.displayed ++ shown }
  else none

def step (names : Nat → Name) (s : State) : Label → Option State
  | .send c piece => send names s c piece
  | .handle c len => handle s c len
  | .display len => display s len

/-- What has been displayed are the lines of the messages broadcast, in order, but for
those that are still on their way. -/
def InOrder (s : State) : Prop :=
  ∃ shown rest, s.broadcast = shown ++ rest ∧ s.displayed = shown.flatMap Message.line ∧
    (bytes s.toReceiver = [] → rest = [])

/-- What is typed is plain; a handler's read leaves room for the zero byte and ends
where a message ends; the receiver reads what one `write` has put on the stream, and a
zero byte stands behind the newline that it adds. -/
def Bounded (names : Nat → Name) (s : State) : Label → Prop
  | .send c piece => Message.Plain ⟨names c, piece⟩
  | .handle c len => len < bufSize ∧
      ∃ j < (s.toServer c).length + 1, (bytes ((s.toServer c).take j)).length = len
  | .display len => (s.toReceiver.head?.map fun f => f.2.length) = some len ∧
      s.nameMsg[len + 1]? = some 0

instance (names : Nat → Name) : ∀ (s : State) (a : Label), Decidable (Bounded names s a)
  | _, .send c piece => inferInstanceAs (Decidable (Message.Plain ⟨names c, piece⟩))
  | s, .handle c len => inferInstanceAs (Decidable (len < bufSize ∧
      ∃ j < (s.toServer c).length + 1, (bytes ((s.toServer c).take j)).length = len))
  | s, .display len => inferInstanceAs (Decidable
      ((s.toReceiver.head?.map fun f => f.2.length) = some len ∧ s.nameMsg[len + 1]? = some 0))

/-- The text of one `write` of the server: whole lines without the last newline. -/
def Payload (f : List Message × List Byte) : Prop :=
  f.1 ≠ [] ∧ f.2 ++ [10] = f.1.flatMap Message.line

structure Invariant (s : State) : Prop where
  /-- The messages on their way to the server are plain and whole. -/
  whole : ∀ c, ∀ f ∈ s.toServer c, f.1.Plain ∧ f.2 = f.1.line
  payload : ∀ f ∈ s.toReceiver, Payload f
  plain : ∀ m ∈ s.broadcast, m.Plain
  inOrder : ∃ shown, s.broadcast = shown ++ (s.toReceiver.map Prod.fst).flatten ∧
    s.displayed = shown.flatMap Message.line
  texts : s.delivered.filter (· != 10) = s.broadcast.flatMap Message.text

theorem line_ne_nil (m : Message) : m.line ≠ [] := by simp [Message.line]

theorem line_noNul (m : Message) (h : m.Plain) : 0 ∉ m.line := h.sent_eq_line ▸ m.sent_noNul

/-- Lines end in a newline, so all but the last byte has the newline behind it. -/
theorem flatMap_line_dropLast {ms : List Message} (h : ms ≠ []) :
    (ms.flatMap Message.line).dropLast ++ [10] = ms.flatMap Message.line := by
  obtain ⟨front, last, rfl⟩ : ∃ front last, ms = front ++ [last] :=
    ⟨_, _, (List.dropLast_append_getLast h).symm⟩
  have he : (front ++ [last]).flatMap Message.line =
      (front.flatMap Message.line ++ last.text) ++ [10] := by simp [Message.line]
  rw [he, List.dropLast_concat]

/-- Deleting the newlines leaves the texts. -/
theorem filter_flatMap_line {ms : List Message} (h : ∀ m ∈ ms, m.Plain) :
    (ms.flatMap Message.line).filter (· != 10) = ms.flatMap Message.text := by
  rw [List.filter_flatMap]
  apply List.flatMap_congr
  intro m hm
  have ht : m.text.filter (· != 10) = m.text := by
    rw [List.filter_eq_self]
    intro b hb
    simpa using fun he : b = 10 => (h m hm).text_no_newline (he ▸ hb)
  simp [Message.line, ht]

theorem invariant_start (nameMsg : List Byte) : Invariant (start nameMsg) := by
  constructor <;> simp [start]

theorem Invariant.send {names : Nat → Name} {s t : State} {c : Nat} {piece : Piece bufSize}
    (h : Invariant s) (hg : Message.Plain ⟨names c, piece⟩)
    (hs : ChatEndToEnd.send names s c piece = some t) : Invariant t := by
  obtain ⟨-, hs⟩ := Option.ite_none_left_eq_some.mp hs
  split at hs
  next =>
    cases hs
    exact ⟨h.whole, h.payload, h.plain, h.inOrder, h.texts⟩
  next =>
    cases hs
    refine ⟨?_, h.payload, h.plain, h.inOrder, h.texts⟩
    apply (Function.forall_update_iff s.toServer
      fun _ fs => ∀ f ∈ fs, f.1.Plain ∧ f.2 = f.1.line).mpr
    refine ⟨fun f hf => ?_, fun d _ => h.whole d⟩
    rcases List.mem_append.mp hf with hf | hf
    · exact h.whole c f hf
    · obtain rfl := List.mem_singleton.mp hf
      exact ⟨hg, hg.sent_eq_line⟩

/-- The bytes of whole frames are the lines of their messages. -/
theorem bytes_whole {fs : List (Message × List Byte)} (h : ∀ f ∈ fs, f.1.Plain ∧ f.2 = f.1.line) :
    bytes fs = (fs.map Prod.fst).flatMap Message.line := by
  rw [bytes, List.flatMap_map]
  exact List.flatMap_congr fun f hf => (h f hf).2

/-- A read that ends where a message ends is relayed whole but for the last newline. -/
theorem Invariant.handle {s t : State} {c len : Nat} (h : Invariant s)
    (hlen : len < bufSize)
    (hj : ∃ j < (s.toServer c).length + 1, (bytes ((s.toServer c).take j)).length = len)
    (hs : ChatEndToEnd.handle s c len = some t) : Invariant t := by
  obtain ⟨j, -, rfl⟩ := hj
  obtain ⟨⟨hpos, -, -⟩, hs⟩ := Option.ite_none_right_eq_some.mp hs
  obtain ⟨msg, hmsg, rfl⟩ := Option.map_eq_some_iff.mp hs
  have hwhole := h.whole c
  have hread : ∀ f ∈ (s.toServer c).take j, f.1.Plain ∧ f.2 = f.1.line :=
    fun f hf => hwhole f (List.mem_of_mem_take hf)
  have hconsume := consume_boundary (s.toServer c)
    (fun f hf => (hwhole f hf).2 ▸ line_ne_nil f.1) j
  have hbytes := bytes_whole hread
  have hplain : ∀ m ∈ ((s.toServer c).take j).map Prod.fst, m.Plain := by
    intro m hm
    obtain ⟨f, hf, rfl⟩ := List.mem_map.mp hm
    exact (hread f hf).1
  have hms : ((s.toServer c).take j).map Prod.fst ≠ [] := by
    intro hnil
    rw [hbytes, hnil] at hpos
    simp at hpos
  obtain rfl : msg = (bytes ((s.toServer c).take j)).dropLast := by
    have hnul : 0 ∉ bytes ((s.toServer c).take j) := by
      rw [hbytes]
      intro hm
      obtain ⟨m, hm, h0⟩ := List.mem_flatMap.mp hm
      exact line_noNul m (hplain m hm) h0
    have hr := ChatMessages.relayText_of_short _ (List.length_pos_iff.mp hpos) hlen hnul
    rw [take_boundary, hr] at hmsg
    exact (Option.some.inj hmsg).symm
  have hpayload : Payload (((s.toServer c).take j).map Prod.fst,
      (bytes ((s.toServer c).take j)).dropLast) :=
    ⟨hms, by rw [hbytes, flatMap_line_dropLast hms]⟩
  refine ⟨?_, ?_, ?_, ?_, ?_⟩
  · apply (Function.forall_update_iff s.toServer
      fun _ fs => ∀ f ∈ fs, f.1.Plain ∧ f.2 = f.1.line).mpr
    rw [hconsume]
    exact ⟨fun f hf => hwhole f (List.mem_of_mem_drop hf), fun d _ => h.whole d⟩
  · intro f hf
    simp only [hconsume, List.mem_append, List.mem_singleton] at hf
    rcases hf with hf | rfl
    · exact h.payload f hf
    · exact hpayload
  · intro m hm
    simp only [hconsume, List.mem_append] at hm
    exact hm.elim (h.plain m) (hplain m)
  · obtain ⟨shown, hb, hd⟩ := h.inOrder
    exact ⟨shown, by simp [hconsume, hb], hd⟩
  · have hfilter := filter_flatMap_line hplain
    rw [← hpayload.2, List.filter_append] at hfilter
    simp only [hconsume, List.filter_append, List.flatMap_append, h.texts, ← hfilter]
    simp

theorem Payload.ne_nil {f : List Message × List Byte} (h : Payload f) : f.2 ≠ [] := by
  intro hnil
  obtain ⟨m, ms, hms⟩ := List.exists_cons_of_ne_nil h.1
  have hline := h.2
  rw [hnil, hms] at hline
  simp [Message.line, Message.text, header] at hline

/-- A read of one payload in front of a zero byte shows its lines. -/
theorem Invariant.display {s t : State} {len : Nat} (h : Invariant s)
    (hhead : (s.toReceiver.head?.map fun f => f.2.length) = some len)
    (hzero : s.nameMsg[len + 1]? = some 0) (hs : ChatEndToEnd.display s len = some t) :
    Invariant t := by
  obtain ⟨f, hf, rfl⟩ := Option.map_eq_some_iff.mp hhead
  obtain ⟨fs, hfs⟩ := List.head?_eq_some_iff.mp hf
  obtain ⟨-, hs⟩ := Option.ite_none_right_eq_some.mp hs
  obtain ⟨shown', htext, rfl⟩ := Option.map_eq_some_iff.mp hs
  obtain ⟨shown, hb, hd⟩ := h.inOrder
  have hpayload := h.payload f (hfs ▸ by simp)
  have hboundary : bytes (s.toReceiver.take 1) = f.2 := by simp [hfs]
  have hconsume := consume_boundary s.toReceiver (fun g hg => (h.payload g hg).ne_nil) 1
  rw [hboundary] at hconsume
  have hrest : (consume f.2.length s.toReceiver).2 = fs := by
    rw [hconsume, hfs]
    rfl
  obtain rfl : shown' = f.1.flatMap Message.line := by
    have hnul : 0 ∉ f.2 := by
      intro h0
      have hmem : 0 ∈ f.1.flatMap Message.line := hpayload.2 ▸ List.mem_append_left _ h0
      obtain ⟨m, hm, h0⟩ := List.mem_flatMap.mp hmem
      exact line_noNul m (h.plain m (by simp [hb, hfs, hm])) h0
    have htake := take_boundary s.toReceiver 1
    rw [hboundary] at htake
    have hlt := (List.getElem?_eq_some_iff.mp hzero).1
    rw [htake, (text_newline_iff hnul (by omega)).mpr hzero, hpayload.2] at htext
    exact (Option.some.inj htext).symm
  refine ⟨h.whole, fun g hg => ?_, h.plain, ⟨shown ++ f.1, ?_, ?_⟩, h.texts⟩
  · simp only [hrest] at hg
    exact h.payload g (by simp [hfs, hg])
  · simp only [hrest]
    simp [hb, hfs]
  · simp [hd]

theorem invariant_step {names : Nat → Name} (s : State) (a : Label) (t : State)
    (h : Invariant s) (hg : Bounded names s a) (hs : step names s a = some t) :
    Invariant t := by
  cases a with
  | send c piece => exact h.send hg hs
  | handle c len => exact h.handle hg.1 hg.2 hs
  | display len => exact h.display hg.1 hg.2 hs

theorem Invariant.result {s : State} (h : Invariant s) : InOrder s := by
  obtain ⟨shown, hb, hd⟩ := h.inOrder
  refine ⟨shown, _, hb, hd, fun hempty => ?_⟩
  cases hr : s.toReceiver with
  | nil => rfl
  | cons f fs =>
    have hne := (h.payload f (by simp [hr])).ne_nil
    rw [hr, bytes_cons] at hempty
    exact absurd (List.append_eq_nil_iff.mp hempty).1 hne

/-- What was broadcast can be read off the bytes that were delivered. -/
theorem Invariant.decode {s t : State} (hs : Invariant s) (ht : Invariant t)
    (he : s.delivered = t.delivered) :
    s.broadcast.map Message.text = t.broadcast.map Message.text := by
  have hwords : ∀ u : State, Invariant u → ∀ w ∈ u.broadcast.map Message.text,
      w ∈ {w | ∃ m : Message, m.Plain ∧ w = m.text} := by
    intro u hu w hw
    obtain ⟨m, hm, rfl⟩ := List.mem_map.mp hw
    exact ⟨m, hu.plain m hm, rfl⟩
  apply texts_uniquelyDecodable _ _ (hwords s hs) (hwords t ht)
  rw [← List.flatMap_def, ← List.flatMap_def, ← hs.texts, ← ht.texts, he]

/-- In a run whose steps all meet the bounds, the receiver has displayed the lines of
the messages broadcast, in order, in every state; and what any two such runs broadcast
is the same if the bytes they deliver are. -/
theorem displayed_in_order (names names' : Nat → Name) (buf buf' : List Byte)
    (as bs : List Label) (s t : State)
    (ha : Along (step names) (Bounded names) (start buf) as)
    (hb : Along (step names') (Bounded names') (start buf') bs)
    (hs : run (step names) (start buf) as = some s)
    (ht : run (step names') (start buf') bs = some t) :
    Throughout (step names) InOrder (start buf) as ∧
      (s.delivered = t.delivered →
        s.broadcast.map Message.text = t.broadcast.map Message.text) := by
  constructor
  · exact (throughout_of_step invariant_step (invariant_start buf) ha).mono fun _ h => h.result
  · exact (run_of_step invariant_step (invariant_start buf) ha hs).decode
      (run_of_step invariant_step (invariant_start buf') hb ht)

/-- Client 0 is called "a", the others "b". -/
def twoNames (c : Nat) : Name :=
  if c = 0 then ⟨[97], by decide, by decide⟩ else ⟨[98], by decide, by decide⟩

/-- "hi" with its newline. -/
def hi : Piece bufSize := .ofInput bufSize [104, 105, 10] (by decide) (by decide) (by decide)

theorem two_messages_displayed :
    Throughout (step twoNames) InOrder (start (List.replicate 120 0))
      [.send 0 hi, .handle 0 7, .display 6, .send 1 hi, .handle 1 7, .display 6] :=
  (displayed_in_order twoNames twoNames _ [] _ [] _ _ (by decide) (by decide) rfl rfl).1

/-- The receiver reads both messages at once and joins them on a line. -/
theorem messages_joined :
    ¬ ∀ (names names' : Nat → Name) (buf buf' : List Byte) (as bs : List Label) (s t : State),
      run (step names) (start buf) as = some s → run (step names') (start buf') bs = some t →
        Throughout (step names) InOrder (start buf) as ∧
          (s.delivered = t.delivered →
            s.broadcast.map Message.text = t.broadcast.map Message.text) := by
  intro h
  obtain ⟨hall, -⟩ := h twoNames twoNames (List.replicate 120 0) []
    [.send 0 hi, .send 1 hi, .handle 0 7, .handle 1 7, .display 12] [] _ _ rfl rfl
  obtain ⟨shown, rest, hb, hd, hrest⟩ := hall.last rfl
  rw [hrest rfl, List.append_nil] at hb
  rw [← hb] at hd
  exact absurd hd (by decide)

end NetworkProgramming.ChatEndToEnd
