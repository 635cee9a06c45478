import Mathlib.Data.List.GetD
import NetworkProgramming.Library.RequestReply
import NetworkProgramming.Quiz2.Chat
import NetworkProgramming.UdpChat

/-!
# The UDP chats with many clients

Service 2 of quiz 2 and `uchat_server.c` answer whoever writes to them, each message
with the next line of the one operator.
-/
namespace NetworkProgramming.ChatRooms

open Buffer Datagram RequestReply Transition UserInput

structure Client where
  buf : List Byte
  stdin : List Byte
  /-- History: the messages it has printed. -/
  displayed : List (List Byte)

structure Server where
  buf : List Byte
  stdin : List Byte

/-- `fgets`, the test for a line to quit and `sendto`. What is done with a line to quit differs. -/
def ask (size : Nat) (quit : List Byte → Ask (List Byte)) (c : Client) :
    Option (Ask (List Byte) × Client) :=
  let read := fgets size c.buf c.stdin
  (text read.1).map fun t =>
    (if isQuit t then quit t else .send t, { c with buf := read.1, stdin := read.2 })

/-- `recvfrom` and what follows it. -/
def take (size : Nat) (c : Client) (bytes : List Byte) : Option Client :=
  (receive size c.buf bytes).bind fun buf => (text buf).map fun t =>
    { c with buf := buf, displayed := c.displayed ++ [t] }

/-- A turn of `uchat_server.c`. -/
def uchatServe (v : Server) (datagram : List Byte) : Option (List Byte × Server) :=
  let strLen := (recvfrom UdpChat.bufSize v.buf datagram).2
  (receive UdpChat.bufSize v.buf datagram).map fun buf =>
    let read := fgets UdpChat.bufSize buf v.stdin
    (read.1.take strLen, ⟨read.1, read.2⟩)

/-- `uchat_client.c` keeps its line to quit to itself. -/
def uchat : Programs Client Server (List Byte) (List Byte) where
  ask := ask UdpChat.bufSize fun _ => .leave
  take := take UdpChat.bufSize
  serve := uchatServe

/-- What a call of `fgets` leaves in a buffer that holds the text `old`, when so many calls were
before. -/
def typedAt (room : Nat) (stdin : List Byte) (k : Nat) (old : List Byte) : List Byte :=
  if (fgetsRest room)^[k] stdin = [] then old else fgetsNth room stdin k

/-- What a client prints of a reply. -/
def shown (reply : List Byte) : List Byte := reply.takeWhile (· != 0)

/-- The size of both servers' buffers. -/
def limit : Nat := 50

def Short (bytes : List Byte) : Prop := bytes.length < limit

def Sound (bytes : List Byte) : Prop := Short bytes ∧ 0 ∉ bytes

/-- The client between its steps: it has sent what was typed, and from the end of the input on
what it has printed last. -/
structure Chatting (size : Nat) (input : List Byte) (pc : Pc) (asked got : List (List Byte))
    (c : Client) : Prop where
  length : c.buf.length = size
  stdin : pc ≠ .left → c.stdin = (fgetsRest (size - 1))^[asked.length] input
  displayed : c.displayed = got.map shown
  sent : ∀ k m, asked[k]? = some m →
    m = typedAt (size - 1) input k (c.displayed.getD (k - 1) [])
  answered : pc = .ready → asked.length = got.length
  pending : pc = .waiting → asked.length = got.length + 1
  holds : pc = .ready → asked ≠ [] →
    text c.buf = some (c.displayed.getD (asked.length - 1) []) ∧
      Short (c.displayed.getD (asked.length - 1) [])

/-- The server between its turns: each message in the log has the operator's line in its place
for an answer, in whatever way the server sends it. -/
structure Answering {ι : Type} (answers : Nat → Entry ι (List Byte) (List Byte) → Prop)
    (operator : List Byte) (log : List (Entry ι (List Byte) (List Byte))) (v : Server) : Prop where
  length : v.buf.length = limit
  stdin : v.stdin = (fgetsRest (limit - 1))^[log.length] operator
  answered : ∀ k e, log[k]? = some e → answers k e

variable {ι : Type} {size : Nat} {buf stdin input operator bytes t : List Byte} {c c' : Client}
  {asked got : List (List Byte)} {v : Server}

theorem forall_getElem?_concat {α : Type*} {p : Nat → α → Prop} {l : List α} {x : α}
    (h : ∀ k y, l[k]? = some y → p k y) (hx : p l.length x) (k : Nat) (y : α)
    (hy : (l ++ [x])[k]? = some y) : p k y := by
  rw [List.getElem?_append] at hy
  split at hy
  next => exact h k y hy
  next hk =>
    rw [List.getElem?_singleton] at hy
    obtain ⟨hzero, heq⟩ := Option.ite_none_right_eq_some.mp hy
    obtain rfl : k = l.length := by omega
    exact Option.some.inj heq ▸ hx

theorem text_fgets_typed (hnul : 0 ∉ stdin) (h : stdin = [] → text buf = some t) :
    text (fgets size buf stdin).1 =
      some (if stdin = [] then t else fgetsLine (size - 1) stdin) := by
  rw [fgets]
  split
  next hnil => exact h hnil
  next => rw [text_readInto_ended, takeWhile_of_noNul (noNul_fgetsLine hnul)]

theorem typedAt_zero {room : Nat} (hne : input ≠ []) (old old' : List Byte) :
    typedAt room input 0 old = typedAt room input 0 old' := by
  simp [typedAt, hne]

/-- The text that the client reads in front of its next request. -/
theorem Chatting.read (hnul : 0 ∉ input) (hne : input ≠ [])
    (hshort : ∀ k, Short (fgetsNth (size - 1) input k))
    (h : Chatting size input .ready asked got c)
    (ht : text (fgets size c.buf c.stdin).1 = some t) :
    t = typedAt (size - 1) input asked.length (c.displayed.getD (asked.length - 1) []) ∧
      Sound t := by
  have hstdin := h.stdin (by simp)
  have hold : c.stdin = [] → text c.buf = some (c.displayed.getD (asked.length - 1) []) ∧
      Short (c.displayed.getD (asked.length - 1) []) := by
    intro hnil
    refine h.holds rfl fun hasked => hne ?_
    rw [hstdin, hasked] at hnil
    exact hnil
  have htext : text (fgets size c.buf c.stdin).1 = _ :=
    text_fgets_typed (hstdin ▸ noNul_iterate_fgetsRest hnul _) fun hnil => (hold hnil).1
  obtain rfl := Option.some.inj (ht.symm.trans htext)
  refine ⟨by rw [typedAt, fgetsNth, ← hstdin], ?_, (text_eq_some_iff.mp ht).1⟩
  split
  next hnil => exact (hold hnil).2
  next =>
    have hpiece := hshort asked.length
    rwa [fgetsNth, ← hstdin] at hpiece

theorem Chatting.ask {quit : List Byte → Ask (List Byte)} {a : Ask (List Byte)}
    (hquit : ∀ t, quit t = .leave ∨ quit t = .last t) (hsize : 0 < size) (hnul : 0 ∉ input)
    (hne : input ≠ []) (hshort : ∀ k, Short (fgetsNth (size - 1) input k))
    (h : Chatting size input .ready asked got c) (hask : ask size quit c = some (a, c')) :
    Chatting size input a.pc (asked ++ a.request.toList) got c' ∧ ∀ r ∈ a.request, Sound r := by
  obtain ⟨t, ht, heq⟩ := Option.map_eq_some_iff.mp hask
  obtain ⟨rfl, rfl⟩ := Prod.mk.inj heq
  obtain ⟨hread, hsound⟩ := h.read hnul hne hshort ht
  have hlength := length_fgets c.stdin hsize h.length
  have hsent := forall_getElem?_concat h.sent hread
  have hleft : ∀ b : Ask (List Byte), b.pc = .left → b.request = none ∨ b.request = some t →
      Chatting size input b.pc (asked ++ b.request.toList) got
        { c with buf := (fgets size c.buf c.stdin).1, stdin := (fgets size c.buf c.stdin).2 } ∧
      ∀ r ∈ b.request, Sound r := by
    rintro b pc (hb | hb)
    all_goals
      rw [pc, hb]
      refine ⟨⟨hlength, by simp, h.displayed, ?_, by simp, by simp, by simp⟩, by simp [hsound]⟩
    · simpa using h.sent
    · exact hsent
  split
  next =>
    rcases hquit t with hq | hq
    · rw [hq]
      exact hleft _ rfl (.inl rfl)
    · rw [hq]
      exact hleft _ rfl (.inr rfl)
  next =>
    refine ⟨⟨hlength, fun _ => ?_, h.displayed, hsent, by simp [Ask.pc], fun _ => ?_,
      by simp [Ask.pc]⟩, ?_⟩
    · simp only [fgets_rest, Ask.request, Option.toList_some, List.length_append,
        List.length_singleton, Function.iterate_succ_apply', h.stdin (by simp)]
    · simp [Ask.request, h.answered rfl]
    · rintro r ⟨⟩
      exact hsound

theorem Chatting.take (hne : input ≠ []) (hlimit : limit ≤ size) (hbytes : Short bytes)
    (h : Chatting size input .waiting asked got c) :
    ∃ c', take size c bytes = some c' ∧ Chatting size input .ready asked (got ++ [bytes]) c' := by
  have hfits : bytes.length < size := Nat.lt_of_lt_of_le hbytes hlimit
  have hreceive := receive_of_short (Nat.le_of_lt hfits) (h.length.symm ▸ hfits)
  have hcount := h.pending rfl
  have hdisplayed : c.displayed.length = got.length := by rw [h.displayed, List.length_map]
  have hlast : (c.displayed ++ [shown bytes]).getD (asked.length - 1) [] = shown bytes := by
    rw [hcount, Nat.add_sub_cancel, ← hdisplayed, List.getD_append_right _ _ _ _ (Nat.le_refl _)]
    simp
  have htext : text (bytes ++ 0 :: c.buf.drop (bytes.length + 1)) = some (shown bytes) :=
    text_ended _ _
  refine ⟨{ c with
    buf := bytes ++ 0 :: c.buf.drop (bytes.length + 1)
    displayed := c.displayed ++ [shown bytes] }, ?_, ?_⟩
  · simp only [ChatRooms.take, hreceive, Option.bind_some, htext, Option.map_some]
  · refine ⟨(length_receive (by rw [h.length]) hreceive).trans h.length,
      fun _ => h.stdin (by simp), ?_, fun k m hm => ?_, fun _ => ?_, by simp, fun _ _ => ?_⟩
    · simp [h.displayed]
    · cases k with
      | zero => exact (h.sent 0 m hm).trans (typedAt_zero hne _ _)
      | succ k =>
        have hk := (List.getElem?_eq_some_iff.mp hm).1
        rw [h.sent _ m hm, List.getD_append _ _ _ _ (by omega)]
    · simpa using hcount
    · simp only [hlast]
      exact ⟨htext, Nat.lt_of_le_of_lt (List.takeWhile_prefix _).length_le hbytes⟩

theorem Answering.serve {answers : Nat → Entry ι (List Byte) (List Byte) → Prop}
    {log : List (Entry ι (List Byte) (List Byte))} {e : Entry ι (List Byte) (List Byte)}
    (h : Answering answers operator log v) (hbuf : buf.length = limit)
    (he : answers log.length e) :
    Answering answers operator (log ++ [e]) ⟨buf, fgetsRest (limit - 1) v.stdin⟩ where
  length := hbuf
  stdin := by rw [h.stdin, List.length_append, List.length_singleton, Function.iterate_succ_apply']
  answered := forall_getElem?_concat h.answered he

theorem Answering.noNul {answers : Nat → Entry ι (List Byte) (List Byte) → Prop}
    {log : List (Entry ι (List Byte) (List Byte))} (h : Answering answers operator log v)
    (hnul : 0 ∉ operator) : 0 ∉ v.stdin :=
  h.stdin ▸ noNul_iterate_fgetsRest hnul _

section Rooms
variable {stdin : ι → List Byte} (hnul : ∀ i, 0 ∉ stdin i) (hne : ∀ i, stdin i ≠ [])
  (hoperator : 0 ∉ operator)
include hnul hne hoperator

end Rooms

/-- All programs are at the heads of their loops; the buffers are not initialised. -/
def room (stdin : ι → List Byte) (operator : List Byte) (stack : ι → Fin size → Byte)
    (serverStack : Fin limit → Byte) : State ι Client Server (List Byte) (List Byte) :=
  start (fun i => ⟨List.ofFn (stack i), stdin i, []⟩) ⟨List.ofFn serverStack, operator⟩

section Runs
variable [DecidableEq ι] {answers : Nat → Entry ι (List Byte) (List Byte) → Prop}
  {P : Programs Client Server (List Byte) (List Byte)}
  {s : State ι Client Server (List Byte) (List Byte)} {stdin : ι → List Byte}

section Typed
variable (hnul : ∀ i, 0 ∉ stdin i) (hne : ∀ i, stdin i ≠ []) (hoperator : 0 ∉ operator)
include hnul hne hoperator

end Typed

end Runs

end NetworkProgramming.ChatRooms
