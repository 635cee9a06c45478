import NetworkProgramming.Library.Datagram
import NetworkProgramming.Quiz2.Selection

/-!
# The chat of quiz 2

Service 2 on both sides, turn by turn. The buffer of the client has twice the size
of the server's, and each program lets a datagram fill all of its own.
-/
namespace NetworkProgramming.QuizChat

open Buffer Datagram UserInput QuizSelection

/-- The client's `BUF_SIZE`. -/
def clientSize : Nat := 100

/-- A datagram on its way: the text it was sent as, `str_len`, and the text that is taken from
it, unless the zero byte goes behind the buffer. -/
structure Transfer where
  sent : List Byte
  strLen : Nat
  taken : Option (List Byte)
  deriving DecidableEq, Repr

def transfer (size : Nat) (buf sent : List Byte) : Transfer where
  sent := sent
  strLen := (recvfrom size buf sent).2
  taken := (receive size buf sent).bind text

/-- A turn of the server's loop. The second part is the reply with the buffer and the
operator's input behind it; there is none when the text is a line to quit. -/
def serverTurn (buf stdin datagram : List Byte) :
    Transfer × Option (List Byte × List Byte × List Byte) :=
  (transfer bufSize buf datagram,
    (receive bufSize buf datagram).bind fun buf => (text buf).bind fun t =>
      if isQuit t then none
      else
        let read := fgets bufSize buf stdin
        (text read.1).map fun reply => (reply, read.1, read.2))

/-- The replies of the server to these datagrams. -/
def serverReplies : List Byte → List Byte → List (List Byte) → List (List Byte)
  | _, _, [] => []
  | buf, stdin, datagram :: datagrams =>
    match (serverTurn buf stdin datagram).2 with
    | none => []
    | some (reply, buf, stdin) => reply :: serverReplies buf stdin datagrams

/-- The two datagrams of a turn; there is no reply to a line to quit. -/
structure Turn where
  message : Transfer
  reply : Option Transfer
  deriving DecidableEq, Repr

/-- The turns in which the client's user types these lines: its buffer, the server's, and the
operator's input. -/
def session : List Byte → List Byte → List Byte → List (Piece clientSize) → List Turn
  | _, _, _, [] => []
  | buf, serverBuf, stdin, line :: lines =>
    let buf := readInto buf (line.chars ++ [0])
    let turn := serverTurn serverBuf stdin line.chars
    if isQuit line.chars then [⟨turn.1, none⟩]
    else
      match turn.2 with
      | none => [⟨turn.1, none⟩]
      | some (reply, serverBuf, stdin) =>
        let down := transfer clientSize buf reply
        match receive clientSize buf reply with
        | none => [⟨turn.1, some down⟩]
        | some buf => ⟨turn.1, some down⟩ :: session buf serverBuf stdin lines

/-- What is taken is what was sent, also to the quit test, and the zero byte is inside. -/
structure Transfer.Whole (size : Nat) (t : Transfer) : Prop where
  taken : t.taken = some t.sent
  quits : t.taken.map isQuit = some (isQuit t.sent)
  inside : t.strLen < size

structure Turn.Whole (t : Turn) : Prop where
  message : t.message.Whole bufSize
  reply : ∀ r ∈ t.reply, r.Whole clientSize

variable {size : Nat} {buf sent : List Byte}

/-- A datagram arrives whole exactly if it leaves room for the zero byte. -/
theorem transfer_whole_iff (hbuf : buf.length = size) (hnul : 0 ∉ sent) :
    (transfer size buf sent).Whole size ↔ sent.length < size := by
  constructor
  · intro h
    have hinside := h.inside
    simp only [transfer, recvfrom, List.length_take] at hinside
    omega
  · intro hlt
    have htaken : (transfer size buf sent).taken = some sent := by
      rw [transfer, receive_of_short (Nat.le_of_lt hlt) (hbuf ▸ hlt), Option.bind_some]
      exact text_append_zero sent _ hnul
    refine ⟨htaken, by rw [htaken]; rfl, ?_⟩
    simp only [transfer, recvfrom_of_short (Nat.le_of_lt hlt)]
    exact hlt

/-- The server's turn on a datagram that leaves room for the zero byte. -/
theorem serverTurn_of_short (stdin : List Byte) (hbuf : buf.length = bufSize)
    (hnul : 0 ∉ sent) (hlt : sent.length < bufSize) (hquit : isQuit sent = false) :
    ∃ reply buf' stdin', (serverTurn buf stdin sent).2 = some (reply, buf', stdin') ∧
      reply.length < bufSize ∧ 0 ∉ reply ∧ buf'.length = bufSize := by
  have hreceive := receive_of_short (Nat.le_of_lt hlt) (hbuf ▸ hlt)
  have htext := text_append_zero sent (buf.drop (sent.length + 1)) hnul
  obtain ⟨reply, hreply⟩ : ∃ reply, text (fgets bufSize _ stdin).1 = some reply :=
    text_fgets htext stdin
  have hlen := length_fgets stdin (by decide : 0 < bufSize)
    ((length_receive (by rw [hbuf]) hreceive).trans hbuf)
  refine ⟨reply, _, (fgets bufSize (sent ++ 0 :: buf.drop (sent.length + 1)) stdin).2, ?_, ?_,
    (text_eq_some_iff.mp hreply).1, hlen⟩
  · simp only [serverTurn, hreceive, Option.bind_some, htext, hquit, Bool.false_eq_true, if_false,
      hreply, Option.map_some]
  · exact hlen ▸ length_lt_of_text hreply

/-- The lines in front of the first one to quit. -/
def beforeQuit {n : Nat} (lines : List (Piece n)) : List (Piece n) :=
  lines.takeWhile fun line => !isQuit line.chars

theorem isQuit_length {line : List Byte} (h : isQuit line = true) : line.length = 2 := by
  simp only [isQuit, Bool.or_eq_true, decide_eq_true_eq] at h
  rcases h with rfl | rfl <;> rfl

/-- All datagrams of a chat arrive whole exactly if every line in front of the first one to quit
has fewer bytes than the server's buffer. -/
theorem session_whole_iff_short {buf serverBuf stdin : List Byte} (hbuf : buf.length = clientSize)
    (hserver : serverBuf.length = bufSize) (lines : List (Piece clientSize)) :
    (∀ t ∈ session buf serverBuf stdin lines, t.Whole) ↔
      ∀ line ∈ beforeQuit lines, line.chars.length < bufSize := by
  induction lines generalizing buf serverBuf stdin with
  | nil => simp [session, beforeQuit]
  | cons line lines ih =>
    have hup := transfer_whole_iff hserver line.noNul
    have htyped : (readInto buf (line.chars ++ [0])).length = clientSize := by
      have hshort := line.short
      rw [length_readInto (by rw [List.length_append, List.length_singleton, hbuf]; omega), hbuf]
    cases hquit : isQuit line.chars with
    | true =>
      have hlt : line.chars.length < bufSize := by
        rw [isQuit_length hquit]
        decide
      rw [session, hquit, if_pos rfl, beforeQuit, List.takeWhile_cons_of_neg (by simp [hquit])]
      exact iff_of_true (by simpa using ⟨hup.mpr hlt, by simp⟩) (by simp)
    | false =>
      rw [session, hquit, if_neg Bool.false_ne_true, beforeQuit,
        List.takeWhile_cons_of_pos (by simp [hquit]), List.forall_mem_cons]
      by_cases hlt : line.chars.length < bufSize
      · obtain ⟨reply, serverBuf', stdin', hturn, hreply, hnul, hserver'⟩ :=
          serverTurn_of_short stdin hserver line.noNul hlt hquit
        have hfits : reply.length < clientSize := Nat.lt_trans hreply (by decide)
        have hdown := (transfer_whole_iff htyped hnul).mpr hfits
        have hreceive := receive_of_short (Nat.le_of_lt hfits) (htyped ▸ hfits)
        have hbuf' := (length_receive (by rw [htyped]) hreceive).trans htyped
        simp only [hturn, hreceive]
        rw [List.forall_mem_cons, ih hbuf' hserver']
        refine and_congr (iff_of_true ⟨hup.mpr hlt, ?_⟩ hlt) Iff.rfl
        rintro r ⟨⟩
        exact hdown
      · refine iff_of_false (fun h => hlt (hup.mp ?_)) fun h => hlt h.1
        split at h
        · exact (h _ List.mem_cons_self).message
        · split at h <;> exact (h _ List.mem_cons_self).message

/-- Chat messages arrive whole exactly if those in front of the first line to quit have at most
49 bytes. -/
theorem session_whole_iff (stack : Fin clientSize → Byte) (serverStack : Fin bufSize → Byte)
    (stdin : List Byte) (lines : List (Piece clientSize)) :
    (∀ t ∈ session (List.ofFn stack) (List.ofFn serverStack) stdin lines, t.Whole) ↔
      ∀ line ∈ beforeQuit lines, line.chars.length < bufSize :=
  session_whole_iff_short (List.length_ofFn ..) (List.length_ofFn ..) lines

/-- A line that fills the server's buffer has its zero byte behind it. -/
theorem full_line_not_whole : ¬ ∀ (stack : Fin clientSize → Byte) (serverStack : Fin bufSize → Byte)
    (stdin : List Byte) (lines : List (Piece clientSize)),
    ∀ t ∈ session (List.ofFn stack) (List.ofFn serverStack) stdin lines, t.Whole := by
  intro h
  have hwhole := h (fun _ => 0) (fun _ => 0) []
    [⟨List.replicate 49 97 ++ [10], by decide, by decide, by decide, by decide⟩]
  rw [session_whole_iff_short (List.length_ofFn ..) (List.length_ofFn ..)] at hwhole
  exact absurd (hwhole _ List.mem_cons_self) (by decide)

end NetworkProgramming.QuizChat
