import NetworkProgramming.Quiz2.Chat

/-!
# The UDP chat server

`uchat_server.c` receives into the buffer into which it then reads its operator's
line, and replies with as many bytes of it as it has received.
-/
namespace NetworkProgramming.UdpChat

open Buffer Datagram UserInput

def bufSize : Nat := 50

/-- A datagram from a client, and what the operator then types in front of a newline. -/
structure Exchange where
  datagram : List Byte
  received : 1 ≤ datagram.length ∧ datagram.length ≤ 49
  chars : List Byte
  short : chars.length ≤ 48
  oneLine : 10 ∉ chars

def Exchange.line (e : Exchange) : List Byte := e.chars ++ [10]

/-- The standard input of the operator. -/
def typed (exchanges : List Exchange) : List Byte := (exchanges.map Exchange.line).flatten

/-- The replies to these datagrams, from the buffer and the operator's input on. -/
def serverReplies : List Byte → List Byte → List (List Byte) → List (List Byte)
  | _, _, [] => []
  | message, stdin, datagram :: datagrams =>
    let strLen := (recvfrom bufSize message datagram).2
    match receive bufSize message datagram with
    | none => []
    | some message =>
      let read := fgets bufSize message stdin
      read.1.take strLen :: serverReplies read.1 read.2 datagrams

/-- The replies are the operator's lines, and the chat loop of quiz 2 sends the same ones for as
long as it runs. -/
structure RepliesTyped (message quizBuf : List Byte) (exchanges : List Exchange) : Prop where
  lines : serverReplies message (typed exchanges) (exchanges.map Exchange.datagram) =
    exchanges.map Exchange.line
  agree : QuizChat.serverReplies quizBuf (typed exchanges) (exchanges.map Exchange.datagram) <+:
    serverReplies message (typed exchanges) (exchanges.map Exchange.datagram)

/-- The datagram does not end the chat of quiz 2. -/
def Exchange.goesOn (e : Exchange) : Bool := !isQuit (e.datagram.takeWhile (· != 0))

/-- The exchanges in front of the end of the chat of quiz 2. -/
def answered (exchanges : List Exchange) : List Exchange := exchanges.takeWhile Exchange.goesOn

variable {message buf : List Byte}

/-- `fgets` takes the operator's line off the input. -/
theorem fgets_line (e : Exchange) (rest : List Byte) :
    fgets bufSize message (e.line ++ rest) =
      (e.line ++ 0 :: message.drop (e.line.length + 1), rest) := by
  have hshort := e.short
  have hline : fgetsLine (bufSize - 1) (e.line ++ rest) = e.line := by
    rw [Exchange.line, List.append_assoc]
    exact fgetsLine_line (Nat.lt_succ_of_le hshort) e.oneLine
  rw [fgets, if_neg (by simp [Exchange.line]), hline, readInto]
  simp

theorem Exchange.fits (e : Exchange) : e.datagram.length < bufSize :=
  Nat.lt_succ_of_le e.received.2

theorem Exchange.receive (e : Exchange) (hbuf : buf.length = bufSize) :
    ∃ buf', Datagram.receive bufSize buf e.datagram = some buf' ∧ buf'.length = bufSize ∧
      text buf' = some (e.datagram.takeWhile (· != 0)) := by
  have hreceive := receive_of_short (Nat.le_of_lt e.fits) (hbuf ▸ e.fits)
  exact ⟨_, hreceive, (length_receive (by rw [hbuf]) hreceive).trans hbuf, text_ended _ _⟩

/-- The buffer behind the operator's line. -/
theorem length_fgets_line (e : Exchange) (hbuf : buf.length = bufSize) :
    (e.line ++ 0 :: buf.drop (e.line.length + 1)).length = bufSize := by
  have h := length_fgets (e.line ++ []) (by decide : 0 < bufSize) hbuf
  rwa [fgets_line] at h

/-- A reply is the operator's line exactly if it has the length of the datagram. -/
theorem take_line_iff (e : Exchange) {strLen : Nat} {tail : List Byte}
    (h : strLen ≤ (e.line ++ tail).length) :
    (e.line ++ tail).take strLen = e.line ↔ strLen = e.line.length := by
  constructor
  · intro htake
    have hlen := congrArg List.length htake
    rw [List.length_take] at hlen
    omega
  · rintro rfl
    exact List.take_left

theorem serverReplies_eq_iff (exchanges : List Exchange) (hbuf : message.length = bufSize) :
    serverReplies message (typed exchanges) (exchanges.map Exchange.datagram) =
        exchanges.map Exchange.line ↔
      ∀ e ∈ exchanges, e.datagram.length = e.line.length := by
  induction exchanges generalizing message with
  | nil => simp [serverReplies]
  | cons e es ih =>
    obtain ⟨buf, hreceive, hlen, -⟩ := e.receive hbuf
    have hle := Nat.le_of_lt e.fits
    have hstrLen : (recvfrom bufSize message e.datagram).2 = e.datagram.length := by
      rw [recvfrom_of_short hle]
    have hbuf' := length_fgets_line e hlen
    have htyped : typed (e :: es) = e.line ++ typed es := rfl
    simp only [List.map_cons, serverReplies, hreceive, htyped, fgets_line, hstrLen,
      List.cons.injEq, List.forall_mem_cons]
    rw [take_line_iff e (hbuf' ▸ hle), ih hbuf']

/-- A turn of quiz 2 on the same input. -/
theorem serverTurn_eq (e : Exchange) (rest : List Byte) (hbuf : buf.length = bufSize) :
    ∃ buf', buf'.length = bufSize ∧
      (QuizChat.serverTurn buf (e.line ++ rest) e.datagram).2 =
        if e.goesOn then some (e.line.takeWhile (· != 0), buf', rest) else none := by
  obtain ⟨buf₁, hreceive, hlen, htext⟩ := e.receive hbuf
  have hreceive : Datagram.receive QuizSelection.bufSize buf e.datagram = some buf₁ := hreceive
  have hread : fgets QuizSelection.bufSize buf₁ (e.line ++ rest) =
      (e.line ++ 0 :: buf₁.drop (e.line.length + 1), rest) := fgets_line e rest
  refine ⟨_, length_fgets_line e hlen, ?_⟩
  simp only [QuizChat.serverTurn, hreceive, Option.bind_some, htext, hread, text_ended,
    Option.map_some, Exchange.goesOn]
  by_cases hquit : isQuit (e.datagram.takeWhile (· != 0)) = true <;> simp [hquit]

/-- The loop of quiz 2 replies with the texts of the lines. -/
theorem quizReplies_eq (exchanges : List Exchange) (hbuf : buf.length = bufSize) :
    QuizChat.serverReplies buf (typed exchanges) (exchanges.map Exchange.datagram) =
      (answered exchanges).map fun e => e.line.takeWhile (· != 0) := by
  induction exchanges generalizing buf with
  | nil => rfl
  | cons e es ih =>
    obtain ⟨buf', hlen, hturn⟩ := serverTurn_eq e (typed es) hbuf
    have htyped : typed (e :: es) = e.line ++ typed es := rfl
    rw [List.map_cons, QuizChat.serverReplies, htyped, hturn, answered]
    cases hgo : e.goesOn with
    | false => rw [List.takeWhile_cons_of_neg (by simp [hgo])]; rfl
    | true =>
      rw [List.takeWhile_cons_of_pos hgo, List.map_cons]
      exact congrArg _ (ih hlen)

/-- The texts are the lines themselves exactly if no line has a zero byte. -/
theorem texts_prefix_iff (exchanges : List Exchange) :
    ((answered exchanges).map fun e => e.line.takeWhile (· != 0)) <+:
        exchanges.map Exchange.line ↔
      ∀ e ∈ answered exchanges, 0 ∉ e.line := by
  have hline : ∀ e : Exchange, e.line.takeWhile (· != 0) = e.line ↔ 0 ∉ e.line := by
    intro e
    refine ⟨fun h h0 => ?_, takeWhile_of_noNul⟩
    rw [← h] at h0
    simpa using List.mem_takeWhile_imp h0
  induction exchanges with
  | nil => simp [answered]
  | cons e es ih =>
    cases hgo : e.goesOn with
    | false => simp [answered, hgo]
    | true =>
      rw [answered, List.takeWhile_cons_of_pos hgo, List.map_cons, List.map_cons,
        List.cons_prefix_cons, hline, List.forall_mem_cons]
      exact and_congr_right fun _ => ih

/-- The replies are what the operator has typed exactly if every datagram has as many bytes as
the line that answers it; then quiz 2 sends the same, unless a line has a zero byte. -/
theorem repliesTyped_iff (stack quizStack : Fin bufSize → Byte) (exchanges : List Exchange) :
    RepliesTyped (List.ofFn stack) (List.ofFn quizStack) exchanges ↔
      (∀ e ∈ exchanges, e.datagram.length = e.line.length) ∧
        ∀ e ∈ answered exchanges, 0 ∉ e.line := by
  have hlines : serverReplies (List.ofFn stack) (typed exchanges)
      (exchanges.map Exchange.datagram) = exchanges.map Exchange.line ↔
        ∀ e ∈ exchanges, e.datagram.length = e.line.length :=
    serverReplies_eq_iff exchanges (List.length_ofFn ..)
  have hquiz : QuizChat.serverReplies (List.ofFn quizStack) (typed exchanges)
      (exchanges.map Exchange.datagram) =
        (answered exchanges).map fun e => e.line.takeWhile (· != 0) :=
    quizReplies_eq exchanges (List.length_ofFn ..)
  constructor
  · rintro ⟨h, hagree⟩
    rw [h, hquiz, texts_prefix_iff] at hagree
    exact ⟨hlines.mp h, hagree⟩
  · rintro ⟨hlen, hnul⟩
    have h := hlines.mpr hlen
    refine ⟨h, ?_⟩
    rw [h, hquiz, texts_prefix_iff]
    exact hnul

/-- To a longer message the operator's line goes out with what the message has left behind it. -/
theorem longer_message_leaks : ¬ ∀ (stack quizStack : Fin bufSize → Byte)
    (exchanges : List Exchange),
    RepliesTyped (List.ofFn stack) (List.ofFn quizStack) exchanges := by
  intro h
  have hlines := (h (fun _ => 0) (fun _ => 0)
    [⟨[104, 101, 108, 108, 111, 10], by decide, [104, 105], by decide, by decide⟩]).lines
  rw [serverReplies_eq_iff _ (List.length_ofFn ..)] at hlines
  exact absurd (hlines _ List.mem_cons_self) (by decide)

end NetworkProgramming.UdpChat
