import NetworkProgramming.Library.Buffer
import NetworkProgramming.Library.LockStep

/-!
# The chat of two users

`tcp_client_chat.c` and `tcp_server_chat.c`: the users take turns. Both programs
print what one `recv` brings and send what one `fgets` reads. The client reads into
a cleared buffer, the server over the message that it has just printed.
-/
namespace NetworkProgramming.ChatSession

open Buffer LockStep Transition

/-- The size of `temp` and of `data`. -/
def bufSize : Nat := 100

structure Client where
  stdin : List Byte
  /-- The texts behind "Client Recv: ". -/
  shown : List (List Byte)
  deriving DecidableEq, Repr

structure Server where
  temp : List Byte
  stdin : List Byte
  /-- The texts behind "Server Recv : ". -/
  shown : List (List Byte)
  deriving DecidableEq, Repr

/-- `fgets(data, sizeof(data), stdin)` and the `strlen(data)` bytes of the `send`. -/
def Client.send (c : Client) : Option (List Byte × Client) :=
  let read := fgets bufSize (zeros bufSize) c.stdin
  (text read.1).map fun data => (data, { c with stdin := read.2 })

/-- The `recv` of the client and its `printf`. -/
def Client.recv (c : Client) (piece : List Byte) : Option Client :=
  (text (readInto (zeros bufSize) piece)).map fun t => { c with shown := c.shown ++ [t] }

def Server.recv (v : Server) (piece : List Byte) : Option Server :=
  let temp := readInto (zeros bufSize) piece
  (text temp).map fun t => { v with temp, shown := v.shown ++ [t] }

/-- `fgets(temp, sizeof(temp), stdin)`: at the end of the input `temp` keeps the message. -/
def Server.send (v : Server) : Option (List Byte × Server) :=
  let read := fgets bufSize v.temp v.stdin
  (text read.1).map fun data => (data, { v with temp := read.1, stdin := read.2 })

def protocol : Protocol Client Server Byte where
  ask := Client.send
  hearAnswer := Client.recv
  hear := Server.recv
  answer := Server.send
  requestLimit := bufSize
  answerLimit := bufSize

/-- Both programs in front of their loops. -/
def start (clientInput serverInput temp : List Byte) : State Client Server Byte :=
  LockStep.start ⟨clientInput, []⟩ ⟨temp, serverInput, []⟩

/-- Nothing is lost, doubled or mixed up: what the server has displayed, what is under way and
what the user of the client has not sent yet are the client's input. The other way round it is
the same until the input of the server has ended; then its echoes follow. -/
structure Delivered (clientInput serverInput : List Byte) (s : State Client Server Byte) :
    Prop where
  requests : s.server.shown.flatten ++ s.requests ++ s.client.stdin = clientInput
  answers : ∃ echoes, (s.server.stdin ≠ [] → echoes = []) ∧
    s.client.shown.flatten ++ s.answers ++ s.server.stdin = serverInput ++ echoes

/-- What a `recv` brings is displayed without leaving the buffer exactly if it leaves room for the
zero byte. -/
structure Shows (s : State Client Server Byte) : Prop where
  server : s.answering = false → ∀ len, 0 < len → len ≤ bufSize → len ≤ s.requests.length →
    ((∃ t, step protocol s (.hear len) = some t) ↔ len < bufSize)
  client : s.asking = false → ∀ len, 0 < len → len ≤ bufSize → len ≤ s.answers.length →
    ((∃ t, step protocol s (.hearAnswer len) = some t) ↔ len < bufSize)

/-- With it, what the `recv` of either side needs to know about the texts. -/
structure Books (clientInput serverInput : List Byte) (s : State Client Server Byte) : Prop where
  delivered : Delivered clientInput serverInput s
  noNul : 0 ∉ s.answers
  temp : s.answering = true → ∃ t, t ≠ [] ∧ 0 ∉ t ∧ text s.server.temp = some t

section Steps
variable {clientInput serverInput : List Byte} {s t : State Client Server Byte} {a : Label}

/-- What `printf` finds behind a `recv`: a piece that fills the buffer has no text. -/
theorem text_received {piece : List Byte} (hnul : 0 ∉ piece) :
    text (readInto (zeros bufSize) piece) = if piece.length < bufSize then some piece else none := by
  split
  next hlen => exact text_cleared hlen hnul
  next hlen =>
    have hfull : readInto (zeros bufSize) piece = piece := by
      rw [readInto, List.drop_eq_nil_of_le, List.append_nil]
      simpa using hlen
    rw [hfull, text, if_neg hnul]

/-- A piece that is displayed is displayed as it is. -/
theorem text_recv {piece m : List Byte} (h : text (readInto (zeros bufSize) piece) = some m)
    (hnul : 0 ∉ piece) : m = piece := by
  rw [text_received hnul] at h
  exact (Option.some.inj (Option.ite_none_right_eq_some.mp h).2).symm

/-- What the client sends is the next piece of its input. -/
theorem send_client {c c' : Client} {m : List Byte} (h : c.send = some (m, c'))
    (hnul : 0 ∉ c.stdin) :
    m = fgetsLine (room bufSize) c.stdin ∧
      c' = { c with stdin := fgetsRest (room bufSize) c.stdin } := by
  obtain ⟨data, hdata, h⟩ := Option.map_eq_some_iff.mp h
  rw [text_fgets_cleared _ (by decide)] at hdata
  obtain ⟨rfl, rfl⟩ := Prod.mk.inj h
  refine ⟨?_, by rw [fgets_rest]⟩
  rw [← Option.some.inj hdata]
  exact takeWhile_of_noNul (noNul_fgetsLine hnul)

/-- The answer is the next piece of the input, or behind its end the message itself. -/
theorem send_server {v v' : Server} {m t : List Byte} (h : v.send = some (m, v'))
    (ht : text v.temp = some t) (hnul : 0 ∉ v.stdin) :
    m = (if v.stdin = [] then t else fgetsLine (room bufSize) v.stdin) ∧
      v'.stdin = fgetsRest (room bufSize) v.stdin ∧ v'.shown = v.shown := by
  obtain ⟨data, hdata, h⟩ := Option.map_eq_some_iff.mp h
  obtain ⟨rfl, rfl⟩ := Prod.mk.inj h
  refine ⟨?_, fgets_rest _ _ _, rfl⟩
  by_cases hend : v.stdin = []
  · rw [fgets, if_pos hend, ht] at hdata
    rw [if_pos hend, Option.some.inj hdata]
  · rw [fgets, if_neg hend, text_readInto_ended, takeWhile_of_noNul (noNul_fgetsLine hnul)] at hdata
    rw [if_neg hend]
    exact (Option.some.inj hdata).symm

theorem Delivered.noNul_client (h : Delivered clientInput serverInput s) (hnul : 0 ∉ clientInput) :
    0 ∉ s.requests ∧ 0 ∉ s.client.stdin := by
  rw [← h.requests, List.mem_append, List.mem_append, not_or, not_or] at hnul
  exact ⟨hnul.1.2, hnul.2⟩

theorem Delivered.noNul_server (h : Delivered clientInput serverInput s) (hnul : 0 ∉ serverInput) :
    0 ∉ s.server.stdin := by
  obtain ⟨echoes, hechoes, hanswers⟩ := h.answers
  by_cases hend : s.server.stdin = []
  · simp [hend]
  · rw [hechoes hend, List.append_nil] at hanswers
    exact fun h0 => hnul (hanswers ▸ List.mem_append_right _ h0)

theorem Books.step (h : Books clientInput serverInput s) (hclient : 0 ∉ clientInput)
    (hserver : 0 ∉ serverInput) (hstep : LockStep.step protocol s a = some t) :
    Books clientInput serverInput t := by
  have hunderway := h.delivered.noNul_client hclient
  have hstdin := h.delivered.noNul_server hserver
  obtain ⟨⟨hrequests, echoes, hechoes, hanswers⟩, hnul, htemp⟩ := h
  cases move_of_step hstep with
  | ask m c turn ask =>
    obtain ⟨rfl, rfl⟩ := send_client ask hunderway.2
    refine ⟨⟨?_, echoes, hechoes, hanswers⟩, hnul, htemp⟩
    rw [← hrequests]
    simp only [List.append_assoc, fgetsLine_append_rest]
  | hear len v turn pos queued hear =>
    obtain ⟨shown, hshown, rfl⟩ := Option.map_eq_some_iff.mp hear
    have hpiece : 0 ∉ s.requests.take len := fun h0 => hunderway.1 (List.mem_of_mem_take h0)
    obtain rfl := text_recv hshown hpiece
    refine ⟨⟨?_, echoes, hechoes, hanswers⟩, hnul, fun _ => ⟨_, ?_, hpiece, hshown⟩⟩
    · rw [← hrequests]
      simp only [List.flatten_append, List.flatten_singleton, List.append_assoc,
        List.take_append_drop]
    · rw [← List.length_pos_iff, List.length_take]
      omega
  | answer m v turn answer =>
    obtain ⟨text, -, htextNul, htext⟩ := htemp turn
    obtain ⟨rfl, hrest, hshown⟩ := send_server answer htext hstdin
    by_cases hend : s.server.stdin = []
    · rw [hend] at hrest hanswers
      rw [List.append_nil] at hanswers
      refine ⟨⟨hshown ▸ hrequests, echoes ++ text, fun hne => absurd hrest hne, ?_⟩, ?_, nofun⟩
      · simp only [hend, if_true, hrest, fgetsRest, List.drop_nil, List.append_nil,
          ← List.append_assoc, hanswers]
      · simp only [hend, if_true, List.mem_append, not_or]
        exact ⟨hnul, htextNul⟩
    · refine ⟨⟨hshown ▸ hrequests, echoes, fun _ => hechoes hend, ?_⟩, ?_, nofun⟩
      · rw [← hanswers]
        simp only [hend, if_false, hrest, List.append_assoc, fgetsLine_append_rest]
      · simp only [hend, if_false, List.mem_append, not_or]
        exact ⟨hnul, noNul_fgetsLine hstdin⟩
  | hearAnswer len c turn pos queued hear =>
    obtain ⟨shown, hshown, rfl⟩ := Option.map_eq_some_iff.mp hear
    have hpiece : 0 ∉ s.answers.take len := fun h0 => hnul (List.mem_of_mem_take h0)
    obtain rfl := text_recv hshown hpiece
    refine ⟨⟨hrequests, echoes, hechoes, ?_⟩, fun h0 => hnul (List.mem_of_mem_drop h0), htemp⟩
    rw [← hanswers]
    simp only [List.flatten_append, List.flatten_singleton, List.append_assoc,
      List.take_append_drop]

theorem books_start (clientInput serverInput temp : List Byte) :
    Books clientInput serverInput (start clientInput serverInput temp) :=
  ⟨⟨rfl, [], fun _ => rfl, (List.append_nil _).symm⟩, by simp [start, LockStep.start], nofun⟩

theorem Books.shows (h : Books clientInput serverInput s) (hclient : 0 ∉ clientInput) :
    Shows s where
  server := by
    intro turn len pos hlimit hqueued
    have hnul : 0 ∉ s.requests.take len := fun h0 =>
      (h.delivered.noNul_client hclient).1 (List.mem_of_mem_take h0)
    have htext := text_received hnul
    rw [List.length_take_of_le hqueued] at htext
    simp only [LockStep.step, protocol, turn, pos, hlimit, hqueued, Server.recv, htext, and_self,
      if_true, Option.map_map]
    split <;> simp [*]
  client := by
    intro turn len pos hlimit hqueued
    have hnul : 0 ∉ s.answers.take len := fun h0 => h.noNul (List.mem_of_mem_take h0)
    have htext := text_received hnul
    rw [List.length_take_of_le hqueued] at htext
    simp only [LockStep.step, protocol, turn, pos, hlimit, hqueued, Client.recv, htext, and_self,
      if_true, Option.map_map]
    split <;> simp [*]

theorem fgetsLine_ne_nil_iff {stdin : List Byte} :
    fgetsLine (room bufSize) stdin ≠ [] ↔ stdin ≠ [] := by
  refine ⟨fun h hnil => h ?_, fgetsLine_ne_nil (by decide)⟩
  subst hnil
  rfl

/-- Where the client sends, its user has typed something or the other side is not done. -/
def Typed (s : State Client Server Byte) : Label → Prop
  | .ask => s.asking = true →
      s.client.stdin ≠ [] ∨ s.answering = true ∨ s.requests ≠ [] ∨ s.answers ≠ []
  | .hear _ | .answer | .hearAnswer _ => True

/-- The server always has something to send, the message if its own input has ended. -/
theorem Books.speaks_iff (h : Books clientInput serverInput s) (hclient : 0 ∉ clientInput)
    (hserver : 0 ∉ serverInput) (ht : LockStep.step protocol s a = some t) :
    Speaks protocol s a ↔ Typed s a := by
  cases move_of_step ht with
  | ask m c turn ask =>
    obtain ⟨rfl, -⟩ := send_client ask (h.delivered.noNul_client hclient).2
    simp only [Speaks, Typed, ask, Option.mem_def, Option.some.injEq, forall_eq',
      fgetsLine_ne_nil_iff]
  | answer m v turn answer =>
    obtain ⟨text, htextNe, -, htext⟩ := h.temp turn
    obtain ⟨rfl, -, -⟩ := send_server answer htext (h.delivered.noNul_server hserver)
    refine iff_of_true (fun _ r hr => .inl ?_) trivial
    obtain rfl := Option.some.inj (answer.symm.trans hr)
    by_cases hend : s.server.stdin = []
    · simpa only [hend, if_true] using htextNe
    · simpa only [hend, if_false] using fgetsLine_ne_nil_iff.mpr hend
  | hear | hearAnswer => exact Iff.rfl

theorem typed_of_none (h : step protocol s a = none) : Typed s a := by
  cases a with
  | ask =>
    intro turn
    have hsend : s.client.send = none := by simpa [step, turn, protocol] using h
    rw [Client.send, text_fgets_cleared _ (by decide)] at hsend
    cases hsend
  | hear | answer | hearAnswer => trivial

/-- Both users wait for each other for good exactly if the client's input has ended when it has
the turn and the server has nothing left to read or to answer. The end of the server's input
never has this effect. -/
theorem throughout_live_iff_typed (clientInput serverInput temp : List Byte)
    (hclient : 0 ∉ clientInput) (hserver : 0 ∉ serverInput) (labels : List Label) :
    Throughout (step protocol) Live (start clientInput serverInput temp) labels ↔
      Along (step protocol) Typed (start clientInput serverInput temp) labels :=
  throughout_iff_along
    (fun _ _ _ h _ ht => ⟨h.step hclient hserver ht,
      (live_iff_speaks ht).trans (h.speaks_iff hclient hserver ht)⟩)
    (fun _ _ => typed_of_none) (books_start clientInput serverInput temp) (.inl rfl)

/-- The client's user types nothing. -/
theorem not_live_of_no_input :
    ¬ Throughout (step protocol) Live (start [] [121, 111, 10] (zeros bufSize)) [.ask] := by
  intro h
  have htyped := (throughout_live_iff_typed [] [121, 111, 10] (zeros bufSize) (by decide)
    (by decide) _).mp h
  simpa [start, LockStep.start] using htyped.1 rfl

end Steps

section Turns

/-- The text of the answer to the message `k`: the next piece of the server's input, or behind
its end the message itself. -/
def answered (clientInput serverInput : List Byte) (k : Nat) : List Byte :=
  if (fgetsRest (room bufSize))^[k] serverInput = [] then fgetsNth (room bufSize) clientInput k
  else fgetsNth (room bufSize) serverInput k

/-- The first messages and answers have been displayed, in order; at most one answer is
outstanding. -/
structure InOrder (clientInput serverInput : List Byte) (s : State Client Server Byte) : Prop where
  messages : s.server.shown =
    (List.range s.server.shown.length).map (fgetsNth (room bufSize) clientInput)
  answers : s.client.shown =
    (List.range s.client.shown.length).map (answered clientInput serverInput)
  turns : s.client.shown.length ≤ s.server.shown.length ∧
    s.server.shown.length ≤ s.client.shown.length + 1

/-- How often both sides have sent and displayed something. -/
structure Counted (clientInput serverInput : List Byte) (sent shown answers back : Nat)
    (c : Client) (v : Server) : Prop where
  clientStdin : c.stdin = (fgetsRest (room bufSize))^[sent] clientInput
  serverStdin : v.stdin = (fgetsRest (room bufSize))^[answers] serverInput
  messages : v.shown = (List.range shown).map (fgetsNth (room bufSize) clientInput)
  answers : c.shown = (List.range back).map (answered clientInput serverInput)

/-- What holds in the `n`th round. -/
def Round (clientInput serverInput : List Byte) (c : Client) (v : Server) (p : Phase Byte) :
    Prop :=
  ∃ n, match p with
    | .asking => Counted clientInput serverInput n n n n c v
    | .asked m => Counted clientInput serverInput (n + 1) n n n c v ∧
        m = fgetsNth (room bufSize) clientInput n
    | .answering => Counted clientInput serverInput (n + 1) (n + 1) n n c v ∧
        v.temp = readInto (zeros bufSize) (fgetsNth (room bufSize) clientInput n)
    | .answered m => Counted clientInput serverInput (n + 1) (n + 1) (n + 1) n c v ∧
        m = answered clientInput serverInput n

variable {clientInput serverInput : List Byte}

theorem text_message (h : 0 ∉ clientInput) (k : Nat) :
    text (readInto (zeros bufSize) (fgetsNth (room bufSize) clientInput k)) =
      some (fgetsNth (room bufSize) clientInput k) :=
  text_cleared (Nat.lt_succ_of_le (length_fgetsLine_le _ _)) (noNul_fgetsNth h k)

theorem noNul_answered (hclient : 0 ∉ clientInput) (hserver : 0 ∉ serverInput) (k : Nat) :
    0 ∉ answered clientInput serverInput k := by
  rw [answered]
  split
  · exact noNul_fgetsNth hclient k
  · exact noNul_fgetsNth hserver k

theorem preserved_round (hclient : 0 ∉ clientInput) (hserver : 0 ∉ serverInput) :
    Preserved protocol (Round clientInput serverInput) where
  ask := by
    rintro c v m c' ⟨n, h⟩ hask
    have hnul : 0 ∉ c.stdin := by
      rw [h.clientStdin]
      exact noNul_iterate_fgetsRest hclient n
    obtain ⟨rfl, rfl⟩ := send_client hask hnul
    refine ⟨n, ⟨?_, h.serverStdin, h.messages, h.answers⟩, by rw [h.clientStdin]; rfl⟩
    rw [Function.iterate_succ_apply', ← h.clientStdin]
  hear := by
    rintro c v m v' ⟨n, h, rfl⟩ - hhear
    obtain ⟨t, ht, rfl⟩ := Option.map_eq_some_iff.mp hhear
    obtain rfl := text_recv ht (noNul_fgetsNth hclient n)
    refine ⟨n, ⟨h.clientStdin, h.serverStdin, ?_, h.answers⟩, rfl⟩
    rw [List.range_succ, List.map_append, ← h.messages]
    rfl
  answer := by
    rintro c v m v' ⟨n, h, htemp⟩ hanswer
    have hnul : 0 ∉ v.stdin := by
      rw [h.serverStdin]
      exact noNul_iterate_fgetsRest hserver n
    have htext : text v.temp = some (fgetsNth (room bufSize) clientInput n) := by
      rw [htemp, text_message hclient]
    obtain ⟨rfl, hstdin, hshown⟩ := send_server hanswer htext hnul
    refine ⟨n, ⟨h.clientStdin, ?_, hshown ▸ h.messages, h.answers⟩, ?_⟩
    · rw [hstdin, Function.iterate_succ_apply', ← h.serverStdin]
    · simp only [answered, fgetsNth, h.serverStdin]
  hearAnswer := by
    rintro c v m c' ⟨n, h, rfl⟩ - hhear
    obtain ⟨t, ht, rfl⟩ := Option.map_eq_some_iff.mp hhear
    obtain rfl := text_recv ht (noNul_answered hclient hserver n)
    refine ⟨n + 1, h.clientStdin, h.serverStdin, h.messages, ?_⟩
    rw [List.range_succ, List.map_append, ← h.answers]
    rfl

theorem InTurn.inOrder {s : State Client Server Byte}
    (h : InTurn (Round clientInput serverInput) s) : InOrder clientInput serverInput s := by
  obtain ⟨c, v, p, rfl, n, hn⟩ := h
  have hcounted : ∀ {sent shown answers back}, (shown = back ∨ shown = back + 1) →
      Counted clientInput serverInput sent shown answers back c v →
      InOrder clientInput serverInput (Phase.state c v p) := by
    intro sent shown answers back hturns hc
    have hv : v.shown.length = shown := by rw [hc.messages, List.length_map, List.length_range]
    have hb : c.shown.length = back := by rw [hc.answers, List.length_map, List.length_range]
    cases p
    all_goals exact ⟨by rw [Phase.state, hv, hc.messages], by rw [Phase.state, hb, hc.answers],
      by simp only [Phase.state, hv, hb]; omega⟩
  cases p with
  | asking => exact hcounted (.inl rfl) hn
  | asked m => exact hcounted (.inl rfl) hn.1
  | answering => exact hcounted (.inr rfl) hn.1
  | answered m => exact hcounted (.inr rfl) hn.1

theorem length_answered_le (k : Nat) :
    (answered clientInput serverInput k).length ≤ room bufSize := by
  rw [answered]
  split <;> exact length_fgetsLine_le _ _

/-- What is under way leaves room for the zero byte. -/
theorem ready_round (hclient : 0 ∉ clientInput) (hserver : 0 ∉ serverInput) :
    Ready protocol (Round clientInput serverInput) (fun _ => True) where
  nothing := trivial
  ask c v _ := by
    have htext : text (fgets bufSize (zeros bufSize) c.stdin).1 = _ :=
      text_fgets_cleared c.stdin (by decide)
    exact ⟨_, congrArg (Option.map _) htext⟩
  hear := by
    rintro c v m ⟨n, -, rfl⟩
    have hlen : (fgetsNth (room bufSize) clientInput n).length ≤ room bufSize :=
      length_fgetsLine_le _ _
    have hrecv : ∃ v', protocol.hear v (fgetsNth (room bufSize) clientInput n) = some v' :=
      ⟨_, congrArg (Option.map _) (text_message hclient n)⟩
    exact ⟨hlen.trans (Nat.le_succ _), iff_of_true hrecv trivial⟩
  answer := by
    rintro c v ⟨n, -, htemp⟩
    have htext : text v.temp = some (fgetsNth (room bufSize) clientInput n) := by
      rw [htemp, text_message hclient]
    obtain ⟨t, ht⟩ : ∃ t, text (fgets bufSize v.temp v.stdin).1 = some t :=
      text_fgets htext v.stdin
    exact ⟨_, congrArg (Option.map _) ht⟩
  hearAnswer := by
    rintro c v m ⟨n, -, rfl⟩
    have hlen : (answered clientInput serverInput n).length ≤ room bufSize := length_answered_le n
    have htext := text_cleared (Nat.lt_succ_of_le hlen) (noNul_answered hclient hserver n)
    exact ⟨hlen.trans (Nat.le_succ _), _, congrArg (Option.map _) htext⟩

/-- When every message arrives in one piece, both sides display the other one's lines in order
and in turn, and the chat goes on as long as not both of them wait for nothing. -/
theorem takes_turns (clientInput serverInput temp : List Byte) (hclient : 0 ∉ clientInput)
    (hserver : 0 ∉ serverInput) (labels : List Label)
    (hwhole : Along (step protocol) Whole (start clientInput serverInput temp) labels) :
    Throughout (step protocol)
      (fun s => InOrder clientInput serverInput s ∧
        (Live s → ∃ a t, Whole s a ∧ step protocol s a = some t))
      (start clientInput serverInput temp) labels := by
  refine (throughout_inTurn (preserved_round hclient hserver) ⟨0, rfl, rfl, rfl, rfl⟩
    hwhole).mono fun s h => ⟨InTurn.inOrder h, ?_⟩
  exact fun hlive => (h.moves_iff (ready_round hclient hserver) hlive).mpr trivial

end Turns

/-- "hi" and "yo", each with its newline. -/
theorem takes_turns_hi_yo :
    ∃ s, run (step protocol) (start [104, 105, 10] [121, 111, 10] (zeros bufSize))
        [.ask, .hear 3, .answer, .hearAnswer 3] = some s ∧
      InOrder [104, 105, 10] [121, 111, 10] s ∧ s.client.shown = [[121, 111, 10]] := by
  have hwhole : Along (step protocol) Whole (start [104, 105, 10] [121, 111, 10] (zeros bufSize))
      [.ask, .hear 3, .answer, .hearAnswer 3] := by decide +kernel
  have h := takes_turns [104, 105, 10] [121, 111, 10] (zeros bufSize) (by decide) (by decide) _
    hwhole
  have hrun : run (step protocol) (start [104, 105, 10] [121, 111, 10] (zeros bufSize))
      [.ask, .hear 3, .answer, .hearAnswer 3] = some _ := rfl
  exact ⟨_, hrun, (h.last hrun).1, rfl⟩

end NetworkProgramming.ChatSession
