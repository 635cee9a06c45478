import NetworkProgramming.Library.Datagram
import NetworkProgramming.Library.LockStep
import NetworkProgramming.SuffixEcho

/-!
# The echo client and its server

`echo_client.c` sends all 100 bytes of its buffer for every line, the server answers
every `recv` with the text that it has got and "::SERVER".
-/
namespace NetworkProgramming.EchoTurns

open Buffer Datagram LockStep SuffixEcho Transition

structure Client where
  stdin : List Byte
  /-- The texts behind "Message from server: ". -/
  shown : List (List Byte)
  deriving DecidableEq, Repr

/-- The server's `buffer`, and the reply that it is about to send. -/
structure Replier where
  buffer : List Byte
  reply : List Byte
  deriving DecidableEq, Repr

/-- `send(client_socket, buffer, BUFSIZE, 0)`. -/
def Client.send (c : Client) : List Byte × Client :=
  let read := fgets bufSize (zeros bufSize) c.stdin
  (read.1, { c with stdin := read.2 })

/-- The `recv` of at most 99 bytes, the zero byte behind them and the `printf`. -/
def Client.recv (c : Client) (piece : List Byte) : Option Client :=
  (endText (readInto (zeros bufSize) piece) piece.length).bind fun buffer =>
    (text buffer).map fun t => { c with shown := c.shown ++ [t] }

def Replier.recv (v : Replier) (piece : List Byte) : Option Replier :=
  (Server.echo.round v.buffer piece).map fun r => ⟨r.2, r.1⟩

def protocol : Protocol Client Replier Byte where
  ask c := some c.send
  hearAnswer := Client.recv
  hear := Replier.recv
  answer v := some (v.reply, v)
  requestLimit := bufSize
  answerLimit := room bufSize

/-- The client in front of its loop, the server behind `accept` and `memset`. -/
def start (stdin : List Byte) : State Client Replier Byte :=
  LockStep.start ⟨stdin, []⟩ ⟨zeros bufSize, []⟩

/-- What the client displays for its line `k`. -/
def echoed (stdin : List Byte) (k : Nat) : List Byte :=
  fgetsNth (room bufSize) stdin k ++ Server.echo.suffix

/-- The echoes of the first lines have been displayed, in order. -/
def InOrder (stdin : List Byte) (s : State Client Replier Byte) : Prop :=
  s.client.shown = (List.range s.client.shown.length).map (echoed stdin)

/-- The text of the request and the suffix fit into the server's buffer. -/
def Fits (m : List Byte) : Prop := (Server.echo.reply m).length < bufSize

instance : DecidablePred Fits := fun _ => inferInstanceAs (Decidable (_ < _))

section Live
variable {s t : State Client Replier Byte} {a : Label}

theorem length_send (c : Client) : c.send.1.length = bufSize :=
  length_fgets c.stdin (by decide) List.length_replicate

/-- The suffix is part of every reply. -/
theorem reply_ne_nil {v v' : Replier} {piece : List Byte} (h : v.recv piece = some v') :
    v'.reply ≠ [] := by
  obtain ⟨r, hr, rfl⟩ := Option.map_eq_some_iff.mp h
  obtain ⟨mem, hmem, hr⟩ := Option.bind_eq_some_iff.mp hr
  obtain ⟨reply, hreply, rfl⟩ := Option.map_eq_some_iff.mp hr
  obtain ⟨t, -, htext⟩ := text_strcat (by decide) hmem
  obtain rfl := Option.some.inj (htext.symm.trans hreply)
  exact List.append_ne_nil_of_right_ne_nil t (by decide)

def Replying (s : State Client Replier Byte) : Prop := s.answering = true → s.server.reply ≠ []

theorem replying_step (h : Replying s) (ht : step protocol s a = some t) :
    Replying t ∧ Live t := by
  have hspeaks : Speaks protocol s a := by
    cases a with
    | ask =>
      intro turn r hr
      cases hr
      have hlen := length_send s.client
      exact .inl fun hnil => by simp [hnil, bufSize] at hlen
    | answer =>
      intro turn r hr
      cases hr
      exact .inl (h turn)
    | hear | hearAnswer => trivial
  refine ⟨?_, (live_iff_speaks ht).mpr hspeaks⟩
  cases move_of_step ht with
  | ask => exact h
  | hear len v turn pos queued hear => exact fun _ => reply_ne_nil hear
  | answer =>
    intro turn
    cases turn
  | hearAnswer => exact h

theorem throughout_replying (stdin : List Byte) (labels : List Label) :
    Throughout (step protocol) (fun s => Replying s ∧ Live s) (start stdin) labels :=
  throughout_invariant (fun _ _ _ h ht => replying_step h.1 ht)
    ⟨fun turn => absurd turn Bool.false_ne_true, .inl rfl⟩ labels

/-- Whatever the user types and whatever pieces the streams bring, the client and the server
never wait for each other for good. -/
theorem never_stuck (stdin : List Byte) (labels : List Label) :
    Throughout (step protocol) Live (start stdin) labels :=
  (throughout_replying stdin labels).mono fun _ h => h.2

end Live

section Turns
variable {input : List Byte}

/-- The first lines have been echoed. -/
structure Counted (input : List Byte) (sent shown : Nat) (c : Client) (v : Replier) : Prop where
  stdin : c.stdin = (fgetsRest (room bufSize))^[sent] input
  shown : c.shown = (List.range shown).map (echoed input)
  buffer : v.buffer.length = bufSize

/-- What holds in the `n`th round. -/
def Round (input : List Byte) (c : Client) (v : Replier) (p : Phase Byte) : Prop :=
  ∃ n, match p with
    | .asking => Counted input n n c v
    | .asked m => Counted input (n + 1) n c v ∧ m.length = bufSize ∧
        text m = some (fgetsNth (room bufSize) input n)
    | .answering => Counted input (n + 1) n c v ∧ v.reply = echoed input n ∧
        v.reply.length < bufSize
    | .answered m => Counted input (n + 1) n c v ∧ m = echoed input n ∧ m.length < bufSize

theorem noNul_echoed (h : 0 ∉ input) (k : Nat) : 0 ∉ echoed input k := by
  rw [echoed, List.mem_append, not_or]
  exact ⟨noNul_fgetsLine (noNul_iterate_fgetsRest h k), by decide⟩

/-- A whole buffer is answered by its text and the suffix, if both fit. -/
theorem recv_server {v : Replier} {m line : List Byte} (hlen : m.length = bufSize)
    (hbuf : v.buffer.length = bufSize) (htext : text m = some line) :
    v.recv m =
      if (line ++ Server.echo.suffix).length < bufSize then
        some ⟨readInto m (line ++ Server.echo.suffix ++ [0]), line ++ Server.echo.suffix⟩
      else none := by
  have hnul : 0 ∉ line ++ Server.echo.suffix := by
    rw [List.mem_append, not_or]
    exact ⟨(text_eq_some_iff.mp htext).1, by decide⟩
  have hfull : readInto v.buffer m = m := readInto_full _ _ (hbuf.trans hlen.symm)
  simp only [Replier.recv, Server.round, hfull, strcat, htext, Option.bind_some, hlen,
    List.length_append]
  split
  · rw [Option.bind_some, text_readInto_ended, takeWhile_of_noNul hnul]
    rfl
  · rfl

theorem text_send (c : Client) (hnul : 0 ∉ c.stdin) :
    text c.send.1 = some (fgetsLine (room bufSize) c.stdin) :=
  (text_fgets_cleared _ (by decide)).trans
    (congrArg some (takeWhile_of_noNul (noNul_fgetsLine hnul)))

theorem reply_of_text {m line : List Byte} (h : text m = some line) :
    Server.echo.reply m = line ++ Server.echo.suffix := by
  obtain ⟨-, h⟩ := Option.ite_none_right_eq_some.mp h
  rw [Server.reply, Option.some.inj h]

theorem recv_client {c : Client} {piece : List Byte} (hlen : piece.length < bufSize)
    (hnul : 0 ∉ piece) : c.recv piece = some { c with shown := c.shown ++ [piece] } := by
  have hroom : piece.length < (zeros bufSize).length := by simpa [zeros] using hlen
  rw [Client.recv, endText_readInto hroom, Option.bind_some, text_append_zero _ _ hnul]
  rfl

theorem preserved_round (hinput : 0 ∉ input) : Preserved protocol (Round input) where
  ask := by
    rintro c v m c' ⟨n, h⟩ hask
    have hstdin : 0 ∉ c.stdin := by
      rw [h.stdin]
      exact noNul_iterate_fgetsRest hinput n
    cases hask
    refine ⟨n, ⟨?_, h.shown, h.buffer⟩, length_send c, ?_⟩
    · rw [Function.iterate_succ_apply', ← h.stdin]
      exact fgets_rest _ _ _
    · rw [fgetsNth, ← h.stdin]
      exact text_send c hstdin
  hear := by
    rintro c v m v' ⟨n, h, hlen, htext⟩ - hhear
    rw [show protocol.hear v m = v.recv m from rfl, recv_server hlen h.buffer htext] at hhear
    obtain ⟨hroom, hhear⟩ := Option.ite_none_right_eq_some.mp hhear
    cases hhear
    refine ⟨n, ⟨h.stdin, h.shown, ?_⟩, rfl, hroom⟩
    rw [length_readInto, hlen]
    rw [hlen, List.length_append, List.length_singleton]
    exact Nat.succ_le_of_lt hroom
  answer := by
    rintro c v m v' ⟨n, h, hreply, hroom⟩ hanswer
    cases hanswer
    exact ⟨n, h, hreply, hroom⟩
  hearAnswer := by
    rintro c v m c' ⟨n, h, rfl, hroom⟩ - hhear
    rw [show protocol.hearAnswer c _ = c.recv _ from rfl,
      recv_client hroom (noNul_echoed hinput n)] at hhear
    cases hhear
    refine ⟨n + 1, h.stdin, ?_, h.buffer⟩
    rw [List.range_succ, List.map_append, ← h.shown]
    rfl

theorem ready_round (hinput : 0 ∉ input) : Ready protocol (Round input) Fits where
  nothing := by decide
  ask c v _ := ⟨_, rfl⟩
  hear := by
    rintro c v m ⟨n, h, hlen, htext⟩
    have hrecv := recv_server hlen h.buffer htext
    refine ⟨hlen.le, ?_⟩
    rw [Fits, reply_of_text htext]
    constructor
    · rintro ⟨v', hv⟩
      exact (Option.ite_none_right_eq_some.mp (hrecv.symm.trans hv)).1
    · intro hroom
      exact ⟨_, hrecv.trans (if_pos hroom)⟩
  answer c v _ := ⟨_, rfl⟩
  hearAnswer := by
    rintro c v m ⟨n, h, rfl, hroom⟩
    exact ⟨Nat.le_of_lt_succ hroom, _, recv_client hroom (noNul_echoed hinput n)⟩

theorem InTurn.inOrder {s : State Client Replier Byte} (h : InTurn (Round input) s) :
    InOrder input s := by
  obtain ⟨c, v, p, rfl, n, hn⟩ := h
  have hcounted : ∀ {sent}, Counted input sent n c v → InOrder input (Phase.state c v p) := by
    intro sent h
    have hlen : c.shown.length = n := by rw [h.shown, List.length_map, List.length_range]
    cases p
    all_goals
      rw [InOrder, Phase.state, hlen]
      exact h.shown
  cases p with
  | asking => exact hcounted hn
  | asked m | answering | answered m => exact hcounted hn.1

/-- When every message arrives in one piece, the client displays each of its lines with the
suffix, in order, until a line has more than 91 characters; only then does it stop. -/
theorem echoes_in_order (input : List Byte) (hinput : 0 ∉ input) (labels : List Label)
    (hwhole : Along (step protocol) Whole (start input) labels) :
    Throughout (step protocol)
      (fun s => InOrder input s ∧
        ((∃ a t, Whole s a ∧ step protocol s a = some t) ↔ Fits s.requests))
      (start input) labels := by
  have hturns := throughout_inTurn (preserved_round hinput)
    ⟨0, rfl, rfl, List.length_replicate⟩ hwhole
  refine (hturns.and (throughout_replying input labels)).mono ?_
  rintro s ⟨h, -, hlive⟩
  exact ⟨InTurn.inOrder h, h.moves_iff (ready_round hinput) hlive⟩

/-- "hi" with its newline. -/
theorem echoes_hi :
    Throughout (step protocol)
      (fun s => InOrder [104, 105, 10] s ∧
        ((∃ a t, Whole s a ∧ step protocol s a = some t) ↔ Fits s.requests))
      (start [104, 105, 10]) [.ask, .hear 100, .answer, .hearAnswer 11] :=
  echoes_in_order [104, 105, 10] (by decide) _ (by decide +kernel)

end Turns

end NetworkProgramming.EchoTurns
