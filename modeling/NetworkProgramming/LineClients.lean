import NetworkProgramming.Library.Columns
import NetworkProgramming.UserInput

/-!
# The loops of the line clients

The loops of `uecho_client.c`, `uchat_client.c` and the chat client's `send_msg`
over the whole standard input. `fgets` cuts long lines, and at the end of the
input it leaves the buffer as it is; no client looks at its result.
-/
namespace NetworkProgramming.LineClients

open Buffer Columns UserInput

inductive Client where
  | uecho
  | uchat
  | chat
  deriving DecidableEq, Repr

/-- `BUF_SIZE`. -/
def Client.size : Client → Nat
  | .uecho => 30
  | .uchat => 50
  | .chat => 100

/-- The client gets a reply to everything it sends, into the buffer of its input. -/
def Client.udp : Client → Bool
  | .uecho | .uchat => true
  | .chat => false

/-- The characters that one `fgets` stores at most. -/
def Client.room (c : Client) : Nat := Buffer.room c.size

/-- A datagram from the server, which answers with no more bytes than it has got. -/
structure Reply (size : Nat) where
  bytes : List Byte
  short : bytes.length < size

/-- `message` holds what the stack held; `msg` is a global. -/
def Client.initial (c : Client) (stack : Fin c.size → Byte) : List Byte :=
  if c.udp then List.ofFn stack else zeros c.size

/-- `str_len = recvfrom(…, message, …)` and `message[str_len] = 0`. -/
def receive (message reply : List Byte) : List Byte := (readInto message reply).set reply.length 0

inductive Status where
  | running
  | undefined
  | ended
  deriving DecidableEq, Repr

/-- The user texts that so many rounds send, and how they end. A buffer without a zero byte
has no defined text. -/
def Client.loop (c : Client) :
    Nat → (Nat → Reply c.size) → List Byte → List Byte → List (List Byte) × Status
  | 0, _, _, _ => ([], .running)
  | rounds + 1, replies, message, stdin =>
    let read := fgets c.size message stdin
    match text read.1 with
    | none => ([], .undefined)
    | some t =>
      if isQuit t then ([], .ended)
      else
        let message := if c.udp then receive read.1 (replies 0).bytes else read.1
        let rest := c.loop rounds (fun k => replies (k + 1)) message read.2
        (t :: rest.1, rest.2)

/-- The input up to its first whole line that is `q` or `Q`. -/
def upToQuit : Nat → List Byte → List Byte
  | _, [] => []
  | col, b :: bs =>
    if col = 0 ∧ isQuit ((b :: bs).take 2) then [] else b :: upToQuit (nextColumn col b) bs

/-- The loop ends, having sent these texts. -/
def Client.Ends (c : Client) (replies : Nat → Reply c.size) (message stdin : List Byte)
    (texts : List (List Byte)) : Prop :=
  ∃ rounds, c.loop rounds replies message stdin = (texts, .ended)

/-- The loop ends, and the texts it has sent are the parts of the input up to the first
line to quit, each of them once. -/
def Client.SendsTyped (c : Client) (replies : Nat → Reply c.size) (message : List Byte)
    (col : Nat) (stdin : List Byte) : Prop :=
  ∃ texts, c.Ends replies message stdin texts ∧ [] ∉ texts ∧
    texts.flatten = upToQuit col stdin

/-- The column of the first piece that reads like a line to quit. -/
def quitColumn (room : Nat) : Nat → List Byte → Option Nat
  | _, [] => none
  | col, b :: bs =>
    if room ∣ col ∧ isQuit ((b :: bs).take 2) then some col
    else quitColumn room (nextColumn col b) bs

/-- The number of pieces. -/
def pieceCount (room : Nat) : Nat → List Byte → Nat
  | _, [] => 0
  | col, b :: bs => (if room ∣ col then 1 else 0) + pieceCount room (nextColumn col b) bs

/-- The text in the buffer of a UDP client at the end of the input: the reply to the last
datagram, or what was there before. -/
def Client.endText (c : Client) (replies : Nat → Reply c.size) (message : List Byte) (col : Nat)
    (stdin : List Byte) : Option (List Byte) :=
  match pieceCount c.room col stdin with
  | 0 => text message
  | n + 1 => some ((replies n).bytes.takeWhile (· != 0))

/-- The first piece that reads like a line to quit begins a line, or there is none and a UDP
client finds such a line in its buffer at the end of the input. -/
def Client.StopsRight (c : Client) (replies : Nat → Reply c.size) (message : List Byte)
    (col : Nat) (stdin : List Byte) : Prop :=
  quitColumn c.room col stdin = some 0 ∨
    c.udp = true ∧ quitColumn c.room col stdin = none ∧
      ∃ t ∈ c.endText replies message col stdin, isQuit t = true

section Scans
variable {room col : Nat} {b : Byte} {l r : List Byte}

theorem quitColumn_quiet (h : Quiet room col l) :
    quitColumn room col (l ++ r) = quitColumn room (columnAfter col l) r := by
  induction l generalizing col with
  | nil => rfl
  | cons b l ih => simp [quitColumn, h.1, ih h.2]

theorem pieceCount_quiet (h : Quiet room col l) :
    pieceCount room col (l ++ r) = pieceCount room (columnAfter col l) r := by
  induction l generalizing col with
  | nil => rfl
  | cons b l ih => simp [pieceCount, h.1, ih h.2]

theorem upToQuit_quiet (h : Quiet room col l) :
    upToQuit col (l ++ r) = l ++ upToQuit (columnAfter col l) r := by
  induction l generalizing col with
  | nil => rfl
  | cons b l ih =>
    have hcol : col ≠ 0 := by
      rintro rfl
      exact h.1 (Nat.dvd_zero room)
    simp [upToQuit, hcol, ih h.2]

/-- Only the start of a piece can be the one that is looked for. -/
theorem quitColumn_piece (hcol : room ∣ col) (h : Quiet room (nextColumn col b) l) :
    quitColumn room col ((b :: l) ++ r) =
      if isQuit (((b :: l) ++ r).take 2) then some col
      else quitColumn room (columnAfter col (b :: l)) r := by
  simp only [List.cons_append, quitColumn, quitColumn_quiet h, hcol, true_and, columnAfter_cons]

theorem pieceCount_piece (hcol : room ∣ col) (h : Quiet room (nextColumn col b) l) :
    pieceCount room col ((b :: l) ++ r) = 1 + pieceCount room (columnAfter col (b :: l)) r := by
  rw [List.cons_append, pieceCount, if_pos hcol, pieceCount_quiet h, columnAfter_cons]

theorem upToQuit_piece (hquit : isQuit (((b :: l) ++ r).take 2) = false)
    (h : Quiet room (nextColumn col b) l) :
    upToQuit col ((b :: l) ++ r) = (b :: l) ++ upToQuit (columnAfter col (b :: l)) r := by
  rw [List.cons_append] at hquit ⊢
  rw [upToQuit, hquit, upToQuit_quiet h]
  simp

theorem upToQuit_eq_nil_iff (hquit : isQuit (((b :: l) ++ r).take 2) = true) :
    upToQuit col ((b :: l) ++ r) = [] ↔ col = 0 := by
  rw [List.cons_append] at hquit ⊢
  rw [upToQuit, hquit]
  simp

end Scans

/-- A piece is a line to quit exactly if the input begins with one. -/
theorem isQuit_piece_iff {room : Nat} (stdin : List Byte) (hroom : 1 < room) :
    isQuit (fgetsLine room stdin) = isQuit (stdin.take 2) := by
  have hquit : ∀ {l}, isQuit l = true ↔ l = [113, 10] ∨ l = [81, 10] := by simp [isQuit]
  rw [Bool.eq_iff_iff, hquit, hquit]
  constructor
  · obtain ⟨rest, hrest⟩ := prefix_fgetsLine room stdin
    rintro (h | h) <;> rw [← hrest, h] <;> simp
  · have hline : ∀ b : Byte, 10 ∉ [b] → stdin.take 2 = [b, 10] →
        fgetsLine room stdin = [b, 10] := by
      intro b hb h
      rw [← List.take_append_drop 2 stdin, h]
      exact fgetsLine_line (by simpa using hroom : [b].length < room) hb
    rintro (h | h)
    · exact .inl (hline 113 (by decide) h)
    · exact .inr (hline 81 (by decide) h)

theorem text_receive {message reply : List Byte} (h : reply.length < message.length) :
    text (receive message reply) = some (reply.takeWhile (· != 0)) := by
  rw [receive, set_readInto 0 h, List.append_assoc]
  exact text_ended reply _

section Loop
variable {c : Client} {replies : Nat → Reply c.size} {message stdin : List Byte}
  {texts : List (List Byte)}

/-- The buffer behind a round that has sent its text. -/
def Client.sentBuffer (c : Client) (replies : Nat → Reply c.size) (message stdin : List Byte) :
    List Byte :=
  let read := fgets c.size message stdin
  if c.udp then receive read.1 (replies 0).bytes else read.1

theorem ends_of_none (h : text (fgets c.size message stdin).1 = none) :
    ¬ c.Ends replies message stdin texts := by
  rintro ⟨rounds, hrun⟩
  cases rounds with
  | zero => cases hrun
  | succ rounds => simp [Client.loop, h] at hrun

theorem ends_of_quit {t : List Byte} (h : text (fgets c.size message stdin).1 = some t)
    (hquit : isQuit t = true) : c.Ends replies message stdin texts ↔ texts = [] := by
  constructor
  · rintro ⟨rounds, hrun⟩
    cases rounds with
    | zero => cases hrun
    | succ rounds =>
      simp only [Client.loop, h, hquit, if_true, Prod.mk.injEq, and_true] at hrun
      exact hrun.symm
  · rintro rfl
    exact ⟨1, by simp [Client.loop, h, hquit]⟩

theorem ends_of_send {t : List Byte} (h : text (fgets c.size message stdin).1 = some t)
    (hquit : isQuit t = false) :
    c.Ends replies message stdin texts ↔
      ∃ rest, texts = t :: rest ∧ c.Ends (fun k => replies (k + 1))
        (c.sentBuffer replies message stdin) (fgets c.size message stdin).2 rest := by
  constructor
  · rintro ⟨rounds, hrun⟩
    cases rounds with
    | zero => cases hrun
    | succ rounds =>
      simp only [Client.loop, h, hquit, Bool.false_eq_true, if_false, Prod.mk.injEq] at hrun
      exact ⟨_, hrun.1.symm, rounds, Prod.ext rfl hrun.2⟩
  · rintro ⟨rest, rfl, rounds, hrun⟩
    refine ⟨rounds + 1, ?_⟩
    simp only [Client.loop, h, hquit, Bool.false_eq_true, if_false]
    simp only [Client.sentBuffer] at hrun
    rw [hrun]

/-- At the end of the input the loop ends only on a line to quit in the buffer. -/
theorem sendsTyped_nil {col : Nat} :
    c.SendsTyped replies message col [] ↔ ∃ t ∈ text message, isQuit t = true := by
  have hread : (fgets c.size message []).1 = message := by simp [fgets]
  cases ht : text message with
  | none =>
    refine iff_of_false ?_ (by simp)
    rintro ⟨texts, hends, -⟩
    exact ends_of_none (by rw [hread, ht]) hends
  | some t =>
    have htext : text (fgets c.size message []).1 = some t := by rw [hread, ht]
    cases hquit : isQuit t with
    | true =>
      refine iff_of_true ⟨[], (ends_of_quit htext hquit).mpr rfl, by simp, by simp [upToQuit]⟩ ?_
      exact ⟨t, rfl, hquit⟩
    | false =>
      -- what is sent now has not been typed
      refine iff_of_false ?_ (by simp [hquit])
      rintro ⟨texts, hends, hne, hflat⟩
      obtain ⟨rest, rfl, -⟩ := (ends_of_send htext hquit).mp hends
      rw [upToQuit, List.flatten_cons, List.append_eq_nil_iff] at hflat
      exact hne (by simp [hflat.1])

/-- A piece that is not a line to quit is sent, and the loop goes on behind it. -/
theorem sendsTyped_piece {col col' : Nat} {b : Byte} {tail rest : List Byte}
    (htext : text (fgets c.size message stdin).1 = some (b :: tail))
    (hrest : (fgets c.size message stdin).2 = rest) (hquit : isQuit (b :: tail) = false)
    (htyped : upToQuit col stdin = (b :: tail) ++ upToQuit col' rest) :
    c.SendsTyped replies message col stdin ↔
      c.SendsTyped (fun k => replies (k + 1)) (c.sentBuffer replies message stdin) col' rest := by
  constructor
  · rintro ⟨texts, hends, hne, hflat⟩
    obtain ⟨texts', rfl, hends'⟩ := (ends_of_send htext hquit).mp hends
    rw [htyped, List.flatten_cons, List.append_cancel_left_eq] at hflat
    exact ⟨texts', hrest ▸ hends', fun h => hne (by simp [h]), hflat⟩
  · rintro ⟨texts, hends, hne, hflat⟩
    refine ⟨(b :: tail) :: texts, (ends_of_send htext hquit).mpr ⟨texts, rfl, hrest ▸ hends⟩,
      by simpa using hne, ?_⟩
    rw [htyped, List.flatten_cons, hflat]

theorem length_sentBuffer (hmessage : message.length = c.size) :
    (c.sentBuffer replies message stdin).length = c.size := by
  have hread := length_fgets stdin (by cases c <;> decide) hmessage
  have hshort := (replies 0).short
  rw [Client.sentBuffer]
  split
  · rw [receive, List.length_set, length_readInto (by omega), hread]
  · exact hread

theorem text_sentBuffer (hmessage : message.length = c.size) (hudp : c.udp = true) :
    text (c.sentBuffer replies message stdin) = some ((replies 0).bytes.takeWhile (· != 0)) := by
  have hread := length_fgets stdin (by cases c <;> decide) hmessage
  rw [Client.sentBuffer, if_pos hudp]
  exact text_receive (by rw [hread]; exact (replies 0).short)

/-- What is in the buffer of a UDP client at the end is the same one piece later. -/
theorem endText_piece {col col' : Nat} {rest : List Byte} (hmessage : message.length = c.size)
    (hudp : c.udp = true) (hcount : pieceCount c.room col stdin = 1 + pieceCount c.room col' rest) :
    c.endText replies message col stdin =
      c.endText (fun k => replies (k + 1)) (c.sentBuffer replies message stdin) col' rest := by
  rw [Client.endText, Client.endText, hcount, Nat.add_comm]
  cases pieceCount c.room col' rest with
  | zero => exact (text_sentBuffer hmessage hudp).symm
  | succ n => rfl

section Piece
variable {col : Nat} {b : Byte} {tail rest : List Byte}

/-- In front of a line to quit the loop ends, and that is right at the start of a line. -/
theorem sendsTyped_quit
    (htext : text (fgets c.size message ((b :: tail) ++ rest)).1 = some (b :: tail))
    (hq : isQuit (b :: tail) = true) (hquit : isQuit (((b :: tail) ++ rest).take 2) = true) :
    c.SendsTyped replies message col ((b :: tail) ++ rest) ↔ col = 0 := by
  constructor
  · rintro ⟨texts, hends, -, hflat⟩
    obtain rfl := (ends_of_quit htext hq).mp hends
    exact (upToQuit_eq_nil_iff hquit).mp hflat.symm
  · intro hcol
    exact ⟨[], (ends_of_quit htext hq).mpr rfl, by simp,
      ((upToQuit_eq_nil_iff hquit).mpr hcol).symm⟩

theorem stopsRight_quit (hdiv : c.room ∣ col) (hquiet : Quiet c.room (nextColumn col b) tail)
    (hquit : isQuit (((b :: tail) ++ rest).take 2) = true) :
    c.StopsRight replies message col ((b :: tail) ++ rest) ↔ col = 0 := by
  rw [Client.StopsRight, quitColumn_piece hdiv hquiet, hquit, if_pos rfl]
  simp

theorem stopsRight_piece (hmessage : message.length = c.size) (hdiv : c.room ∣ col)
    (hquiet : Quiet c.room (nextColumn col b) tail)
    (hquit : isQuit (((b :: tail) ++ rest).take 2) = false) :
    c.StopsRight replies message col ((b :: tail) ++ rest) ↔
      c.StopsRight (fun k => replies (k + 1))
        (c.sentBuffer replies message ((b :: tail) ++ rest))
        (columnAfter col (b :: tail)) rest := by
  rw [Client.StopsRight, Client.StopsRight, quitColumn_piece hdiv hquiet, hquit,
    if_neg Bool.false_ne_true]
  refine or_congr Iff.rfl (and_congr_right fun hudp => ?_)
  rw [endText_piece hmessage hudp (pieceCount_piece hdiv hquiet)]

end Piece

/-- The law from any place where a piece begins. The chat client's buffer never holds a line
to quit there. -/
theorem sendsTyped_iff_stopsRight {col : Nat} (hmessage : message.length = c.size)
    (hchat : c.udp = false → ∀ t ∈ text message, isQuit t = false) (hnul : 0 ∉ stdin)
    (hcol : stdin ≠ [] → c.room ∣ col) :
    c.SendsTyped replies message col stdin ↔ c.StopsRight replies message col stdin := by
  have hsize : 1 < c.size := by cases c <;> decide
  have hroom : 1 < c.room := by cases c <;> decide
  -- each piece takes a character off the input
  induction hn : stdin.length using Nat.strong_induction_on
    generalizing replies message col stdin with
  | _ n ih =>
  by_cases hne : stdin = []
  · subst hne
    rw [sendsTyped_nil, Client.StopsRight, Client.endText, pieceCount, quitColumn]
    cases hudp : c.udp with
    | true => simp
    | false => simpa using hchat hudp
  · obtain ⟨b, tail, rest, rfl, hline, htext, hrest⟩ := fgets_spec message hsize hne hnul
    have hline : fgetsLine c.room ((b :: tail) ++ rest) = b :: tail := hline
    have hdiv : c.room ∣ col := hcol hne
    have hquiet : Quiet c.room (nextColumn col b) tail :=
      quiet_piece hdiv (hline ▸ length_fgetsLine_le _ _) (hline ▸ newline_notMem_fgetsLine _ _)
    have hquit := isQuit_piece_iff ((b :: tail) ++ rest) hroom
    rw [hline] at hquit
    cases hq : isQuit (b :: tail) with
    | true =>
      rw [sendsTyped_quit htext hq (hquit.symm.trans hq),
        stopsRight_quit hdiv hquiet (hquit.symm.trans hq)]
    | false =>
      have hq' := hquit.symm.trans hq
      rw [sendsTyped_piece htext hrest hq (upToQuit_piece hq' hquiet),
        stopsRight_piece hmessage hdiv hquiet hq']
      refine ih rest.length ?_ (length_sentBuffer hmessage) (fun hudp t ht => ?_)
        (fun h => hnul (List.mem_append_right _ h)) (fun h => ?_) rfl
      · rw [← hn, List.length_append, List.length_cons]
        omega
      · rw [Client.sentBuffer, if_neg (by simp [hudp]), htext] at ht
        cases ht
        exact hq
      · rw [← hline]
        apply dvd_columnAfter_piece hdiv
        rwa [hline, List.drop_left]

end Loop

/-- The clients send the input up to the first line to quit, and stop there, exactly if the
first piece that reads like such a line begins a line, or there is none and the reply to the
last datagram is one. -/
theorem sendsTyped_iff (c : Client) (replies : Nat → Reply c.size) (stack : Fin c.size → Byte)
    (stdin : List Byte) (hnul : 0 ∉ stdin) :
    c.SendsTyped replies (c.initial stack) 0 stdin ↔
      c.StopsRight replies (c.initial stack) 0 stdin := by
  refine sendsTyped_iff_stopsRight ?_ (fun hudp t ht => ?_) hnul fun _ => Nat.dvd_zero c.room
  · rw [Client.initial]
    split <;> simp
  · rw [Client.initial, if_neg (by simp [hudp])] at ht
    rw [text_zeros _ t ht]
    rfl

/-- "hi" and a line to quit. -/
theorem uecho_sendsTyped :
    Client.SendsTyped .uecho (fun _ => ⟨[104, 105, 10], by decide⟩)
      (Client.initial .uecho fun _ => 0) 0 [104, 105, 10, 113, 10] :=
  (sendsTyped_iff .uecho _ (fun _ => 0) _ (by decide)).mpr (.inl (by decide))

/-- A line of 29 times "a" and a "q" is cut in front of the "q", which is taken for a line. -/
theorem long_line_not_sent : ¬ ∀ (c : Client) (replies : Nat → Reply c.size)
    (stack : Fin c.size → Byte) (stdin : List Byte), 0 ∉ stdin →
      c.SendsTyped replies (c.initial stack) 0 stdin := by
  intro h
  have hsent := h .uecho (fun _ => ⟨[], by decide⟩) (fun _ => 0)
    (List.replicate 29 97 ++ [113, 10]) (by decide)
  rw [sendsTyped_iff_stopsRight (by decide) (by decide) (by decide)
    fun _ => Nat.dvd_zero (Client.room .uecho)] at hsent
  rcases hsent with hstart | ⟨-, hnone, -⟩
  · exact absurd hstart (by decide)
  · exact absurd hnone (by decide)

end NetworkProgramming.LineClients
