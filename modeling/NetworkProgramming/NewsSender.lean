import NetworkProgramming.Library.Columns
import NetworkProgramming.Library.Datagram

/-!
# The multicast news

The loop of `news_sender.c`, which asks for the end of its file in front of each
`fgets`, and the receivers. Only a read that meets the end sets the flag that `feof`
looks at. The sender of the final review has the same loop.
-/
namespace NetworkProgramming.NewsSender

open Buffer Columns Datagram

/-- `BUF_SIZE` of the sender and of the receivers. -/
def bufSize : Nat := 30

/-- The `FILE *`: what is left to read, and its end-of-file flag. -/
structure File where
  rest : List Byte
  eof : Bool
  deriving DecidableEq, Repr

def fopen (content : List Byte) : File := ⟨content, false⟩

/-- `fgets` with room for so many characters comes to the end of the file. -/
def meetsEnd : Nat → List Byte → Bool
  | 0, _ => false
  | _, [] => true
  | room + 1, b :: bs => if b = 10 then false else meetsEnd room bs

/-- `fgets(buf, BUF_SIZE, fp)`. -/
def fgetsFile (buf : List Byte) (fp : File) : List Byte × File :=
  let read := fgets bufSize buf fp.rest
  (read.1, ⟨read.2, fp.eof || meetsEnd (bufSize - 1) fp.rest⟩)

/-- The datagrams that the loop has sent when it ends, after so many rounds at most; `none` if
it does not end by then, or where a buffer without a zero byte has no text. -/
def sendLoop : Nat → List Byte → File → Option (List (List Byte))
  | 0, _, fp => if fp.eof then some [] else none
  | rounds + 1, buf, fp =>
    if fp.eof then some []
    else
      let read := fgetsFile buf fp
      (text read.1).bind fun datagram =>
        (sendLoop rounds read.1 read.2).map (datagram :: ·)

/-- What a receiver that gets these datagrams prints. -/
def printed : List Byte → List (List Byte) → Option (List Byte)
  | _, [] => some []
  | buf, datagram :: datagrams =>
    (receive (bufSize - 1) buf datagram).bind fun buf =>
      (text buf).bind fun shown => (printed buf datagrams).map (shown ++ ·)

/-- The loop ends, its datagrams are the content in pieces of 1 to 29 bytes, and the receiver
prints the content. -/
def SendsOnce (sendBuf recvBuf : List Byte) (fp : File) : Prop :=
  ∃ rounds datagrams, sendLoop rounds sendBuf fp = some datagrams ∧
    datagrams.flatten = fp.rest ∧ (∀ d ∈ datagrams, 1 ≤ d.length ∧ d.length ≤ bufSize - 1) ∧
    printed recvBuf datagrams = some fp.rest

theorem meetsEnd_iff {room : Nat} {content : List Byte} :
    meetsEnd room content = true ↔
      fgetsLine room content = content ∧ content.length < room ∧
        content.getLast? ≠ some 10 := by
  induction room generalizing content with
  | zero => simp [meetsEnd]
  | succ room ih =>
    cases content with
    | nil => simp [meetsEnd, fgetsLine]
    | cons b bs =>
      by_cases hb : b = 10
      · cases bs <;> simp [meetsEnd, fgetsLine, hb]
      · rw [meetsEnd, if_neg hb, ih, fgetsLine, if_neg hb]
        cases bs with
        | nil => simp [hb]
        | cons c cs => simp [List.getLast?_cons_cons]

/-- Datagrams of at most 29 bytes without NUL are printed as they are. -/
theorem printed_eq_flatten {recvBuf : List Byte} {datagrams : List (List Byte)}
    (hbuf : recvBuf.length = bufSize)
    (h : ∀ d ∈ datagrams, d.length ≤ bufSize - 1 ∧ 0 ∉ d) :
    printed recvBuf datagrams = some datagrams.flatten := by
  induction datagrams generalizing recvBuf with
  | nil => rfl
  | cons d ds ih =>
    obtain ⟨hshort, hnul⟩ := h d (by simp)
    have hlt : d.length < recvBuf.length := by
      rw [hbuf]
      exact Nat.lt_of_le_of_lt hshort (by decide)
    have hreceive := receive_of_short hshort hlt
    have hlen := length_receive (by rw [hbuf]; decide) hreceive
    rw [printed, hreceive, Option.bind_some, text_append_zero d _ hnul, Option.bind_some,
      ih (hlen.trans hbuf) fun e he => h e (by simp [he])]
    rfl

/-- The first three parts of `SendsOnce`. -/
def Sends (buf : List Byte) (fp : File) : Prop :=
  ∃ rounds datagrams, sendLoop rounds buf fp = some datagrams ∧ datagrams.flatten = fp.rest ∧
    ∀ d ∈ datagrams, 1 ≤ d.length ∧ d.length ≤ bufSize - 1

/-- The receiver adds and loses nothing. -/
theorem sendsOnce_iff_sends {sendBuf recvBuf : List Byte} {fp : File}
    (hbuf : recvBuf.length = bufSize) (hnul : 0 ∉ fp.rest) :
    SendsOnce sendBuf recvBuf fp ↔ Sends sendBuf fp := by
  constructor
  · rintro ⟨rounds, datagrams, hloop, hflat, hlen, -⟩
    exact ⟨rounds, datagrams, hloop, hflat, hlen⟩
  · rintro ⟨rounds, datagrams, hloop, hflat, hlen⟩
    refine ⟨rounds, datagrams, hloop, hflat, hlen, ?_⟩
    rw [printed_eq_flatten hbuf fun d hd => ⟨(hlen d hd).2, fun h0 => ?_⟩, hflat]
    exact hnul (hflat ▸ List.mem_flatten_of_mem hd h0)

theorem sends_eof {buf : List Byte} {fp : File} (h : fp.eof = true) :
    Sends buf fp ↔ fp.rest = [] := by
  constructor
  · rintro ⟨rounds, datagrams, hloop, hflat, -⟩
    cases rounds <;> simp only [sendLoop, h, if_true, Option.some.injEq] at hloop <;>
      exact hflat ▸ hloop ▸ rfl
  · intro hrest
    exact ⟨0, [], by simp [sendLoop, h], hrest.symm, by simp⟩

/-- A round that sends the next piece of the file. -/
theorem sends_round {buf datagram : List Byte} {fp : File} (heof : fp.eof = false)
    (htext : text (fgetsFile buf fp).1 = some datagram)
    (hrest : fp.rest = datagram ++ (fgetsFile buf fp).2.rest)
    (hlen : 1 ≤ datagram.length ∧ datagram.length ≤ bufSize - 1) :
    Sends buf fp ↔ Sends (fgetsFile buf fp).1 (fgetsFile buf fp).2 := by
  constructor
  · rintro ⟨rounds, datagrams, hloop, hflat, hlens⟩
    cases rounds with
    | zero => simp [sendLoop, heof] at hloop
    | succ rounds =>
      simp only [sendLoop, heof, Bool.false_eq_true, if_false, htext, Option.bind_some,
        Option.map_eq_some_iff] at hloop
      obtain ⟨rest, hloop, rfl⟩ := hloop
      rw [hrest, List.flatten_cons, List.append_cancel_left_eq] at hflat
      exact ⟨rounds, rest, hloop, hflat, fun d hd => hlens d (List.mem_cons_of_mem _ hd)⟩
  · rintro ⟨rounds, rest, hloop, hflat, hlens⟩
    refine ⟨rounds + 1, datagram :: rest, ?_, ?_, List.forall_mem_cons.mpr ⟨hlen, hlens⟩⟩
    · simp only [sendLoop, heof, Bool.false_eq_true, if_false, htext, Option.bind_some, hloop,
        Option.map_some]
    · rw [List.flatten_cons, hflat, ← hrest]

/-- At the end of a file whose flag is not set, the loop sends something that is not there. -/
theorem not_sends_nil (buf : List Byte) : ¬ Sends buf ⟨[], false⟩ := by
  rintro ⟨rounds, datagrams, hloop, hflat, hlens⟩
  cases rounds with
  | zero => simp [sendLoop] at hloop
  | succ rounds =>
    simp only [sendLoop, Bool.false_eq_true, if_false, Option.bind_eq_some_iff,
      Option.map_eq_some_iff] at hloop
    obtain ⟨datagram, -, rest, -, rfl⟩ := hloop
    rw [List.flatten_cons, List.append_eq_nil_iff] at hflat
    have hpos := (hlens datagram (by simp)).1
    simp [hflat.1] at hpos

/-- A piece that does not meet the end ends a line or takes all the room. -/
theorem full_of_not_meetsEnd {room : Nat} {content : List Byte}
    (h : meetsEnd room content = false) :
    (fgetsLine room content).getLast? = some 10 ∨ (fgetsLine room content).length = room := by
  by_cases hlt : (fgetsLine room content).length < content.length
  · exact fgetsLine_full hlt
  · have hall : fgetsLine room content = content :=
      (prefix_fgetsLine room content).eq_of_length_le (by omega)
    have hle := length_fgetsLine_le room content
    by_contra hnot
    rw [not_or, hall] at hnot
    rw [hall] at hle
    have hmeets := meetsEnd_iff.mpr ⟨hall, by omega, hnot.1⟩
    rw [h] at hmeets
    cases hmeets

/-- From the column of a piece on, the rest of the file is sent once exactly if its last
piece is shorter than the room and ends no line. -/
theorem sends_iff {buf content : List Byte} {col : Nat} (hcol : bufSize - 1 ∣ col)
    (hnul : 0 ∉ content) :
    Sends buf ⟨content, false⟩ ↔ ¬ bufSize - 1 ∣ columnAfter col content := by
  induction hn : content.length using Nat.strong_induction_on generalizing buf content col with
  | _ n ih =>
  by_cases hne : content = []
  · subst hne
    exact iff_of_false (not_sends_nil buf) (not_not_intro hcol)
  · obtain ⟨b, tail, rest, hcontent, hline, htext, hrest⟩ :=
      fgets_spec buf (by decide : 1 < bufSize) hne hnul
    have hle : (b :: tail).length ≤ bufSize - 1 := hline ▸ length_fgetsLine_le _ _
    have hround : Sends buf ⟨content, false⟩ ↔
        Sends (fgetsFile buf ⟨content, false⟩).1 (fgetsFile buf ⟨content, false⟩).2 :=
      sends_round rfl htext (by simp only [fgetsFile, hrest]; exact hcontent)
        ⟨Nat.succ_pos _, hle⟩
    rw [hround]
    cases hmeets : meetsEnd (bufSize - 1) content with
    | true =>
      -- the last piece: the flag is set, and nothing is left
      obtain ⟨hall, hshort, hlast⟩ := meetsEnd_iff.mp hmeets
      have hnl : 10 ∉ content := by
        intro hmem
        rw [← hall] at hmem
        exact hlast (hall ▸ getLast?_of_newline_mem hmem)
      have hnil : rest = [] := by
        rw [← hall.symm.trans hline, List.self_eq_append_right] at hcontent
        exact hcontent
      rw [sends_eof (by simp [fgetsFile, hmeets])]
      simp only [fgetsFile, hrest]
      refine iff_of_true hnil ?_
      rw [columnAfter_of_notMem hnl, Nat.dvd_add_right hcol]
      exact Nat.not_dvd_of_pos_of_lt (List.length_pos_iff.mpr hne) hshort
    | false =>
      have hdvd : bufSize - 1 ∣ columnAfter col (b :: tail) :=
        hline ▸ dvd_columnAfter_full hcol (full_of_not_meetsEnd hmeets)
      have hnext : (fgetsFile buf ⟨content, false⟩).2 = ⟨rest, false⟩ := by
        simp [fgetsFile, hrest, hmeets]
      rw [hnext, ih rest.length (by rw [← hn, hcontent, List.length_append]; simp) hdvd
        (fun h => hnul (hcontent ▸ List.mem_append_right _ h)) rfl, hcontent,
        columnAfter_append]

/-- The file is sent once exactly if the number of characters behind its last newline is no
multiple of 29. -/
theorem sendsOnce_iff (stack recvStack : Fin bufSize → Byte) (content : List Byte)
    (hnul : 0 ∉ content) :
    SendsOnce (List.ofFn stack) (List.ofFn recvStack) (fopen content) ↔
      ¬ bufSize - 1 ∣ columnAfter 0 content := by
  rw [sendsOnce_iff_sends (List.length_ofFn ..) hnul]
  exact sends_iff (Nat.dvd_zero _) hnul

/-- "a" and "b" on two lines, without a newline at the end. -/
theorem sendsOnce_two_lines :
    SendsOnce (List.ofFn fun (_ : Fin bufSize) => 0) (List.ofFn fun (_ : Fin bufSize) => 0)
      (fopen [97, 10, 98]) :=
  (sendsOnce_iff _ _ [97, 10, 98] (by decide)).mpr (by decide)

/-- Behind a last line with a newline the loop goes on, and sends the line again. -/
theorem whole_line_sent_twice : ¬ ∀ (stack recvStack : Fin bufSize → Byte) (content : List Byte),
    0 ∉ content → SendsOnce (List.ofFn stack) (List.ofFn recvStack) (fopen content) := by
  intro h
  have hsends := (sendsOnce_iff_sends (List.length_ofFn ..) (by decide)).mp
    (h (fun _ => 0) (fun _ => 0) [97, 10] (by decide))
  exact (sends_iff (Nat.dvd_zero _) (by decide)).mp hsends (by decide)

end NetworkProgramming.NewsSender
