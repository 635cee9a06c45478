import NetworkProgramming.Library.Datagram
import NetworkProgramming.Library.Transition

/-!
# The loops that watch the console

`select.c` and `C12_IOMultiplexing.c` wait for a terminal, which gives at most one
line to a `read`, and print what it brings. One puts its zero byte on the newline,
the other one behind it.
-/
namespace NetworkProgramming.Console

open Buffer Datagram Transition

def bufSize : Nat := 30

/-- What the two programs differ in: the place of the zero byte, and whether an error of
`select` ends the loop. -/
structure Program where
  keepsNewline : Bool
  leavesOnError : Bool

def selectC : Program := ⟨false, true⟩

def ioMultiplexing : Program := ⟨true, false⟩

/-- The index in `buf[str_len] = 0` or `buf[str_len-1] = 0`; `none` in front of the buffer. -/
def Program.zeroAt (P : Program) (strLen : Nat) : Option Nat :=
  if P.keepsNewline then some strLen
  else if strLen = 0 then none
  else some (strLen - 1)

/-- `outside` is what follows a write outside of `buf`. -/
inductive Pc where
  | loop
  | ended
  | outside
  deriving DecidableEq, Repr

structure State where
  pc : Pc
  /-- What the user types. -/
  stdin : List Byte
  buf : List Byte
  /-- History: the messages it has printed. -/
  printed : List (List Byte)
  deriving DecidableEq, Repr

/-- What comes of `select`. -/
inductive Label where
  | timeout
  | selectError
  | readable
  deriving DecidableEq, Repr

/-- `read`, the zero byte and the `printf`. -/
def console (P : Program) (s : State) : State :=
  let piece := fgetsLine bufSize s.stdin
  let s := { s with stdin := s.stdin.drop piece.length, buf := readInto s.buf piece }
  let ended := (P.zeroAt piece.length).bind (endText s.buf)
  (ended.bind fun buf => (text buf).map fun t =>
    { s with buf := buf, printed := s.printed ++ [t] }).getD { s with pc := .outside }

def step (P : Program) (s : State) (a : Label) : Option State :=
  if s.pc = .loop then
    some <| match a with
      | .timeout => s
      | .selectError => if P.leavesOnError then { s with pc := .ended } else s
      | .readable => console P s
  else none

/-- What the user types in front of a newline. -/
structure Line where
  chars : List Byte
  noNul : 0 ∉ chars
  oneLine : 10 ∉ chars

def typed (lines : List Line) : List Byte := lines.flatMap fun line => line.chars ++ [10]

/-- The message for a line, with or without its newline. -/
def Program.shows (P : Program) (line : Line) : List Byte :=
  if P.keepsNewline then line.chars ++ [10] else line.chars

def start (lines : List Line) (stack : Fin bufSize → Byte) : State :=
  ⟨.loop, typed lines, List.ofFn stack, []⟩

/-- The lines that were read have been printed, one message for each, and nothing else. -/
structure Faithful (P : Program) (lines : List Line) (s : State) : Prop where
  inside : s.pc ≠ .outside
  printed : s.printed = (lines.take s.printed.length).map P.shows
  stdin : s.stdin = typed (lines.drop s.printed.length)

/-- What is read is a line, and its message leaves room for the zero byte. -/
def ReadsFit (P : Program) (lines : List Line) (s : State) (a : Label) : Prop :=
  s.pc = .loop → a = .readable →
    ∃ line ∈ lines[s.printed.length]?, (P.shows line).length < bufSize

variable {P : Program} {lines : List Line} {line : Line} {s t : State} {a : Label}

/-- A message that is printed is shorter than the buffer. -/
theorem console_spec (hbuf : s.buf.length = bufSize) :
    (console P s).buf.length = bufSize ∧ ((console P s).pc = .outside ∨
      ∃ t, t.length < bufSize ∧ (console P s).printed = s.printed ++ [t]) := by
  have hread : (readInto s.buf (fgetsLine bufSize s.stdin)).length = bufSize := by
    rw [length_readInto (hbuf ▸ length_fgetsLine_le bufSize s.stdin), hbuf]
  rw [console]
  cases hended : (P.zeroAt (fgetsLine bufSize s.stdin).length).bind
      (endText (readInto s.buf (fgetsLine bufSize s.stdin))) with
  | none => exact ⟨hread, .inl rfl⟩
  | some buf =>
    obtain ⟨i, -, hend⟩ := Option.bind_eq_some_iff.mp hended
    have hlength := (length_endText hend).trans hread
    cases htext : text buf with
    | none => simp [htext, hread]
    | some t =>
      simp only [Option.bind_some, htext, Option.map_some, Option.getD_some]
      exact ⟨hlength, .inr ⟨t, hlength ▸ length_lt_of_text htext, rfl⟩⟩

theorem Line.noNul_newline (line : Line) : 0 ∉ line.chars ++ [10] := by
  simp [line.noNul]

/-- The zero byte ends the message for a line that fits. -/
theorem text_line {buf : List Byte} (hbuf : buf.length = bufSize)
    (hfits : (P.shows line).length < bufSize) :
    ∃ buf', (P.zeroAt (line.chars ++ [10]).length).bind
        (endText (readInto buf (line.chars ++ [10]))) = some buf' ∧
      text buf' = some (P.shows line) := by
  rw [Program.shows] at hfits ⊢
  rw [Program.zeroAt]
  split at hfits
  next hkeeps =>
    rw [if_pos hkeeps, Option.bind_some, endText_readInto (hbuf ▸ hfits), if_pos hkeeps]
    exact ⟨_, rfl, text_append_zero _ _ line.noNul_newline⟩
  next hdrops =>
    have hlength : (line.chars ++ [10]).length = line.chars.length + 1 := List.length_append
    have hroom : line.chars.length < (readInto buf (line.chars ++ [10])).length := by
      rw [length_readInto (by rw [hlength, hbuf]; exact hfits), hbuf]
      exact hfits
    rw [if_neg hdrops, if_neg (by simp), hlength, Nat.add_sub_cancel, Option.bind_some, endText,
      if_pos hroom, if_neg hdrops]
    refine ⟨_, rfl, ?_⟩
    rw [readInto, List.append_assoc, List.singleton_append,
      List.set_append_right _ _ (Nat.le_refl _), Nat.sub_self, List.set_cons_zero]
    exact text_append_zero _ _ line.noNul

theorem console_line {rest : List Byte} (hbuf : s.buf.length = bufSize)
    (hstdin : s.stdin = (line.chars ++ [10]) ++ rest) (hfits : (P.shows line).length < bufSize) :
    ∃ buf, console P s =
      { s with stdin := rest, buf := buf, printed := s.printed ++ [P.shows line] } := by
  have hshort : line.chars.length < bufSize := by
    rw [Program.shows] at hfits
    split at hfits
    · rw [List.length_append] at hfits
      omega
    · exact hfits
  have hpiece : fgetsLine bufSize s.stdin = line.chars ++ [10] := by
    rw [hstdin, List.append_assoc]
    exact fgetsLine_line hshort line.oneLine
  obtain ⟨buf, hend, htext⟩ := text_line hbuf hfits
  refine ⟨buf, ?_⟩
  simp only [console, hpiece, hend, htext, Option.bind_some, Option.map_some, Option.getD_some]
  rw [hstdin, List.drop_left]

/-- A read keeps to the lines exactly if it gets one whose message fits. -/
theorem console_faithful_iff (hbuf : s.buf.length = bufSize) (hpc : s.pc = .loop)
    (h : Faithful P lines s) :
    Faithful P lines (console P s) ↔
      ∃ line ∈ lines[s.printed.length]?, (P.shows line).length < bufSize := by
  constructor
  · intro ht
    obtain ⟨m, hm, hprinted⟩ := (console_spec hbuf).2.resolve_left ht.inside
    have heq := ht.printed
    rw [hprinted, List.length_append, List.length_singleton, List.take_add_one, List.map_append,
      ← h.printed, List.append_cancel_left_eq] at heq
    cases hline : lines[s.printed.length]? with
    | none => simp [hline] at heq
    | some line =>
      simp only [hline, Option.toList_some, List.map_cons, List.map_nil, List.cons.injEq,
        and_true] at heq
      exact ⟨line, rfl, heq ▸ hm⟩
  · rintro ⟨line, hline, hfits⟩
    obtain ⟨hlt, rfl⟩ := List.getElem?_eq_some_iff.mp hline
    have hstdin := h.stdin
    rw [List.drop_eq_getElem_cons hlt, typed, List.flatMap_cons] at hstdin
    obtain ⟨buf, hconsole⟩ := console_line hbuf hstdin hfits
    rw [hconsole]
    refine ⟨by simp [hpc], ?_, ?_⟩
    · simp only [List.length_append, List.length_singleton]
      rw [List.take_add_one, List.map_append, ← h.printed, hline]
      rfl
    · simp only [List.length_append, List.length_singleton]
      rfl

/-- Whatever comes of the calls of `select`, the loop has printed the lines it has read, each as
one message, exactly as long as it is given whole lines whose messages have fewer bytes than
the buffer. -/
theorem prints_typed_iff (P : Program) (lines : List Line) (stack : Fin bufSize → Byte)
    (as : List Label) :
    Throughout (step P) (Faithful P lines) (start lines stack) as ↔
      Along (step P) (ReadsFit P lines) (start lines stack) as := by
  refine throughout_iff_along (I := fun s => s.buf.length = bufSize) ?_ ?_ List.length_ofFn
    ⟨by simp [start], rfl, rfl⟩
  · intro s a t hbuf h hs
    obtain ⟨hpc, hs⟩ := Option.ite_none_right_eq_some.mp hs
    obtain rfl := Option.some.inj hs
    cases a with
    | timeout => exact ⟨hbuf, iff_of_true h (by simp [ReadsFit])⟩
    | selectError =>
      refine ⟨by simpa [apply_ite State.buf] using hbuf, iff_of_true ?_ (by simp [ReadsFit])⟩
      simp only
      split
      · exact ⟨by simp, h.printed, h.stdin⟩
      · exact h
    | readable =>
      refine ⟨(console_spec hbuf).1, (console_faithful_iff hbuf hpc h).trans ?_⟩
      simp [ReadsFit, hpc]
  · intro s a hs hpc
    simp [step, hpc] at hs

end NetworkProgramming.Console
