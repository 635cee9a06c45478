import Mathlib.Data.List.Basic
import Mathlib.Data.List.TakeWhile
import Mathlib.Logic.Function.Iterate

/-!
# C character buffers

A buffer is the list of its bytes; a read overwrites a prefix of it, and the
text it holds ends at the first zero byte. A buffer without a zero byte has no
text: the string functions would run past its end, so they give `none`.
-/
namespace NetworkProgramming.Buffer

abbrev Byte := UInt8

/-- What a `read` or `recv` returns, with the bytes it has stored. -/
inductive ReadResult where
  | error
  | eof
  | data (chunk : List Byte)
  deriving DecidableEq, Repr

/-- A received piece overwrites the front and leaves the old bytes behind it. -/
def readInto (buf chunk : List Byte) : List Byte := chunk ++ buf.drop chunk.length

@[simp] theorem take_readInto (buf chunk : List Byte) :
    (readInto buf chunk).take chunk.length = chunk := by simp [readInto]

/-- A buffer behind `memset`. -/
abbrev zeros (size : Nat) : List Byte := List.replicate size 0

/-- The characters that `fgets` stores at most in a buffer of this size. -/
abbrev room (size : Nat) : Nat := size - 1

/-- A piece as long as the buffer replaces all of it. -/
theorem readInto_full (buf chunk : List Byte) (h : buf.length = chunk.length) :
    readInto buf chunk = chunk := by
  simp [readInto, ← h]

/-- The C string at the start of the buffer; `none` if no zero byte ends it. -/
def text (buf : List Byte) : Option (List Byte) :=
  if 0 ∈ buf then some (buf.takeWhile (· != 0)) else none

/-- An explicit zero byte ends the text, if no earlier one does. -/
theorem text_ended (front tail : List Byte) :
    text (front ++ 0 :: tail) = some (front.takeWhile (· != 0)) := by
  have hw : (front ++ 0 :: tail).takeWhile (· != 0) = front.takeWhile (· != 0) := by
    induction front with
    | nil => simp
    | cons b front ih =>
      rw [List.cons_append, List.takeWhile_cons, List.takeWhile_cons, ih]
  rw [text, if_pos (by simp), hw]

theorem takeWhile_of_noNul {l : List Byte} (h : 0 ∉ l) : l.takeWhile (· != 0) = l := by
  apply List.takeWhile_eq_self_iff.mpr
  intro b hb
  simpa using fun he : b = 0 => h (he ▸ hb)

/-- The text in front of an explicit zero byte. -/
theorem text_append_zero (front tail : List Byte) (h : 0 ∉ front) :
    text (front ++ 0 :: tail) = some front := by
  rw [text_ended, takeWhile_of_noNul h]

/-- A text put into the buffer with its zero byte. -/
theorem text_readInto_ended (buf front : List Byte) :
    text (readInto buf (front ++ [0])) = some (front.takeWhile (· != 0)) := by
  rw [readInto, List.append_assoc]
  exact text_ended front _

/-- A piece that leaves room in a cleared buffer. -/
theorem text_readInto_cleared {size : Nat} {chunk : List Byte} (h : chunk.length < size) :
    text (readInto (List.replicate size 0) chunk) = some (chunk.takeWhile (· != 0)) := by
  obtain ⟨room, hroom⟩ : ∃ room, size - chunk.length = room + 1 :=
    ⟨size - chunk.length - 1, by omega⟩
  rw [readInto, List.drop_replicate, hroom, List.replicate_succ, text_ended]

theorem text_cleared {size : Nat} {t : List Byte} (h : t.length < size) (hnul : 0 ∉ t) :
    text (readInto (zeros size) t) = some t := by
  rw [text_readInto_cleared h, takeWhile_of_noNul hnul]

theorem text_eq_some_iff {buf t : List Byte} :
    text buf = some t ↔ 0 ∉ t ∧ ∃ tail, buf = t ++ 0 :: tail := by
  constructor
  · intro h
    obtain ⟨hz, h⟩ := Option.ite_none_right_eq_some.mp h
    obtain rfl := Option.some.inj h
    refine ⟨fun hm => by simpa using List.mem_takeWhile_imp hm, ?_⟩
    cases hd : buf.dropWhile (· != 0) with
    | nil =>
      rw [List.dropWhile_eq_nil_iff] at hd
      exact absurd (hd 0 hz) (by simp)
    | cons b tail =>
      have hne : buf.dropWhile (· != 0) ≠ [] := by simp [hd]
      have hb := List.head_dropWhile_not (· != 0) hne
      simp only [hd, List.head_cons, bne_eq_false_iff_eq] at hb
      subst hb
      exact ⟨tail, by rw [← hd, List.takeWhile_append_dropWhile]⟩
  · rintro ⟨hz, tail, rfl⟩
    exact text_append_zero t tail hz

theorem text_zeros (size : Nat) : ∀ t ∈ text (zeros size), t = [] := by
  intro t ht
  obtain ⟨hz, tail, htail⟩ := text_eq_some_iff.mp ht
  cases t with
  | nil => rfl
  | cons b t =>
    have hb : b ∈ zeros size := by rw [htail]; simp
    rw [List.eq_of_mem_replicate hb] at hz
    simp at hz

theorem length_lt_of_text {buf t : List Byte} (h : text buf = some t) : t.length < buf.length := by
  obtain ⟨-, tail, rfl⟩ := text_eq_some_iff.mp h
  simp

/-- `strlen`. -/
def strlen (buf : List Byte) : Option Nat := (text buf).map List.length

/-- A zero over the last character of the text. -/
theorem text_set_last {buf t : List Byte} (h : text buf = some t) (ht : t ≠ []) :
    text (buf.set (t.length - 1) 0) = some t.dropLast := by
  obtain ⟨hz, tail, rfl⟩ := text_eq_some_iff.mp h
  obtain ⟨front, last, rfl⟩ : ∃ front last, t = front ++ [last] :=
    ⟨_, _, (List.dropLast_append_getLast ht).symm⟩
  have hset : ((front ++ [last]) ++ 0 :: tail).set front.length 0 =
      front ++ 0 :: 0 :: tail := by
    simp [List.set_append_right]
  rw [List.length_append, List.length_singleton, Nat.add_sub_cancel, hset,
    text_append_zero _ _ fun hm => hz (List.mem_append_left _ hm), List.dropLast_concat]

theorem getElem?_readInto (buf chunk : List Byte) (p : Nat) :
    (readInto buf chunk)[p]? = if p < chunk.length then chunk[p]? else buf[p]? := by
  rw [readInto]
  split
  next hp => exact List.getElem?_append_left hp
  next hp =>
    rw [List.getElem?_append_right (Nat.not_lt.mp hp), List.getElem?_drop,
      Nat.add_sub_cancel' (Nat.not_lt.mp hp)]

/-- A piece is the text of the buffer, up to its own zero byte, exactly if it has one or one
stands behind it. -/
theorem text_readInto_iff {buf chunk : List Byte} :
    text (readInto buf chunk) = some (chunk.takeWhile (· != 0)) ↔
      0 ∈ chunk ∨ buf[chunk.length]? = some 0 := by
  by_cases h0 : 0 ∈ chunk
  · obtain ⟨front, tail, rfl, hfront⟩ := List.eq_append_cons_of_mem h0
    have hpos : ∀ b ∈ front, (b != 0) = true := by
      intro b hb
      simpa using fun he : b = 0 => hfront (he ▸ hb)
    rw [readInto, List.append_assoc, List.cons_append, text_append_zero front _ hfront,
      List.takeWhile_append_of_pos hpos]
    simp
  · rw [takeWhile_of_noNul h0, text_eq_some_iff, ← List.head?_drop]
    simp only [readInto, List.append_cancel_left_eq, h0, not_false_eq_true, true_and, false_or,
      List.head?_eq_some_iff]

/-- The byte behind a piece is overwritten. -/
theorem set_readInto {buf piece : List Byte} (b : Byte) (hlt : piece.length < buf.length) :
    (readInto buf piece).set piece.length b = (piece ++ [b]) ++ buf.drop (piece.length + 1) := by
  rw [readInto, List.drop_eq_getElem_cons hlt, List.set_append_right _ _ (Nat.le_refl _),
    Nat.sub_self, List.set_cons_zero, List.append_assoc, List.singleton_append]

/-- A newline behind a piece ends its text exactly if a zero byte stands behind it. -/
theorem text_newline_iff {buf piece : List Byte} (hnul : 0 ∉ piece)
    (hlt : piece.length < buf.length) :
    text ((readInto buf piece).set piece.length 10) = some (piece ++ [10]) ↔
      buf[piece.length + 1]? = some 0 := by
  rw [set_readInto 10 hlt, text_eq_some_iff, ← List.head?_drop]
  constructor
  · rintro ⟨-, tail, htail⟩
    rw [List.append_cancel_left htail, List.head?_cons]
  · intro hzero
    obtain ⟨tail, htail⟩ := List.head?_eq_some_iff.mp hzero
    exact ⟨by simp [hnul], tail, by rw [htail]⟩

/-- `strcpy(buf, src)`; `none` where it leaves the buffer. -/
def strcpy (buf src : List Byte) : Option (List Byte) :=
  if src.length < buf.length then some (readInto buf (src ++ [0])) else none

theorem length_readInto {buf chunk : List Byte} (h : chunk.length ≤ buf.length) :
    (readInto buf chunk).length = buf.length := by
  simp only [readInto, List.length_append, List.length_drop]
  omega

theorem strcpy_some {buf src : List Byte} (hs : 0 ∉ src) (hl : src.length < buf.length) :
    ∃ buf', strcpy buf src = some buf' ∧ text buf' = some src ∧ buf'.length = buf.length := by
  refine ⟨_, if_pos hl, ?_, length_readInto (by simpa using Nat.succ_le_of_lt hl)⟩
  rw [text_readInto_ended, takeWhile_of_noNul hs]

/-- `strcat(buf, suffix)`, on all the memory from `buf` on; `none` where it leaves that
memory. -/
def strcat (mem suffix : List Byte) : Option (List Byte) :=
  (text mem).bind fun t =>
    if t.length + suffix.length < mem.length then some (readInto mem (t ++ suffix ++ [0]))
    else none

theorem text_strcat {mem suffix mem' : List Byte} (hs : 0 ∉ suffix)
    (h : strcat mem suffix = some mem') :
    ∃ t, text mem = some t ∧ text mem' = some (t ++ suffix) := by
  obtain ⟨t, ht, h⟩ := Option.bind_eq_some_iff.mp h
  obtain ⟨-, h⟩ := Option.ite_none_right_eq_some.mp h
  obtain rfl := Option.some.inj h
  refine ⟨t, ht, ?_⟩
  have hnul : 0 ∉ t ++ suffix := by
    rw [List.mem_append, not_or]
    exact ⟨(text_eq_some_iff.mp ht).1, hs⟩
  rw [text_readInto_ended, takeWhile_of_noNul hnul]

/-- With room for both texts `strcat` stays inside. -/
theorem strcat_some {mem t suffix : List Byte} (ht : text mem = some t) (hs : 0 ∉ suffix)
    (hl : t.length + suffix.length < mem.length) :
    ∃ mem', strcat mem suffix = some mem' ∧ text mem' = some (t ++ suffix) ∧
      mem'.length = mem.length := by
  have hcat : strcat mem suffix = some (readInto mem (t ++ suffix ++ [0])) := by
    rw [strcat, ht, Option.bind_some, if_pos hl]
  obtain ⟨t', ht', htext⟩ := text_strcat hs hcat
  obtain rfl := Option.some.inj (ht.symm.trans ht')
  refine ⟨_, hcat, htext, length_readInto ?_⟩
  simp only [List.length_append, List.length_singleton]
  omega

/-- The characters `fgets` stores when it has room for so many: up to the end of
the line, with its newline. -/
def fgetsLine : Nat → List Byte → List Byte
  | 0, _ => []
  | _, [] => []
  | room + 1, b :: bs => if b = 10 then [b] else b :: fgetsLine room bs

theorem length_fgetsLine_le (room : Nat) (stdin : List Byte) :
    (fgetsLine room stdin).length ≤ room := by
  induction room generalizing stdin with
  | zero => simp [fgetsLine]
  | succ room ih =>
    cases stdin with
    | nil => simp [fgetsLine]
    | cons b bs =>
      have := ih bs
      simp only [fgetsLine]
      split <;> simp only [List.length_cons, List.length_nil] <;> omega

theorem fgetsLine_ne_nil {room : Nat} {stdin : List Byte} (hroom : 0 < room) (h : stdin ≠ []) :
    fgetsLine room stdin ≠ [] := by
  cases room with
  | zero => omega
  | succ room =>
    obtain ⟨b, bs, rfl⟩ := List.exists_cons_of_ne_nil h
    rw [fgetsLine]
    split <;> simp

theorem prefix_fgetsLine (room : Nat) (stdin : List Byte) : fgetsLine room stdin <+: stdin := by
  induction room generalizing stdin with
  | zero => simp [fgetsLine]
  | succ room ih =>
    cases stdin with
    | nil => simp [fgetsLine]
    | cons b bs =>
      simp only [fgetsLine]
      split
      · simp
      · exact (List.prefix_cons_inj b).mpr (ih bs)

/-- A line that fits is stored with its newline. -/
theorem fgetsLine_line {room : Nat} {line rest : List Byte} (hroom : line.length < room)
    (hnl : 10 ∉ line) : fgetsLine room (line ++ 10 :: rest) = line ++ [10] := by
  induction line generalizing room with
  | nil =>
    obtain ⟨room, rfl⟩ := Nat.exists_eq_succ_of_ne_zero (Nat.ne_of_gt hroom)
    simp [fgetsLine]
  | cons b bs ih =>
    obtain ⟨room, rfl⟩ := Nat.exists_eq_succ_of_ne_zero (Nat.ne_of_gt (Nat.zero_lt_of_lt hroom))
    rw [List.mem_cons, not_or] at hnl
    simp only [List.cons_append, fgetsLine, Ne.symm hnl.1, if_false,
      ih (Nat.lt_of_succ_lt_succ hroom) hnl.2]

/-- A newline can only be the last character. -/
theorem newline_notMem_fgetsLine (room : Nat) (stdin : List Byte) :
    10 ∉ (fgetsLine room stdin).dropLast := by
  induction room generalizing stdin with
  | zero => simp [fgetsLine]
  | succ room ih =>
    cases stdin with
    | nil => simp [fgetsLine]
    | cons b bs =>
      simp only [fgetsLine]
      split
      next => simp
      next hb =>
        cases hl : fgetsLine room bs with
        | nil => simp
        | cons c cs =>
          have hr := ih bs
          rw [hl] at hr
          simpa [Ne.symm hb] using hr

/-- A piece with a newline ends with it. -/
theorem getLast?_of_newline_mem {room : Nat} {stdin : List Byte}
    (h : 10 ∈ fgetsLine room stdin) : (fgetsLine room stdin).getLast? = some 10 := by
  have hne := List.ne_nil_of_mem h
  rw [← List.dropLast_append_getLast hne, List.mem_append, List.mem_singleton] at h
  have hlast := h.resolve_left (newline_notMem_fgetsLine room stdin)
  rw [List.getLast?_eq_some_getLast hne, ← hlast]

/-- `fgets(buf, size, stdin)`: the buffer and what is left of the input. At the end
of the input the buffer stays as it is. -/
def fgets (size : Nat) (buf stdin : List Byte) : List Byte × List Byte :=
  let line := fgetsLine (size - 1) stdin
  if stdin = [] then (buf, []) else (readInto buf (line ++ [0]), stdin.drop line.length)

/-- The first piece of the input and what is left of it. -/
theorem fgets_spec {size : Nat} {stdin : List Byte} (buf : List Byte) (hsize : 1 < size)
    (hne : stdin ≠ []) (hnul : 0 ∉ stdin) :
    ∃ b tail rest, stdin = (b :: tail) ++ rest ∧ fgetsLine (size - 1) stdin = b :: tail ∧
      text (fgets size buf stdin).1 = some (b :: tail) ∧ (fgets size buf stdin).2 = rest := by
  obtain ⟨b, tail, hline⟩ :=
    List.exists_cons_of_ne_nil (fgetsLine_ne_nil (Nat.sub_pos_of_lt hsize) hne)
  obtain ⟨rest, hrest⟩ := prefix_fgetsLine (size - 1) stdin
  rw [hline] at hrest
  have hnul' : 0 ∉ b :: tail := fun h => hnul (hrest ▸ List.mem_append_left rest h)
  refine ⟨b, tail, rest, hrest.symm, hline, ?_, ?_⟩
  · rw [fgets, if_neg hne, hline, text_readInto_ended, takeWhile_of_noNul hnul']
  · rw [fgets, if_neg hne, hline, ← hrest, List.drop_left]

theorem length_fgets {size : Nat} {buf : List Byte} (stdin : List Byte) (hsize : 0 < size)
    (hbuf : buf.length = size) : (fgets size buf stdin).1.length = size := by
  by_cases hne : stdin = []
  · rw [fgets, if_pos hne, hbuf]
  · have hlen := length_fgetsLine_le (size - 1) stdin
    rw [fgets, if_neg hne]
    refine (length_readInto ?_).trans hbuf
    rw [List.length_append, List.length_singleton, hbuf]
    omega

/-- A buffer that holds a text holds one behind `fgets`. -/
theorem text_fgets {size : Nat} {buf t : List Byte} (h : text buf = some t) (stdin : List Byte) :
    ∃ t', text (fgets size buf stdin).1 = some t' := by
  rw [fgets]
  split
  · exact ⟨t, h⟩
  · exact ⟨_, text_readInto_ended _ _⟩

/-- In a cleared buffer `fgets` leaves the text of its piece, the empty one at the end of
the input. -/
theorem text_fgets_cleared {size : Nat} (stdin : List Byte) (hsize : 0 < size) :
    text (fgets size (List.replicate size 0) stdin).1 =
      some ((fgetsLine (size - 1) stdin).takeWhile (· != 0)) := by
  rw [fgets]
  split
  next hnil =>
    subst hnil
    have hline : fgetsLine (size - 1) [] = [] := by cases size - 1 <;> rfl
    rw [hline]
    exact text_readInto_cleared (show ([] : List Byte).length < size from hsize)
  next => exact text_readInto_ended _ _

/-- What `fgets` leaves of the input. -/
def fgetsRest (room : Nat) (stdin : List Byte) : List Byte :=
  stdin.drop (fgetsLine room stdin).length

theorem fgetsLine_append_rest (room : Nat) (stdin : List Byte) :
    fgetsLine room stdin ++ fgetsRest room stdin = stdin :=
  List.prefix_iff_eq_append.mp (prefix_fgetsLine room stdin)

theorem fgets_rest (size : Nat) (buf stdin : List Byte) :
    (fgets size buf stdin).2 = fgetsRest (size - 1) stdin := by
  rw [fgets, fgetsRest]
  split
  next hnil => rw [hnil, List.drop_nil]
  next => rfl

/-- The piece of the input that `fgets` stores when so many calls were before. -/
def fgetsNth (room : Nat) (stdin : List Byte) (k : Nat) : List Byte :=
  fgetsLine room ((fgetsRest room)^[k] stdin)

theorem noNul_fgetsRest {room : Nat} {stdin : List Byte} (h : 0 ∉ stdin) :
    0 ∉ fgetsRest room stdin :=
  fun h0 => h (List.mem_of_mem_drop h0)

theorem noNul_fgetsLine {room : Nat} {stdin : List Byte} (h : 0 ∉ stdin) :
    0 ∉ fgetsLine room stdin :=
  fun h0 => h ((prefix_fgetsLine room stdin).subset h0)

theorem noNul_iterate_fgetsRest {room : Nat} {stdin : List Byte} (h : 0 ∉ stdin) (k : Nat) :
    0 ∉ (fgetsRest room)^[k] stdin := by
  induction k with
  | zero => exact h
  | succ k ih =>
    rw [Function.iterate_succ_apply']
    exact noNul_fgetsRest ih

theorem noNul_fgetsNth {room : Nat} {stdin : List Byte} (h : 0 ∉ stdin) (k : Nat) :
    0 ∉ fgetsNth room stdin k :=
  noNul_fgetsLine (noNul_iterate_fgetsRest h k)

end NetworkProgramming.Buffer
