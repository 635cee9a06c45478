import Mathlib.Data.List.Infix
import NetworkProgramming.ChatServer.Messages
import NetworkProgramming.Library.Frames
import NetworkProgramming.UserInput

/-!
# The lines of the chat

What a client composes of its name and of one result of `fgets`, and when the
lines of several clients, put one behind the other, can be told apart.
-/
namespace NetworkProgramming.ChatLines

open Buffer ChatMessages Frames InformationTheory UserInput

/-- `argv[3]` of the client; with its brackets it fits into `name[NAME_SIZE]`. -/
structure Name where
  chars : List Byte
  short : chars.length ≤ 17
  noNul : 0 ∉ chars

structure Message where
  name : Name
  /-- From `fgets(msg, BUF_SIZE, stdin)`. -/
  piece : Piece bufSize

/-- `sprintf(name, "[%s]", argv[3])` and the blank behind it. -/
def header (name : Name) : List Byte := 91 :: (name.chars ++ [93, 32])

/-- `sprintf(name_msg, "%s %s", name, msg)`. -/
def Message.sent (m : Message) : List Byte := header m.name ++ m.piece.chars

/-- The message without the newline that `fgets` keeps. -/
def Message.text (m : Message) : List Byte := header m.name ++ m.piece.body

/-- The line that shows the message. -/
def Message.line (m : Message) : List Byte := m.text ++ [10]

/-- The bytes begin like a message: a bracket, at most 17 characters none of which is
an opening bracket, and the end of a header. -/
def Mark (bytes : List Byte) : Prop :=
  bytes.head? = some 91 ∧
    ∃ k < 18, 91 ∉ bytes.tail.take k ∧ (bytes.tail.drop k).take 2 = [93, 32]

instance : DecidablePred Mark := fun _ => inferInstanceAs (Decidable (_ ∧ _))

/-- A message that one line can show and that no other messages can be taken for. -/
structure Message.Plain (m : Message) : Prop where
  terminated : m.piece.chars.getLast? = some 10
  oneLine : 10 ∉ m.name.chars
  nameOpens : 91 ∉ m.name.chars
  noHeader : ∀ v ∈ m.piece.body.tails, ¬ Mark v

instance (m : Message) : Decidable m.Plain :=
  decidable_of_iff (m.piece.chars.getLast? = some 10 ∧ 10 ∉ m.name.chars ∧ 91 ∉ m.name.chars ∧
      ∀ v ∈ m.piece.body.tails, ¬ Mark v)
    ⟨fun h => ⟨h.1, h.2.1, h.2.2.1, h.2.2.2⟩, fun h => ⟨h.1, h.2, h.3, h.4⟩⟩

theorem Message.sent_noNul (m : Message) : 0 ∉ m.sent := by
  simp [Message.sent, header, m.name.noNul, m.piece.noNul]

theorem Message.Plain.text_no_newline {m : Message} (h : m.Plain) : 10 ∉ m.text := by
  simp [Message.text, Piece.body, header, h.oneLine]

/-- A terminated piece is its characters with the newline behind them. -/
theorem Message.Plain.sent_eq_line {m : Message} (h : m.Plain) : m.sent = m.line := by
  obtain ⟨front, hfront⟩ := List.getLast?_eq_some_iff.mp h.terminated
  have hnew := m.piece.newlineLast
  rw [hfront, List.dropLast_concat] at hnew
  have hfilter : front.filter (· != 10) = front := by
    rw [List.filter_eq_self]
    intro b hb
    simpa using fun he : b = 10 => hnew (he ▸ hb)
  simp [Message.sent, Message.line, Message.text, Piece.body, hfront, hfilter]

/-- A mark stands whole in front of the next mark. -/
theorem mark_of_append {v rest : List Byte} (hv : v ≠ []) (hrest : rest = [] ∨ Mark rest)
    (h : Mark (v ++ rest)) : Mark v := by
  obtain ⟨b, v, rfl⟩ := List.exists_cons_of_ne_nil hv
  rcases hrest with rfl | ⟨hrest, -⟩
  · simpa using h
  obtain ⟨rest, rfl⟩ := List.head?_eq_some_iff.mp hrest
  obtain ⟨hb, k, hk, hopen, hend⟩ := h
  simp only [List.cons_append, List.tail_cons] at hopen hend
  have hle : k + 2 ≤ v.length := by
    by_contra hlt
    rcases Nat.lt_trichotomy v.length k with hl | hl | hl
    · apply hopen
      rw [List.take_append, List.mem_append]
      right
      obtain ⟨d, hd⟩ : ∃ d, k - v.length = d + 1 := ⟨k - v.length - 1, by omega⟩
      simp [hd]
    · simp [← hl] at hend
    · have hl1 : v.length = k + 1 := by omega
      obtain ⟨front, last, rfl⟩ : ∃ front last, v = front ++ [last] :=
        ⟨_, _, (List.dropLast_append_getLast (by intro hn; simp [hn] at hl1)).symm⟩
      have hf : front.length = k := by simpa using hl1
      simp [← hf] at hend
  refine ⟨by simpa using hb, k, hk, ?_, ?_⟩
  · rwa [List.take_append_of_le_length (by omega)] at hopen
  · rwa [List.drop_append_of_le_length (by omega),
      List.take_append_of_le_length (by simp only [List.length_drop]; omega)] at hend

/-- Plain messages without their newlines are a uniquely decodable code. -/
theorem texts_uniquelyDecodable :
    UniquelyDecodable {w : List Byte | ∃ m : Message, m.Plain ∧ w = m.text} := by
  apply uniquelyDecodable_of_marks Mark
  · rintro ⟨m, -, hm⟩
    simp [Message.text, header] at hm
  · rintro w ⟨m, hplain, rfl⟩ rest
    have hshort := m.name.short
    refine ⟨by simp [Message.text, header], m.name.chars.length, by omega, ?_, ?_⟩
    · simpa [Message.text, header] using hplain.nameOpens
    · simp [Message.text, header]
  · rintro u v rest ⟨m, hplain, hm⟩ hu hv hrest hmark
    have hv' := mark_of_append hv hrest hmark
    obtain ⟨v, rfl⟩ := List.head?_eq_some_iff.mp hv'.1
    obtain ⟨b, u, rfl⟩ := List.exists_cons_of_ne_nil hu
    -- the opening bracket is not in the header, so all of the mark is in the piece
    have hopen : 91 ∉ m.name.chars ++ [93, 32] := by simp [hplain.nameOpens]
    simp only [Message.text, header, List.cons_append, List.cons.injEq] at hm
    rcases List.append_eq_append_iff.mp hm.2 with ⟨a, hname, hbody⟩ | ⟨a, -, hbody⟩
    · cases a with
      | nil => exact hplain.noHeader _ ((List.mem_tails _ _).mpr ⟨[], hbody⟩) hv'
      | cons c a =>
        obtain ⟨rfl, -⟩ := List.cons.inj hbody
        exact hopen (hname ▸ by simp)
    · exact hplain.noHeader _ ((List.mem_tails _ _).mpr ⟨a, hbody.symm⟩) hv'

end NetworkProgramming.ChatLines
