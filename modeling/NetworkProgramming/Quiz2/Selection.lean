import Mathlib.Data.List.Infix
import NetworkProgramming.Library.Numeral
import NetworkProgramming.UserInput

/-!
# Choosing a service of quiz 2

The client takes its user's answer for a number. The server looks for a digit
among the first bytes of the same text.
-/
namespace NetworkProgramming.QuizSelection

open Buffer Numeral UserInput

/-- The server's `BUF_SIZE`. -/
def bufSize : Nat := 50

/-- The client's `sizeof(answer)`. -/
def answerSize : Nat := 100

inductive Service where
  | one | two | none
  deriving DecidableEq, Repr

/-- What the string functions see of a datagram in the cleared `buf`: its first bytes,
up to a zero byte. Of a datagram that fills `buf` they are taken to see no more. -/
def receivedText (data : List Byte) : List Byte := (data.take bufSize).takeWhile (· != 0)

/-- `strstr(text, needle) != NULL`. -/
def strstr (text needle : List Byte) : Bool := needle <:+: text

/-- `if (strstr(buf, "1") != NULL) … else if (strstr(buf, "2") != NULL) …`. -/
def serverService (text : List Byte) : Service :=
  if strstr text [49] then .one else if strstr text [50] then .two else .none

/-- `if (atoi(answer) == 1) … else …`. -/
def clientService (overflow : Int → Int) (answer : List Byte) : Service :=
  if atoi overflow answer = 1 then .one else .two

/-- Client and server run the same service, whatever `atoi` makes of numbers that are
too big. -/
def Agree (answer : Piece answerSize) : Prop :=
  ∀ overflow, clientService overflow answer.chars = serverService (receivedText answer.chars)

/-- Only white space, a plus and zeros stand before the 1, and the server receives it. -/
def SaysOne (answer : List Byte) : Prop :=
  ∃ front, OneBehind front answer ∧ front.length < bufSize

/-- The server receives a 2 and no 1, and `atoi` is defined. -/
def SaysTwo (answer : List Byte) : Prop :=
  FitsInt answer ∧ 50 ∈ answer.take bufSize ∧ 49 ∉ answer.take bufSize

theorem receivedText_piece (answer : Piece answerSize) :
    receivedText answer.chars = answer.chars.take bufSize :=
  takeWhile_of_noNul fun h => answer.noNul (List.mem_of_mem_take h)

theorem strstr_byte (text : List Byte) (b : Byte) : strstr text [b] = true ↔ b ∈ text := by
  simp [strstr, List.singleton_infix_iff]

theorem serverService_one {text : List Byte} : serverService text = .one ↔ 49 ∈ text := by
  rw [← strstr_byte, serverService]
  split
  next h => exact iff_of_true rfl h
  next h =>
    refine iff_of_false ?_ h
    split <;> simp

theorem serverService_two {text : List Byte} :
    serverService text = .two ↔ 50 ∈ text ∧ 49 ∉ text := by
  rw [← strstr_byte, ← strstr_byte, serverService]
  split
  next h => exact iff_of_false (by simp) (fun hn => hn.2 h)
  next h =>
    split
    next h₂ => exact iff_of_true rfl ⟨h₂, h⟩
    next h₂ => exact iff_of_false (by simp) (fun hn => h₂ hn.1)

theorem clientService_fits {overflow : Int → Int} {answer : List Byte} (h : FitsInt answer) :
    clientService overflow answer = if number answer = 1 then .one else .two := by
  rw [clientService, atoi, if_pos h]

theorem fitsInt_one {answer : List Byte} (h : number answer = 1) : FitsInt answer := by
  simp [FitsInt, h]

/-- The 1 of the number is the first one of the text, so the server sees it in time or
sees white space, a plus and zeros only. -/
theorem mem_take_of_oneBehind {front answer : List Byte} (h : OneBehind front answer) (n : Nat) :
    (49 ∈ answer.take n ↔ front.length < n) ∧ (50 ∈ answer.take n → front.length < n) := by
  obtain ⟨hlead, rest, rfl, -⟩ := h
  obtain ⟨h₁, h₂⟩ := hlead.chars
  by_cases hn : front.length < n
  · refine ⟨iff_of_true ?_ hn, fun _ => hn⟩
    obtain ⟨m, rfl⟩ := Nat.exists_eq_add_of_lt hn
    rw [Nat.add_assoc, List.take_length_add_append]
    simp
  · rw [List.take_append_of_le_length (by omega)]
    exact ⟨iff_of_false (fun hm => h₁ (List.mem_of_mem_take hm)) hn,
      fun hm => absurd (List.mem_of_mem_take hm) h₂⟩

theorem SaysOne.services {answer : List Byte} (h : SaysOne answer) :
    number answer = 1 ∧ serverService (answer.take bufSize) = .one := by
  obtain ⟨front, hone, hlen⟩ := h
  have hseen := (mem_take_of_oneBehind hone bufSize).1.mpr hlen
  exact ⟨(number_eq_one_iff _).mpr ⟨front, hone⟩, serverService_one.mpr hseen⟩

theorem SaysTwo.services {answer : List Byte} (h : SaysTwo answer) :
    number answer ≠ 1 ∧ serverService (answer.take bufSize) = .two := by
  obtain ⟨-, h₂, h₁⟩ := h
  refine ⟨fun hnum => ?_, serverService_two.mpr ⟨h₂, h₁⟩⟩
  -- the 2 that the server sees cannot stand before the 1 of the number
  obtain ⟨front, hone⟩ := (number_eq_one_iff _).mp hnum
  obtain ⟨hmem, htwo⟩ := mem_take_of_oneBehind hone bufSize
  exact h₁ (hmem.mpr (htwo h₂))

/-- Client and server agree exactly on the answers that say 1 to both or 2 to both. -/
theorem agree_iff (answer : Piece answerSize) :
    Agree answer ↔ SaysOne answer.chars ∨ SaysTwo answer.chars := by
  unfold Agree
  rw [receivedText_piece]
  constructor
  · intro h
    have hfits : FitsInt answer.chars := by
      by_contra hn
      have h₁ := h fun _ => 1
      have h₂ := h fun _ => 2
      simp only [clientService, atoi, if_neg hn] at h₁ h₂
      exact absurd (h₁.trans h₂.symm) (by simp)
    have hc := h id
    rw [clientService_fits hfits] at hc
    split at hc
    next hnum =>
      obtain ⟨front, hone⟩ := (number_eq_one_iff _).mp hnum
      have hmem := serverService_one.mp hc.symm
      exact .inl ⟨front, hone, (mem_take_of_oneBehind hone bufSize).1.mp hmem⟩
    next => exact .inr ⟨hfits, serverService_two.mp hc.symm⟩
  · rintro (h | h) overflow
    · obtain ⟨hnum, hserver⟩ := h.services
      rw [clientService_fits (fitsInt_one hnum), if_pos hnum, hserver]
    · obtain ⟨hnum, hserver⟩ := h.services
      rw [clientService_fits h.1, if_neg hnum, hserver]

/-- On the answer 3 the client starts the chat and the server does nothing. -/
theorem three_not_agreed : ¬ ∀ answer, Agree answer := by
  intro h
  have h₃ := h ⟨[51, 10], by decide, by decide, by decide, by decide⟩ id
  exact absurd h₃ (by decide)

end NetworkProgramming.QuizSelection
