import Mathlib.InformationTheory.Coding.UniquelyDecodable

/-!
# Frames on a byte stream

Bytes under way together with the unit that each of them belongs to, which the
reader does not see; and codes whose words can be told apart because every word
begins with a mark that occurs nowhere else.
-/
namespace NetworkProgramming.Frames

open InformationTheory

variable {α μ : Type*}

/-- The bytes of frames, each frame a unit and those of its bytes that are unread. -/
def bytes (fs : List (μ × List α)) : List α := fs.flatMap Prod.snd

@[simp] theorem bytes_nil : bytes ([] : List (μ × List α)) = [] := rfl

@[simp] theorem bytes_cons (f : μ × List α) (fs : List (μ × List α)) :
    bytes (f :: fs) = f.2 ++ bytes fs := rfl

theorem bytes_append (fs gs : List (μ × List α)) : bytes (fs ++ gs) = bytes fs ++ bytes gs :=
  List.flatMap_append

/-- A read up to the end of a frame gets the frames before. -/
theorem take_boundary (fs : List (μ × List α)) (j : Nat) :
    (bytes fs).take (bytes (fs.take j)).length = bytes (fs.take j) := by
  conv_lhs => rw [← List.take_append_drop j fs, bytes_append]
  simp

/-- Read so many bytes: the units that are complete now, and the frames that are left. -/
def consume : Nat → List (μ × List α) → List μ × List (μ × List α)
  | _, [] => ([], [])
  | n, f :: fs =>
    if n < f.2.length then ([], (f.1, f.2.drop n) :: fs)
    else
      let rest := consume (n - f.2.length) fs
      (f.1 :: rest.1, rest.2)

/-- A read up to the end of a frame completes the frames before and leaves the others whole. -/
theorem consume_boundary (fs : List (μ × List α)) (hne : ∀ f ∈ fs, f.2 ≠ []) (j : Nat) :
    consume (bytes (fs.take j)).length fs = ((fs.take j).map Prod.fst, fs.drop j) := by
  induction fs generalizing j with
  | nil => simp [consume]
  | cons f fs ih =>
    have hpos : 0 < f.2.length := List.length_pos_iff.mpr (hne f (by simp))
    cases j with
    | zero => simp [consume, hpos]
    | succ j =>
      have hj := ih (fun g hg => hne g (by simp [hg])) j
      simp [consume, hj]

/-- A code is uniquely decodable if every word begins with a mark and the mark
occurs nowhere else, also not across the end of a word. -/
theorem uniquelyDecodable_of_marks {S : Set (List α)} (mark : List α → Prop)
    (hne : [] ∉ S) (hstart : ∀ w ∈ S, ∀ rest, mark (w ++ rest))
    (hinner : ∀ u v rest, u ++ v ∈ S → u ≠ [] → v ≠ [] → (rest = [] ∨ mark rest) →
      ¬ mark (v ++ rest)) : UniquelyDecodable S := by
  have hwords : ∀ L : List (List α), (∀ w ∈ L, w ∈ S) → L.flatten = [] ∨ mark L.flatten := by
    intro L hL
    cases L with
    | nil => exact .inl rfl
    | cons w L => exact .inr (hstart w (hL w (by simp)) L.flatten)
  -- a word cannot end inside another one: the next mark would stand there
  have hcut : ∀ w v (L : List (List α)) rest, w ∈ S → w ++ v ∈ S → (∀ x ∈ L, x ∈ S) →
      (rest = [] ∨ mark rest) → L.flatten = v ++ rest → v = [] := by
    intro w v L rest hw hwv hL hrest he
    by_contra hv
    have hno := hinner w v rest hwv (fun h => hne (h ▸ hw)) hv hrest
    rw [← he] at hno
    rcases hwords L hL with hnil | hmark
    · rw [hnil] at he
      exact hv (List.append_eq_nil_iff.mp he.symm).1
    · exact hno hmark
  intro L₁
  induction L₁ with
  | nil =>
    intro L₂ _ h₂ he
    cases L₂ with
    | nil => rfl
    | cons w L₂ =>
      have hnil := (List.append_eq_nil_iff.mp he.symm).1
      exact absurd (hnil ▸ h₂ w (by simp)) hne
  | cons w L₁ ih =>
    intro L₂ h₁ h₂ he
    cases L₂ with
    | nil =>
      have hnil := (List.append_eq_nil_iff.mp he).1
      exact absurd (hnil ▸ h₁ w (by simp)) hne
    | cons x L₂ =>
      have hw := h₁ w (by simp)
      have hx := h₂ x (by simp)
      have h₁' : ∀ y ∈ L₁, y ∈ S := fun y hy => h₁ y (by simp [hy])
      have h₂' : ∀ y ∈ L₂, y ∈ S := fun y hy => h₂ y (by simp [hy])
      simp only [List.flatten_cons] at he
      obtain rfl : w = x := by
        rcases List.append_eq_append_iff.mp he with ⟨v, rfl, hr⟩ | ⟨v, rfl, hr⟩
        · simp [hcut w v L₁ L₂.flatten hw hx h₁' (hwords L₂ h₂') hr]
        · simp [hcut x v L₂ L₁.flatten hx hw h₂' (hwords L₁ h₁') hr]
      rw [ih L₂ h₁' h₂' (List.append_cancel_left he)]

end NetworkProgramming.Frames
