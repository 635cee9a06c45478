import Mathlib.Algebra.Order.Ring.Nat
import Mathlib.Data.Nat.ModEq
import NetworkProgramming.Library.Buffer

/-!
# Columns of a text

`fgets` cuts long lines at the columns that are multiples of the room it has. A
column counts the characters since the last newline.
-/
namespace NetworkProgramming.Columns

open Buffer

/-- The column behind a character. -/
def nextColumn (col : Nat) (b : Byte) : Nat := if b = 10 then 0 else col + 1

/-- The column behind a text. -/
def columnAfter (col : Nat) (l : List Byte) : Nat := l.foldl nextColumn col

@[simp] theorem columnAfter_cons (col : Nat) (b : Byte) (l : List Byte) :
    columnAfter col (b :: l) = columnAfter (nextColumn col b) l := rfl

theorem columnAfter_append (col : Nat) (l r : List Byte) :
    columnAfter col (l ++ r) = columnAfter (columnAfter col l) r := List.foldl_append ..

theorem columnAfter_of_notMem {col : Nat} {l : List Byte} (h : 10 ∉ l) :
    columnAfter col l = col + l.length := by
  induction l generalizing col with
  | nil => rfl
  | cons b l ih =>
    rw [List.mem_cons, not_or] at h
    rw [columnAfter_cons, ih h.2, nextColumn, if_neg (Ne.symm h.1), List.length_cons]
    omega

/-- A piece that is not the whole rest ends a line or takes all the room. -/
theorem fgetsLine_full {room : Nat} {stdin : List Byte}
    (h : (fgetsLine room stdin).length < stdin.length) :
    (fgetsLine room stdin).getLast? = some 10 ∨ (fgetsLine room stdin).length = room := by
  induction room generalizing stdin with
  | zero => simp [fgetsLine]
  | succ room ih =>
    cases stdin with
    | nil => simp [fgetsLine] at h
    | cons b bs =>
      simp only [fgetsLine] at h ⊢
      split
      next hb => simp [hb]
      next hb =>
        rw [if_neg hb] at h
        rcases ih (Nat.lt_of_succ_lt_succ h) with hlast | hfull
        · exact .inl (by simp [List.getLast?_cons, hlast])
        · exact .inr (by simp [hfull])

/-- No piece starts at any character of the text. -/
def Quiet (room : Nat) : Nat → List Byte → Prop
  | _, [] => True
  | col, b :: l => ¬ room ∣ col ∧ Quiet room (nextColumn col b) l

/-- Behind its first character, a piece has no start of another one. -/
theorem quiet_piece {room col : Nat} {b : Byte} {tail : List Byte} (hcol : room ∣ col)
    (hlen : (b :: tail).length ≤ room) (hnl : 10 ∉ (b :: tail).dropLast) :
    Quiet room (nextColumn col b) tail := by
  have hquiet : ∀ (l : List Byte) (j : Nat), 0 < j → j + l.length ≤ room → 10 ∉ l.dropLast →
      Quiet room (col + j) l := by
    intro l j hj hl hnl
    induction l generalizing j with
    | nil => trivial
    | cons c l ih =>
      rw [List.length_cons] at hl
      refine ⟨?_, ?_⟩
      · rw [Nat.dvd_add_right hcol]
        exact Nat.not_dvd_of_pos_of_lt hj (by omega)
      · cases l with
        | nil => trivial
        | cons d l =>
          rw [List.dropLast_cons_cons, List.mem_cons, not_or] at hnl
          rw [nextColumn, if_neg (Ne.symm hnl.1), Nat.add_assoc]
          exact ih (j + 1) (Nat.succ_pos j) (by omega) hnl.2
  cases tail with
  | nil => trivial
  | cons c tail =>
    rw [List.dropLast_cons_cons, List.mem_cons, not_or] at hnl
    rw [List.length_cons] at hlen
    rw [nextColumn, if_neg (Ne.symm hnl.1)]
    exact hquiet _ 1 Nat.one_pos (by omega) hnl.2

/-- Behind a piece that ends a line or takes all the room the column is a multiple of the room
again. -/
theorem dvd_columnAfter_full {room col : Nat} {stdin : List Byte} (hcol : room ∣ col)
    (hfull : (fgetsLine room stdin).getLast? = some 10 ∨ (fgetsLine room stdin).length = room) :
    room ∣ columnAfter col (fgetsLine room stdin) := by
  by_cases hnl : 10 ∈ fgetsLine room stdin
  · -- a newline is the last character, and column 0 is behind it
    obtain ⟨front, hfront⟩ := List.getLast?_eq_some_iff.mp (getLast?_of_newline_mem hnl)
    rw [hfront, columnAfter_append]
    exact Nat.dvd_zero room
  · have hlen := hfull.resolve_left fun hlast => hnl (List.mem_of_getLast? hlast)
    rw [columnAfter_of_notMem hnl, hlen]
    exact Nat.dvd_add hcol (Nat.dvd_refl room)

/-- The next piece starts at a multiple of the room again. -/
theorem dvd_columnAfter_piece {room col : Nat} {stdin : List Byte} (hcol : room ∣ col)
    (hrest : stdin.drop (fgetsLine room stdin).length ≠ []) :
    room ∣ columnAfter col (fgetsLine room stdin) := by
  refine dvd_columnAfter_full hcol (fgetsLine_full ?_)
  by_contra hle
  exact hrest (List.drop_eq_nil_of_le (by omega))

end NetworkProgramming.Columns
