import NetworkProgramming.Library.Buffer

/-!
# What the clients get from their user

Every client reads its user's lines by `fgets` into a buffer of its own size and
leaves on `q` or `Q`.
-/
namespace NetworkProgramming.UserInput

open Buffer

/-- What `fgets(buf, size, stdin)` stores of an input without NUL. -/
structure Piece (size : Nat) where
  chars : List Byte
  nonempty : chars ≠ []
  short : chars.length < size
  noNul : 0 ∉ chars
  newlineLast : 10 ∉ chars.dropLast

/-- The first piece of the input that is left. -/
def Piece.ofInput (size : Nat) (stdin : List Byte) (hsize : 1 < size) (hne : stdin ≠ [])
    (hnul : 0 ∉ stdin) : Piece size where
  chars := fgetsLine (size - 1) stdin
  nonempty := fgetsLine_ne_nil (Nat.sub_pos_of_lt hsize) hne
  short := Nat.lt_of_le_of_lt (length_fgetsLine_le (size - 1) stdin)
    (Nat.sub_lt (Nat.lt_trans Nat.zero_lt_one hsize) Nat.zero_lt_one)
  noNul := fun h => hnul ((prefix_fgetsLine _ _).subset h)
  newlineLast := newline_notMem_fgetsLine _ _

/-- The characters in front of the newline. -/
def Piece.body {size : Nat} (p : Piece size) : List Byte := p.chars.filter (· != 10)

/-- `"q\n"` or `"Q\n"`. -/
def isQuit (line : List Byte) : Bool := line = [113, 10] || line = [81, 10]

end NetworkProgramming.UserInput
