import Mathlib.Data.List.TakeWhile
import Mathlib.Data.Nat.Digits.Defs
import NetworkProgramming.Library.Buffer

/-!
# Numbers at the front of C texts

`atoi` skips white space, takes a sign and reads decimal digits as far as they
go. What it returns for a number that no `int` holds is not defined, so that is
a parameter.
-/
namespace NetworkProgramming.Numeral

open Buffer

/-- `isspace` in the C locale. -/
def isspace (b : Byte) : Bool := b = 32 || (9 ≤ b && b ≤ 13)

def isdigit (b : Byte) : Bool := 48 ≤ b && b ≤ 57

/-- The number that a row of digits writes, most significant digit first. -/
def digitsValue (ds : List Byte) : Nat := Nat.ofDigits 10 (ds.map (·.toNat - 48)).reverse

/-- The sign and the digits in front of the first other character. -/
def numeral (text : List Byte) : Bool × List Byte :=
  match text.dropWhile isspace with
  | [] => (false, [])
  | b :: bs =>
    if b = 43 then (false, bs.takeWhile isdigit)
    else if b = 45 then (true, bs.takeWhile isdigit)
    else (false, (b :: bs).takeWhile isdigit)

def number (text : List Byte) : Int :=
  if (numeral text).1 then -digitsValue (numeral text).2 else digitsValue (numeral text).2

/-- The number fits an `int`. -/
def FitsInt (text : List Byte) : Prop := -2 ^ 31 ≤ number text ∧ number text < 2 ^ 31

instance (text : List Byte) : Decidable (FitsInt text) := inferInstanceAs (Decidable (_ ∧ _))

def atoi (overflow : Int → Int) (text : List Byte) : Int :=
  if FitsInt text then number text else overflow (number text)

theorem digitsValue_cons (d : Byte) (ds : List Byte) :
    digitsValue (d :: ds) = digitsValue ds + 10 ^ ds.length * (d.toNat - 48) := by
  rw [digitsValue, List.map_cons, Nat.ofDigits_reverse_cons, List.length_map, digitsValue]

/-- What `sprintf` makes of `%d` and a number that is not negative. -/
def decimal (n : Nat) : List Byte := (Nat.toDigits 10 n).map fun c => c.toNat.toUInt8

theorem toNat_digit {c : Char} (h : c.isDigit = true) :
    48 ≤ c.toNat ∧ c.toNat.toUInt8.toNat = c.toNat := by
  have hc : 48 ≤ c.toNat ∧ c.toNat ≤ 57 := by simpa [Char.isDigit, UInt32.le_iff_toNat_le] using h
  exact ⟨hc.1, by simp only [Nat.toUInt8, UInt8.toNat_ofNat']; omega⟩

/-- `atoi` reads back what `sprintf` has written. -/
theorem digitsValue_decimal (n : Nat) : digitsValue (decimal n) = n := by
  have hvalue : ∀ cs : List Char, (∀ c ∈ cs, c.isDigit = true) →
      digitsValue (cs.map fun c => c.toNat.toUInt8) = Nat.ofDigitChars 10 cs 0 := by
    intro cs hcs
    induction cs with
    | nil => rfl
    | cons c cs ih =>
      have hc := (toNat_digit (hcs c (by simp))).2
      have hrest : Nat.ofDigitChars 10 cs (10 * 0 + (c.toNat - 48)) =
          10 ^ cs.length * (10 * 0 + (c.toNat - 48)) + Nat.ofDigitChars 10 cs 0 :=
        Nat.ofDigitChars_eq_ofDigitChars_zero
      rw [List.map_cons, digitsValue_cons, ih fun d hd => hcs d (by simp [hd]), List.length_map, hc]
      calc Nat.ofDigitChars 10 cs 0 + 10 ^ cs.length * (c.toNat - 48)
          = Nat.ofDigitChars 10 cs (10 * 0 + (c.toNat - 48)) := by
            rw [hrest, Nat.mul_zero, Nat.zero_add, Nat.add_comm]
        _ = Nat.ofDigitChars 10 (c :: cs) 0 := Nat.ofDigitChars_cons.symm
  rw [decimal, hvalue _ fun c hc => Nat.isDigit_of_mem_toDigits (by decide) (by decide) hc,
    Nat.ofDigitChars_ten_toDigits]

theorem decimal_injective : Function.Injective decimal := by
  intro m n h
  rw [← digitsValue_decimal m, h, digitsValue_decimal]

theorem length_decimal_le {n k : Nat} (hk : 0 < k) (h : n < 10 ^ k) : (decimal n).length ≤ k := by
  rw [decimal, List.length_map]
  exact (Nat.length_toDigits_le_iff (by decide) hk).mpr h

theorem zero_notMem_decimal (n : Nat) : 0 ∉ decimal n := by
  intro h
  obtain ⟨c, hc, h0⟩ := List.mem_map.mp h
  obtain ⟨hlow, hsame⟩ := toNat_digit (Nat.isDigit_of_mem_toDigits (by decide) (by decide) hc)
  rw [h0, UInt8.toNat_zero] at hsame
  omega

/-- Zeros in front do not count. -/
theorem digitsValue_one (k : Nat) : digitsValue (List.replicate k 48 ++ [49]) = 1 := by
  induction k with
  | zero => rfl
  | succ k ih =>
    rw [List.replicate_succ, List.cons_append, digitsValue_cons, ih]
    simp

theorem isdigit_bounds {b : Byte} (h : isdigit b = true) : 48 ≤ b.toNat ∧ b.toNat ≤ 57 := by
  simpa [isdigit, UInt8.le_iff_toNat_le] using h

/-- The digits of the number 1 are zeros and a 1. -/
theorem eq_one_of_digitsValue {ds : List Byte} (hd : ∀ b ∈ ds, isdigit b = true)
    (h : digitsValue ds = 1) : ∃ k, ds = List.replicate k 48 ++ [49] := by
  induction ds with
  | nil => simp [digitsValue] at h
  | cons d ds ih =>
    have hdig := isdigit_bounds (hd d (by simp))
    have hpos : 0 < 10 ^ ds.length := Nat.pow_pos (by decide)
    rw [digitsValue_cons] at h
    by_cases hz : d = 48
    · subst hz
      obtain ⟨k, hk⟩ := ih (fun b hb => hd b (by simp [hb])) (by simpa using h)
      exact ⟨k + 1, by rw [hk, List.replicate_succ, List.cons_append]⟩
    · -- the first digit is not 0, so it is 1 and the last one
      have hne : d.toNat ≠ 48 := fun he => hz (UInt8.toNat_inj.mp he)
      have hle : 10 ^ ds.length * 1 ≤ 10 ^ ds.length * (d.toNat - 48) :=
        Nat.mul_le_mul_left _ (by omega)
      have hpow : 10 ^ ds.length = 1 := by omega
      have hnil : ds = [] := by
        rcases Nat.pow_eq_one.mp hpow with h10 | hl
        · omega
        · exact List.length_eq_zero_iff.mp hl
      subst hnil
      have hone : d.toNat = 49 := by
        simp [digitsValue] at h
        omega
      have hd49 : d = 49 := UInt8.toNat_inj.mp hone
      exact ⟨0, by rw [hd49]; rfl⟩

/-- White space, at most a plus sign, and zeros. -/
def Lead (front : List Byte) : Prop :=
  ∃ spaces sign k, front = spaces ++ (sign ++ List.replicate k 48) ∧
    (∀ b ∈ spaces, isspace b = true) ∧ (sign = [] ∨ sign = [43])

/-- The number 1 stands behind this front, with no further digit. -/
def OneBehind (front text : List Byte) : Prop :=
  Lead front ∧ ∃ rest, text = front ++ 49 :: rest ∧ ∀ b ∈ rest.head?, isdigit b = false

theorem Lead.chars {front : List Byte} (h : Lead front) : 49 ∉ front ∧ 50 ∉ front := by
  obtain ⟨spaces, sign, k, rfl, hs, hsign⟩ := h
  have h₁ : (49 : Byte) ∉ spaces := fun hm => absurd (hs _ hm) (by decide)
  have h₂ : (50 : Byte) ∉ spaces := fun hm => absurd (hs _ hm) (by decide)
  rcases hsign with rfl | rfl <;> simp [h₁, h₂]

/-- A row of digits that ends before a character that is none. -/
theorem takeWhile_digits {ds rest : List Byte} (hd : ∀ b ∈ ds, isdigit b = true)
    (hr : ∀ b ∈ rest.head?, isdigit b = false) : (ds ++ rest).takeWhile isdigit = ds := by
  rw [List.takeWhile_append_of_pos hd]
  cases rest with
  | nil => simp
  | cons b bs => simp [hr b (by simp)]

theorem number_of_oneBehind {front text : List Byte} (h : OneBehind front text) :
    number text = 1 := by
  obtain ⟨⟨spaces, sign, k, rfl, hs, hsign⟩, rest, rfl, hr⟩ := h
  have hdigits : ((List.replicate k 48 ++ [49]) ++ rest).takeWhile isdigit =
      List.replicate k 48 ++ [49] := by
    apply takeWhile_digits _ hr
    intro b hb
    simp only [List.mem_append, List.mem_replicate, List.mem_singleton] at hb
    rcases hb with ⟨-, rfl⟩ | rfl <;> decide
  have hsplit : spaces ++ (sign ++ List.replicate k 48) ++ 49 :: rest =
      spaces ++ (sign ++ ((List.replicate k 48 ++ [49]) ++ rest)) := by simp
  have hnum : numeral (spaces ++ (sign ++ ((List.replicate k 48 ++ [49]) ++ rest))) =
      (false, List.replicate k 48 ++ [49]) := by
    rw [numeral, List.dropWhile_append_of_pos hs]
    rcases hsign with rfl | rfl
    · -- without a sign the first digit is a 0 or the 1 itself
      cases k with
      | zero => simpa [isspace] using hdigits
      | succ k => simpa [isspace, List.replicate_succ] using hdigits
    · simpa [isspace] using hdigits
  rw [hsplit, number, hnum]
  simp [digitsValue_one]

theorem oneBehind_of_number {text : List Byte} (h : number text = 1) :
    ∃ front, OneBehind front text := by
  have hspaces : ∀ b ∈ text.takeWhile isspace, isspace b = true :=
    fun b hb => List.mem_takeWhile_imp hb
  have hbuild : ∀ sign bs, (sign = [] ∨ sign = [43]) → text.dropWhile isspace = sign ++ bs →
      digitsValue (bs.takeWhile isdigit) = 1 → ∃ front, OneBehind front text := by
    intro sign bs hsign hdrop hval
    obtain ⟨k, hk⟩ := eq_one_of_digitsValue (fun b hb => List.mem_takeWhile_imp hb) hval
    refine ⟨_, ⟨text.takeWhile isspace, sign, k, rfl, hspaces, hsign⟩,
      bs.dropWhile isdigit, ?_, ?_⟩
    · calc text = text.takeWhile isspace ++ text.dropWhile isspace :=
          List.takeWhile_append_dropWhile.symm
        _ = text.takeWhile isspace ++ (sign ++ (bs.takeWhile isdigit ++ bs.dropWhile isdigit)) := by
          rw [hdrop, bs.takeWhile_append_dropWhile]
        _ = _ := by rw [hk]; simp
    · intro b hb
      have hn := List.head?_dropWhile_not isdigit bs
      rw [Option.mem_def.mp hb] at hn
      simpa using hn
  unfold number numeral at h
  cases hdrop : text.dropWhile isspace with
  | nil => simp [hdrop, digitsValue] at h
  | cons b bs =>
    simp only [hdrop] at h
    by_cases hplus : b = 43
    · subst hplus
      exact hbuild [43] bs (.inr rfl) hdrop (by simpa using h)
    · by_cases hminus : b = 45
      · subst hminus
        simp only [hplus, if_true, if_false] at h
        omega
      · simp only [hplus, hminus, if_false] at h
        exact hbuild [] (b :: bs) (.inl rfl) hdrop (by simpa using h)

/-- What a text has to look like for `atoi` to read the number 1. -/
theorem number_eq_one_iff (text : List Byte) :
    number text = 1 ↔ ∃ front, OneBehind front text :=
  ⟨oneBehind_of_number, fun ⟨_, h⟩ => number_of_oneBehind h⟩

end NetworkProgramming.Numeral
