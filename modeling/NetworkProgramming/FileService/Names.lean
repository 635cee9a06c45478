import Mathlib.Data.Finset.Card
import NetworkProgramming.Library.Numeral
import NetworkProgramming.Quiz2.Server

/-!
# The names of downloaded files

The loop in which the clients of the file services look for a name that does not
exist yet, on the bytes of its buffers. The directory is the set of the names that
exist.
-/
namespace NetworkProgramming.FileNames

open Buffer Numeral QuizServer

abbrev Name := List Byte

/-- The clients that save what they receive. -/
inductive Client where
  | week11
  | quiz2
  deriving DecidableEq, Repr

def Client.defaultFileName : Client → Name
  | .week11 => ascii "receive.dat"
  | .quiz2 => ascii "konkuk2.txt"

/-- What stands in front of the number. -/
def Client.front : Client → Name
  | .week11 => ascii "receive"
  | .quiz2 => ascii "konkuk"

def Client.extension : Client → Name
  | .week11 => ascii ".dat"
  | .quiz2 => ascii ".txt"

/-- The name that the loop makes of a number. -/
def Client.numbered (c : Client) (k : Nat) : Name := c.front ++ decimal k ++ c.extension

/-- The size of `new_file_name` and of `addNumStr`. -/
def nameSize : Nat := 30

/-- The variables of the loop. -/
structure Vars where
  newFileName : List Byte
  addNumStr : List Byte
  addNum : Nat
  deriving DecidableEq, Repr

/-- In front of the loop; `addNumStr` holds what the stack held. -/
def Client.start (c : Client) (stack : Fin nameSize → Byte) : Option Vars :=
  (strcpy (readInto (List.replicate nameSize 0) c.front) c.defaultFileName).map fun newFileName =>
    ⟨newFileName, List.ofFn stack, 0⟩

/-- The body of the loop. It is `none` where a write would leave its buffer or `addNum` would
overflow. -/
def Client.again (c : Client) (v : Vars) : Option Vars := do
  let len ← strlen v.newFileName
  let newFileName ← strcpy (readInto v.newFileName (List.replicate len 0)) c.front
  let addNumStr ← strcpy v.addNumStr (decimal v.addNum)
  if v.addNum + 1 < 2 ^ 31 then
    let digits ← text addNumStr
    let newFileName ← strcat newFileName digits
    let newFileName ← strcat newFileName c.extension
    some ⟨newFileName, addNumStr, v.addNum + 1⟩
  else none

inductive Search where
  | overrun
  | unfinished
  | found (name : Name)
  deriving DecidableEq, Repr

/-- The loop from its condition on, up to so many existence checks. -/
def Client.pick (c : Client) (dir : Finset Name) : Nat → Vars → Search
  | 0, _ => .unfinished
  | checks + 1, v =>
    match text v.newFileName with
    | none => .overrun
    | some name =>
      if name ∈ dir then
        match c.again v with
        | none => .overrun
        | some v => c.pick dir checks v
      else .found name

/-- The loop from the start. -/
def Client.newFileName (c : Client) (dir : Finset Name) (stack : Fin nameSize → Byte)
    (checks : Nat) : Search :=
  (c.start stack).elim .overrun (c.pick dir checks)

/-- The default name if it is free, otherwise the one with the least number that makes a
free name. -/
def Client.Picked (c : Client) (dir : Finset Name) (name : Name) : Prop :=
  name ∉ dir ∧
    if c.defaultFileName ∈ dir then ∃ k, name = c.numbered k ∧ ∀ j < k, c.numbered j ∈ dir
    else name = c.defaultFileName

theorem numbered_injective (c : Client) : Function.Injective c.numbered := by
  intro m n h
  exact decimal_injective (List.append_cancel_left (List.append_cancel_right h))

/-- An injective sequence leaves a finite set at the latest behind as many members as the set
has. -/
theorem exists_least_notMem {α : Type*} [DecidableEq α] {f : Nat → α}
    (hf : Function.Injective f) (dir : Finset α) :
    ∃ k ≤ dir.card, f k ∉ dir ∧ ∀ j < k, f j ∈ dir := by
  have hex : ∃ k, k ≤ dir.card ∧ f k ∉ dir := by
    by_contra hall
    push Not at hall
    have hsub : (Finset.range (dir.card + 1)).image f ⊆ dir := by
      intro x hx
      obtain ⟨k, hk, rfl⟩ := Finset.mem_image.mp hx
      exact hall k (Nat.le_of_lt_succ (Finset.mem_range.mp hk))
    have hcard := Finset.card_le_card hsub
    rw [Finset.card_image_of_injective _ hf, Finset.card_range] at hcard
    omega
  obtain ⟨hk, hnot⟩ := Nat.find_spec hex
  refine ⟨Nat.find hex, hk, hnot, fun j hj => ?_⟩
  by_contra hj'
  exact Nat.find_min hex hj ⟨by omega, hj'⟩

/-- The buffers are whole, and this is the name in `new_file_name`. -/
structure Holds (v : Vars) (name : Name) : Prop where
  name : text v.newFileName = some name
  newFileName : v.newFileName.length = nameSize
  addNumStr : v.addNumStr.length = nameSize

theorem start_spec (c : Client) (stack : Fin nameSize → Byte) :
    ∃ v, c.start stack = some v ∧ Holds v c.defaultFileName ∧ v.addNum = 0 := by
  have hlen : (readInto (List.replicate nameSize 0) c.front).length = nameSize := by
    cases c <;> rfl
  have hnul : 0 ∉ c.defaultFileName := by cases c <;> decide
  have hroom :
      c.defaultFileName.length < (readInto (List.replicate nameSize 0) c.front).length := by
    rw [hlen]
    cases c <;> decide
  obtain ⟨buf, hbuf, htext, hl⟩ := strcpy_some hnul hroom
  exact ⟨⟨buf, List.ofFn stack, 0⟩, by rw [Client.start, hbuf]; rfl,
    ⟨htext, hl.trans hlen, List.length_ofFn ..⟩, rfl⟩

/-- The body puts the number into the name, and all its writes stay inside. -/
theorem again_spec (c : Client) {v : Vars} {name : Name} (h : Holds v name)
    (hnum : v.addNum + 1 < 2 ^ 31) :
    ∃ v', c.again v = some v' ∧ Holds v' (c.numbered v.addNum) ∧ v'.addNum = v.addNum + 1 := by
  obtain ⟨hfront, hfrontLen⟩ : 0 ∉ c.front ∧ c.front.length ≤ 7 := by cases c <;> decide
  obtain ⟨hext, hextLen⟩ : 0 ∉ c.extension ∧ c.extension.length = 4 := by cases c <;> decide
  have hdigits : (decimal v.addNum).length ≤ 10 := length_decimal_le (by decide) (by omega)
  have hlen := h.newFileName
  have hstrlen : strlen v.newFileName = some name.length := by rw [strlen, h.name, Option.map_some]
  have hcleared : (readInto v.newFileName (List.replicate name.length 0)).length = nameSize := by
    obtain ⟨-, tail, htail⟩ := text_eq_some_iff.mp h.name
    rw [length_readInto, hlen]
    simp [htail]
  obtain ⟨buf₁, h₁, ht₁, hl₁⟩ := strcpy_some hfront
    (by rw [hcleared, nameSize]; omega :
      _ < (readInto v.newFileName (List.replicate name.length 0)).length)
  obtain ⟨num, hn, htn, hln⟩ := strcpy_some (zero_notMem_decimal v.addNum)
    (by rw [h.addNumStr, nameSize]; omega : _ < v.addNumStr.length)
  obtain ⟨buf₂, h₂, ht₂, hl₂⟩ := strcat_some ht₁ (zero_notMem_decimal v.addNum)
    (by rw [hl₁, hcleared, nameSize]; omega)
  obtain ⟨buf₃, h₃, ht₃, hl₃⟩ := strcat_some ht₂ hext
    (by rw [hl₂, hl₁, hcleared, nameSize, List.length_append]; omega)
  refine ⟨⟨buf₃, num, v.addNum + 1⟩, ?_, ⟨ht₃, ?_, hln.trans h.addNumStr⟩, rfl⟩
  · simp only [Client.again, hstrlen, h₁, hn, hnum, if_true, htn, h₂, h₃, Option.bind_eq_bind,
      Option.bind_some]
  · rw [hl₃, hl₂, hl₁, hcleared]

/-- From one of the numbered names on, the loop takes the next free one. -/
theorem pick_numbered (c : Client) (dir : Finset Name) {k m checks : Nat} {v : Vars}
    (h : Holds v (c.numbered k)) (hnum : v.addNum = k + 1) (hkm : k ≤ m) (hm : m < 2 ^ 30)
    (hfree : c.numbered m ∉ dir) (htaken : ∀ j < m, c.numbered j ∈ dir)
    (hchecks : m - k < checks) : c.pick dir checks v = .found (c.numbered m) := by
  induction checks generalizing k v with
  | zero => omega
  | succ checks ih =>
    rw [Client.pick, h.name]
    rcases Nat.eq_or_lt_of_le hkm with rfl | hlt
    · simp only [hfree, if_false]
    · obtain ⟨v', hv', hholds, hnum'⟩ := again_spec c h (by omega)
      rw [hnum] at hholds hnum'
      simp only [htaken k hlt, if_true, hv']
      exact ih hholds hnum' hlt (by omega)

/-- From the start of the loop on, the name that is picked is found within two checks more than
there are names. -/
theorem pick_start (c : Client) (dir : Finset Name) {v : Vars} (hdir : dir.card < 2 ^ 30)
    (h : Holds v c.defaultFileName) (hnum : v.addNum = 0) :
    ∃ name, c.pick dir (dir.card + 2) v = .found name ∧ c.Picked dir name := by
  rw [Client.pick, h.name]
  by_cases hdefault : c.defaultFileName ∈ dir
  · obtain ⟨m, hm, hfree, htaken⟩ := exists_least_notMem (numbered_injective c) dir
    obtain ⟨v', hv', hholds', hnum'⟩ := again_spec c h (by omega)
    rw [hnum] at hholds' hnum'
    simp only [hdefault, if_true, hv']
    refine ⟨_, pick_numbered c dir hholds' hnum' (Nat.zero_le m) (by omega) hfree htaken
      (by omega), hfree, ?_⟩
    rw [if_pos hdefault]
    exact ⟨m, rfl, htaken⟩
  · simp only [hdefault, if_false]
    exact ⟨_, rfl, hdefault, by rw [if_neg hdefault]⟩

theorem newFileName_of_start {c : Client} {stack : Fin nameSize → Byte} {v : Vars}
    (h : c.start stack = some v) (dir : Finset Name) (checks : Nat) :
    c.newFileName dir stack checks = c.pick dir checks v := by
  rw [Client.newFileName, h, Option.elim_some]

/-- Every client finds its free name within two checks more than there are names, and no
write of the loop leaves its buffer. -/
theorem newFileName_picked (c : Client) (dir : Finset Name) (stack : Fin nameSize → Byte)
    (hdir : dir.card < 2 ^ 30) :
    ∃ name, c.newFileName dir stack (dir.card + 2) = .found name ∧ c.Picked dir name := by
  obtain ⟨v, hv, hholds, hnum⟩ := start_spec c stack
  rw [newFileName_of_start hv]
  exact pick_start c dir hdir hholds hnum

/-- With receive.dat and receive0.dat in the directory. -/
theorem second_number_picked :
    ∃ name, Client.week11.newFileName {ascii "receive.dat", ascii "receive0.dat"}
        (fun _ => 0) (Finset.card {ascii "receive.dat", ascii "receive0.dat"} + 2) = .found name ∧
      Client.week11.Picked {ascii "receive.dat", ascii "receive0.dat"} name :=
  newFileName_picked .week11 _ _ (by decide)

end NetworkProgramming.FileNames
