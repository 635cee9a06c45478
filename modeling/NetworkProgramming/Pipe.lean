import Mathlib.Logic.Function.Basic
import Mathlib.Tactic.IntervalCases
import NetworkProgramming.Library.Buffer
import NetworkProgramming.Library.Progress

/-!
# Parent and child with two pipes

`pipe.c` behind its `fork`, one call a step. A `read` waits while its pipe is empty
and some process still has the end to write to, a `write` raises SIGPIPE when no
process has the end to read from. Both processes start with all four ends.
-/
namespace NetworkProgramming.Pipe

open Buffer Transition

inductive Channel where
  | pipeChannel
  | pipeChannel2
  deriving DecidableEq, Repr

/-- A descriptor: `pipeChannel[0]` is `reader .pipeChannel`. -/
inductive Fd where
  | reader (p : Channel)
  | writer (p : Channel)
  deriving DecidableEq, Repr

/-- What the processes call; each of them has one buffer. -/
inductive Call where
  | memset
  | strcpy (src : List Byte)
  | strcat (suffix : List Byte)
  | close (fd : Fd)
  | read (p : Channel)
  | write (p : Channel)
  | printf
  | exit
  deriving DecidableEq, Repr

@[ext] structure Process where
  calls : List Call
  buf : List Byte
  fds : List Fd
  /-- The texts of `buf` that it has printed. -/
  printed : List (List Byte)
  deriving DecidableEq, Repr

inductive Who where
  | parent
  | child
  deriving DecidableEq, Repr

structure State where
  procs : Who → Process
  pipes : Channel → List Byte

def State.set (s : State) (who : Who) (p : Process) : State :=
  { s with procs := Function.update s.procs who p }

/-- Some process has this descriptor. -/
def State.Open (s : State) (fd : Fd) : Prop :=
  fd ∈ (s.procs .parent).fds ∨ fd ∈ (s.procs .child).fds

instance (s : State) (fd : Fd) : Decidable (s.Open fd) := inferInstanceAs (Decidable (_ ∨ _))

/-- The next call of this process; there is none where it waits, where it leaves its buffer, or
where it has ended. A pipe has room for `cap` bytes. -/
def step (cap : Nat) (s : State) (who : Who) : Option State :=
  let self := s.procs who
  match self.calls with
  | [] => none
  | .memset :: calls =>
    some (s.set who { self with calls, buf := List.replicate self.buf.length 0 })
  | .strcpy src :: calls =>
    (strcpy self.buf src).map fun buf => s.set who { self with calls, buf }
  | .strcat suffix :: calls =>
    (strcat self.buf suffix).map fun buf => s.set who { self with calls, buf }
  | .close fd :: calls => some (s.set who { self with calls, fds := self.fds.erase fd })
  | .read p :: calls =>
    if .reader p ∉ self.fds then none
    else if s.pipes p ≠ [] then
      let piece := (s.pipes p).take self.buf.length
      some { s.set who { self with calls, buf := readInto self.buf piece } with
        pipes := Function.update s.pipes p ((s.pipes p).drop piece.length) }
    -- the end of the file: 0 bytes
    else if s.Open (.writer p) then none
    else some (s.set who { self with calls })
  | .write p :: calls =>
    if .writer p ∉ self.fds then none
    else if s.Open (.reader p) then
      (text self.buf).bind fun t =>
        if (s.pipes p).length + t.length ≤ cap then
          some { s.set who { self with calls } with
            pipes := Function.update s.pipes p (s.pipes p ++ t) }
        else none
    -- SIGPIPE
    else some (s.set who { self with calls := [], fds := [] })
  | .printf :: calls =>
    (text self.buf).map fun t =>
      s.set who { self with calls, printed := self.printed ++ [t] }
  | .exit :: _ => some (s.set who { self with calls := [], fds := [] })

/-- The size of both buffers. -/
def bufSize : Nat := 80

/-- "_CHILD". -/
def suffix : List Byte := [95, 67, 72, 73, 76, 68]

/-- The calls in `if (childId == 0)`. -/
def childCalls : List Call :=
  [.memset, .close (.writer .pipeChannel), .read .pipeChannel, .printf, .strcat suffix,
    .write .pipeChannel2, .close (.reader .pipeChannel2), .printf, .exit]

/-- The calls behind it; the source has "korea" for the message. -/
def parentCalls (message : List Byte) : List Call :=
  [.strcpy message, .write .pipeChannel, .close (.reader .pipeChannel), .memset,
    .close (.writer .pipeChannel2), .read .pipeChannel2, .printf, .exit]

/-- What both processes have after `fork`. -/
def allFds : List Fd :=
  [.reader .pipeChannel, .writer .pipeChannel, .reader .pipeChannel2, .writer .pipeChannel2]

/-- Behind `fork`, with whatever `buf` and `temp` hold. -/
def start (message buf temp : List Byte) : State where
  procs
    | .child => ⟨childCalls, buf, allFds, []⟩
    | .parent => ⟨parentCalls message, temp, allFds, []⟩
  pipes _ := []

section Places
variable (message buf temp : List Byte)

/-- A text in an otherwise cleared buffer. -/
def cleared (t : List Byte) : List Byte := readInto (zeros bufSize) t

/-- The child when it has made so many calls. -/
def childAt (i : Nat) : Process where
  calls := childCalls.drop i
  buf :=
    if i = 0 then buf else if i ≤ 2 then cleared [] else if i ≤ 4 then cleared message
    else cleared (message ++ suffix)
  fds :=
    if i ≤ 1 then allFds
    else if i ≤ 6 then [.reader .pipeChannel, .reader .pipeChannel2, .writer .pipeChannel2]
    else if i ≤ 8 then [.reader .pipeChannel, .writer .pipeChannel2] else []
  printed :=
    if i ≤ 3 then [] else if i ≤ 7 then [message] else [message, message ++ suffix]

/-- The parent when it has made so many calls. -/
def parentAt (j : Nat) : Process where
  calls := (parentCalls message).drop j
  buf :=
    if j = 0 then temp else if j ≤ 3 then readInto temp (message ++ [0])
    else if j ≤ 5 then cleared [] else cleared (message ++ suffix)
  fds :=
    if j ≤ 2 then allFds
    else if j ≤ 4 then [.writer .pipeChannel, .reader .pipeChannel2, .writer .pipeChannel2]
    else if j ≤ 7 then [.writer .pipeChannel, .reader .pipeChannel2] else []
  printed := if j ≤ 6 then [] else [message ++ suffix]

/-- The state when the child has made `i` calls and the parent `j`. -/
def reached (i j : Nat) : State where
  procs
    | .child => childAt message buf i
    | .parent => parentAt message temp j
  pipes
    | .pipeChannel => if 2 ≤ j ∧ i ≤ 2 then message else []
    | .pipeChannel2 => if 6 ≤ i ∧ j ≤ 5 then message ++ suffix else []

end Places

/-- Which places go together: the child has read only what the parent has written, and the
other way round. -/
structure Order (i j : Nat) : Prop where
  child : i ≤ 9
  parent : j ≤ 8
  asked : 3 ≤ i → 2 ≤ j
  answered : 6 ≤ j → 6 ≤ i

/-- A message that leaves room for the answer. -/
structure Fits (message : List Byte) : Prop where
  nonempty : message ≠ []
  room : message.length + suffix.length < bufSize
  noNul : 0 ∉ message

section Buffers
variable {t : List Byte}

theorem cleared_nil : cleared [] = zeros bufSize := rfl

theorem length_cleared (h : t.length ≤ bufSize) : (cleared t).length = bufSize := by
  rw [cleared, length_readInto] <;> simp [h]

/-- A longer text covers what was read before. -/
theorem readInto_readInto {buf u : List Byte} (h : t.length ≤ u.length) :
    readInto (readInto buf t) u = readInto buf u := by
  simp only [readInto, List.drop_append, List.drop_eq_nil_of_le h, List.nil_append, List.drop_drop,
    Nat.add_sub_cancel' h]

/-- The zero byte behind the text is there already. -/
theorem readInto_zero (h : t.length < bufSize) :
    readInto (List.replicate bufSize 0) (t ++ [0]) = cleared t := by
  obtain ⟨k, hk⟩ := Nat.exists_eq_add_of_lt h
  have hroom : bufSize - t.length = k + 1 := by omega
  have hrest : bufSize - (t.length + 1) = k := by omega
  simp only [cleared, readInto, List.drop_replicate, List.length_append, List.length_singleton,
    hroom, hrest, List.replicate_succ, List.append_assoc, List.singleton_append]

theorem strcat_cleared (h : t.length + suffix.length < bufSize) (hnul : 0 ∉ t) :
    strcat (cleared t) suffix = some (cleared (t ++ suffix)) := by
  have ht : t.length < bufSize := Nat.lt_of_le_of_lt (Nat.le_add_right _ _) h
  have htext : text (cleared t) = some t := text_cleared ht hnul
  rw [strcat, htext, Option.bind_some, length_cleared ht.le, if_pos h]
  have hle : t.length ≤ (t ++ suffix ++ [0]).length := by
    simp only [List.length_append]
    omega
  rw [cleared, readInto_readInto hle, readInto_zero (by rwa [List.length_append])]

end Buffers

section Calls
variable {cap : Nat} {s : State} {who : Who} {calls : List Call} {p : Channel} {q t : List Byte}

theorem step_memset (hcalls : (s.procs who).calls = .memset :: calls) :
    step cap s who = some (s.set who { s.procs who with
      calls, buf := List.replicate (s.procs who).buf.length 0 }) := by
  simp only [step, hcalls]

theorem step_strcat {suffix b : List Byte} (hcalls : (s.procs who).calls = .strcat suffix :: calls)
    (hcat : strcat (s.procs who).buf suffix = some b) :
    step cap s who = some (s.set who { s.procs who with calls, buf := b }) := by
  simp only [step, hcalls, hcat, Option.map_some]

theorem step_strcpy {src b : List Byte} (hcalls : (s.procs who).calls = .strcpy src :: calls)
    (hcpy : strcpy (s.procs who).buf src = some b) :
    step cap s who = some (s.set who { s.procs who with calls, buf := b }) := by
  simp only [step, hcalls, hcpy, Option.map_some]

theorem step_close {fd : Fd} (hcalls : (s.procs who).calls = .close fd :: calls) :
    step cap s who =
      some (s.set who { s.procs who with calls, fds := (s.procs who).fds.erase fd }) := by
  simp only [step, hcalls]

theorem step_exit (hcalls : (s.procs who).calls = .exit :: calls) :
    step cap s who = some (s.set who { s.procs who with calls := [], fds := [] }) := by
  simp only [step, hcalls]

theorem step_printf (hcalls : (s.procs who).calls = .printf :: calls)
    (ht : text (s.procs who).buf = some t) :
    step cap s who =
      some (s.set who { s.procs who with calls, printed := (s.procs who).printed ++ [t] }) := by
  simp only [step, hcalls, ht, Option.map_some]

/-- A `read` takes all that its buffer has room for. -/
theorem step_read (hcalls : (s.procs who).calls = .read p :: calls)
    (hfd : .reader p ∈ (s.procs who).fds) (hq : s.pipes p = q) (hne : q ≠ [])
    (hfits : q.length ≤ (s.procs who).buf.length) :
    step cap s who =
      some { s.set who { s.procs who with calls, buf := readInto (s.procs who).buf q } with
        pipes := Function.update s.pipes p [] } := by
  simp only [step, hcalls, hfd, hq, hne, not_true_eq_false, if_false, ne_eq, not_false_eq_true,
    if_true, List.take_of_length_le hfits, List.drop_length]

theorem step_read_waits (hcalls : (s.procs who).calls = .read p :: calls)
    (hfd : .reader p ∈ (s.procs who).fds) (hq : s.pipes p = []) (hopen : s.Open (.writer p)) :
    step cap s who = none := by
  simp only [step, hcalls, hfd, hq, hopen, not_true_eq_false, if_false, ne_eq, if_true]

theorem step_write (hcalls : (s.procs who).calls = .write p :: calls)
    (hfd : .writer p ∈ (s.procs who).fds) (hopen : s.Open (.reader p))
    (ht : text (s.procs who).buf = some t) (hroom : (s.pipes p).length + t.length ≤ cap) :
    step cap s who =
      some { s.set who { s.procs who with calls } with
        pipes := Function.update s.pipes p (s.pipes p ++ t) } := by
  simp only [step, hcalls, hfd, hopen, ht, hroom, not_true_eq_false, if_false, if_true,
    Option.bind_some]

end Calls

section Steps
variable {message buf temp : List Byte} {cap i j : Nat}

theorem reached_child {p : Process} {pipes : Channel → List Byte}
    (hp : p = childAt message buf (i + 1))
    (hpipes : ∀ c, pipes c = (reached message buf temp (i + 1) j).pipes c) :
    ⟨Function.update (reached message buf temp i j).procs .child p, pipes⟩ =
      reached message buf temp (i + 1) j := by
  obtain rfl : pipes = _ := funext hpipes
  subst hp
  congr 1
  funext who
  cases who <;> rfl

theorem reached_parent {p : Process} {pipes : Channel → List Byte}
    (hp : p = parentAt message temp (j + 1))
    (hpipes : ∀ c, pipes c = (reached message buf temp i (j + 1)).pipes c) :
    ⟨Function.update (reached message buf temp i j).procs .parent p, pipes⟩ =
      reached message buf temp i (j + 1) := by
  obtain rfl : pipes = _ := funext hpipes
  subst hp
  congr 1
  funext who
  cases who <;> rfl

/-- The parent keeps the end to write to until it exits. -/
theorem parent_writer (hj : j < 8) : .writer .pipeChannel ∈ (parentAt message temp j).fds := by
  have hj' : j ≤ 7 := Nat.le_of_lt_succ hj
  simp only [parentAt, hj', if_true]
  split_ifs <;> simp [allFds]

theorem child_writer (hi : i < 9) : .writer .pipeChannel2 ∈ (childAt message buf i).fds := by
  have hi' : i ≤ 8 := Nat.le_of_lt_succ hi
  simp only [childAt, hi', if_true]
  split_ifs <;> simp [allFds]

/-- Only its `read` and its `write` change the pipes. -/
theorem pipes_child (h2 : i ≠ 2) (h5 : i ≠ 5) (c : Channel) :
    (reached message buf temp i j).pipes c = (reached message buf temp (i + 1) j).pipes c := by
  have hread : i ≤ 2 ↔ i + 1 ≤ 2 := by omega
  have hwrite : 6 ≤ i ↔ 6 ≤ i + 1 := by omega
  cases c <;> simp only [reached, hread, hwrite]

theorem pipes_parent (h1 : j ≠ 1) (h5 : j ≠ 5) (c : Channel) :
    (reached message buf temp i j).pipes c = (reached message buf temp i (j + 1)).pipes c := by
  have hread : j ≤ 5 ↔ j + 1 ≤ 5 := by omega
  have hwrite : 2 ≤ j ↔ 2 ≤ j + 1 := by omega
  cases c <;> simp only [reached, hread, hwrite]

theorem child_next {p : Process}
    (hstep : step cap (reached message buf temp i j) .child =
      some ((reached message buf temp i j).set .child p))
    (hp : p = childAt message buf (i + 1)) (h2 : i ≠ 2) (h5 : i ≠ 5) :
    step cap (reached message buf temp i j) .child = some (reached message buf temp (i + 1) j) :=
  hstep.trans (congrArg some (reached_child hp (pipes_child h2 h5)))

theorem parent_next {p : Process}
    (hstep : step cap (reached message buf temp i j) .parent =
      some ((reached message buf temp i j).set .parent p))
    (hp : p = parentAt message temp (j + 1)) (h1 : j ≠ 1) (h5 : j ≠ 5) :
    step cap (reached message buf temp i j) .parent = some (reached message buf temp i (j + 1)) :=
  hstep.trans (congrArg some (reached_parent hp (pipes_parent h1 h5)))

theorem Fits.length_lt (h : Fits message) : message.length < bufSize :=
  Nat.lt_of_le_of_lt (Nat.le_add_right _ _) h.room

theorem Fits.length_answer_lt (h : Fits message) : (message ++ suffix).length < bufSize := by
  rw [List.length_append]
  exact h.room

theorem Fits.text_answer (h : Fits message) :
    text (cleared (message ++ suffix)) = some (message ++ suffix) := by
  refine text_cleared h.length_answer_lt ?_
  rw [List.mem_append, not_or]
  exact ⟨h.noNul, by decide⟩

/-- The child goes on with its next call, but waits for the message. -/
theorem step_child (h : Fits message) (hbuf : buf.length = bufSize) (hcap : bufSize ≤ cap)
    (horder : Order i j) :
    step cap (reached message buf temp i j) .child =
      if i < 9 ∧ (i = 2 → 2 ≤ j) then some (reached message buf temp (i + 1) j) else none := by
  have hi := horder.child
  have hanswered := horder.answered
  by_cases hgo : i < 9 ∧ (i = 2 → 2 ≤ j)
  · rw [if_pos hgo]
    obtain ⟨hlt, hread⟩ := hgo
    interval_cases i
    · have hclear : List.replicate buf.length 0 = cleared [] := by rw [hbuf, cleared_nil]
      exact child_next (step_memset rfl) (Process.ext rfl hclear rfl rfl) (by decide) (by decide)
    · exact child_next (step_close rfl) rfl (by decide) (by decide)
    · have hq : (reached message buf temp 2 j).pipes .pipeChannel = message :=
        if_pos ⟨hread rfl, le_rfl⟩
      refine Eq.trans (step_read rfl List.mem_cons_self hq h.nonempty h.length_lt.le)
        (congrArg some (reached_child rfl fun c => ?_))
      cases c <;> simp [reached]
    · exact child_next (step_printf rfl (text_cleared h.length_lt h.noNul)) rfl (by decide)
        (by decide)
    · exact child_next (step_strcat rfl (strcat_cleared h.room h.noNul)) rfl (by decide)
        (by decide)
    · have hopen : (reached message buf temp 5 j).Open (.reader .pipeChannel2) :=
        .inr (by simp [reached, childAt])
      have hmem : .writer .pipeChannel2 ∈ ((reached message buf temp 5 j).procs .child).fds :=
        child_writer (by decide)
      have hroom : 0 + (message ++ suffix).length ≤ cap := by
        rw [Nat.zero_add]
        exact h.length_answer_lt.le.trans hcap
      refine Eq.trans (step_write rfl hmem hopen h.text_answer hroom)
        (congrArg some (reached_child rfl fun c => ?_))
      have hj : j ≤ 5 := by omega
      cases c <;> simp [reached, hj]
    · exact child_next (step_close rfl) rfl (by decide) (by decide)
    · exact child_next (step_printf rfl h.text_answer) rfl (by decide) (by decide)
    · exact child_next (step_exit rfl) rfl (by decide) (by decide)
  · rw [if_neg hgo]
    obtain rfl | ⟨rfl, hj⟩ : i = 9 ∨ i = 2 ∧ j < 2 := by omega
    · rfl
    · have hempty : (reached message buf temp 2 j).pipes .pipeChannel = [] := if_neg (by omega)
      exact step_read_waits rfl List.mem_cons_self hempty (.inl (parent_writer (by omega)))

/-- The parent goes on with its next call, but waits for the answer. -/
theorem step_parent (h : Fits message) (htemp : temp.length = bufSize) (hcap : bufSize ≤ cap)
    (horder : Order i j) :
    step cap (reached message buf temp i j) .parent =
      if j < 8 ∧ (j = 5 → 6 ≤ i) then some (reached message buf temp i (j + 1)) else none := by
  have hj := horder.parent
  have hasked := horder.asked
  by_cases hgo : j < 8 ∧ (j = 5 → 6 ≤ i)
  · rw [if_pos hgo]
    obtain ⟨hlt, hread⟩ := hgo
    have hended : (message ++ [0]).length ≤ temp.length := by
      rw [List.length_append, htemp]
      exact h.length_lt
    interval_cases j
    · exact parent_next (step_strcpy rfl (if_pos (htemp ▸ h.length_lt))) rfl (by decide) (by decide)
    · have hopen : (reached message buf temp i 1).Open (.reader .pipeChannel) :=
        .inl (by simp [reached, parentAt, allFds])
      have hmem : .writer .pipeChannel ∈ ((reached message buf temp i 1).procs .parent).fds :=
        parent_writer (by decide)
      have htext : text (readInto temp (message ++ [0])) = some message := by
        rw [text_readInto_ended, takeWhile_of_noNul h.noNul]
      have hroom : 0 + message.length ≤ cap := by
        rw [Nat.zero_add]
        exact h.length_lt.le.trans hcap
      refine Eq.trans (step_write rfl hmem hopen htext hroom)
        (congrArg some (reached_parent rfl fun c => ?_))
      have hi : i ≤ 2 := by omega
      cases c <;> simp [reached, hi]
    · exact parent_next (step_close rfl) rfl (by decide) (by decide)
    · have hclear : List.replicate (readInto temp (message ++ [0])).length 0 = cleared [] := by
        rw [length_readInto hended, htemp, cleared_nil]
      exact parent_next (step_memset rfl) (Process.ext rfl hclear rfl rfl) (by decide) (by decide)
    · exact parent_next (step_close rfl) rfl (by decide) (by decide)
    · have hq : (reached message buf temp i 5).pipes .pipeChannel2 = message ++ suffix :=
        if_pos ⟨hread rfl, le_rfl⟩
      have hmem : .reader .pipeChannel2 ∈ ((reached message buf temp i 5).procs .parent).fds := by
        simp [reached, parentAt]
      refine Eq.trans (step_read rfl hmem hq (by simp [h.nonempty]) h.length_answer_lt.le)
        (congrArg some (reached_parent rfl fun c => ?_))
      cases c <;> simp [reached]
    · exact parent_next (step_printf rfl h.text_answer) rfl (by decide) (by decide)
    · exact parent_next (step_exit rfl) rfl (by decide) (by decide)
  · rw [if_neg hgo]
    obtain rfl | ⟨rfl, hi⟩ : j = 8 ∨ j = 5 ∧ i < 6 := by omega
    · rfl
    · have hempty : (reached message buf temp i 5).pipes .pipeChannel2 = [] := if_neg (by omega)
      have hmem : .reader .pipeChannel2 ∈ ((reached message buf temp i 5).procs .parent).fds := by
        simp [reached, parentAt]
      exact step_read_waits rfl hmem hempty (.inr (child_writer (by omega)))

end Steps

/-- The child prints the message and then its answer, the parent the answer, and not before the
child has printed what it answers. -/
structure Exchanged (message : List Byte) (s : State) : Prop where
  child : (s.procs .child).printed <+: [message, message ++ suffix]
  parent : (s.procs .parent).printed <+: [message ++ suffix]
  order : (s.procs .parent).printed ≠ [] → (s.procs .child).printed ≠ []

/-- Both processes have ended, with all they had to print. -/
structure Done (message : List Byte) (s : State) : Prop where
  calls : ∀ who, (s.procs who).calls = []
  child : (s.procs .child).printed = [message, message ++ suffix]
  parent : (s.procs .parent).printed = [message ++ suffix]
  pipes : ∀ c, s.pipes c = []

/-- The places of both processes determine the state. -/
def Reached (message buf temp : List Byte) (s : State) : Prop :=
  ∃ i j, Order i j ∧ s = reached message buf temp i j

def callsLeft (s : State) : Nat := (s.procs .child).calls.length + (s.procs .parent).calls.length

section Runs
variable {message buf temp : List Byte} {cap : Nat} {s t : State} {who : Who}

theorem reached_start : Reached message buf temp (start message buf temp) := by
  refine ⟨0, 0, ⟨by decide, by decide, by decide, by decide⟩, ?_⟩
  rw [start, reached]
  congr 1
  funext c
  cases c <;> rfl

theorem callsLeft_reached {i j : Nat} :
    callsLeft (reached message buf temp i j) = (9 - i) + (8 - j) := by
  have hchild : childCalls.length = 9 := rfl
  have hparent : (parentCalls message).length = 8 := rfl
  simp only [callsLeft, reached, childAt, parentAt, List.length_drop, hchild, hparent]

theorem Reached.step (hs : Reached message buf temp s) (h : Fits message)
    (hbuf : buf.length = bufSize) (htemp : temp.length = bufSize) (hcap : bufSize ≤ cap)
    (hstep : Pipe.step cap s who = some t) :
    Reached message buf temp t ∧ callsLeft t + 1 = callsLeft s := by
  obtain ⟨i, j, horder, rfl⟩ := hs
  have hasked := horder.asked
  have hanswered := horder.answered
  cases who with
  | child =>
    rw [step_child h hbuf hcap horder] at hstep
    obtain ⟨⟨hi, hread⟩, ht⟩ := Option.ite_none_right_eq_some.mp hstep
    cases ht
    refine ⟨⟨i + 1, j, ⟨hi, horder.parent, fun _ => ?_, fun _ => ?_⟩, rfl⟩, ?_⟩
    · omega
    · omega
    · rw [callsLeft_reached, callsLeft_reached]
      omega
  | parent =>
    rw [step_parent h htemp hcap horder] at hstep
    obtain ⟨⟨hj, hread⟩, ht⟩ := Option.ite_none_right_eq_some.mp hstep
    cases ht
    refine ⟨⟨i, j + 1, ⟨horder.child, hj, fun _ => ?_, fun _ => ?_⟩, rfl⟩, ?_⟩
    · omega
    · omega
    · rw [callsLeft_reached, callsLeft_reached]
      omega

theorem Reached.exchanged (hs : Reached message buf temp s) : Exchanged message s := by
  obtain ⟨i, j, horder, rfl⟩ := hs
  have hanswered := horder.answered
  refine ⟨?_, ?_, fun hprinted => ?_⟩
  · simp only [reached, childAt]
    split_ifs <;> simp
  · simp only [reached, parentAt]
    split_ifs <;> simp
  · simp only [reached, parentAt, ne_eq, ite_eq_left_iff, List.cons_ne_nil, imp_false,
      not_not, not_le] at hprinted
    have hi : ¬ i ≤ 3 := by omega
    simp only [reached, childAt, hi, if_false]
    split_ifs <;> simp

/-- Neither process can wait for the other one for good. -/
theorem Reached.done_of_stuck (hs : Reached message buf temp s) (h : Fits message)
    (hbuf : buf.length = bufSize) (htemp : temp.length = bufSize) (hcap : bufSize ≤ cap)
    (hstuck : Stuck (Pipe.step cap) (fun _ _ => True) s) : Done message s := by
  obtain ⟨i, j, horder, rfl⟩ := hs
  have hchild := hstuck .child trivial
  have hparent := hstuck .parent trivial
  rw [step_child h hbuf hcap horder, ite_eq_right_iff] at hchild
  rw [step_parent h htemp hcap horder, ite_eq_right_iff] at hparent
  simp only [reduceCtorEq, imp_false] at hchild hparent
  have hi := horder.child
  have hj := horder.parent
  obtain ⟨rfl, rfl⟩ : i = 9 ∧ j = 8 := by omega
  refine ⟨fun who => ?_, rfl, rfl, fun c => ?_⟩
  · cases who <;> rfl
  · cases c <;> rfl

/-- In any schedule both print what they have to, in order; any schedule can be completed, all
complete ones have 17 calls, and where neither process can go on both have ended. -/
theorem exchanges (h : Fits message) (hbuf : buf.length = bufSize) (htemp : temp.length = bufSize)
    (hcap : bufSize ≤ cap) (schedule : List Who) :
    Throughout (Pipe.step cap) (Exchanged message) (start message buf temp) schedule ∧
      ∀ s, run (Pipe.step cap) (start message buf temp) schedule = some s →
        (Stuck (Pipe.step cap) (fun _ _ => True) s → Done message s) ∧
        ∃ rest t, run (Pipe.step cap) s rest = some t ∧ Done message t ∧
          schedule.length + rest.length = 17 := by
  have hstep : ∀ s who t, Reached message buf temp s → True → Pipe.step cap s who = some t →
      Reached message buf temp t ∧ callsLeft t + 1 = callsLeft s :=
    fun _ _ _ hs _ ht => hs.step h hbuf htemp hcap ht
  have hkeep : ∀ s who t, Reached message buf temp s → Pipe.step cap s who = some t →
      Reached message buf temp t := fun s who t hs ht => (hstep s who t hs trivial ht).1
  refine ⟨(throughout_invariant hkeep reached_start schedule).mono fun _ hs => hs.exchanged, ?_⟩
  intro s hrun
  have hs := run_invariant hkeep reached_start hrun
  refine ⟨hs.done_of_stuck h hbuf htemp hcap, ?_⟩
  obtain ⟨rest, t, -, hrest, hstuck⟩ := exists_stuck
    (fun s who t hs hG ht => (hstep s who t hs hG ht).imp_right Nat.le_of_eq) hs
  have hdone := (run_invariant hkeep hs hrest).done_of_stuck h hbuf htemp hcap hstuck
  have hlength := length_of_counts hstep reached_start (along_true _ _)
    (run_append_some.mpr ⟨s, hrun, hrest⟩)
  have hzero : callsLeft t = 0 := by simp only [callsLeft, hdone.calls, List.length_nil]
  have hall : callsLeft (start message buf temp) = 17 := rfl
  rw [hzero, hall, List.length_append] at hlength
  exact ⟨rest, t, hrest, hdone, hlength⟩

end Runs

/-- "korea". -/
def korea : List Byte := [107, 111, 114, 101, 97]

/-- The source's message, in cleared buffers. -/
theorem exchanges_korea :
    ∃ schedule t, run (Pipe.step 4096)
        (start korea (List.replicate 80 0) (List.replicate 80 0)) schedule = some t ∧
      Done korea t ∧ schedule.length = 17 := by
  have h : Fits korea := ⟨by decide, by decide, by decide⟩
  have hzeros : (List.replicate 80 (0 : Byte)).length = bufSize := List.length_replicate
  have hcap : bufSize ≤ 4096 := by decide
  obtain ⟨-, hrun⟩ := exchanges h hzeros hzeros hcap []
  obtain ⟨-, rest, t, hrest, hdone, hlength⟩ := hrun _ rfl
  exact ⟨rest, t, hrest, hdone, by simpa using hlength⟩

end NetworkProgramming.Pipe
