import Mathlib.Logic.Function.Iterate
import NetworkProgramming.Calculator
import NetworkProgramming.Library.LockStep

/-!
# The calculator's client and its child of the server

The client of week 7 fills its one `MSG` from the keyboard, sends all of it and
prints the `ANSWER`. At the end of the input the operands stay as they are.
-/
namespace NetworkProgramming.CalculatorSession

open Buffer Calculator LockStep Transition

/-- What the user answers to the three prompts. -/
structure Operation where
  oper1 : BitVec 16
  oper2 : BitVec 16
  op : Byte
  deriving DecidableEq, Repr

/-- The four bytes of an `ANSWER`. -/
def intBytes (x : BitVec 32) : List Byte :=
  [⟨x.extractLsb' 0 8⟩, ⟨x.extractLsb' 8 8⟩, ⟨x.extractLsb' 16 8⟩, ⟨x.extractLsb' 24 8⟩]

def int (b : List Byte) : BitVec 32 :=
  (b.getD 3 0).toBitVec ++ (b.getD 2 0).toBitVec ++ (b.getD 1 0).toBitVec ++ (b.getD 0 0).toBitVec

@[simp] theorem int_intBytes (x : BitVec 32) : int (intBytes x) = x := by
  have h₁ : x.extractLsb' 24 8 ++ x.extractLsb' 16 8 = x.extractLsb' 16 16 :=
    BitVec.extractLsb'_append_extractLsb'_eq_extractLsb' rfl
  have h₂ : x.extractLsb' 16 16 ++ x.extractLsb' 8 8 = x.extractLsb' 8 24 :=
    BitVec.extractLsb'_append_extractLsb'_eq_extractLsb' rfl
  have h₃ : x.extractLsb' 8 24 ++ x.extractLsb' 0 8 = x.extractLsb' 0 32 :=
    BitVec.extractLsb'_append_extractLsb'_eq_extractLsb' rfl
  simp only [int, intBytes, List.getD_cons_succ, List.getD_cons_zero, h₁, h₂, h₃,
    BitVec.extractLsb'_eq_self]

structure Client where
  message : MSG
  inputs : List Operation
  /-- The numbers behind "Operation Result = ". -/
  shown : List (BitVec 32)
  deriving DecidableEq, Repr

/-- The child's `client_message` and `oper_answer`. -/
structure Child where
  client_message : List Byte
  oper_answer : BitVec 32
  deriving DecidableEq, Repr

/-- `message.cnt = 2`, the three `scanf` calls and `message.unuse = 0`. -/
def prompt (m : MSG) : List Operation → MSG × List Operation
  | [] => ({ m with cnt := 2, unuse := 0 }, [])
  | o :: os => (⟨2, o.oper1, o.oper2, m.oper3, o.op, 0⟩, os)

def Client.send (c : Client) : List Byte × Client :=
  let read := prompt c.message c.inputs
  (read.1.bytes, { c with message := read.1, inputs := read.2 })

/-- `recv` into the cleared `messageFromServer`. -/
def Client.recv (c : Client) (piece : List Byte) : Client :=
  { c with shown := c.shown ++ [int (readInto (List.replicate 4 0) piece)] }

/-- `recv` into `client_message` and the `switch`; a division by zero kills the child. -/
def Child.recv (v : Child) (piece : List Byte) : Option Child :=
  let client_message := readInto v.client_message piece
  (calculate (MSG.ofBytes client_message)).map fun oper_answer => { client_message, oper_answer }

def protocol : Protocol Client Child Byte where
  ask c := some c.send
  hearAnswer c piece := some (c.recv piece)
  hear := Child.recv
  answer v := some (intBytes v.oper_answer, v)
  requestLimit := 10
  answerLimit := 4

/-- Behind `connect` and `fork`; `message` holds anything yet. -/
def start (message : MSG) (inputs : List Operation) : State Client Child Byte :=
  LockStep.start ⟨message, inputs, []⟩ ⟨List.replicate 10 0, 0⟩

/-- The client's `message` and input when it has sent so many requests. -/
def asked (message : MSG) (inputs : List Operation) (k : Nat) : MSG × List Operation :=
  (fun r => prompt r.1 r.2)^[k] (message, inputs)

/-- The request `k`. -/
def request (message : MSG) (inputs : List Operation) (k : Nat) : MSG :=
  (asked message inputs (k + 1)).1

/-- The first results have been displayed, in order and exactly. -/
def InOrder (message : MSG) (inputs : List Operation) (s : State Client Child Byte) : Prop :=
  s.client.shown.map BitVec.toInt =
    (List.range s.client.shown.length).map fun k => exactResult (request message inputs k)

/-- These bytes are no division by zero. -/
def Calculable (m : List Byte) : Prop := ¬ (MSG.ofBytes m).DividesByZero

instance : DecidablePred Calculable := fun _ => inferInstanceAs (Decidable (¬ _))

section Live
variable {s t : State Client Child Byte} {a : Label}

theorem speaks (s : State Client Child Byte) (a : Label) : Speaks protocol s a := by
  cases a with
  | ask =>
    intro turn r hr
    cases hr
    exact .inl (List.ne_nil_of_length_pos (by rw [Client.send, bytes_length]; decide))
  | answer =>
    intro turn r hr
    cases hr
    exact .inl (List.cons_ne_nil _ _)
  | hear | hearAnswer => trivial

/-- Whatever pieces the streams bring, client and child never wait for each other for good. -/
theorem live (message : MSG) (inputs : List Operation) (labels : List Label) :
    Throughout (step protocol) Live (start message inputs) labels :=
  throughout_invariant (fun _ _ _ _ ht => (live_iff_speaks ht).mpr (speaks _ _)) (.inl rfl) labels

end Live

section Turns
variable {message : MSG} {inputs : List Operation}

/-- The first results have been computed and displayed. -/
structure Counted (message : MSG) (inputs : List Operation) (sent shown : Nat) (c : Client)
    (v : Child) : Prop where
  asked : (c.message, c.inputs) = asked message inputs sent
  shown : c.shown.map BitVec.toInt =
    (List.range shown).map fun k => exactResult (request message inputs k)
  buffer : v.client_message.length = 10

/-- What holds in the `n`th round. -/
def Round (message : MSG) (inputs : List Operation) (c : Client) (v : Child) (p : Phase Byte) :
    Prop :=
  ∃ n, match p with
    | .asking => Counted message inputs n n c v
    | .asked m => Counted message inputs (n + 1) n c v ∧ m = (request message inputs n).bytes
    | .answering => Counted message inputs (n + 1) n c v ∧
        v.oper_answer.toInt = exactResult (request message inputs n)
    | .answered m => Counted message inputs (n + 1) n c v ∧
        ∃ r : BitVec 32, m = intBytes r ∧ r.toInt = exactResult (request message inputs n)

/-- A whole record is evaluated, unless it divides by zero. -/
theorem recv_child {v : Child} (hbuf : v.client_message.length = 10) (m : MSG) :
    v.recv m.bytes = (calculate m).map fun r => ⟨m.bytes, r⟩ := by
  have hfull : readInto v.client_message m.bytes = m.bytes := readInto_full _ _ hbuf
  simp only [Child.recv, hfull, ofBytes_bytes]

theorem preserved_round : Preserved protocol (Round message inputs) where
  ask := by
    rintro c v m c' ⟨n, h⟩ hask
    cases hask
    have hasked : prompt c.message c.inputs = asked message inputs (n + 1) := by
      rw [asked, Function.iterate_succ_apply', ← asked, ← h.asked]
    refine ⟨n, ⟨hasked, h.shown, h.buffer⟩, ?_⟩
    rw [request, ← hasked]
  hear := by
    rintro c v m v' ⟨n, h, rfl⟩ - hhear
    rw [show protocol.hear v _ = v.recv _ from rfl, recv_child h.buffer] at hhear
    obtain ⟨r, hr, rfl⟩ := Option.map_eq_some_iff.mp hhear
    refine ⟨n, ⟨h.asked, h.shown, bytes_length _⟩, ?_⟩
    by_cases hzero : (request message inputs n).DividesByZero
    · rw [calculate_none hzero] at hr
      cases hr
    · obtain ⟨r', hr', hexact⟩ := calculate_exact _ hzero
      obtain rfl := Option.some.inj (hr.symm.trans hr')
      exact hexact
  answer := by
    rintro c v m v' ⟨n, h, hexact⟩ hanswer
    cases hanswer
    exact ⟨n, h, v.oper_answer, rfl, hexact⟩
  hearAnswer := by
    rintro c v m c' ⟨n, h, r, rfl, hexact⟩ - hhear
    cases hhear
    refine ⟨n + 1, h.asked, ?_, h.buffer⟩
    have hfull : readInto (List.replicate 4 0) (intBytes r) = intBytes r := readInto_full _ _ rfl
    rw [List.range_succ, List.map_append, ← h.shown, Client.recv, hfull, int_intBytes,
      List.map_append, List.map_singleton, List.map_singleton, hexact]

theorem ready_round : Ready protocol (Round message inputs) Calculable where
  nothing := by decide
  ask c v _ := ⟨_, rfl⟩
  hear := by
    rintro c v m ⟨n, h, rfl⟩
    refine ⟨Nat.le_of_eq (bytes_length _), ?_⟩
    rw [show protocol.hear v _ = v.recv _ from rfl, recv_child h.buffer, Calculable, ofBytes_bytes]
    constructor
    · rintro ⟨v', hv⟩ hzero
      rw [calculate_none hzero] at hv
      cases hv
    · intro hzero
      obtain ⟨r, hr, -⟩ := calculate_exact _ hzero
      exact ⟨_, congrArg (Option.map _) hr⟩
  answer c v _ := ⟨_, rfl⟩
  hearAnswer := by
    rintro c v m ⟨n, h, r, rfl, -⟩
    exact ⟨Nat.le_refl 4, _, rfl⟩

theorem InTurn.inOrder {s : State Client Child Byte} (h : InTurn (Round message inputs) s) :
    InOrder message inputs s := by
  obtain ⟨c, v, p, rfl, n, hn⟩ := h
  have hcounted : ∀ {sent}, Counted message inputs sent n c v →
      InOrder message inputs (Phase.state c v p) := by
    intro sent h
    have hlen := congrArg List.length h.shown
    rw [List.length_map, List.length_map, List.length_range] at hlen
    cases p
    all_goals
      rw [InOrder, Phase.state, hlen]
      exact h.shown
  cases p with
  | asking => exact hcounted hn
  | asked m | answering | answered m => exact hcounted hn.1

end Turns

end NetworkProgramming.CalculatorSession
