import NetworkProgramming.Library.Buffer
import NetworkProgramming.Library.ByteStream

/-!
# The calculator protocol

The server child of week 7 receives straight into its one `MSG`, evaluates it
after every `recv` and sends an `ANSWER`. Records are ten bytes in the byte
order of the machine, least significant byte first.
-/
namespace NetworkProgramming.Calculator

open Buffer ByteStream

structure MSG where
  cnt : BitVec 16
  oper1 : BitVec 16
  oper2 : BitVec 16
  oper3 : BitVec 16
  op : Byte
  unuse : Byte
  deriving DecidableEq, Repr

/-- The two bytes of a `short`. -/
def shortBytes (x : BitVec 16) : List Byte := [⟨x.extractLsb' 0 8⟩, ⟨x.extractLsb' 8 8⟩]

def short (low high : Byte) : BitVec 16 := high.toBitVec ++ low.toBitVec

@[simp] theorem short_shortBytes (x : BitVec 16) :
    short ⟨x.extractLsb' 0 8⟩ ⟨x.extractLsb' 8 8⟩ = x :=
  @BitVec.extractLsb'_append_extractLsb' 8 8 x

/-- The bytes `send(client_sock, &message, sizeof(message), 0)` puts on the stream. -/
def MSG.bytes (m : MSG) : List Byte :=
  shortBytes m.cnt ++ shortBytes m.oper1 ++ shortBytes m.oper2 ++ shortBytes m.oper3 ++
    [m.op, m.unuse]

/-- The record that ten bytes of memory hold. -/
def MSG.ofBytes (b : List Byte) : MSG where
  cnt := short (b.getD 0 0) (b.getD 1 0)
  oper1 := short (b.getD 2 0) (b.getD 3 0)
  oper2 := short (b.getD 4 0) (b.getD 5 0)
  oper3 := short (b.getD 6 0) (b.getD 7 0)
  op := b.getD 8 0
  unuse := b.getD 9 0

@[simp] theorem ofBytes_bytes (m : MSG) : MSG.ofBytes m.bytes = m := by
  simp [MSG.ofBytes, MSG.bytes, shortBytes]

@[simp] theorem bytes_length (m : MSG) : m.bytes.length = 10 := rfl

inductive Operator where
  | add | sub | mul | div | unknown
  deriving DecidableEq, Repr

/-- The cases of `switch(client_message.op)`: `+`, `-`, `*`, `/` and `default`. -/
def operator (op : Byte) : Operator :=
  if op = 43 then .add
  else if op = 45 then .sub
  else if op = 42 then .mul
  else if op = 47 then .div
  else .unknown

/-- The `switch` in `int` arithmetic; a zero divisor traps. -/
def calculate (m : MSG) : Option (BitVec 32) :=
  match operator m.op with
  | .add => some (m.oper1.signExtend 32 + m.oper2.signExtend 32)
  | .sub => some (m.oper1.signExtend 32 - m.oper2.signExtend 32)
  | .mul => some (m.oper1.signExtend 32 * m.oper2.signExtend 32)
  | .div =>
    if m.oper2 = 0 then none
    else some ((m.oper1.signExtend 32).sdiv (m.oper2.signExtend 32))
  | .unknown => some 0

/-- The exact integer value; C division truncates towards zero. -/
def exactResult (m : MSG) : Int :=
  match operator m.op with
  | .add => m.oper1.toInt + m.oper2.toInt
  | .sub => m.oper1.toInt - m.oper2.toInt
  | .mul => m.oper1.toInt * m.oper2.toInt
  | .div => m.oper1.toInt.tdiv m.oper2.toInt
  | .unknown => 0

/-- The request divides by zero. -/
def MSG.DividesByZero (m : MSG) : Prop := operator m.op = .div ∧ m.oper2 = 0

instance (m : MSG) : Decidable m.DividesByZero := inferInstanceAs (Decidable (_ ∧ _))

theorem bmod_of_small {x : Int} (hl : -2 ^ 31 ≤ x) (hu : x < 2 ^ 31) :
    x.bmod (2 ^ 32) = x :=
  Int.bmod_eq_of_le (by omega) (by omega)

@[simp] theorem toInt_promoted (x : BitVec 16) : (x.signExtend 32).toInt = x.toInt :=
  BitVec.toInt_signExtend_of_le (by decide)

/-- No operation on two `short` operands overflows `int`, `-32768 / -1` included. -/
theorem calculate_exact (m : MSG) (h : ¬ m.DividesByZero) :
    ∃ r, calculate m = some r ∧ r.toInt = exactResult m := by
  have h₁ := BitVec.le_toInt m.oper1
  have h₂ := BitVec.toInt_lt (x := m.oper1)
  have h₃ := BitVec.le_toInt m.oper2
  have h₄ := BitVec.toInt_lt (x := m.oper2)
  unfold calculate exactResult
  cases ho : operator m.op with
  | add =>
    refine ⟨_, rfl, ?_⟩
    rw [BitVec.toInt_add, toInt_promoted, toInt_promoted]
    exact bmod_of_small (by omega) (by omega)
  | sub =>
    refine ⟨_, rfl, ?_⟩
    rw [BitVec.toInt_sub, toInt_promoted, toInt_promoted]
    exact bmod_of_small (by omega) (by omega)
  | mul =>
    refine ⟨_, rfl, ?_⟩
    have hl := BitVec.le_toInt_mul_toInt (x := m.oper1) (y := m.oper2)
    have hu := BitVec.toInt_mul_toInt_le (x := m.oper1) (y := m.oper2)
    rw [BitVec.toInt_mul, toInt_promoted, toInt_promoted]
    exact bmod_of_small (by omega) (by omega)
  | div =>
    have hz : m.oper2 ≠ 0 := fun hz => h ⟨ho, hz⟩
    refine ⟨_, if_neg hz, ?_⟩
    have hq := Int.natAbs_tdiv_le_natAbs m.oper1.toInt m.oper2.toInt
    rw [BitVec.toInt_sdiv, toInt_promoted, toInt_promoted]
    exact bmod_of_small (by omega) (by omega)
  | unknown => exact ⟨0, rfl, rfl⟩

theorem calculate_none {m : MSG} (h : m.DividesByZero) : calculate m = none := by
  simp [calculate, h.1, h.2]

/-- What `recv` returns while it does not return 0. -/
inductive RecvResult where
  | error
  | data (chunk : List Byte)
  deriving DecidableEq, Repr

/-- One round of the child: the bytes it evaluated and the `ANSWER` it sent. -/
structure Exchange where
  record : List Byte
  result : BitVec 32
  deriving DecidableEq, Repr

/-- `while((result = recv(accept_no, &client_message, sizeof(client_message), 0)) != 0)`.
The one `client_message` keeps its old bytes behind a shorter piece, and all of
them after an error; `none` is the trap of a division by zero. -/
def serve (client_message : List Byte) : List RecvResult → Option (List Exchange)
  | [] => some []
  | r :: rs =>
    let client_message := match r with
      | .error => client_message
      | .data chunk => readInto client_message chunk
    (calculate (MSG.ofBytes client_message)).bind fun result =>
      (serve client_message rs).map (⟨client_message, result⟩ :: ·)

/-- The loop answers once for every `recv`. -/
theorem serve_length {client_message : List Byte} {rs : List RecvResult} {es : List Exchange}
    (h : serve client_message rs = some es) : es.length = rs.length := by
  induction rs generalizing client_message es with
  | nil =>
    simp only [serve, Option.some.injEq] at h
    simp [← h]
  | cons r rs ih =>
    simp only [serve, Option.bind_eq_some_iff, Option.map_eq_some_iff] at h
    obtain ⟨result, -, tail, ht, rfl⟩ := h
    simp [ih ht]

/-- The exchanges that evaluate exactly the requests, in order. -/
def Answers (reqs : List MSG) (es : List Exchange) : Prop :=
  es.map Exchange.record = reqs.map MSG.bytes ∧
    es.map (fun e => e.result.toInt) = reqs.map exactResult

/-- Whole records in, whole records evaluated: the old bytes are overwritten. -/
theorem serve_whole (reqs : List MSG) (client_message : List Byte)
    (hl : client_message.length = 10) (hd : ∀ m ∈ reqs, ¬ m.DividesByZero) :
    ∃ es, serve client_message (reqs.map fun m => .data m.bytes) = some es ∧
      Answers reqs es := by
  induction reqs generalizing client_message with
  | nil => exact ⟨[], rfl, rfl, rfl⟩
  | cons m reqs ih =>
    have hr : readInto client_message m.bytes = m.bytes := readInto_full _ _ hl
    obtain ⟨result, hc, he⟩ := calculate_exact m (hd m (by simp))
    obtain ⟨es, hs, hb, hv⟩ := ih m.bytes rfl (fun n hn => hd n (by simp [hn]))
    refine ⟨⟨m.bytes, result⟩ :: es, ?_, ?_, ?_⟩
    · simp [serve, hr, hc, hs]
    · simp [hb]
    · simp [he, hv]

/-- The child's answers to a request stream that arrives in these pieces, with
`client_message` cleared by `memset` first. -/
def AnswersInOrder (reqs : List MSG) (chunks : List (List Byte)) : Prop :=
  ∃ es, serve (List.replicate 10 0) (chunks.map .data) = some es ∧ Answers reqs es

/-- Every request is answered once, in order and exactly, if and only if every
`recv` returned a whole record. -/
theorem answers_iff_whole_records (reqs : List MSG) (chunks : List (List Byte))
    (hd : ∀ m ∈ reqs, ¬ m.DividesByZero)
    (hs : Segmentation 10 (reqs.flatMap MSG.bytes) chunks) :
    AnswersInOrder reqs chunks ↔ ∀ c ∈ chunks, c.length = 10 := by
  have hlen : (reqs.flatMap MSG.bytes).length = 10 * reqs.length := by
    simp [List.length_flatMap, Nat.mul_comm]
  constructor
  · rintro ⟨es, he, hrec, -⟩
    -- one answer for each piece and one for each request leave no short piece
    have hn := serve_length he
    have hm := congrArg List.length hrec
    simp only [List.length_map] at hn hm
    apply full_of_length (fun c hc => (hs.2 c hc).2)
    rw [hs.flatten, hlen, ← hn, hm]
  · intro hfull
    have hc : chunks = reqs.map MSG.bytes := by
      apply eq_of_flatten_eq (by decide : 0 < 10) hfull (by simp)
      rw [hs.flatten, List.flatMap_def]
    obtain ⟨es, he, ha⟩ := serve_whole reqs (List.replicate 10 0) rfl hd
    refine ⟨es, ?_, ha⟩
    rw [hc, List.map_map]
    exact he

/-- `3 + 4` and then `7 / 2`, each in one piece. -/
theorem answers_whole_records :
    AnswersInOrder [⟨2, 3, 4, 0, 43, 0⟩, ⟨2, 7, 2, 0, 47, 0⟩]
      [MSG.bytes ⟨2, 3, 4, 0, 43, 0⟩, MSG.bytes ⟨2, 7, 2, 0, 47, 0⟩] :=
  (answers_iff_whole_records _ _ (by decide) (by decide)).mpr (by decide)

/-- `3 + 4` in pieces of 4 and 6 bytes gets two answers, none to the request. -/
theorem short_recv_not_answered :
    ¬ ∀ reqs chunks, (∀ m ∈ reqs, ¬ m.DividesByZero) →
      Segmentation 10 (reqs.flatMap MSG.bytes) chunks → AnswersInOrder reqs chunks := by
  intro h
  let m : MSG := ⟨2, 3, 4, 0, 43, 0⟩
  obtain ⟨es, hs, hrec, -⟩ :=
    h [m] [m.bytes.take 4, m.bytes.drop 4] (by decide) (by decide)
  have hl := serve_length hs
  have hr := congrArg List.length hrec
  simp only [List.length_map, List.length_cons, List.length_nil] at hl hr
  omega

end NetworkProgramming.Calculator
