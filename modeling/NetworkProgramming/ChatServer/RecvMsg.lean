import NetworkProgramming.ChatServer.HandleClnt

/-!
# The receive loop of the chat client

`recv_msg` puts a newline behind what it has read and prints its buffer, which it
never clears. It leaves the loop at a failed read only.
-/
namespace NetworkProgramming.ChatRecvMsg

open Buffer ChatHandleClnt

/-- `NAME_SIZE + BUF_SIZE`. -/
def nameMsgSize : Nat := 120

/-- What `fputs` has printed, `none` where no zero byte ends the buffer, and whether the loop
has been left. -/
structure Outcome where
  printed : List (Option (List Byte))
  ended : Bool
  deriving DecidableEq, Repr

/-- `str_len`. -/
def strLen : ReadResult → Nat
  | .data chunk => chunk.length
  | .eof | .error => 0

/-- The loop from the `read` on. What follows an `fputs` that leaves the buffer is undefined. -/
def recvMsg (nameMsg : List Byte) : List ReadResult → Outcome
  | [] => ⟨[], false⟩
  | .error :: _ => ⟨[], true⟩
  | res :: results =>
    let nameMsg := (afterRead nameMsg res).set (strLen res) 10
    match text nameMsg with
    | none => ⟨[none], false⟩
    | some shown =>
      let rest := recvMsg nameMsg results
      ⟨some shown :: rest.printed, rest.ended⟩

/-- The chunks in front of the first 0 or -1. -/
def received : List ReadResult → List (List Byte)
  | .data chunk :: results => chunk :: received results
  | .eof :: _ | .error :: _ | [] => []

/-- Each chunk is printed with a newline, and the loop is left at the first 0 or -1. -/
structure Displays (nameMsg : List Byte) (results : List ReadResult) : Prop where
  printed : (recvMsg nameMsg results).printed =
    (received results).map fun chunk => some (chunk ++ [10])
  ended : (recvMsg nameMsg results).ended = !results.all isData

/-- No chunk is shorter than one before it, the buffer has had a zero byte behind its newline
from the start, and the first 0 or -1 is a -1. -/
def Clear (nameMsg : List Byte) : Nat → List ReadResult → Prop
  | longest, .data chunk :: results =>
    longest ≤ chunk.length ∧ nameMsg[chunk.length + 1]? = some 0 ∧
      Clear nameMsg chunk.length results
  | _, .eof :: _ => False
  | _, .error :: _ | _, [] => True

instance Clear.decidable (nameMsg : List Byte) :
    ∀ longest results, Decidable (Clear nameMsg longest results)
  | longest, .data chunk :: results =>
    have := Clear.decidable nameMsg chunk.length results
    inferInstanceAs (Decidable (longest ≤ chunk.length ∧
      nameMsg[chunk.length + 1]? = some 0 ∧ Clear nameMsg chunk.length results))
  | _, .eof :: _ => inferInstanceAs (Decidable False)
  | _, .error :: _ | _, [] => inferInstanceAs (Decidable True)

/-- The buffer behind chunks of at most this length: characters in front, and behind them what
was there at the start. -/
structure Used (start nameMsg : List Byte) (longest : Nat) : Prop where
  length : nameMsg.length = nameMsgSize
  front : ∀ j, 0 < j → j ≤ longest → nameMsg[j]? ≠ some 0
  behind : ∀ j, longest < j → nameMsg[j]? = start[j]?

section Round
variable {start nameMsg chunk : List Byte} {longest : Nat} {results : List ReadResult}

theorem recvMsg_data : recvMsg nameMsg (.data chunk :: results) =
    match text ((readInto nameMsg chunk).set chunk.length 10) with
    | none => ⟨[none], false⟩
    | some shown =>
      let rest := recvMsg ((readInto nameMsg chunk).set chunk.length 10) results
      ⟨some shown :: rest.printed, rest.ended⟩ := rfl

/-- At the end of the connection something is printed. -/
theorem printed_eof : (recvMsg nameMsg (.eof :: results)).printed ≠ [] := by
  rw [recvMsg]
  · split <;> simp
  · simp

theorem displays_data (h : text ((readInto nameMsg chunk).set chunk.length 10) =
      some (chunk ++ [10])) :
    Displays nameMsg (.data chunk :: results) ↔
      Displays ((readInto nameMsg chunk).set chunk.length 10) results := by
  have hround : recvMsg nameMsg (.data chunk :: results) =
      ⟨some (chunk ++ [10]) ::
        (recvMsg ((readInto nameMsg chunk).set chunk.length 10) results).printed,
        (recvMsg ((readInto nameMsg chunk).set chunk.length 10) results).ended⟩ := by
    rw [recvMsg_data, h]
  constructor
  · rintro ⟨hp, he⟩
    rw [hround] at hp he
    exact ⟨by simpa [received] using hp, by simpa [isData] using he⟩
  · rintro ⟨hp, he⟩
    refine ⟨?_, ?_⟩ <;> rw [hround]
    · simp [received, hp]
    · simp [isData, he]

theorem text_of_displays (h : Displays nameMsg (.data chunk :: results)) :
    text ((readInto nameMsg chunk).set chunk.length 10) = some (chunk ++ [10]) := by
  have hp := h.printed
  rw [recvMsg_data] at hp
  cases ht : text ((readInto nameMsg chunk).set chunk.length 10) with
  | none => simp [ht, received] at hp
  | some shown =>
    simp only [ht, received, List.map_cons, List.cons.injEq] at hp
    exact hp.1

/-- A chunk that is no shorter than those before it leaves its own characters in front. -/
theorem Used.round (h : Used start nameMsg longest) (hnul : 0 ∉ chunk)
    (hlt : chunk.length < nameMsgSize) (hle : longest ≤ chunk.length) :
    Used start ((readInto nameMsg chunk).set chunk.length 10) chunk.length where
  length := by rw [List.length_set, length_readInto (by rw [h.length]; omega), h.length]
  front := by
    intro j _ hj hzero
    rw [set_readInto 10 (by rwa [h.length]), List.getElem?_append_left (by simp; omega)] at hzero
    have hmem := List.mem_of_getElem? hzero
    simp [hnul] at hmem
  behind := by
    intro j hj
    rw [List.getElem?_set_ne (by omega), readInto, List.getElem?_append_right (by omega),
      List.getElem?_drop, ← h.behind j (by omega)]
    congr 1
    omega

/-- The round prints the chunk exactly if no earlier chunk was longer and the buffer had a zero
byte there. -/
theorem Used.text_iff (h : Used start nameMsg longest) (hnul : 0 ∉ chunk)
    (hlt : chunk.length < nameMsgSize) :
    text ((readInto nameMsg chunk).set chunk.length 10) = some (chunk ++ [10]) ↔
      longest ≤ chunk.length ∧ start[chunk.length + 1]? = some 0 := by
  rw [text_newline_iff hnul (by rwa [h.length])]
  by_cases hle : longest ≤ chunk.length
  · rw [h.behind _ (Nat.lt_succ_of_le hle)]
    simp [hle]
  · exact iff_of_false (h.front _ (Nat.succ_pos _) (by omega)) fun hc => hle hc.1

end Round

/-- The loop from any buffer on. -/
theorem displays_iff {start nameMsg : List Byte} {longest : Nat} {results : List ReadResult}
    (hused : Used start nameMsg longest)
    (hread : ∀ chunk, .data chunk ∈ results → 0 ∉ chunk ∧ chunk.length < nameMsgSize) :
    Displays nameMsg results ↔ Clear start longest results := by
  induction results generalizing nameMsg longest with
  | nil => exact iff_of_true ⟨rfl, rfl⟩ trivial
  | cons res results ih =>
    cases res with
    | error => exact iff_of_true ⟨rfl, rfl⟩ trivial
    | eof => exact iff_of_false (fun h => printed_eof h.printed) id
    | data chunk =>
      obtain ⟨hnul, hlt⟩ := hread chunk (by simp)
      have hround := hused.text_iff hnul hlt
      by_cases hclear : longest ≤ chunk.length ∧ start[chunk.length + 1]? = some 0
      · rw [displays_data (hround.mpr hclear), ih (hused.round hnul hlt hclear.1)
          fun c hc => hread c (by simp [hc])]
        simp [Clear, hclear]
      · exact iff_of_false (fun h => hclear (hround.mp (text_of_displays h)))
          fun h => hclear ⟨h.1, h.2.1⟩

/-- The client displays what it gets, and stops, exactly if its messages grow into memory that
was zero and the connection fails before it ends. -/
theorem displays_iff_clear (stack : Fin nameMsgSize → Byte) (results : List ReadResult)
    (hread : ∀ chunk, .data chunk ∈ results → 0 ∉ chunk ∧ 1 ≤ chunk.length ∧ chunk.length ≤ 119) :
    Displays (List.ofFn stack) results ↔ Clear (List.ofFn stack) 0 results :=
  displays_iff ⟨List.length_ofFn .., fun _ h0 h1 => absurd h0 (Nat.not_lt.mpr h1), fun _ _ => rfl⟩
    fun chunk hc => ⟨(hread chunk hc).1, Nat.lt_succ_of_le (hread chunk hc).2.2⟩

/-- Two messages and a failure. -/
theorem displays_growing :
    Displays (List.ofFn fun (_ : Fin nameMsgSize) => 0) [.data [97], .data [98, 98], .error] :=
  (displays_iff_clear _ _ (by simp)).mpr (by decide)

/-- A shorter message is printed with the end of the longer one before it. -/
theorem shorter_message_not_displayed : ¬ ∀ (stack : Fin nameMsgSize → Byte)
    (results : List ReadResult),
    (∀ chunk, .data chunk ∈ results → 0 ∉ chunk ∧ 1 ≤ chunk.length ∧ chunk.length ≤ 119) →
      Displays (List.ofFn stack) results := by
  intro h
  have hdisplays := h (fun _ => 0) [.data [98, 98], .data [97]] (by simp)
  exact absurd hdisplays.printed (by decide)

end NetworkProgramming.ChatRecvMsg
