import NetworkProgramming.Library.ByteStream
import NetworkProgramming.ChatServer.Messages

/-!
# The read loop of `handle_clnt`

The loop over the results of `read`. Each round writes a zero over the last
character of the text in `msg`, wherever the contents of `msg` put it.
-/
namespace NetworkProgramming.ChatHandleClnt

open Buffer ByteStream ChatMessages

/-- What the handler has done with the results that `read` has returned so far. -/
structure Outcome where
  /-- `strlen(msg) - 1` in each round; `none` where `strlen` leaves `msg`. -/
  indices : List (Option Int)
  /-- The texts passed to `send_msg`. -/
  sent : List (List Byte)
  /-- How often the disconnect section has been reached. -/
  disconnects : Nat
  deriving DecidableEq, Repr

/-- `read(clnt_sock, msg, sizeof(msg))`. -/
def afterRead (msg : List Byte) : ReadResult → List Byte
  | .data chunk => readInto msg chunk
  | .error | .eof => msg

def lastIndex (msg : List Byte) : Option Int := (strlen msg).map fun n : Nat => (n : Int) - 1

/-- The loop from its condition on. What follows a write outside of `msg` is undefined. -/
def handleClnt (msg : List Byte) : List ReadResult → Outcome
  | [] => ⟨[], [], 0⟩
  | .eof :: _ => ⟨[], [], 1⟩
  | res :: results =>
    let msg := afterRead msg res
    match cutLast msg with
    | none => ⟨[lastIndex msg], [], 0⟩
    | some payload =>
      let rest := handleClnt cleared results
      ⟨lastIndex msg :: rest.indices, payload :: rest.sent, rest.disconnects⟩

def isData : ReadResult → Bool
  | .data _ => true
  | .error | .eof => false

/-- The index is one of `msg`. -/
def InMsg : Option Int → Prop
  | some i => 0 ≤ i ∧ i < bufSize
  | none => False

/-- Every round writes into `msg`, the loop takes the results in front of the first 0 or -1,
and the disconnect section runs once behind it. -/
structure Withstands (results : List ReadResult) : Prop where
  inside : ∀ index ∈ (handleClnt cleared results).indices, InMsg index
  rounds : (handleClnt cleared results).indices.length = (results.takeWhile isData).length
  disconnects : (handleClnt cleared results).disconnects = if results.all isData then 0 else 1

/-- The piece begins with a character, and a zero byte ends it in `msg`. -/
def Ended (chunk : List Byte) : Prop :=
  chunk.head? ≠ some 0 ∧ (chunk.length < bufSize ∨ 0 ∈ chunk)

instance (chunk : List Byte) : Decidable (Ended chunk) := inferInstanceAs (Decidable (_ ∧ _))

/-- The results in front of the first 0 or -1 are ended, and that one is not a -1. -/
def Harmless : List ReadResult → Prop
  | .data chunk :: results => Ended chunk ∧ Harmless results
  | .error :: _ => False
  | .eof :: _ | [] => True

instance Harmless.decidable : DecidablePred Harmless
  | .data chunk :: results =>
    have := Harmless.decidable results
    inferInstanceAs (Decidable (Ended chunk ∧ Harmless results))
  | .error :: _ => inferInstanceAs (Decidable False)
  | .eof :: _ | [] => inferInstanceAs (Decidable True)

theorem handleClnt_data (chunk : List Byte) (results : List ReadResult) :
    handleClnt cleared (.data chunk :: results) =
      match relayText chunk with
      | none => ⟨[lastIndex (readInto cleared chunk)], [], 0⟩
      | some payload =>
        ⟨lastIndex (readInto cleared chunk) :: (handleClnt cleared results).indices,
          payload :: (handleClnt cleared results).sent,
          (handleClnt cleared results).disconnects⟩ := rfl

/-- A failed read leaves the empty text, whose last index is -1. -/
theorem handleClnt_error (results : List ReadResult) :
    handleClnt cleared (.error :: results) = ⟨[some (-1)], [], 0⟩ := rfl

/-- The text of a piece in the cleared `msg`. -/
theorem text_afterRead {chunk : List Byte} (hl : chunk.length ≤ bufSize) :
    text (readInto cleared chunk) =
      if chunk.length < bufSize ∨ 0 ∈ chunk then some (chunk.takeWhile (· != 0)) else none := by
  by_cases hlt : chunk.length < bufSize
  · rw [cleared, text_readInto_cleared hlt, if_pos (.inl hlt)]
  · rw [readInto_full _ _ (by simp only [cleared, List.length_replicate]; omega)]
    simp only [text, hlt, false_or]

/-- An ended piece has its last character inside `msg`. -/
theorem ended_round {chunk : List Byte} (hne : chunk ≠ []) (hl : chunk.length ≤ bufSize)
    (h : Ended chunk) :
    InMsg (lastIndex (readInto cleared chunk)) ∧ ∃ payload, relayText chunk = some payload := by
  have htext := text_afterRead hl
  rw [if_pos h.2] at htext
  obtain ⟨b, bs, rfl⟩ := List.exists_cons_of_ne_nil hne
  have hb : b ≠ 0 := by simpa using h.1
  have hfront : (b :: bs).takeWhile (· != 0) = b :: bs.takeWhile (· != 0) := by simp [hb]
  have hle : (bs.takeWhile (· != 0)).length ≤ bs.length :=
    (List.takeWhile_prefix _).length_le
  rw [hfront] at htext
  constructor
  · rw [lastIndex, strlen, htext]
    simp only [List.length_cons] at hl
    simp only [Option.map_some, List.length_cons, InMsg]
    omega
  · refine ⟨(b :: bs.takeWhile (· != 0)).dropLast, ?_⟩
    rw [relayText, cutLast, strlen, htext]
    exact text_set_last htext (by simp)

/-- Any other piece sends `strlen` or the write out of `msg`. -/
theorem not_ended_round {chunk : List Byte} (hne : chunk ≠ []) (hl : chunk.length ≤ bufSize)
    (h : ¬ Ended chunk) : ¬ InMsg (lastIndex (readInto cleared chunk)) := by
  have htext := text_afterRead hl
  by_cases hend : chunk.length < bufSize ∨ 0 ∈ chunk
  · -- a zero byte is there, so the piece begins with it
    obtain ⟨b, bs, rfl⟩ := List.exists_cons_of_ne_nil hne
    have hb : b = 0 := by
      by_contra hb
      exact h ⟨by simpa using hb, hend⟩
    subst hb
    rw [if_pos hend] at htext
    rw [lastIndex, strlen, htext]
    simp [InMsg]
  · rw [if_neg hend] at htext
    simp [lastIndex, strlen, htext, InMsg]

theorem withstands_data {chunk : List Byte} {results : List ReadResult} {payload : List Byte}
    (hin : InMsg (lastIndex (readInto cleared chunk))) (hsome : relayText chunk = some payload) :
    Withstands (.data chunk :: results) ↔ Withstands results := by
  have hround := handleClnt_data chunk results
  rw [hsome] at hround
  have htake : (ReadResult.data chunk :: results).takeWhile isData =
      .data chunk :: results.takeWhile isData := rfl
  constructor
  · rintro ⟨hi, hr, hd⟩
    rw [hround] at hi hr hd
    rw [htake] at hr
    exact ⟨fun index hm => hi index (by simp [hm]), by simpa using hr, by simpa [isData] using hd⟩
  · rintro ⟨hi, hr, hd⟩
    refine ⟨?_, by simp [hround, htake, hr], by simp [hround, isData, hd]⟩
    rw [hround]
    exact List.forall_mem_cons.mpr ⟨hin, hi⟩

theorem withstands_iff_harmless (results : List ReadResult)
    (hread : ∀ chunk, .data chunk ∈ results → chunk ≠ [] ∧ chunk.length ≤ bufSize) :
    Withstands results ↔ Harmless results := by
  induction results with
  | nil => exact iff_of_true ⟨by simp [handleClnt], rfl, rfl⟩ trivial
  | cons res results ih =>
    cases res with
    | eof => exact iff_of_true ⟨by simp [handleClnt], rfl, rfl⟩ trivial
    | error =>
      refine iff_of_false (fun h => ?_) id
      have hin := h.inside (some (-1)) (by simp [handleClnt_error])
      exact absurd hin.1 (by decide)
    | data chunk =>
      obtain ⟨hne, hl⟩ := hread chunk (by simp)
      by_cases hend : Ended chunk
      · obtain ⟨hin, payload, hsome⟩ := ended_round hne hl hend
        rw [withstands_data hin hsome, ih fun c hc => hread c (by simp [hc])]
        simp [Harmless, hend]
      · refine iff_of_false (fun h => ?_) fun h => hend h.1
        refine not_ended_round hne hl hend (h.inside _ ?_)
        rw [handleClnt_data]
        cases relayText chunk <;> simp

/-- "hi" and the end of the connection. -/
theorem withstands_hi : Withstands [.data [104, 105, 10], .eof] :=
  (withstands_iff_harmless _ (by simp [bufSize])).mpr (by decide)

/-- After a failed read the index is -1. -/
theorem failed_read_not_withstood : ¬ ∀ results : List ReadResult,
    (∀ chunk, .data chunk ∈ results → chunk ≠ [] ∧ chunk.length ≤ bufSize) →
      Withstands results := by
  intro h
  have hin := (h [.error] (by simp)).inside (some (-1)) (by decide)
  exact absurd hin.1 (by decide)

/-- Every piece gets to `send_msg`, and only newlines are lost on the way. -/
def RelaysAll (stream : List Byte) (chunks : List (List Byte)) : Prop :=
  let o := handleClnt cleared (chunks.map .data)
  o.sent.length = chunks.length ∧ o.sent.flatten.filter (· != 10) = stream.filter (· != 10)

/-- The piece leaves room for the zero byte and ends in a newline. -/
def Aligned (chunk : List Byte) : Prop := chunk.length < bufSize ∧ chunk.getLast? = some 10

instance : DecidablePred Aligned := fun _ => inferInstanceAs (Decidable (_ ∧ _))

/-- Pieces without zero bytes that leave room for one lose their last bytes. -/
theorem sent_of_short {chunks : List (List Byte)}
    (h : ∀ c ∈ chunks, c ≠ [] ∧ 0 ∉ c ∧ c.length < bufSize) :
    (handleClnt cleared (chunks.map .data)).sent = chunks.map List.dropLast := by
  induction chunks with
  | nil => rfl
  | cons c cs ih =>
    obtain ⟨hne, hnul, hl⟩ := h c (by simp)
    rw [List.map_cons, handleClnt_data, relayText_of_short c hne hl hnul]
    simp only [ih fun d hd => h d (by simp [hd]), List.map_cons]

/-- Without zero bytes, only pieces that leave room for one get to `send_msg`. -/
theorem short_of_sent {chunks : List (List Byte)}
    (h : ∀ c ∈ chunks, 0 ∉ c ∧ c.length ≤ bufSize)
    (hsent : (handleClnt cleared (chunks.map .data)).sent.length = chunks.length) :
    ∀ c ∈ chunks, c.length < bufSize := by
  induction chunks with
  | nil => simp
  | cons c cs ih =>
    obtain ⟨hnul, hl⟩ := h c (by simp)
    rw [List.map_cons, handleClnt_data] at hsent
    by_cases hlt : c.length < bufSize
    · refine List.forall_mem_cons.mpr ⟨hlt, ih (fun d hd => h d (by simp [hd])) ?_⟩
      cases hc : relayText c <;> simp [hc] at hsent
      exact hsent
    · -- a full buffer ends no text, so the round does not get to `send_msg`
      have hnone : relayText c = none := by
        rw [relayText, cutLast, strlen, text_afterRead hl,
          if_neg (by simp [hlt, hnul])]
        rfl
      simp [hnone] at hsent

/-- The handler loses nothing but newlines exactly if every read ends with a newline and
leaves room for the zero byte. -/
theorem relaysAll_iff_aligned (messages : List (List Byte))
    (hm : ∀ m ∈ messages, 0 ∉ m ∧ m.getLast? = some 10) (chunks : List (List Byte))
    (hs : Segmentation bufSize messages.flatten chunks) :
    RelaysAll messages.flatten chunks ↔ ∀ c ∈ chunks, Aligned c := by
  have hne : ∀ c ∈ chunks, c ≠ [] := fun c hc => List.length_pos_iff.mp (hs.2 c hc).1
  have hnul : ∀ c ∈ chunks, 0 ∉ c := by
    intro c hc h0
    have hmem : (0 : Byte) ∈ messages.flatten := hs.flatten ▸ List.mem_flatten_of_mem hc h0
    obtain ⟨m, hmm, h0⟩ := List.mem_flatten.mp hmem
    exact (hm m hmm).1 h0
  have hlost := filter_dropLast_flatten_iff 10 hne
  rw [← hs.flatten]
  constructor
  · rintro ⟨hlen, hrelayed⟩
    have hshort := short_of_sent (fun c hc => ⟨hnul c hc, (hs.2 c hc).2⟩) hlen
    rw [sent_of_short fun c hc => ⟨hne c hc, hnul c hc, hshort c hc⟩] at hrelayed
    exact fun c hc => ⟨hshort c hc, hlost.mp hrelayed c hc⟩
  · intro haligned
    have hsent := sent_of_short fun c hc => ⟨hne c hc, hnul c hc, (haligned c hc).1⟩
    simp only [RelaysAll, hsent, List.length_map, true_and]
    exact hlost.mpr fun c hc => (haligned c hc).2

/-- Two messages in one read: only their newlines are lost. -/
theorem relaysAll_two_lines : RelaysAll [97, 10, 98, 10] [[97, 10, 98, 10]] :=
  (relaysAll_iff_aligned [[97, 10], [98, 10]] (by decide) _ (by decide)).mpr (by decide)

/-- A read that ends inside of a message loses a character. -/
theorem split_message_not_relayed : ¬ ∀ (messages chunks : List (List Byte)),
    (∀ m ∈ messages, 0 ∉ m ∧ m.getLast? = some 10) →
      Segmentation bufSize messages.flatten chunks → RelaysAll messages.flatten chunks := by
  intro h
  exact absurd (h [[104, 105, 10]] [[104, 105], [10]] (by decide) (by decide)).2 (by decide)

end NetworkProgramming.ChatHandleClnt
