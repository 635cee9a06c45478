import NetworkProgramming.EchoSession

/-!
# The name that the file server opens

The week-11 client sends the typed name without a length or an end mark. The
loop in which the server receives it is left behind the first `recv`.
-/
namespace NetworkProgramming.FileRequest

open Buffer ByteStream EchoSession

/-- The size of the server's `temp`. -/
def tempSize : Nat := 100

/-- What the client sends: it reads and cuts its line into `input[100]` in the same way as the
echo client does into `data[100]`. -/
def request (line : Line) : List Byte := sent (some line)

/-- `temp` behind the loop over the results of `recv`; whatever the first result is, the loop
ends there. -/
def afterRecv (temp : List Byte) : List ReadResult → List Byte
  | .data chunk :: _ => readInto temp chunk
  | .error :: _ | .eof :: _ | [] => temp

/-- The string passed to `fopen`. -/
def fopenArgument (results : List ReadResult) : Option (List Byte) :=
  text (afterRecv (List.replicate tempSize 0) results)

/-- A name without zero bytes is sent as it was typed. -/
theorem request_eq_chars {line : Line} (h : 0 ∉ line.chars) : request line = line.chars := by
  have hnul : 0 ∉ line.chars ++ [10] := by simpa using h
  rw [request, sent_line, takeWhile_of_noNul hnul, List.dropLast_concat]

/-- The string is the text of the first piece. -/
theorem fopenArgument_data {chunk : List Byte} (hl : chunk.length < tempSize) (h0 : 0 ∉ chunk)
    (results : List ReadResult) : fopenArgument (.data chunk :: results) = some chunk := by
  rw [fopenArgument, afterRecv, text_readInto_cleared hl, takeWhile_of_noNul h0]

/-- The server opens the file that was asked for exactly if its name has no zero byte and
arrives in one piece. -/
theorem opens_asked_iff (line : Line) (hne : line.chars ≠ []) (chunks : List (List Byte))
    (hs : Segmentation tempSize (request line) chunks) :
    fopenArgument (chunks.map .data) = some line.chars ↔
      0 ∉ line.chars ∧ chunks.length = 1 := by
  constructor
  · intro h
    have hnul : 0 ∉ line.chars := (text_eq_some_iff.mp h).1
    have hflat := hs.flatten
    rw [request_eq_chars hnul] at hflat
    refine ⟨hnul, ?_⟩
    match chunks, hs.2, hflat, h with
    | [], _, hflat, _ => exact absurd hflat.symm hne
    | chunk :: rest, hlen, hflat, h =>
      have hchunk : 0 ∉ chunk := fun h0 => hnul (hflat ▸ by simp [h0])
      have hshort := line.short
      have hlt : chunk.length < tempSize := by
        have hle := congrArg List.length hflat
        simp only [List.flatten_cons, List.length_append] at hle
        simp only [tempSize]
        omega
      rw [List.map_cons, fopenArgument_data hlt hchunk, Option.some.injEq] at h
      have hrest : rest = [] :=
        eq_nil_of_flatten_cons (fun d hd => List.length_pos_iff.mp (hlen d (by simp [hd])).1)
          (hflat.trans h.symm)
      rw [hrest, List.length_singleton]
  · rintro ⟨hnul, hone⟩
    obtain ⟨chunk, rfl⟩ := List.length_eq_one_iff.mp hone
    have hflat := hs.flatten
    rw [request_eq_chars hnul, List.flatten_singleton] at hflat
    subst hflat
    exact fopenArgument_data (Nat.lt_of_le_of_lt line.short (by decide)) hnul []

/-- "a.c" in one piece. -/
def asked : Line := ⟨[97, 46, 99], by decide, by decide⟩

theorem whole_name_opened : fopenArgument ([[97, 46, 99]].map .data) = some asked.chars :=
  (opens_asked_iff asked (by decide) [[97, 46, 99]] (by decide)).mpr (by decide)

/-- In two pieces the server looks for the file "a". -/
theorem split_name_not_opened : ¬ ∀ (line : Line) (chunks : List (List Byte)),
    line.chars ≠ [] → Segmentation tempSize (request line) chunks →
      fopenArgument (chunks.map .data) = some line.chars := by
  intro h
  exact absurd (h ⟨[97, 46, 99], by decide, by decide⟩ [[97], [46, 99]] (by decide) (by decide))
    (by decide)

end NetworkProgramming.FileRequest
