import NetworkProgramming.Library.Buffer

/-!
# The servers that append a suffix

Each received piece is answered by its text and a suffix, built in the buffer of the
`recv`. Only the server of chapter 10 clears the buffer behind its reply.
-/
namespace NetworkProgramming.SuffixEcho

open Buffer

inductive Server where
  | echo
  | chapter10
  deriving DecidableEq, Repr

/-- `BUFSIZE`, and the size of `temp`. -/
def bufSize : Nat := 100

/-- "::SERVER" and ":Server". -/
def Server.suffix : Server → List Byte
  | .echo => [58, 58, 83, 69, 82, 86, 69, 82]
  | .chapter10 => [58, 83, 101, 114, 118, 101, 114]

/-- `memset(temp, 0, sizeof(temp))` behind the reply. -/
def Server.clears : Server → Bool
  | .echo => false
  | .chapter10 => true

/-- A round of the loop: the reply and the buffer behind it. It is `none` where `strcat` leaves
the buffer. -/
def Server.round (s : Server) (buf chunk : List Byte) : Option (List Byte × List Byte) :=
  (strcat (readInto buf chunk) s.suffix).bind fun buf =>
    (text buf).map fun reply => (reply, if s.clears then List.replicate bufSize 0 else buf)

/-- The replies to these pieces. -/
def Server.replies (s : Server) : List Byte → List (List Byte) → List (Option (List Byte))
  | _, [] => []
  | buf, chunk :: chunks =>
    match s.round buf chunk with
    | none => [none]
    | some (reply, buf) => some reply :: s.replies buf chunks

/-- The text of the piece and the suffix. -/
def Server.reply (s : Server) (chunk : List Byte) : List Byte :=
  chunk.takeWhile (· != 0) ++ s.suffix

/-- The byte that these pieces, the last one first, leave in a place of the buffer: the last of
them that has reached the place has put it there with its bytes or with its reply. -/
def Server.left (s : Server) : List (List Byte) → Nat → Byte
  | [], _ => 0
  | chunk :: earlier, p =>
    if s.clears then 0 else (readInto chunk (s.reply chunk ++ [0])).getD p (s.left earlier p)

/-- A zero byte ends each piece, in it or left behind it, and its reply has room. -/
def Server.Fits (s : Server) : List (List Byte) → List (List Byte) → Prop
  | _, [] => True
  | earlier, chunk :: chunks =>
    ((0 ∈ chunk ∨ s.left earlier chunk.length = 0) ∧ (s.reply chunk).length < bufSize) ∧
      s.Fits (chunk :: earlier) chunks

instance Server.Fits.decidable (s : Server) : ∀ earlier chunks, Decidable (s.Fits earlier chunks)
  | _, [] => inferInstanceAs (Decidable True)
  | earlier, chunk :: chunks =>
    have := Server.Fits.decidable s (chunk :: earlier) chunks
    inferInstanceAs (Decidable (((0 ∈ chunk ∨ s.left earlier chunk.length = 0) ∧
      (s.reply chunk).length < bufSize) ∧ s.Fits (chunk :: earlier) chunks))

/-- The buffer holds what the pieces have left. -/
structure Server.Holds (s : Server) (buf : List Byte) (earlier : List (List Byte)) : Prop where
  length : buf.length = bufSize
  bytes : ∀ p < bufSize, buf[p]? = some (s.left earlier p)

variable {s : Server} {buf chunk : List Byte} {earlier : List (List Byte)}

theorem holds_start (s : Server) : s.Holds (List.replicate bufSize 0) [] where
  length := List.length_replicate
  bytes p hp := by simp [hp, Server.left]

/-- The reply is right exactly if the text of the buffer is that of the piece and leaves room. -/
theorem round_iff {buf' : List Byte} :
    s.round buf chunk = some (s.reply chunk, buf') ↔
      ((0 ∈ chunk ∨ buf[chunk.length]? = some 0) ∧
        (s.reply chunk).length < (readInto buf chunk).length) ∧
      buf' = if s.clears then List.replicate bufSize 0
        else readInto (readInto buf chunk) (s.reply chunk ++ [0]) := by
  have hsuffix : 0 ∉ s.suffix := by cases s <;> decide
  rw [← text_readInto_iff]
  constructor
  · intro h
    obtain ⟨mem, hmem, h⟩ := Option.bind_eq_some_iff.mp h
    obtain ⟨reply, hreply, h⟩ := Option.map_eq_some_iff.mp h
    obtain ⟨rfl, rfl⟩ := Prod.mk.inj h
    obtain ⟨t, ht, ht'⟩ := text_strcat hsuffix hmem
    obtain rfl : t = chunk.takeWhile (· != 0) :=
      List.append_cancel_right (Option.some.inj (ht'.symm.trans hreply))
    rw [strcat, ht, Option.bind_some] at hmem
    obtain ⟨hroom, hmem⟩ := Option.ite_none_right_eq_some.mp hmem
    cases hmem
    exact ⟨⟨ht, by simpa [Server.reply] using hroom⟩, rfl⟩
  · rintro ⟨⟨ht, hroom⟩, rfl⟩
    rw [Server.reply, List.length_append] at hroom
    obtain ⟨mem, hmem, htext, -⟩ := strcat_some ht hsuffix hroom
    have hcat := hmem
    rw [strcat, ht, Option.bind_some, if_pos hroom] at hcat
    rw [Server.round, hmem, Option.bind_some, htext, Option.map_some, ← Option.some.inj hcat]
    rfl

/-- A round that stays inside leaves its bytes in front of what was there. -/
theorem Server.Holds.round (h : s.Holds buf earlier) (hchunk : chunk.length ≤ bufSize)
    (hroom : (s.reply chunk).length < bufSize) :
    s.Holds (if s.clears then List.replicate bufSize 0
      else readInto (readInto buf chunk) (s.reply chunk ++ [0])) (chunk :: earlier) := by
  cases hclears : s.clears with
  | true =>
    exact ⟨List.length_replicate, fun p hp => by simp [hp, Server.left, hclears]⟩
  | false =>
    simp only [Bool.false_eq_true, if_false]
    have hlen : (readInto buf chunk).length = bufSize := by
      rw [length_readInto (by rwa [h.length]), h.length]
    constructor
    · rw [length_readInto (by simpa [hlen] using Nat.succ_le_of_lt hroom), hlen]
    · intro p hp
      simp only [Server.left, hclears, Bool.false_eq_true, if_false, List.getD_eq_getElem?_getD,
        getElem?_readInto]
      by_cases hreply : p < (s.reply chunk ++ [0]).length
      · simp only [hreply, if_true, List.getElem?_eq_getElem hreply, Option.getD_some]
      · by_cases hp' : p < chunk.length
        · simp only [hreply, hp', if_true, if_false, List.getElem?_eq_getElem hp',
            Option.getD_some]
        · simp only [hreply, hp', if_false, h.bytes p hp,
            List.getElem?_eq_none (Nat.not_lt.mp hp'), Option.getD_none]

/-- The first reply is right exactly if the first piece fits. -/
theorem Server.Holds.round_iff (h : s.Holds buf earlier) (hchunk : chunk.length ≤ bufSize) :
    (∃ buf', s.round buf chunk = some (s.reply chunk, buf')) ↔
      (0 ∈ chunk ∨ s.left earlier chunk.length = 0) ∧ (s.reply chunk).length < bufSize := by
  have hlen : (readInto buf chunk).length = bufSize := by
    rw [length_readInto (by rwa [h.length]), h.length]
  simp only [SuffixEcho.round_iff, exists_and_left, exists_eq, and_true, hlen]
  refine and_congr_left fun hroom => ?_
  by_cases h0 : 0 ∈ chunk
  · simp [h0]
  · -- a piece without a zero byte is all of its text, so it leaves room
    have hlt : chunk.length < bufSize := by
      rw [Server.reply, takeWhile_of_noNul h0, List.length_append] at hroom
      omega
    simp only [h0, false_or, h.bytes _ hlt, Option.some.injEq]

/-- The replies from any buffer on. -/
theorem replies_iff {chunks : List (List Byte)} (hholds : s.Holds buf earlier)
    (hlen : ∀ c ∈ chunks, c.length ≤ bufSize) :
    s.replies buf chunks = chunks.map (fun c => some (s.reply c)) ↔ s.Fits earlier chunks := by
  induction chunks generalizing buf earlier with
  | nil => exact iff_of_true rfl trivial
  | cons c cs ih =>
    obtain ⟨hc, hcs⟩ := List.forall_mem_cons.mp hlen
    have hround := hholds.round_iff hc
    constructor
    · intro h
      cases hr : s.round buf c with
      | none => simp [Server.replies, hr] at h
      | some r =>
        obtain ⟨reply, buf'⟩ := r
        simp only [Server.replies, hr, List.map_cons, List.cons.injEq, Option.some.injEq] at h
        obtain ⟨rfl, hrest⟩ := h
        have hfits := hround.mp ⟨buf', hr⟩
        obtain rfl := (SuffixEcho.round_iff.mp hr).2
        exact ⟨hfits, (ih (hholds.round hc hfits.2) hcs).mp hrest⟩
    · rintro ⟨hfits, hrest⟩
      obtain ⟨buf', hr⟩ := hround.mpr hfits
      obtain rfl := (SuffixEcho.round_iff.mp hr).2
      simp only [Server.replies, hr, List.map_cons,
        (ih (hholds.round hc hfits.2) hcs).mpr hrest]

/-- Each reply is the text of its own piece and the suffix, and none leaves the buffer, exactly
if every piece has a zero byte in it or left behind it, and room for the suffix. -/
theorem replies_iff_fits (s : Server) (chunks : List (List Byte))
    (hlen : ∀ c ∈ chunks, 1 ≤ c.length ∧ c.length ≤ bufSize) :
    s.replies (List.replicate bufSize 0) chunks = chunks.map (fun c => some (s.reply c)) ↔
      s.Fits [] chunks :=
  replies_iff (holds_start s) fun c hc => (hlen c hc).2

/-- A text that leaves zero bytes behind it, and a longer one that comes to them. -/
theorem replies_hi_hello :
    Server.echo.replies (List.replicate bufSize 0)
        [[104, 105], [104, 101, 108, 108, 111, 44, 32, 101, 118, 101]] =
      [[104, 105], [104, 101, 108, 108, 111, 44, 32, 101, 118, 101]].map
        (fun c => some (Server.echo.reply c)) :=
  (replies_iff_fits _ _ (by decide)).mpr (by decide)

/-- The second of two equally long pieces is followed by the suffix of the first reply. -/
theorem second_reply_not_own : ¬ ∀ (s : Server) (chunks : List (List Byte)),
    (∀ c ∈ chunks, 1 ≤ c.length ∧ c.length ≤ bufSize) →
      s.replies (List.replicate bufSize 0) chunks = chunks.map (fun c => some (s.reply c)) := by
  intro h
  have hfits := (replies_iff (holds_start _) (by decide)).mp
    (h .echo [[104, 105], [104, 111]] (by decide))
  exact absurd hfits (by decide)

/-- On a cleared buffer every text of at most 92 bytes gets its reply. -/
theorem fits_chapter10_iff (earlier chunks : List (List Byte)) :
    Server.chapter10.Fits earlier chunks ↔
      ∀ c ∈ chunks, (c.takeWhile (· != 0)).length ≤ 92 := by
  have hleft : ∀ (earlier : List (List Byte)) (p : Nat), Server.chapter10.left earlier p = 0 := by
    intro earlier p
    cases earlier <;> rfl
  induction chunks generalizing earlier with
  | nil => simp [Server.Fits]
  | cons c cs ih =>
    simp only [Server.Fits, hleft, or_true, true_and, ih, Server.reply, List.length_append,
      List.forall_mem_cons, Server.suffix, List.length_cons, List.length_nil, bufSize]
    refine and_congr_left' ?_
    omega

end NetworkProgramming.SuffixEcho
