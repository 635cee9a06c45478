import NetworkProgramming.FileService.Names
import NetworkProgramming.FileTransfer

/-!
# A request for a missing file

The calls of a child of the file servers behind its `fopen`. The child of a missing
file goes on to the transfer loop, and its notice reaches the client on the same
stream as a file.
-/
namespace NetworkProgramming.FileMissing

open Buffer ByteStream QuizServer FileNames FileTransfer

inductive Server where
  | week11
  | quiz2
  deriving DecidableEq, Repr

def Server.service : Server → Service
  | .week11 => FileTransfer.week11
  | .quiz2 => FileTransfer.quiz2

/-- The name passed to `fopen`. -/
def Server.path (request : Name) : Server → Name
  | .week11 => request
  | .quiz2 => ascii "konkuk.txt"

/-- "파일이 없습니다.\n" -/
def notice : List Byte :=
  [237, 140, 140, 236, 157, 188, 236, 157, 180, 32, 236, 151, 134, 236, 138, 181, 235, 139, 136,
    235, 139, 164, 46, 10]

/-- The calls on the connection and on the stream. -/
inductive Call where
  | write (bytes : List Byte)
  | close
  | fread
  | freadNull
  | fclose
  | shutdown
  | read
  deriving DecidableEq, Repr

/-- The calls in so many rounds of the transfer loop, and whether it was left by `break`. An
`fread` from the null stream kills the child; after one from a closed stream nothing is
defined. -/
def rounds (BUF_SIZE : Nat) : Nat → Option File → List Call × Bool
  | 0, _ => ([], false)
  | _ + 1, none => ([.freadNull], false)
  | n + 1, some fp =>
    match fread BUF_SIZE fp with
    | .error _ => ([.fread], false)
    | .ok (buf, fp) =>
      if buf.length < BUF_SIZE then ([.fread, .write buf], true)
      else
        match fclose fp with
        | .error _ => ([.fread, .write buf, .fclose], false)
        | .ok fp =>
          let rest := rounds BUF_SIZE n (some fp)
          (.fread :: .write buf :: .fclose :: rest.1, rest.2)

/-- Behind the loop. -/
def Server.goodbye : Server → List Call
  | .week11 => [.shutdown, .read, .close]
  | .quiz2 => [.shutdown, .close]

/-- The calls of the child behind `fopen`, which gives the file's content or fails. No second
round gets behind its `fread`, so two rounds are all. -/
def child (s : Server) (content : Option (List Byte)) : List Call :=
  let loop := rounds s.service.serverBlock 2 (content.map fopen)
  (if content = none then [.write notice, .close] else []) ++
    (loop.1 ++ if loop.2 then s.goodbye else [])

/-- The files that the server can open. -/
abbrev Files := Name → Option (List Byte)

/-- What the child does with a request. -/
def serve (s : Server) (files : Files) (request : Name) : List Call :=
  child s (files (s.path request))

def written : Call → List Byte
  | .write bytes => bytes
  | _ => []

/-- What the client can read: all that is written in front of the first `close`. -/
def clientStream (calls : List Call) : List Byte :=
  (calls.takeWhile (· ≠ .close)).flatMap written

/-- The notice, the `close`, and nothing on the connection or from the null stream behind
it. -/
def EndsCleanly (calls : List Call) : Prop :=
  ∃ rest, calls = .write notice :: .close :: rest ∧
    ∀ c ∈ rest, written c = [] ∧ c ≠ .close ∧ c ≠ .shutdown ∧ c ≠ .read ∧ c ≠ .freadNull

/-- More than two rounds change nothing. -/
theorem rounds_two (BUF_SIZE n : Nat) (content : Option (List Byte)) :
    rounds BUF_SIZE (n + 2) (content.map fopen) = rounds BUF_SIZE 2 (content.map fopen) := by
  cases content with
  | none => rfl
  | some content => simp [rounds, fread, fclose, fopen]

theorem child_missing (s : Server) : child s none = [.write notice, .close, .freadNull] := by
  cases s <;> rfl

/-- A file shorter than the block is sent whole. -/
theorem clientStream_short {s : Server} {content : List Byte}
    (h : content.length < s.service.serverBlock) :
    clientStream (child s (some content)) = content := by
  have ht : content.take s.service.serverBlock = content := List.take_of_length_le (by omega)
  cases s <;> simp [child, rounds, fread, fopen, ht, h, Server.goodbye, clientStream, written]

/-- Of any other file the client gets the first block. -/
theorem clientStream_long {s : Server} {content : List Byte}
    (h : s.service.serverBlock ≤ content.length) :
    clientStream (child s (some content)) = content.take s.service.serverBlock := by
  have hl : ¬ (content.take s.service.serverBlock).length < s.service.serverBlock := by
    simp only [List.length_take]
    omega
  simp only [child, rounds, fread, fopen, fclose, Option.map_some, if_true, hl, if_false]
  simp [clientStream, written]

/-- The client gets the same bytes as from a missing file exactly if the file holds the
notice. -/
theorem clientStream_eq_missing_iff (s : Server) (content : List Byte) :
    clientStream (child s (some content)) = clientStream (child s none) ↔ content = notice := by
  have hmissing : clientStream (child s none) = notice := by cases s <;> rfl
  have hblock : notice.length < s.service.serverBlock := by cases s <;> decide
  rw [hmissing]
  constructor
  · intro h
    by_cases hl : content.length < s.service.serverBlock
    · rwa [clientStream_short hl] at h
    · rw [clientStream_long (by omega)] at h
      have hlen := congrArg List.length h
      simp only [List.length_take] at hlen
      omega
  · rintro rfl
    exact clientStream_short hblock

/-- A missing file is noticed to the client, whose connection is closed, and the notice is
stored there like a file: a file that holds the same bytes, and no other, cannot be told from
it. -/
theorem missing_looks_like_notice (s : Server) (files : Files) (request : Name)
    (hmissing : files (s.path request) = none) :
    (∃ rest, serve s files request = .write notice :: .close :: rest) ∧
    (∀ buf chunks, Segmentation s.service.clientBlock (clientStream (serve s files request))
      chunks → recvLoop buf chunks = notice) ∧
    ∀ files' request' content, files' (s.path request') = some content →
      (clientStream (serve s files' request') = clientStream (serve s files request) ↔
        content = notice) := by
  have hserve : serve s files request = child s none := by rw [serve, hmissing]
  rw [hserve, child_missing]
  refine ⟨⟨_, rfl⟩, fun buf chunks hs => ?_, fun files' request' content hcontent => ?_⟩
  · rw [recvLoop_eq_flatten, hs.flatten]
    rfl
  · rw [serve, hcontent, ← child_missing s]
    exact clientStream_eq_missing_iff s content

theorem missing_anything :
    (∃ rest, serve .week11 (fun _ => none) (ascii "a.c") = .write notice :: .close :: rest) ∧
    (∀ buf chunks, Segmentation 30 (clientStream (serve .week11 (fun _ => none) (ascii "a.c")))
      chunks → recvLoop buf chunks = notice) ∧
    ∀ files' request' content, files' request' = some content →
      (clientStream (serve .week11 files' request') =
        clientStream (serve .week11 (fun _ => none) (ascii "a.c")) ↔ content = notice) :=
  missing_looks_like_notice .week11 (fun _ => none) (ascii "a.c") rfl

/-- The child of a missing file always goes on to read from the null stream. -/
theorem never_endsCleanly (s : Server) (files : Files) (request : Name)
    (hmissing : files (s.path request) = none) : ¬ EndsCleanly (serve s files request) := by
  rw [serve, hmissing, child_missing]
  rintro ⟨rest, hcalls, hrest⟩
  simp only [List.cons.injEq, true_and] at hcalls
  subst hcalls
  exact absurd rfl (hrest .freadNull (by simp)).2.2.2.2

/-- Neither the end of the child nor the stream is as it should be. -/
theorem missing_file_not_clean :
    (¬ ∀ s files request, files (Server.path request s) = none →
      EndsCleanly (serve s files request)) ∧
    ¬ ∀ s files request, files (Server.path request s) = none →
      ∀ files' request' content, files' (Server.path request' s) = some content →
        clientStream (serve s files' request') ≠ clientStream (serve s files request) := by
  constructor
  · intro h
    exact never_endsCleanly .week11 (fun _ => none) [] rfl (h .week11 (fun _ => none) [] rfl)
  · intro h
    exact h .week11 (fun _ => none) [] rfl (fun _ => some notice) [] notice rfl
      ((clientStream_eq_missing_iff .week11 notice).mpr rfl)

end NetworkProgramming.FileMissing
