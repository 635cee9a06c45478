import NetworkProgramming.Library.Buffer
import NetworkProgramming.Library.ByteStream

/-!
# File transfer over TCP

The sending loop of the week-11 and quiz-2 servers and the receiving loop of
their clients, over the block size of each program. The stream functions check
that the `FILE` is still open, so a use after `fclose` shows as a fault. What
the programs print is not modelled.
-/
namespace NetworkProgramming.FileTransfer

open Buffer ByteStream

/-- The server's `FILE *`: what is left to read, and whether `fclose` has run. -/
structure File where
  rest : List Byte
  isOpen : Bool

def fopen (content : List Byte) : File := ⟨content, true⟩

inductive Fault where
  | useAfterFclose
  deriving DecidableEq, Repr

/-- `fread(buf, 1, n, fp)`: the next `min n remaining` bytes. -/
def fread (n : Nat) (fp : File) : Except Fault (List Byte × File) :=
  if fp.isOpen then .ok (fp.rest.take n, { fp with rest := fp.rest.drop n })
  else .error .useAfterFclose

def fclose (fp : File) : Except Fault File :=
  if fp.isOpen then .ok { fp with isOpen := false } else .error .useAfterFclose

/-- One round of the server's `while(1)`: the bytes written to the connection,
and the stream for the next round unless the loop was left by `break`. -/
def sendBlock (BUF_SIZE : Nat) (fp : File) : Except Fault (List Byte × Option File) :=
  match fread BUF_SIZE fp with
  | .error e => .error e
  | .ok (buf, fp) =>
    if buf.length < BUF_SIZE then .ok (buf, none)
    else
      -- a full block is written, and the stream is closed inside the loop
      match fclose fp with
      | .error e => .error e
      | .ok fp => .ok (buf, some fp)

/-- At most the given number of rounds; `none` if the loop has not been left yet. -/
def sendLoop (BUF_SIZE : Nat) : Nat → File → Except Fault (Option (List Byte))
  | 0, _ => .ok none
  | n + 1, fp =>
    match sendBlock BUF_SIZE fp with
    | .error e => .error e
    | .ok (sent, none) => .ok (some sent)
    | .ok (sent, some fp) => (sendLoop BUF_SIZE n fp).map (fun r => r.map (sent ++ ·))

/-- `while((read_cnt = read(sd, buf, BUF_SIZE)) != 0) fwrite(buf, 1, read_cnt, fp)`;
the list ends where `read` returns 0. -/
def recvLoop (buf : List Byte) : List (List Byte) → List Byte
  | [] => []
  | chunk :: reads =>
    (readInto buf chunk).take chunk.length ++ recvLoop (readInto buf chunk) reads

/-- The client stores what the read results carry, whatever the buffer held. -/
theorem recvLoop_eq_flatten (buf : List Byte) (reads : List (List Byte)) :
    recvLoop buf reads = reads.flatten := by
  induction reads generalizing buf with
  | nil => rfl
  | cons chunk reads ih => simp only [recvLoop, take_readInto, ih, List.flatten_cons]

/-- The block sizes of a server and its client. -/
structure Service where
  serverBlock : Nat
  clientBlock : Nat

def week11 : Service := ⟨30, 30⟩
def quiz2 : Service := ⟨50, 100⟩

/-- The server leaves its loop without a fault, having sent these bytes. -/
def Sends (p : Service) (content sent : List Byte) : Prop :=
  ∃ n, sendLoop p.serverBlock n (fopen content) = .ok (some sent)

/-- No round uses a closed stream, and however the network cuts the bytes, the
client's new file is the server's file. -/
def Faithful (p : Service) (content : List Byte) : Prop :=
  ∃ sent, Sends p content sent ∧
    ∀ buf chunks, Segmentation p.clientBlock sent chunks → recvLoop buf chunks = content

/-- A short block is the whole file, and the loop ends behind it. -/
theorem sendLoop_short (BUF_SIZE : Nat) (content : List Byte) (h : content.length < BUF_SIZE) :
    sendLoop BUF_SIZE 1 (fopen content) = .ok (some content) := by
  have ht : content.take BUF_SIZE = content := List.take_of_length_le (by omega)
  simp [sendLoop, sendBlock, fread, fopen, ht, h]

/-- A full block closes the stream, so no number of rounds leaves the loop. -/
theorem sendLoop_full (BUF_SIZE n : Nat) (content sent : List Byte)
    (h : BUF_SIZE ≤ content.length) :
    sendLoop BUF_SIZE n (fopen content) ≠ .ok (some sent) := by
  have hl : ¬ (content.take BUF_SIZE).length < BUF_SIZE := by
    simp only [List.length_take]
    omega
  cases n with
  | zero => simp [sendLoop]
  | succ n =>
    simp only [sendLoop, sendBlock, fread, fclose, fopen, if_true, hl, if_false]
    cases n <;> simp [sendLoop, sendBlock, fread, Except.map]

theorem faithful_iff (p : Service) (content : List Byte) :
    Faithful p content ↔ content.length < p.serverBlock := by
  constructor
  · rintro ⟨sent, ⟨n, hn⟩, -⟩
    by_contra hl
    exact sendLoop_full p.serverBlock n content sent (by omega) hn
  · intro h
    refine ⟨content, ⟨1, sendLoop_short _ _ h⟩, ?_⟩
    intro buf chunks hs
    rw [recvLoop_eq_flatten, hs.flatten]

/-- Both services deliver a file exactly when it is shorter than the server's
block: the stream is closed inside the loop that reads it. -/
theorem transfer_faithful_iff (content : List Byte) :
    (Faithful week11 content ↔ content.length < 30) ∧
    (Faithful quiz2 content ↔ content.length < 50) :=
  ⟨faithful_iff week11 content, faithful_iff quiz2 content⟩

/-- A file of exactly one block already fails on both services. -/
theorem block_file_not_transferred :
    ¬ ∀ content, Faithful week11 content ∧ Faithful quiz2 content := by
  intro h
  have hf := (faithful_iff week11 (List.replicate 30 65)).mp (h _).1
  exact absurd hf (by decide)

end NetworkProgramming.FileTransfer
