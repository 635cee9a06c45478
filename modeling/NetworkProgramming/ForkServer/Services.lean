import NetworkProgramming.ForkServer.Processes

/-!
# What the children of the forking servers do

The calls of each child between `fork` and its end, with their results. The
contents of the messages play no part in who holds which descriptor.
-/
namespace NetworkProgramming.ForkServer

/-- The child of the chapter 10 echo server. -/
inductive EchoPc where
  | recv | send | close | ret
  deriving DecidableEq, Repr

/-- `while ((n = recv(…)) != 0)`, `close(accept_no)`, `return 0`. -/
def echoService : Program EchoPc where
  first := .recv
  step
    | .recv, n => some (if n = 0 then .serve .close else .serve .send)
    | .send, _ => some (.serve .recv)
    | .close, _ => some (.close .ret)
    | .ret, _ => some .exit

/-- The storage child (`storage i` in front of its `i`-th `read`) and the service child
of the chapter 11 server. -/
inductive StorePc where
  | storage (i : Nat)
  | read | echo | store | close | ret
  deriving DecidableEq, Repr

def storeService : Program StorePc where
  first := .read
  step
    | .storage i, _ => some (if i < 10 then .serve (.storage (i + 1)) else .exit)
    | .read, n => some (if n = 0 then .serve .close else .serve .echo)
    | .echo, _ => some (.serve .store)
    | .store, _ => some (.serve .read)
    | .close, _ => some (.close .ret)
    | .ret, _ => some .exit

/-- The child of the week 7 calculator. -/
inductive CalcPc where
  | recv | send
  deriving DecidableEq, Repr

/-- Behind its loop the child closes the connection and comes to the end of the body of
`main`'s loop. A division by zero kills it. -/
def calcService : Program CalcPc where
  first := .recv
  step
    | .recv, n => some (if n = 0 then .loop else .serve .send)
    | .send, n => some (if n = 4 then .serve .recv else .exit)

/-- The `FILE *fp` of the week 11 file service. -/
inductive FilePtr where
  | null | opened | closed
  deriving DecidableEq, Repr

/-- The child of the week 11 file service. -/
inductive FilePc where
  | recv | fopen | notice
  | fread (fp : FilePtr) | writeLast | writeBlock | fclose
  | shutdown | read
  deriving DecidableEq, Repr

/-- A missing file is noticed to the client, whose connection is closed, and then `fread`
gets the null pointer, which kills the child. `fread` on the closed stream may return
anything, or kill it. Behind the transfer the child comes to the end of the body of
`main`'s loop. -/
def fileService : Program FilePc where
  first := .recv
  step
    | .recv, _ => some (.serve .fopen)
    | .fopen, n => some (if n = 0 then .serve .notice else .serve (.fread .opened))
    | .notice, _ => some (.close (.fread .null))
    | .fread .null, _ => some .exit
    | .fread _, n => some (if n < 30 then .serve .writeLast else .serve .writeBlock)
    | .writeLast, _ => some (.serve .shutdown)
    | .writeBlock, _ => some (.serve .fclose)
    | .fclose, _ => some (.serve (.fread .closed))
    | .shutdown, _ => some (.serve .read)
    | .read, _ => some .loop

end NetworkProgramming.ForkServer
