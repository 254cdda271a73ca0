import Mp3Kernel.User.Calls

/-!
# The programs that read files (`ece391cat.c`, `ece391ls.c`, `ece391grep.c`)

A local array is memory from its first byte on: what lies behind its end is part of it, because
`read` may store there. The bytes a frame starts with are an argument, since nothing sets them.
Loops have turns to use up.
-/

namespace Mp3Kernel.User

/-! ## `cat` -/

/-- The loop of `main` of `ece391ls.c`. -/
def lsLoop (fd : Int) : Nat → Buf → UserProgram Int
  | 0, _ => .stuck
  | turns + 1, buf => do
    let r ← ece391Read fd buf 32
    if r.2 = 0 then pure 0
    else if r.2 = -1 then do
      ece391Fdputs 1 (cstr (bytes "directory entry read failed\n"))
      pure 3
    else do
      let buf := Function.update r.1 r.2.toNat newline
      let written ← ece391Write 1 buf (r.2 + 1)
      if written = -1 then pure 3 else lsLoop fd turns buf

/-- `main` of `ece391ls.c`. -/
def ls (turns : Nat) (buf : Buf) : UserProgram Int := do
  let fd ← ece391Open (cstr (bytes "."))
  if fd = -1 then do
    ece391Fdputs 1 (cstr (bytes "directory open failed\n"))
    pure 2
  else lsLoop fd turns buf

/-! ## `grep` -/

/-- `while (line_end < last && '\n' != data[line_end])`, with `n` turns before `last`. -/
def lineEndFrom (data : Buf) : Nat → Nat → Nat
  | 0, lineEnd => lineEnd
  | n + 1, lineEnd =>
    if data lineEnd ≠ newline then lineEndFrom data n (lineEnd + 1) else lineEnd

/-- The loop over `check`, with `n` turns before `line_end`: is `s` found? Its first byte is
compared as a `char`, which is signed. -/
def checkFrom (s data : Buf) (sLen : Nat) : Nat → Nat → Bool
  | 0, _ => false
  | n + 1, check =>
    if i8 (s 0) = (data check).toNat ∧ ece391Strncmp (plus data check) s sLen = 0 then true
    else checkFrom s data sLen n (check + 1)

/-- What is printed for a line in which `s` is found. -/
def putLine (fname line : Buf) : UserProgram Unit := do
  ece391Fdputs 1 fname
  ece391Fdputs 1 (cstr (bytes ":"))
  ece391Fdputs 1 line
  ece391Fdputs 1 (cstr (bytes "\n"))

/-- `/* search the line */`, of the line at `line_start` with the end `line_end`. -/
def searchLine (s fname data : Buf) (sLen lineStart lineEnd : Nat) : UserProgram Unit :=
  if checkFrom s data sLen (lineEnd - lineStart) lineStart then
    putLine fname (plus data lineStart)
  else pure ()

/-- The loop over the lines of what has been read, with the `data` and the `last` it leaves. -/
def linesLoop (s fname : Buf) (sLen : Nat) (cnt : Int) (last : Nat) :
    Nat → Nat → Buf → UserProgram (Buf × Nat)
  | 0, _, _ => .stuck
  | turns + 1, lineStart, data =>
    let lineEnd := lineEndFrom data (last - lineStart) lineStart
    if data lineEnd ≠ newline ∧ cnt ≠ 0 ∧ lineStart ≠ 0 then
      pure (ece391Strcpy 0 lineStart (Function.update data lineEnd 0), last - lineStart)
    else do
      let data := Function.update data lineEnd 0
      searchLine s fname data sLen lineStart lineEnd
      if lineEnd + 1 ≥ last then pure (data, 0)
      else linesLoop s fname sLen cnt last turns (lineEnd + 1) data

/-- The loop over the reads, with the `data` it leaves and whether a read failed. A count is
`-1` or not negative. -/
def readLoop (s fname : Buf) (sLen : Nat) (fd : Int) (lineTurns : Nat) :
    Nat → Nat → Buf → UserProgram (Buf × Bool)
  | 0, _, _ => .stuck
  | turns + 1, last, data => do
    let r ← ece391Read fd (plus data last) (1024 - last)
    let data := setPlus data last r.1
    if r.2 = -1 then do
      ece391Fdputs 1 (cstr (bytes "file read failed\n"))
      pure (data, true)
    else do
      let left ← linesLoop s fname sLen r.2 (last + r.2.toNat) lineTurns 0 data
      if r.2 = 0 then pure (left.1, false)
      else readLoop s fname sLen fd lineTurns turns left.2 left.1

/-- `do_one_file`, with the memory of its frame from `data` on as it leaves it. -/
def doOneFile (turns : Nat) (s fname data : Buf) : UserProgram (Buf × Int) := do
  let sLen := ece391Strlen s
  let fd ← ece391Open fname
  if fd = -1 then do
    ece391Fdputs 1 (cstr (bytes "file open failed\n"))
    pure (data, -1)
  else do
    let r ← readLoop s fname sLen fd turns turns 0 data
    if r.2 then pure (r.1, -1)
    else do
      let closed ← ece391Close fd
      if closed = -1 then do
        ece391Fdputs 1 (cstr (bytes "file close failed\n"))
        pure (r.1, -1)
      else pure (r.1, 0)

/-- The loop of `main` of `ece391grep.c`; `frames n` is what the stack holds when `do_one_file`
is called for the `n`-th time. -/
def grepLoop (fileTurns : Nat) (search : Buf) (frames : Nat → Buf) (fd : Int) :
    Nat → Nat → Buf → UserProgram Int
  | 0, _, _ => .stuck
  | turns + 1, n, buf => do
    let r ← ece391Read fd buf 32
    if r.2 = 0 then pure 0
    else if r.2 = -1 then do
      ece391Fdputs 1 (cstr (bytes "directory entry read failed\n"))
      pure 3
    else if r.1 0 = 0x2E then grepLoop fileTurns search frames fd turns n r.1
    else do
      let buf := Function.update r.1 r.2.toNat 0
      let one ← doOneFile fileTurns search buf (frames n)
      if one.2 ≠ 0 then pure 3 else grepLoop fileTurns search frames fd turns (n + 1) buf

/-- `main` of `ece391grep.c`. -/
def grep (turns : Nat) (frames : Nat → Buf) (search buf : Buf) : UserProgram Int := do
  let args ← ece391Getargs search 1024
  if args.2 ≠ 0 then do
    ece391Fdputs 1 (cstr (bytes "could not read argument\n"))
    pure 3
  else do
    let fd ← ece391Open (cstr (bytes "."))
    if fd = -1 then do
      ece391Fdputs 1 (cstr (bytes "directory open failed\n"))
      pure 2
    else grepLoop turns args.1 frames fd turns 0 buf

end Mp3Kernel.User
