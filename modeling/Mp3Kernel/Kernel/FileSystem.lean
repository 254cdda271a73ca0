import Mp3Kernel.Kernel.Console
import Mp3Kernel.Lib.Field

/-!
# The file system (`filesystem.c`)

Name lookup, the block-copy loop shared by `read_data` and `read_data_execute`,
and the entries of the file and directory operation tables.

The copy loop carries two lists no C variable holds: `stores`, the buffer indices
written so far, and `loads`, for each of them the index `i` of the `data_add[i]`
whose block the byte came from. They are only ever appended to, and record what
the loop touches.
-/

namespace Mp3Kernel

/-! ## Lookup -/

/-- `strncmp`, from index `i` with `n` characters to go. -/
def strncmpFrom (s1 s2 : Buf) : Nat → Nat → Int
  | 0, _ => 0
  | n + 1, i =>
    if s1 i ≠ s2 i ∨ s1 i = 0 then i8 (s1 i) - i8 (s2 i) else strncmpFrom s1 s2 n (i + 1)

/-- `strncmp`. -/
def strncmp (s1 s2 : Buf) (n : Nat) : Int := strncmpFrom s1 s2 n 0

/-- The length loop of `read_dentry_by_name`, from index `i`: is the name refused as
longer than 32 bytes? -/
def nameTooLongFrom (filename : Buf) : Nat → Nat → Bool
  | 0, _ => false
  | n + 1, i =>
    if filename i = 0 ∨ filename i = newline then false
    else if i = 32 then true
    else nameTooLongFrom filename n (i + 1)

/-- The length loop of `read_dentry_by_name`. -/
def nameTooLong (filename : Buf) : Bool := nameTooLongFrom filename 33 0

/-- The search loop of `read_dentry_by_name`, from entry `i` with `n` to go. -/
def searchFrom (img : FsImage) (filename : Buf) : Nat → Nat → FsVars → FsVars × Int
  | 0, _, v => (v, -1)
  | n + 1, i, v =>
    let v := { v with tempDentry := some i }
    if strncmp filename (img.dentry i).name 32 = 0 then ({ v with lastDentry := some i }, 0)
    else searchFrom img filename n (i + 1) v

/-- `read_dentry_by_name`. -/
def readDentryByName (img : FsImage) (filename : Buf) (k : Kernel) : Kernel × Int :=
  if nameTooLong filename then (k.printfPlain "file name exceeding 32 bytes \n", -1)
  else
    let r := searchFrom img filename img.boot.numEntry 0 k.fs
    let k := { k with fs := r.1 }
    if r.2 = 0 then (k, 0) else (k.printfPlain "file not found\n", -1)

/-- What a `%s` prints: the bytes before the first NUL, which an address space of `2^32`
bytes bounds. An entry's name of 32 bytes runs on into the entry's other fields. -/
def percentS (s : Buf) : List UInt8 := Field.text 0 s 4294967296 0

/-- `read_dentry_by_index`. -/
def readDentryByIndex (img : FsImage) (index : Nat) (k : Kernel) : Kernel × Int :=
  if index > img.boot.numEntry then (k.printfPlain "file not found\n", 1)
  else
    let k := { k with fs := { k.fs with tempDentry := some index } }
    let k := (k.printfPlain "find the file\n").printfPlain "find the file : "
    ((k.puts (percentS (img.dentry index).name)).putc newline, 0)

/-! ## The block-copy loop -/

/-- The locals of the copy loop, the buffer, and the record of what was touched. -/
structure Transfer where
  buf : Buf
  bufIdx : Nat
  curByte : Nat
  totalBytes : Int
  stores : List Nat
  loads : List Nat

/-- One byte: `buf[buf_idx] = *(temp->data + cur_byte)` and the two increments. -/
def Transfer.copyByte (data : Buf) (i : Nat) (t : Transfer) : Transfer :=
  { t with
    buf := Function.update t.buf t.bufIdx (data t.curByte)
    bufIdx := t.bufIdx + 1
    curByte := u32 (t.curByte + 1)
    stores := t.stores ++ [t.bufIdx]
    loads := t.loads ++ [i] }

/-- The inner loop, at turn `j` with `n` turns left before `j < total_bytes` fails. At
the end of a block it leaves early, taking `j` off the bytes left: the byte just copied
is not counted, since `j` has not yet advanced over it. -/
def Transfer.copyBlock (data : Buf) (i : Nat) : Nat → Nat → Transfer → Transfer
  | 0, _, t => t
  | n + 1, j, t =>
    let t := t.copyByte data i
    if t.curByte = 4096 then { t with curByte := 0, totalBytes := t.totalBytes - j }
    else copyBlock data i n (j + 1) t

/-- The outer loop, at block `i` with `n` turns left before `i < block_end+1` fails. -/
def Transfer.copyBlocks (img : FsImage) (inode : Inode) : Nat → Nat → Transfer → Transfer
  | 0, _, t => t
  | n + 1, i, t =>
    copyBlocks img inode n (i + 1)
      (copyBlock (img.data (inode.dataAdd i)) i t.totalBytes.toNat 0 t)

/-- The body `read_data` and `read_data_execute` share, from byte `start` of the file.
The block numbers are `uint32_t`, so a negative end wraps. -/
def copyRange (img : FsImage) (inode : Inode) (start nbytes : Int) (buf : Buf) : Transfer :=
  let blockBegin := u32 (start.tdiv 4096)
  let blockEnd := u32 ((i32 (start + nbytes)).tdiv 4096)
  let turns := u32 ((blockEnd : Int) + 1) - blockBegin
  Transfer.copyBlocks img inode turns blockBegin
    { buf := buf, bufIdx := 0, curByte := u32 (start.tmod 4096), totalBytes := nbytes,
      stores := [], loads := [] }

/-- The blocks the outer loop of that body visits: each of them indexes `data_add`. -/
def copyRangeBlocks (start nbytes : Int) : List Nat :=
  let blockBegin := u32 (start.tdiv 4096)
  let blockEnd := u32 ((i32 (start + nbytes)).tdiv 4096)
  let turns := u32 ((blockEnd : Int) + 1) - blockBegin
  List.range' blockBegin turns

/-- `read_data`: from `last_read`, which it advances by the whole request. -/
def readData (img : FsImage) (inode : Inode) (buf : Buf) (nbytes : Int) (v : FsVars) :
    FsVars × Transfer :=
  ({ v with lastRead := i32 (v.lastRead + nbytes) }, copyRange img inode v.lastRead nbytes buf)

/-- `read_data_execute`: from the start of the file. -/
def readDataExecute (img : FsImage) (inode : Inode) (buf : Buf) (nbytes : Int) : Transfer :=
  copyRange img inode 0 nbytes buf

/-- `execute_read`: the file `last_dentry` names, which every caller has just looked up. -/
def executeRead (img : FsImage) (buf : Buf) (nbytes : Int) (v : FsVars) : Transfer :=
  let inode := img.inode (img.dentry (v.lastDentry.getD 0)).inodeIdx
  let byteLeft := if nbytes > inode.length then inode.length else nbytes
  readDataExecute img inode buf byteLeft

/-- `execute_read` as its caller sees it: it writes the buffer and no global kept here, and
has no use for its descriptor. -/
def executeReadCall (img : FsImage) (_fd : Int) (buf : Buf) (nbytes : Int) (k : Kernel) :
    Kernel × Buf × Int :=
  (k, (executeRead img buf nbytes k.fs).buf, 0)

/-! ## The operation tables' entries -/

/-- A change to one slot of the current process's `fd_array`. -/
def Kernel.modifyFd (fd : Int) (f : FileD → FileD) (k : Kernel) : Kernel :=
  let pcb := k.currentPcb
  { k with
    proc :=
      { k.proc with
        pcbAt := Function.update k.proc.pcbAt k.proc.currentPcbPtr
          { pcb with fdArray := Function.update pcb.fdArray fd (f (pcb.fdArray fd)) } } }

/-- `file_open`. -/
def fileOpen (img : FsImage) (filename : Buf) (k : Kernel) : Kernel × Int :=
  let r := readDentryByName img filename k
  if r.2 = 0 then
    let v := r.1.fs
    let name := (img.dentry (v.tempDentry.getD 0)).name
    ({ r.1 with
        fs :=
          { v with
            lastRead := 0
            lastDentry := v.tempDentry
            nameForNull := fun i =>
              if i < 32 then name i else if i = 32 then 0 else v.nameForNull i } }, 0)
  else (r.1, -1)

/-- `file_read`'s clip: the bytes it asks `read_data` for. -/
def byteLeft (inode : Inode) (position nbytes : Int) : Int :=
  if nbytes > i32 (inode.length - position) then i32 (inode.length - position) else nbytes

/-- `file_read`: the transfer it makes, from the slot's own position. -/
def fileReadTransfer (img : FsImage) (slot : FileD) (buf : Buf) (nbytes : Int) : Transfer :=
  let inode := img.inode slot.inode
  copyRange img inode (i32 slot.filePosition) (byteLeft inode (i32 slot.filePosition) nbytes) buf

/-- The blocks of the file that `file_read` visits. -/
def fileReadBlocks (img : FsImage) (slot : FileD) (nbytes : Int) : List Nat :=
  copyRangeBlocks (i32 slot.filePosition)
    (byteLeft (img.inode slot.inode) (i32 slot.filePosition) nbytes)

/-- `file_read`. -/
def fileRead (img : FsImage) (fd : Int) (buf : Buf) (nbytes : Int) (k : Kernel) :
    Kernel × Buf × Int :=
  let slot := k.currentPcb.fdArray fd
  let inode := img.inode slot.inode
  let lastRead := i32 slot.filePosition
  let left := byteLeft inode lastRead nbytes
  let r := readData img inode buf left { k.fs with lastRead := lastRead }
  let k := { k with fs := r.1 }
  (k.modifyFd fd ({ · with filePosition := u32 k.fs.lastRead }), r.2.buf, left)

/-- `dir_read`: the name of the entry the shared counter stands at. -/
def dirRead (img : FsImage) (buf : Buf) (nbytes : Int) (k : Kernel) : Kernel × Buf × Int :=
  if k.fs.dirOpenFileIdx < img.boot.numEntry then
    let name := (img.dentry k.fs.dirOpenFileIdx).name
    let i := min 32 nbytes.toNat
    let nameForNull : Buf := fun n =>
      if n < i then name n else if n = i then 0 else k.fs.nameForNull n
    ({ k with
        fs := { k.fs with nameForNull := nameForNull, dirOpenFileIdx := k.fs.dirOpenFileIdx + 1 } },
      fun n => if n < i then nameForNull n else buf n, i)
  else ({ k with fs := { k.fs with dirOpenFileIdx := 0 } }, buf, 0)

end Mp3Kernel
