import Mp3Kernel.Kernel.FileSystem

/-!
# Formatted printing (`lib.c`)

`strlen`, `strrev`, `itoa` and `printf`. A local array of characters is the list of its cells,
and a load or a store past its end gives `none`, as does a loop that is still running when its
turns are used up. The format is memory from its first byte on, with no end of its own: the
scanning loop records every place it reads.
-/

namespace Mp3Kernel

/-! ## Character arrays -/

/-- An array of characters: its cells. -/
abbrev Chars := List UInt8

/-- An array without an initialiser: whatever lay there. -/
def localArray (junk : Buf) (size : Nat) : Chars := (List.range size).map junk

namespace Chars

def load (b : Chars) (i : Nat) : Option UInt8 := b[i]?

def store (b : Chars) (i : Nat) (c : UInt8) : Option Chars :=
  if i < b.length then some (b.set i c) else none

/-- The loop of `strlen`: a turn for each cell takes it to the end of the array. -/
def strlenFrom (b : Chars) (s : Nat) : Nat → Nat → Option Nat
  | 0, _ => none
  | fuel + 1, len => do
    let c ← b.load (s + len)
    if c = 0 then some len else strlenFrom b s fuel (len + 1)

/-- `strlen`, of the string from index `s` on. -/
def strlen (b : Chars) (s : Nat) : Option Nat := b.strlenFrom s (b.length + 1) 0

/-- The loop of `strrev`; `last` is `end`. -/
def strrevFrom (s : Nat) : Nat → Int → Int → Chars → Option Chars
  | 0, _, _, _ => none
  | fuel + 1, beg, last, b =>
    if beg < last then do
      let tmp ← b.load (s + last.toNat)
      let c ← b.load (s + beg.toNat)
      let b ← b.store (s + last.toNat) c
      let b ← b.store (s + beg.toNat) tmp
      strrevFrom s fuel (beg + 1) (last - 1) b
    else some b

/-- `strrev`, with the index it returns. -/
def strrev (b : Chars) (s : Nat) : Option (Chars × Nat) := do
  let len ← b.strlen s
  let b ← strrevFrom s (len + 1) 0 (i32 (len - 1)) b
  some (b, s)

/-- The loop of `puts`. -/
def putsFrom (b : Chars) : Nat → Nat → Kernel → Option Kernel
  | 0, _, _ => none
  | fuel + 1, index, k => do
    let c ← b.load index
    if c = 0 then some k else putsFrom b fuel (index + 1) (k.putc c)

/-- `puts`, of the string from index `s` on. -/
def puts (b : Chars) (s : Nat) (k : Kernel) : Option Kernel := b.putsFrom (b.length + 1) s k

end Chars

/-! ## `itoa` -/

/-- `lookup`. -/
def itoaLookup : List UInt8 := bytes "0123456789ABCDEFGHIJKLMNOPQRSTUVWXYZ"

/-- The digit loop: a `uint32_t` is zero after thirty-two divisions by two or more. -/
def itoaDigits (radix : Nat) : Nat → Nat → Nat → Chars → Option (Chars × Nat)
  | 0, _, _, _ => none
  | fuel + 1, newval, newbuf, b =>
    if newval > 0 then do
      let b ← b.store newbuf (itoaLookup.getD (newval % radix) 0)
      itoaDigits radix fuel (newval / radix) (newbuf + 1) b
    else some (b, newbuf)

/-- `itoa`, into the array from index `buf` on, with the index it returns. -/
def itoa (value buf radix : Nat) (b : Chars) : Option (Chars × Nat) :=
  if value = 0 then do
    let b ← b.store buf 0x30
    let b ← b.store (buf + 1) 0
    some (b, buf)
  else do
    let r ← itoaDigits radix 33 value buf b
    let b ← r.1.store r.2 0
    b.strrev buf

/-! ## `printf` -/

/-- The loop of `%#x` that fills `conv_buf` with zeros up to index 8. -/
def zeroPad : Nat → Nat → Chars → Option Chars
  | 0, _, _ => none
  | fuel + 1, i, b =>
    if i < 8 then do
      let b ← b.store i 0x30
      zeroPad fuel (i + 1) b
    else some b

/-- `%x`. -/
def printX (v : UInt32) (alternate : Bool) (junk : Buf) (k : Kernel) : Option Kernel :=
  if alternate then do
    let r ← itoa v.toNat 8 16 (localArray junk 64)
    let startingIndex ← r.1.strlen 8
    let b ← zeroPad 9 startingIndex r.1
    b.puts startingIndex k
  else do
    let r ← itoa v.toNat 0 16 (localArray junk 64)
    r.1.puts 0 k

/-- `%u`. -/
def printU (v : UInt32) (junk : Buf) (k : Kernel) : Option Kernel := do
  let r ← itoa v.toNat 0 10 (localArray junk 36)
  r.1.puts 0 k

/-- `%d`. -/
def printD (v : UInt32) (junk : Buf) (k : Kernel) : Option Kernel :=
  let value := i32 v.toNat
  if value < 0 then do
    let b ← (localArray junk 36).store 0 0x2D
    let r ← itoa (u32 (-value)) 1 10 b
    r.1.puts 0 k
  else do
    let r ← itoa (u32 value) 0 10 (localArray junk 36)
    r.1.puts 0 k

/-- What a call of `printf` finds: the words behind `format` on the stack, the memory that one of
them points to, and the contents of `conv_buf` at the conversion of each. -/
structure PrintfArgs where
  word : Nat → UInt32
  memory : UInt32 → Buf
  convBuf : Nat → Buf

/-- The locals of `printf`: `buf - format`, and the arguments `esp` has passed; the places of the
format read so far; and the kernel. -/
structure Printf where
  pos : Nat
  esp : Nat
  reads : List Nat
  k : Kernel

/-- Where the scan is: at the test of the loop, or at `format_char_switch`. -/
inductive PrintfAt
  | loop
  | switch (alternate : Bool)

namespace Printf

/-- `*buf`. -/
def read (s : Printf) : Printf := { s with reads := s.reads ++ [s.pos] }

/-- `buf++`. -/
def next (s : Printf) : Printf := { s with pos := s.pos + 1 }

/-- A conversion has printed, and `esp++`. -/
def took (s : Printf) (k : Kernel) : Printf := { s with k := k, esp := s.esp + 1 }

/-- The conversion specifiers but `#`. -/
def convert (args : PrintfArgs) (alternate : Bool) (c : UInt8) (s : Printf) : Option Printf :=
  let arg := args.word s.esp
  let junk := args.convBuf s.esp
  -- `%`, `x`, `u`, `d`, `c` and `s`
  if c = 0x25 then some { s with k := s.k.putc 0x25 }
  else if c = 0x78 then (printX arg alternate junk s.k).map s.took
  else if c = 0x75 then (printU arg junk s.k).map s.took
  else if c = 0x64 then (printD arg junk s.k).map s.took
  else if c = 0x63 then some (s.took (s.k.putc arg.toUInt8))
  else if c = 0x73 then some (s.took (s.k.puts (percentS (args.memory arg))))
  else some s

end Printf

/-- The scanning loop and the specifier switch inside it, a format byte at a time. The default of
the switch takes any byte, the terminator too. -/
def printfRun (format : Buf) (args : PrintfArgs) : Nat → PrintfAt → Printf → Option Printf
  | 0, _, _ => none
  | fuel + 1, .loop, s =>
    let c := format s.pos
    if c = 0 then some s.read
    else if c = 0x25 then printfRun format args fuel (.switch false) s.read.next
    else printfRun format args fuel .loop { s.read with k := s.k.putc c }.next
  | fuel + 1, .switch alternate, s =>
    let c := format s.pos
    -- `#` sets the flag and goes back to the switch
    if c = 0x23 then printfRun format args fuel (.switch true) s.read.next
    else do
      let s ← s.read.convert args alternate c
      printfRun format args fuel .loop s.next

/-- `printf`, and the number it returns. -/
def printf (format : Buf) (args : PrintfArgs) (fuel : Nat) (k : Kernel) : Option (Printf × Int) :=
  (printfRun format args fuel .loop ⟨0, 0, [], k⟩).map fun s => (s, i32 s.pos)

end Mp3Kernel
