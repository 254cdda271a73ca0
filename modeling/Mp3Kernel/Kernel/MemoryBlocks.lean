import Mp3Kernel.Lib.X86Strings

/-!
# `memset`, `memcpy` and `memmove` (`lib.c`)

The first two are C functions around an inline assembler text of the same shape: bytes until the
destination is aligned, then double words with a repeated string instruction, then the bytes
left over. They differ in the instructions that move one byte on and in the string instruction.
`memmove` has no loop of its own.
-/

namespace Mp3Kernel

open X86

/-- The labels `top`, `aligned`, `bottom` and `done` of either text. -/
inductive BlockLabel
  | top
  | aligned
  | bottom
  | done
  deriving DecidableEq

/-- The text, given the instructions that move one byte on, the count apart, and the string
instruction. -/
def blockText (byte : List Op) (string : Op) : Program BlockLabel Empty :=
  [⟨.top,
    [.ops [.testl (.reg .ecx) .ecx],
      .jcc .z .done,
      .ops [.testl (.imm 3) .edi],
      .jcc .z .aligned,
      .ops (byte ++ [.subl (.imm 1) .ecx]),
      .jmp .top]⟩,
    ⟨.aligned,
      [.ops [.movwOf .ds .edx, .movwTo .edx .es, .movl (.reg .ecx) .edx, .shrl 2 .ecx,
        .andl (.imm 3) .edx, .cld, string]]⟩,
    ⟨.bottom,
      [.ops [.testl (.reg .edx) .edx],
        .jcc .z .done,
        .ops (byte ++ [.subl (.imm 1) .edx]),
        .jmp .bottom]⟩,
    ⟨.done, []⟩]

/-- The text of `memset`. -/
def memsetText : Program BlockLabel Empty :=
  blockText [.movbTo .eax .edi, .addl (.imm 1) .edi] .repStosl

/-- The text of `memcpy`. -/
def memcpyText : Program BlockLabel Empty :=
  blockText [.movbFrom .esi .eax, .movbTo .eax .edi, .addl (.imm 1) .edi, .addl (.imm 1) .esi]
    .repMovsl

/-- A machine that runs such a text, which calls nothing. -/
def blockEnv (program : Program BlockLabel Empty) : Env BlockLabel Empty where
  program := program
  callee := fun f => f.elim
  address := fun _ => 0

/-- The word `memset` fills with. -/
def memsetWord (c : Word) : Word :=
  let c := c &&& 0xFF
  c <<< 24 ||| c <<< 16 ||| c <<< 8 ||| c

/-- `memset`, where its text begins. -/
def memset (s c n : Word) (cpu : Cpu) : Config BlockLabel Empty where
  cpu := ((cpu.set .eax (memsetWord c)).set .edi s).set .ecx n
  code := codeAt memsetText .top
  calls := []

/-- `memcpy`, where its text begins. -/
def memcpy (dest src n : Word) (cpu : Cpu) : Config BlockLabel Empty where
  cpu := ((cpu.set .esi src).set .edi dest).set .ecx n
  code := codeAt memcpyText .top
  calls := []

/-- `memmove`. Its jump goes by the unsigned order of what `cmp` has compared. -/
def memmove (dest src n : Word) (cpu : Cpu) : Cpu :=
  let c := ((cpu.set .edi dest).set .esi src).set .ecx n
  let c := [Op.movwOf .ds .edx, .movwTo .edx .es, .cld, .cmpl (.reg .edi) .esi].foldl exec c
  let c :=
    if c.reg .edi ≤ c.reg .esi then c
    else
      let c := c.set .esi (c.reg .esi + c.reg .ecx - 1)
      (c.set .edi (c.reg .edi + c.reg .ecx - 1)).std
  c.rep Cpu.movsb

end Mp3Kernel
