import Mp3Kernel.Laws.FormatScan
import Mp3Kernel.Kernel.Exceptions

/-!
# What a format prints

A format that does not end inside a conversion is spelled by one list of pieces only: bytes that
stand for themselves, and conversions. `printf` prints the pieces one after the other, whatever
lay in the arrays that it converts numbers in.
-/

namespace Mp3Kernel

/-- A byte of a format that stands for itself, or a conversion: `%`, flags and a specifier. -/
inductive Piece
  | literal (c : UInt8)
  | conversion (flags : Nat) (c : UInt8)
  deriving DecidableEq

namespace Piece

/-- The bytes that spell a piece. -/
def spelling : Piece → List UInt8
  | literal c => [c]
  | conversion flags c => 0x25 :: (List.replicate flags 0x23 ++ [c])

/-- The bytes are the piece's: a terminator ends the format, a `%` begins a conversion and a `#`
goes on with its flags. -/
def Proper : Piece → Prop
  | literal c => c ≠ 0 ∧ c ≠ 0x25
  | conversion _ c => c ≠ 0 ∧ c ≠ 0x23

/-- What a piece prints, with the argument that is next. -/
def output (memory : UInt32 → Buf) (arg : UInt32) : Piece → List UInt8
  | literal c => [c]
  | conversion flags c =>
    if c = 0x25 then [0x25]
    else if c = 0x78 then if 0 < flags then paddedHex arg.toNat else numeral 16 arg.toNat
    else if c = 0x75 then numeral 10 arg.toNat
    else if c = 0x64 then signedNumeral (i32 arg.toNat)
    else if c = 0x63 then [arg.toUInt8]
    else if c = 0x73 then percentS (memory arg)
    else []

/-- How many arguments a piece takes. -/
def arity : Piece → Nat
  | literal _ => 0
  | conversion _ c => if c ∈ [0x78, 0x75, 0x64, 0x63, 0x73] then 1 else 0

end Piece

/-- What a list of pieces prints, from an argument on. -/
def render (args : PrintfArgs) : List Piece → Nat → List UInt8
  | [], _ => []
  | p :: ps, n => p.output args.memory (args.word n) ++ render args ps (n + p.arity)

/-! ## Formats -/

/-- The pieces that some bytes spell, behind a `%` and flags or not. -/
def pieces : Option Nat → List UInt8 → List Piece
  | _, [] => []
  | none, c :: rest => if c = 0x25 then pieces (some 0) rest else .literal c :: pieces none rest
  | some flags, c :: rest =>
    if c = 0x23 then pieces (some (flags + 1)) rest else .conversion flags c :: pieces none rest

/-- A list of pieces spells a format. -/
def Spells (ps : List Piece) (text : List UInt8) : Prop :=
  (∀ p ∈ ps, p.Proper) ∧ ps.flatMap Piece.spelling = text

section Pieces

variable {text rest : List UInt8} {ps : List Piece}

/-- The bytes read of a conversion that is not complete. -/
def begun : Option Nat → List UInt8
  | none => []
  | some flags => 0x25 :: List.replicate flags 0x23

theorem pieces_flags (flags before : Nat) :
    pieces (some before) (List.replicate flags 0x23 ++ rest) = pieces (some (before + flags)) rest := by
  induction flags generalizing before with
  | zero => rfl
  | succ flags ih =>
    rw [List.replicate_succ, List.cons_append, pieces, if_pos rfl, ih, Nat.add_assoc,
      Nat.add_comm 1]

theorem pieces_spelling {p : Piece} (proper : p.Proper) :
    pieces none (p.spelling ++ rest) = p :: pieces none rest := by
  cases p with
  | literal c =>
    rw [Piece.spelling, List.singleton_append, pieces, if_neg proper.2]
  | conversion flags c =>
    rw [Piece.spelling, List.cons_append, pieces, if_pos rfl, List.append_assoc, pieces_flags,
      List.singleton_append, pieces, if_neg proper.2, Nat.zero_add]

theorem pieces_flatMap (proper : ∀ p ∈ ps, p.Proper) :
    pieces none (ps.flatMap Piece.spelling) = ps := by
  induction ps with
  | nil => rfl
  | cons p ps ih =>
    rw [List.flatMap_cons, pieces_spelling (proper p List.mem_cons_self),
      ih fun q hq => proper q (List.mem_cons_of_mem p hq)]

/-- Bytes that do not end inside a conversion are spelled by their pieces. -/
theorem spelling_pieces {before : Option Nat} (nonzero : 0 ∉ text)
    (outside : text.foldl insideAfter before.isSome = false) :
    (pieces before text).flatMap Piece.spelling = begun before ++ text ∧
      ∀ p ∈ pieces before text, p.Proper := by
  induction text generalizing before with
  | nil =>
    cases before with
    | none => exact ⟨rfl, fun p hp => absurd hp List.not_mem_nil⟩
    | some flags => cases outside
  | cons c text ih =>
    have hc : c ≠ 0 := fun h => nonzero (h ▸ List.mem_cons_self)
    have hrest : 0 ∉ text := fun h => nonzero (List.mem_cons_of_mem c h)
    rw [List.foldl_cons] at outside
    cases before with
    | none =>
      by_cases hpercent : c = 0x25
      · subst hpercent
        rw [pieces, if_pos rfl]
        obtain ⟨hspelled, hproper⟩ := @ih (some 0) hrest outside
        exact ⟨hspelled, hproper⟩
      · rw [pieces, if_neg hpercent]
        have hinside : insideAfter false c = false := beq_false_of_ne hpercent
        rw [Option.isSome_none, hinside] at outside
        obtain ⟨hspelled, hproper⟩ := @ih none hrest outside
        refine ⟨?_, fun p hp => ?_⟩
        · rw [List.flatMap_cons, hspelled]
          rfl
        · rcases List.mem_cons.mp hp with rfl | hp
          · exact ⟨hc, hpercent⟩
          · exact hproper p hp
    | some flags =>
      by_cases hhash : c = 0x23
      · subst hhash
        rw [pieces, if_pos rfl]
        obtain ⟨hspelled, hproper⟩ := @ih (some (flags + 1)) hrest outside
        refine ⟨hspelled.trans ?_, hproper⟩
        rw [begun, begun, List.replicate_succ']
        simp
      · rw [pieces, if_neg hhash]
        have hinside : insideAfter true c = false := beq_false_of_ne hhash
        rw [Option.isSome_some, hinside] at outside
        obtain ⟨hspelled, hproper⟩ := @ih none hrest outside
        refine ⟨?_, fun p hp => ?_⟩
        · rw [List.flatMap_cons, hspelled]
          simp [Piece.spelling, begun]
        · rcases List.mem_cons.mp hp with rfl | hp
          · exact ⟨hc, hhash⟩
          · exact hproper p hp

end Pieces

/-! ## Printing -/

section Printing

variable {format : Buf} {args : PrintfArgs} {s : Printf}

/-- A piece has been printed. -/
def Printf.After (args : PrintfArgs) (p : Piece) (s t : Printf) : Prop :=
  t.pos = s.pos + p.spelling.length ∧ t.esp = s.esp + p.arity ∧
    t.k = s.k.puts (p.output args.memory (args.word s.esp))

theorem puts_append (s t : List UInt8) (k : Kernel) : k.puts (s ++ t) = (k.puts s).puts t :=
  List.foldl_append

/-- The specifier switch prints what the conversion says; the contents of `conv_buf` do not
matter. -/
theorem convert_output (flags : Nat) (c : UInt8) :
    ∃ t, s.convert args (decide (0 < flags)) c = some t ∧ t.pos = s.pos ∧
      t.esp = s.esp + (Piece.conversion flags c).arity ∧
      t.k = s.k.puts ((Piece.conversion flags c).output args.memory (args.word s.esp)) := by
  by_cases hpercent : c = 0x25
  · subst hpercent
    exact ⟨_, rfl, rfl, rfl, rfl⟩
  by_cases hx : c = 0x78
  · subst hx
    rw [convert_x]
    by_cases hflags : 0 < flags
    · rw [decide_eq_true hflags, printX_alternate_eq]
      exact ⟨_, rfl, rfl, rfl, by simp [Piece.output, hflags, Printf.took]⟩
    · rw [decide_eq_false hflags, printX_eq]
      exact ⟨_, rfl, rfl, rfl, by simp [Piece.output, hflags, Printf.took]⟩
  by_cases hu : c = 0x75
  · subst hu
    rw [convert_u, printU_eq]
    exact ⟨_, rfl, rfl, rfl, rfl⟩
  by_cases hd : c = 0x64
  · subst hd
    rw [convert_d, printD_eq]
    exact ⟨_, rfl, rfl, rfl, by simp [Piece.output, Printf.took]⟩
  by_cases hc : c = 0x63
  · subst hc
    exact ⟨_, rfl, rfl, rfl, rfl⟩
  by_cases hs : c = 0x73
  · subst hs
    exact ⟨_, rfl, rfl, rfl, by simp [Piece.output, Printf.took]⟩
  · refine ⟨s, ?_, rfl, ?_, ?_⟩
    · unfold Printf.convert
      dsimp only
      rw [if_neg hpercent, if_neg hx, if_neg hu, if_neg hd, if_neg hc, if_neg hs]
    · simp [Piece.arity, hx, hu, hd, hc, hs]
    · simp [Piece.output, hpercent, hx, hu, hd, hc, hs, Kernel.puts]

/-- The turns of the switch, one for each flag and one for the specifier. -/
theorem printfRun_flags {flags before : Nat} {c : UInt8} {rest : List UInt8}
    (A : Ahead format (List.replicate flags 0x23 ++ c :: rest) s) (specifier : c ≠ 0x23) :
    ∃ t, t.pos = s.pos + flags + 1 ∧ t.esp = s.esp + (Piece.conversion (before + flags) c).arity ∧
      t.k = s.k.puts
        ((Piece.conversion (before + flags) c).output args.memory (args.word s.esp)) ∧
      ∀ fuel, printfRun format args (fuel + flags + 1) (.switch (decide (0 < before))) s =
        printfRun format args fuel .loop t := by
  induction flags generalizing before s with
  | zero =>
    have hc : format s.pos = c := A.head.1
    obtain ⟨t, hconvert, hpos, hesp, hk⟩ := @convert_output args s.read before c
    refine ⟨t.next, congrArg (· + 1) hpos, hesp, hk, fun fuel => ?_⟩
    exact printfRun_convert (hc ▸ specifier) (hc ▸ hconvert)
  | succ flags ih =>
    rw [List.replicate_succ, List.cons_append] at A
    obtain ⟨t, hpos, hesp, hk, hrun⟩ := @ih s.read.next (before + 1) (A.tail rfl)
    rw [decide_eq_true (Nat.succ_pos before)] at hrun
    have hflags : before + 1 + flags = before + (flags + 1) := by omega
    rw [hflags] at hesp hk
    refine ⟨t, ?_, hesp, hk, fun fuel => ?_⟩
    · rw [hpos]
      show s.pos + 1 + flags + 1 = _
      omega
    · exact (printfRun_hash A.head.1).trans (hrun fuel)

/-- The turns that a piece takes print it. -/
theorem printfRun_piece {p : Piece} {rest : List UInt8} (proper : p.Proper)
    (A : Ahead format (p.spelling ++ rest) s) :
    ∃ t, Printf.After args p s t ∧ ∀ fuel,
      printfRun format args (fuel + p.spelling.length) .loop s =
        printfRun format args fuel .loop t := by
  cases p with
  | literal c =>
    obtain ⟨hc, hne⟩ := A.head
    refine ⟨{ s.read with k := s.k.putc (format s.pos) }.next, ⟨rfl, rfl, ?_⟩,
      fun fuel => printfRun_literal (hc ▸ hne) (hc ▸ proper.2)⟩
    show s.k.putc (format s.pos) = s.k.putc c
    rw [hc]
  | conversion flags c =>
    have hspelling : (Piece.conversion flags c).spelling ++ rest =
        0x25 :: (List.replicate flags 0x23 ++ c :: rest) := by
      simp [Piece.spelling]
    rw [hspelling] at A
    obtain ⟨t, hpos, hesp, hk, hrun⟩ :=
      @printfRun_flags format args s.read.next flags 0 c rest (A.tail rfl) proper.2
    rw [Nat.zero_add] at hesp hk
    have hlength : (Piece.conversion flags c).spelling.length = flags + 1 + 1 := by
      simp [Piece.spelling]
    refine ⟨t, ⟨?_, hesp, hk⟩, fun fuel => ?_⟩
    · rw [hpos, hlength]
      show s.pos + 1 + flags + 1 = _
      omega
    · rw [hlength]
      exact (printfRun_percent A.head.1).trans (hrun fuel)

theorem Ahead.drop {text rest : List UInt8} {t : Printf} (A : Ahead format (text ++ rest) s)
    (pos : t.pos = s.pos + text.length) : Ahead format rest t := by
  induction text generalizing s with
  | nil => exact ⟨fun i hi => pos ▸ A.bytes i hi, A.proper⟩
  | cons c text ih =>
    have htail : Ahead format (text ++ rest) s.next := A.tail rfl
    refine ih htail ?_
    rw [pos, List.length_cons]
    show s.pos + (text.length + 1) = s.pos + 1 + text.length
    omega

theorem printfRun_pieces {ps : List Piece} (proper : ∀ p ∈ ps, p.Proper)
    (A : Ahead format (ps.flatMap Piece.spelling) s) :
    ∃ t, printfRun format args ((ps.flatMap Piece.spelling).length + 1) .loop s = some t ∧
      t.k = s.k.puts (render args ps s.esp) ∧ t.esp = s.esp + (ps.map Piece.arity).sum ∧
      t.pos = s.pos + (ps.flatMap Piece.spelling).length := by
  induction ps generalizing s with
  | nil => exact ⟨s.read, printfRun_end (A.bytes 0 (Nat.le_refl 0)) 0, rfl, rfl, rfl⟩
  | cons p ps ih =>
    rw [List.flatMap_cons] at A ⊢
    obtain ⟨t, ⟨hpos, hesp, hk⟩, hpiece⟩ :=
      @printfRun_piece format args s p _ (proper p List.mem_cons_self) A
    obtain ⟨u, hrun, hk', hesp', hpos'⟩ :=
      @ih t (fun q hq => proper q (List.mem_cons_of_mem p hq)) (A.drop hpos)
    refine ⟨u, ?_, ?_, ?_, ?_⟩
    · rw [List.length_append, Nat.add_assoc, Nat.add_comm p.spelling.length]
      exact (hpiece _).trans hrun
    · rw [hk', hk, hesp, render, puts_append]
    · rw [hesp', hesp, List.map_cons, List.sum_cons, Nat.add_assoc]
    · rw [hpos', hpos, List.length_append, Nat.add_assoc]

/-- The number returned is the format's length. -/
theorem printf_pieces {text : List UInt8} (holds : Field.Holds 0 format text)
    (outside : endsInside text = false) (args : PrintfArgs) (k : Kernel) :
    ∃ t, printf format args (text.length + 1) k = some (t, i32 text.length) ∧
      t.k = k.puts (render args (pieces none text) 0) ∧
      t.esp = ((pieces none text).map Piece.arity).sum := by
  obtain ⟨hspelled, hproper⟩ := @spelling_pieces text none holds.proper outside
  rw [begun, List.nil_append] at hspelled
  have A := ahead_start holds k
  rw [← hspelled] at A
  obtain ⟨t, hrun, hk, hesp, hpos⟩ := @printfRun_pieces format args _ _ hproper A
  rw [hspelled] at hrun hpos
  refine ⟨t, ?_, hk, hesp.trans (Nat.zero_add _)⟩
  unfold printf
  rw [hrun, Option.map_some, hpos, Nat.zero_add]

/-- A format that does not end inside a conversion is spelled by exactly one list of pieces, and
`printf` puts on the console what they render, one argument word for each conversion that has
one, whatever its arrays held; it returns the format's length. -/
theorem printf_renders {text : List UInt8} (holds : Field.Holds 0 format text)
    (outside : endsInside text = false) :
    (∃! ps, Spells ps text) ∧
      ∀ ps, Spells ps text → ∀ (args : PrintfArgs) (k : Kernel),
        ∃ t, printf format args (text.length + 1) k = some (t, i32 text.length) ∧
          t.k = k.puts (render args ps 0) ∧ t.esp = (ps.map Piece.arity).sum := by
  have hunique : ∀ ps, Spells ps text → ps = pieces none text := by
    rintro ps ⟨hproper, hspelled⟩
    rw [← hspelled, pieces_flatMap hproper]
  obtain ⟨hspelled, hproper⟩ := @spelling_pieces text none holds.proper outside
  refine ⟨⟨pieces none text, ⟨hproper, hspelled⟩, hunique⟩, fun ps spells args k => ?_⟩
  rw [hunique ps spells]
  exact printf_pieces holds outside args k

/-- A format of a user message. -/
theorem printf_renders_mixed :
    ∃ t, printf (cstr (bytes "%d%%, %#x%c")) minArgs 12 coldBoot = some (t, 11) ∧
      t.k = coldBoot.puts (bytes "-2147483648%, 80000000" ++ [0]) ∧ t.esp = 3 := by
  have holds : Field.Holds 0 (cstr (bytes "%d%%, %#x%c")) (bytes "%d%%, %#x%c") :=
    Field.holds_getD (by decide +kernel)
  have hlength : (bytes "%d%%, %#x%c").length = 11 := by decide +kernel
  obtain ⟨⟨ps, spells, -⟩, hprints⟩ := printf_renders holds (by decide +kernel)
  obtain ⟨t, hprintf, hk, hesp⟩ := hprints ps spells minArgs coldBoot
  obtain rfl : pieces none (bytes "%d%%, %#x%c") = ps := spells.2 ▸ pieces_flatMap spells.1
  rw [hlength] at hprintf
  refine ⟨t, hprintf, ?_, hesp⟩
  have hrender : render minArgs (pieces none (bytes "%d%%, %#x%c")) 0 =
      bytes "-2147483648%, 80000000" ++ [0] := by
    decide +kernel
  rw [hk, hrender]

end Printing

/-! ## Exceptions -/

/-- What is printed about an exception. -/
def report (v : Nat) (name : String) : List UInt8 :=
  bytes "SYSTEM ERROR:\nEXCEPTIONS" ++ numeral 10 v ++ bytes ": " ++ bytes name ++ [newline]

theorem render_literals (args : PrintfArgs) (text : List UInt8) (ps : List Piece) (n : Nat) :
    render args (text.map .literal ++ ps) n = text ++ render args ps n := by
  induction text with
  | nil => rfl
  | cons c text ih =>
    rw [List.map_cons, List.cons_append, render, Piece.arity, Nat.add_zero, ih]
    rfl

theorem report_length : ∀ name ∈ exceptionNames, (bytes name).length ≤ 4294967296 := by
  decide +kernel

/-- The line that names the exception. -/
theorem exceptionLine (table : ExceptionTable) (convBuf : Nat → Buf) (vectN : UInt32) {i : Nat}
    (hi : i < exceptionNames.length) (vect : vectN.toNat = i) :
    render ⟨fun n => if n = 0 then vectN else table.pointer i, table.memory, convBuf⟩
        (pieces none (bytes "EXCEPTIONS%d: %s\n")) 0 =
      bytes "EXCEPTIONS" ++ (numeral 10 i ++ (bytes ": " ++ (bytes exceptionNames[i] ++
        [newline]))) := by
  have hpieces : pieces none (bytes "EXCEPTIONS%d: %s\n") =
      (bytes "EXCEPTIONS").map .literal ++ .conversion 0 0x64 ::
        ((bytes ": ").map .literal ++ .conversion 0 0x73 ::
          ([newline].map .literal ++ [])) := by
    decide +kernel
  have hsmall : i < 20 := hi
  have hnumber : signedNumeral (i32 vectN.toNat) = numeral 10 i := by
    rw [vect, i32_of_range (by omega) (by omega)]
    unfold signedNumeral
    rw [if_neg (by omega)]
    rfl
  have hname : percentS (table.memory (table.pointer i)) = bytes exceptionNames[i] := by
    unfold percentS
    rw [(table.names i hi).text_eq]
    exact List.take_of_length_le (report_length _ (List.getElem_mem hi))
  rw [hpieces, render_literals, render, render_literals, render, render_literals, render]
  simp [Piece.output, Piece.arity, hnumber, hname]
  rfl

/-- For every number, `exception_handler` reports the exception that has it, and sets the flag
that a program's end looks at; it reads outside its table for those alone that no exception has. -/
theorem exceptionHandler_reports (table : ExceptionTable) (convBuf : Nat → Buf) (vectN : UInt32)
    (k : Kernel) :
    exceptionHandler table convBuf vectN k =
        ((exceptionNames[vectN.toNat]?).map fun name =>
          let k := (k.puts (report vectN.toNat name)).flagException
          if vectN = pageFaultVector then k.printfPlain "page fault" else k) ∧
      ∀ e ∈ wired, e.1 < 32 → e.1 < exceptionNames.length := by
  refine ⟨?_, by decide⟩
  unfold exceptionHandler
  by_cases h : vectN.toNat < exceptionNames.length
  · have holds : Field.Holds 0 (cstr (bytes "EXCEPTIONS%d: %s\n"))
        (bytes "EXCEPTIONS%d: %s\n") :=
      Field.holds_getD (by decide +kernel)
    have hlength : (bytes "EXCEPTIONS%d: %s\n").length + 1 = 18 := by decide +kernel
    obtain ⟨t, hprintf, hk, -⟩ := printf_pieces holds (by decide +kernel)
      ⟨fun n => if n = 0 then vectN else table.pointer vectN.toNat, table.memory, convBuf⟩
      (k.printfPlain "SYSTEM ERROR:\n")
    rw [hlength] at hprintf
    have hput : t.k = k.puts (report vectN.toNat exceptionNames[vectN.toNat]) := by
      have hstart : bytes "SYSTEM ERROR:\nEXCEPTIONS" =
          bytes "SYSTEM ERROR:\n" ++ bytes "EXCEPTIONS" := by decide +kernel
      rw [hk, exceptionLine table convBuf vectN h rfl, Kernel.printfPlain, ← puts_append, report,
        hstart]
      simp only [List.append_assoc]
    dsimp only
    rw [if_pos h, List.getElem?_eq_getElem h, Option.map_some, hprintf, Option.map_some, hput]
  · rw [if_neg h, List.getElem?_eq_none (Nat.not_lt.mp h)]
    rfl

/-- A table with its strings at the addresses that number them. -/
example : Nonempty ExceptionTable := by
  refine ⟨fun i => UInt32.ofNat i, fun p => cstr (bytes (exceptionNames.getD p.toNat "")),
    fun i hi => ?_⟩
  have hsmall : i < 20 := hi
  have hi' : (UInt32.ofNat i).toNat = i :=
    UInt32.toNat_ofNat_of_lt (by rw [UInt32.size]; omega)
  have hproper : ∀ name ∈ exceptionNames, 0 ∉ bytes name := by decide +kernel
  rw [hi', List.getD_eq_getElem _ _ hi]
  exact Field.holds_getD (hproper _ (List.getElem_mem hi))

end Mp3Kernel
