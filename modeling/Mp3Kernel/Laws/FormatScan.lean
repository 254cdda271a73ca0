import Mp3Kernel.Laws.Numerals
import Mathlib.Tactic.SplitIfs

/-!
# The scan of a format

The loop of `printf` tests for the terminator, and the specifier switch inside it does not: its
default takes the terminator for one more specifier, and the loop goes on behind it. Whether
that happens is decided by the format's bytes alone.
-/

namespace Mp3Kernel

/-- The scan of a format stops at the terminator, reads no byte behind it and returns the length. -/
def ScansExactly (format : Buf) (args : PrintfArgs) (k : Kernel) (length : Nat) : Prop :=
  ∃ fuel s, printf format args fuel k = some (s, (length : Int)) ∧ s.pos = length ∧
    ∀ i ∈ s.reads, i ≤ length

/-- Is the scan inside a conversion after a byte? `%` begins one and `#` keeps it open. -/
def insideAfter (inside : Bool) (c : UInt8) : Bool := if inside then c == 0x23 else c == 0x25

/-- The format ends inside a conversion: behind a `%` that begins one, and flags. -/
def endsInside (text : List UInt8) : Bool := text.foldl insideAfter false

def PrintfAt.inside : PrintfAt → Bool
  | .loop => false
  | .switch _ => true

/-! ## One byte -/

/-- A conversion prints and takes an argument or not, and leaves the scan alone. -/
theorem convert_total (args : PrintfArgs) (alternate : Bool) (c : UInt8) (s : Printf) :
    ∃ s', s.convert args alternate c = some s' ∧ s'.pos = s.pos ∧ s'.reads = s.reads := by
  unfold Printf.convert
  dsimp only
  split_ifs
  · exact ⟨_, rfl, rfl, rfl⟩
  · cases alternate with
    | false => exact ⟨_, congrArg (Option.map s.took) (printX_eq ..), rfl, rfl⟩
    | true => exact ⟨_, congrArg (Option.map s.took) (printX_alternate_eq ..), rfl, rfl⟩
  · exact ⟨_, congrArg (Option.map s.took) (printU_eq ..), rfl, rfl⟩
  · exact ⟨_, congrArg (Option.map s.took) (printD_eq ..), rfl, rfl⟩
  · exact ⟨_, rfl, rfl, rfl⟩
  · exact ⟨_, rfl, rfl, rfl⟩
  · exact ⟨s, rfl, rfl, rfl⟩

section Scan

variable {format : Buf} {args : PrintfArgs} {place : PrintfAt} {s s' : Printf}

theorem printfRun_literal {fuel : Nat} (hne : format s.pos ≠ 0) (hpercent : format s.pos ≠ 0x25) :
    printfRun format args (fuel + 1) .loop s =
      printfRun format args fuel .loop { s.read with k := s.k.putc (format s.pos) }.next := by
  rw [printfRun, if_neg hne, if_neg hpercent]

/-- One turn takes one byte, unless it is the terminator at the loop's test. -/
theorem printfRun_turn (goes : place = .loop → format s.pos ≠ 0) :
    ∃ next t, t.pos = s.pos + 1 ∧ t.reads = s.reads ++ [s.pos] ∧
      next.inside = insideAfter place.inside (format s.pos) ∧
      ∀ fuel, printfRun format args (fuel + 1) place s = printfRun format args fuel next t := by
  cases place with
  | loop =>
    have hne := goes rfl
    by_cases hpercent : format s.pos = 0x25
    · refine ⟨.switch false, s.read.next, rfl, rfl, ?_, fun fuel => printfRun_percent hpercent⟩
      rw [hpercent]
      rfl
    · refine ⟨.loop, { s.read with k := s.k.putc (format s.pos) }.next, rfl, rfl, ?_,
        fun fuel => printfRun_literal hne hpercent⟩
      show false = (format s.pos == 0x25)
      exact (beq_false_of_ne hpercent).symm
  | switch alternate =>
    by_cases hhash : format s.pos = 0x23
    · refine ⟨.switch true, s.read.next, rfl, rfl, ?_, fun fuel => printfRun_hash hhash⟩
      rw [hhash]
      rfl
    · obtain ⟨t, hconvert, hpos, hreads⟩ := convert_total args alternate (format s.pos) s.read
      refine ⟨.loop, t.next, congrArg (· + 1) hpos, hreads, ?_, fun fuel => ?_⟩
      · show false = (format s.pos == 0x23)
        exact (beq_false_of_ne hhash).symm
      · exact printfRun_convert hhash hconvert

theorem printfRun_end (ended : format s.pos = 0) (fuel : Nat) :
    printfRun format args (fuel + 1) .loop s = some s.read := by
  rw [printfRun, ended]
  rfl

/-! ## Whole scans -/

/-- Every place read stays recorded, and the next one is read first. -/
theorem printfRun_reads {fuel : Nat} (run : printfRun format args fuel place s = some s') :
    ∀ i ∈ s.reads ++ [s.pos], i ∈ s'.reads := by
  induction fuel generalizing place s with
  | zero => cases run
  | succ fuel ih =>
    by_cases hend : place = .loop ∧ format s.pos = 0
    · obtain ⟨rfl, hzero⟩ := hend
      rw [printfRun_end hzero] at run
      obtain rfl := Option.some.inj run
      exact fun i hi => hi
    · obtain ⟨next, t, -, hreads, -, hturn⟩ :=
        @printfRun_turn format args place s fun hloop hzero => hend ⟨hloop, hzero⟩
      rw [hturn] at run
      intro i hi
      apply ih run
      rw [hreads]
      exact List.mem_append_left _ hi

/-- What is ahead of the scan: some bytes that are not zero, and the terminator. -/
structure Ahead (format : Buf) (rest : List UInt8) (s : Printf) : Prop where
  bytes : ∀ i ≤ rest.length, format (s.pos + i) = rest.getD i 0
  proper : 0 ∉ rest

theorem ahead_start {text : List UInt8} (holds : Field.Holds 0 format text) (k : Kernel) :
    Ahead format text ⟨0, 0, [], k⟩ := by
  refine ⟨fun i hi => ?_, holds.proper⟩
  rw [Nat.zero_add]
  exact holds.chars i hi

theorem Ahead.head {c : UInt8} {rest : List UInt8} (A : Ahead format (c :: rest) s) :
    format s.pos = c ∧ c ≠ 0 :=
  ⟨A.bytes 0 (Nat.zero_le _), fun hc => A.proper (hc ▸ List.mem_cons_self)⟩

theorem Ahead.tail {c : UInt8} {rest : List UInt8} (A : Ahead format (c :: rest) s)
    (pos : s'.pos = s.pos + 1) : Ahead format rest s' := by
  refine ⟨fun i hi => ?_, fun h => A.proper (List.mem_cons_of_mem c h)⟩
  rw [pos, Nat.add_assoc, Nat.add_comm 1]
  exact A.bytes (i + 1) (Nat.succ_le_succ hi)

/-- Bytes that do not end inside a conversion are read up to the terminator, which ends the
scan. -/
theorem scan_exact {rest : List UInt8} (A : Ahead format rest s)
    (outside : rest.foldl insideAfter place.inside = false) :
    ∃ fuel t, printfRun format args fuel place s = some t ∧ t.pos = s.pos + rest.length ∧
      t.reads = s.reads ++ List.range' s.pos (rest.length + 1) := by
  induction rest generalizing place s with
  | nil =>
    cases place with
    | loop => exact ⟨1, s.read, printfRun_end (A.bytes 0 (Nat.le_refl 0)) 0, rfl, rfl⟩
    | switch alternate => cases outside
  | cons c rest ih =>
    obtain ⟨hc, hne⟩ := A.head
    obtain ⟨next, t, hpos, hreads, hinside, hturn⟩ :=
      @printfRun_turn format args place s fun _ => hc ▸ hne
    rw [List.foldl_cons, ← hc, ← hinside] at outside
    obtain ⟨fuel, u, hrun, hpos', hreads'⟩ := ih (A.tail hpos) outside
    refine ⟨fuel + 1, u, (hturn fuel).trans hrun, ?_, ?_⟩
    · rw [hpos', hpos, List.length_cons]
      omega
    · rw [hreads', hreads, hpos, List.length_cons, List.range'_succ (n := rest.length + 1),
        List.append_assoc]
      rfl

/-- Bytes that end inside a conversion take a scan that ends at all behind the terminator. -/
theorem scan_overruns {rest : List UInt8} (A : Ahead format rest s)
    (inside : rest.foldl insideAfter place.inside = true) {fuel : Nat}
    (run : printfRun format args fuel place s = some s') :
    s.pos + rest.length + 1 ∈ s'.reads := by
  induction rest generalizing place s fuel with
  | nil =>
    have hswitch : place ≠ .loop := by
      rintro rfl
      cases inside
    obtain ⟨next, t, hpos, -, -, hturn⟩ :=
      @printfRun_turn format args place s fun hloop => absurd hloop hswitch
    cases fuel with
    | zero => cases run
    | succ fuel =>
      rw [hturn] at run
      apply printfRun_reads run
      rw [hpos]
      exact List.mem_append_right _ (List.mem_singleton_self _)
  | cons c rest ih =>
    obtain ⟨hc, hne⟩ := A.head
    obtain ⟨next, t, hpos, -, hinside, hturn⟩ :=
      @printfRun_turn format args place s fun _ => hc ▸ hne
    rw [List.foldl_cons, ← hc, ← hinside] at inside
    cases fuel with
    | zero => cases run
    | succ fuel =>
      rw [hturn] at run
      have hread := ih (A.tail hpos) inside run
      rw [hpos] at hread
      rw [List.length_cons]
      have hplace : s.pos + 1 + rest.length + 1 = s.pos + (rest.length + 1) + 1 := by omega
      rwa [hplace] at hread

/-- Bytes none of which is a `%` are put on the console as they stand. -/
theorem scan_plain {rest : List UInt8} (A : Ahead format rest s) (plain : 0x25 ∉ rest) :
    ∃ t, printfRun format args (rest.length + 1) .loop s = some t ∧ t.k = s.k.puts rest := by
  induction rest generalizing s with
  | nil => exact ⟨s.read, printfRun_end (A.bytes 0 (Nat.le_refl 0)) 0, rfl⟩
  | cons c rest ih =>
    obtain ⟨hc, hne⟩ := A.head
    have hpercent : c ≠ 0x25 := fun h => plain (h ▸ List.mem_cons_self)
    let t := { s.read with k := s.k.putc c }.next
    obtain ⟨u, hrun, hk⟩ :=
      @ih t (A.tail rfl) fun h => plain (List.mem_cons_of_mem c h)
    refine ⟨u, ?_, hk⟩
    rw [List.length_cons, printfRun_literal (hc ▸ hne) (hc ▸ hpercent), hc]
    exact hrun

end Scan

/-- `printfPlain` is `printf` on a format without a `%`. -/
theorem printf_plain {text : String} (proper : 0 ∉ bytes text) (plain : 0x25 ∉ bytes text)
    (args : PrintfArgs) (k : Kernel) :
    ∃ s n, printf (cstr (bytes text)) args ((bytes text).length + 1) k = some (s, n) ∧
      s.k = k.printfPlain text := by
  have holds : Field.Holds 0 (cstr (bytes text)) (bytes text) := Field.holds_getD proper
  obtain ⟨s, hrun, hk⟩ := @scan_plain _ args _ _ (ahead_start holds k) plain
  refine ⟨s, i32 s.pos, ?_, hk⟩
  unfold printf
  rw [hrun, Option.map_some]

/-- A format in memory is scanned exactly just when it does not end inside a conversion and its
length fits in the `int32_t` returned. -/
theorem printf_scansExactly_iff {format : Buf} {text : List UInt8}
    (holds : Field.Holds 0 format text) (args : PrintfArgs) (k : Kernel) :
    ScansExactly format args k text.length ↔
      endsInside text = false ∧ text.length < 2147483648 := by
  have A := ahead_start holds k
  constructor
  · rintro ⟨fuel, s, hprintf, hpos, hreads⟩
    obtain ⟨t, hrun, ht⟩ := Option.map_eq_some_iff.mp hprintf
    obtain ⟨rfl, hreturn⟩ := Prod.mk.inj ht
    constructor
    · by_contra hinside
      have hover := @scan_overruns format args .loop _ _ _ A
        (Bool.eq_true_of_not_eq_false hinside) _ hrun
      have hle := hreads _ hover
      dsimp only at hle
      omega
    · have hlt := @Int.bmod_lt t.pos 4294967296 (by decide)
      unfold i32 at hreturn
      omega
  · rintro ⟨houtside, hsmall⟩
    obtain ⟨fuel, t, hrun, hpos, hreads⟩ := @scan_exact format args .loop _ _ A houtside
    dsimp only at hpos hreads
    rw [Nat.zero_add] at hpos
    refine ⟨fuel, t, ?_, hpos, fun i hi => ?_⟩
    · unfold printf
      rw [hrun, Option.map_some, hpos, i32_of_range (by omega) (by omega)]
    · rw [hreads, List.nil_append, List.mem_range'_1] at hi
      omega

/-- A format with an unknown specifier and repeated flags. -/
theorem printf_scansExactly_flags :
    ScansExactly (cstr (bytes "%##x %q\n")) minArgs coldBoot 8 := by
  have holds : Field.Holds 0 (cstr (bytes "%##x %q\n")) (bytes "%##x %q\n") :=
    Field.holds_getD (by decide +kernel)
  have hlength : (bytes "%##x %q\n").length = 8 := by decide +kernel
  rw [← hlength]
  exact (printf_scansExactly_iff holds minArgs coldBoot).mpr (by decide +kernel)

/-- A format that is a `%` alone: the scan never ends at its terminator. -/
theorem printf_lonePercent :
    Field.Holds 0 (cstr (bytes "%")) (bytes "%") ∧
      ¬ ScansExactly (cstr (bytes "%")) minArgs coldBoot (bytes "%").length := by
  have holds : Field.Holds 0 (cstr (bytes "%")) (bytes "%") := Field.holds_getD (by decide +kernel)
  have hlength : (bytes "%").length = 1 := by decide +kernel
  refine ⟨holds, ?_⟩
  rw [hlength]
  rintro ⟨fuel, s, hprintf, -, hreads⟩
  obtain ⟨t, hrun, ht⟩ := Option.map_eq_some_iff.mp hprintf
  obtain ⟨rfl, -⟩ := Prod.mk.inj ht
  have hover := scan_overruns (ahead_start holds coldBoot) (by decide +kernel) hrun
  rw [hlength] at hover
  exact absurd (hreads _ hover) (by decide)

end Mp3Kernel
