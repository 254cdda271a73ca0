import Mp3Kernel.Laws.CatFile
import Mp3Kernel.Lib.Pieces
import Mp3Kernel.User.Files

/-!
# What `grep` shows of a file

`do_one_file` reads into one buffer, searches the lines that are whole and moves what is left of
the last one down to the buffer's start. It takes a byte behind what it has read for the end of
the line at hand if it happens to be a newline, so what it shows depends on the byte behind a
full buffer: on what the stack held there, and on the byte too many that the kernel's `read`
stores at the end of a block.
-/

namespace Mp3Kernel.User

open Interaction (Event)

/-! ## What is looked for -/

/-- A pattern is found in a line that it is a part of. A first byte of 128 or more is never
found: it is negative as a `char`. -/
def Found (pattern line : List UInt8) : Prop :=
  (∃ c ∈ pattern.head?, c < 128) ∧ pattern <:+: line

instance (pattern line : List UInt8) : Decidable (Found pattern line) :=
  inferInstanceAs (Decidable (_ ∧ _))

/-- What is shown of a line. -/
def report (pattern fname line : List UInt8) : List UInt8 :=
  if Found pattern line then fname ++ (bytes ":" ++ (line ++ bytes "\n")) else []

/-- What is shown of a text, whose lines the buffer cuts. -/
def grepped (pattern fname text : List UInt8) : List UInt8 :=
  (Pieces.pieces newline 1024 text).flatMap (report pattern fname)

theorem report_nil (pattern fname : List UInt8) : report pattern fname [] = [] := by
  refine if_neg ?_
  rintro ⟨⟨c, hc, _⟩, hinfix⟩
  rw [List.infix_nil.mp hinfix] at hc
  cases hc

/-- A pattern that is not empty is found where it is a head of what is left. -/
theorem found_iff {pattern line : List UInt8} :
    Found pattern line ↔ ∃ i < line.length, (∃ c ∈ pattern.head?, c < 128) ∧
      pattern <+: line.drop i := by
  constructor
  · rintro ⟨⟨c, hc, hascii⟩, before, behind, rfl⟩
    refine ⟨before.length, ?_, ⟨c, hc, hascii⟩, ?_⟩
    · cases pattern with
      | nil => cases hc
      | cons => simp
    · rw [List.append_assoc, List.drop_left]
      exact List.prefix_append pattern behind
  · rintro ⟨i, _, hascii, hprefix⟩
    exact ⟨hascii, hprefix.isInfix.trans (List.drop_suffix i line).isInfix⟩

section Check

variable {s data : Buf} {pattern line : List UInt8} {lineStart : Nat}

theorem i8_eq_toNat_iff (b : UInt8) : i8 b = b.toNat ↔ b < 128 := by
  have hb := b.toNat_lt
  rw [UInt8.lt_iff_toNat_lt]
  unfold i8
  rw [Int.bmod_def]
  show _ ↔ b.toNat < 128
  split <;> omega

/-- The test the loop makes at a byte of the line. -/
theorem checkHere_iff (pat : Field.Holds 0 s pattern)
    (holds : Field.Holds 0 (plus data lineStart) line) {i : Nat} (hi : i < line.length) :
    (i8 (s 0) = (data (lineStart + i)).toNat ∧
        ece391Strncmp (plus data (lineStart + i)) s pattern.length = 0) ↔
      (∃ c ∈ pattern.head?, c < 128) ∧ pattern <+: line.drop i := by
  have hplus : plus data (lineStart + i) = plus (plus data lineStart) i := by
    funext n
    exact congrArg data (Nat.add_assoc lineStart i n)
  have hchar : data (lineStart + i) = (line)[i] := holds.char hi
  rw [hplus, ece391Strncmp_eq_zero_iff (holds_plus holds (Nat.le_of_lt hi)) pat]
  refine and_congr_left fun hprefix => ?_
  cases pattern with
  | nil =>
    -- the end of the pattern is no byte of the line
    have hend : s 0 = 0 := pat.end
    have hne : data (lineStart + i) ≠ 0 := holds.char_ne hi
    have hzero : i8 0 = 0 := by decide
    rw [hend, hzero]
    refine iff_of_false (fun h => hne (UInt8.toNat_inj.mp ?_)) nofun
    exact (Int.natCast_inj.mp h).symm
  | cons c cs =>
    have hhead : s 0 = c := pat.char (Nat.zero_lt_succ _)
    rw [List.drop_eq_getElem_cons hi, List.cons_prefix_cons] at hprefix
    rw [hchar, ← hprefix.1, hhead, i8_eq_toNat_iff]
    simp

/-- The loop over `check`, from byte `i` of the line on. -/
theorem checkFrom_iff (pat : Field.Holds 0 s pattern)
    (holds : Field.Holds 0 (plus data lineStart) line) {n i : Nat} (hi : i + n = line.length) :
    checkFrom s data pattern.length n (lineStart + i) = true ↔
      ∃ j, i ≤ j ∧ j < line.length ∧ (∃ c ∈ pattern.head?, c < 128) ∧
        pattern <+: line.drop j := by
  induction n generalizing i with
  | zero =>
    refine iff_of_false Bool.false_ne_true ?_
    rintro ⟨j, _, _, _⟩
    omega
  | succ n ih =>
    unfold checkFrom
    have hhere := checkHere_iff pat holds (i := i) (by omega)
    split
    next h => exact iff_of_true rfl ⟨i, Nat.le_refl i, by omega, hhere.mp h⟩
    next h =>
      rw [Nat.add_assoc, ih (by omega)]
      constructor
      · rintro ⟨j, hj, hrest⟩
        exact ⟨j, by omega, hrest⟩
      · rintro ⟨j, hj, hlt, hfound⟩
        rcases Nat.lt_or_eq_of_le hj with hij | rfl
        · exact ⟨j, hij, hlt, hfound⟩
        · exact absurd (hhere.mpr hfound) h

/-- The search of a line. -/
theorem checkFrom_eq (pat : Field.Holds 0 s pattern)
    (holds : Field.Holds 0 (plus data lineStart) line) :
    checkFrom s data pattern.length line.length lineStart = true ↔ Found pattern line := by
  rw [found_iff]
  have h := checkFrom_iff pat holds (Nat.zero_add line.length)
  simpa using h

end Check

/-- The search for the end of a line. -/
theorem lineEndFrom_spec (data : Buf) (n lineStart : Nat) :
    ∃ len ≤ n, lineEndFrom data n lineStart = lineStart + len ∧
      newline ∉ Stream.slice data lineStart len ∧
        (len < n → data (lineStart + len) = newline) := by
  induction n generalizing lineStart with
  | zero => exact ⟨0, Nat.le_refl 0, rfl, List.not_mem_nil, fun h => absurd h (by omega)⟩
  | succ n ih =>
    unfold lineEndFrom
    split
    next hchar =>
      obtain ⟨len, hle, heq, hclean, hstop⟩ := ih (lineStart + 1)
      refine ⟨len + 1, by omega, by omega, ?_, fun h => ?_⟩
      · rw [Nat.add_comm len 1, Stream.slice_add]
        refine List.not_mem_append ?_ hclean
        simpa [Stream.slice] using fun h => hchar h.symm
      · have hlast := hstop (by omega)
        rw [show lineStart + (len + 1) = lineStart + 1 + len by omega]
        exact hlast
    next hchar =>
      exact ⟨0, Nat.zero_le _, rfl, List.not_mem_nil, fun _ => not_not.mp hchar⟩

/-! ## The search of a line, and what it shows -/

section Lines

variable {img : FsImage} {term : TerminalDriver} {pid : Int} {view : PcbView} {k : Kernel}
  {admits : Kernel → ProcEvent ⊕ FdEvent → Prop} {extra : Kernel → Prop}
  {s fname : Buf} {pattern name : List UInt8}

theorem searchLine_always (S : Setting img term admits extra) (pat : Field.Holds 0 s pattern)
    (named : Field.Holds 0 fname name) (short : name.length < 4294967296) {data : Buf}
    {lineStart len : Nat} (U : Settled extra pid view k) :
    (searchLine s fname data pattern.length lineStart (lineStart + len)).Always
      (machine img term pid admits)
      (fun calls _ t => Settled extra pid view t ∧
        ∀ line, Field.Holds 0 (plus data lineStart) line → line.length = len → len ≤ 1024 →
          shown calls = report pattern name line) k := by
  unfold searchLine
  rw [Nat.add_sub_cancel_left]
  split
  next hfound =>
    refine U.fdputs S fun r₁ t₁ U₁ => U₁.fdputs S fun r₂ t₂ U₂ =>
      U₂.fdputs S fun r₃ t₃ U₃ => U₃.write S fun r₄ t₄ U₄ => ⟨U₄, ?_⟩
    intro line holds hlen hle
    have hcolon : Field.Holds 0 (cstr (bytes ":")) (bytes ":") :=
      Field.holds_getD (by decide +kernel)
    have hnewline : Field.Holds 0 (cstr (bytes "\n")) (bytes "\n") :=
      Field.holds_getD (by decide +kernel)
    have hreport : Found pattern line := (checkFrom_eq pat holds).mp (hlen ▸ hfound)
    unfold report
    rw [if_pos hreport, shown_cons, shown_cons, shown_cons, shown_cons,
      shownBy_fdputs named short, shownBy_fdputs hcolon (by decide +kernel),
      shownBy_fdputs holds (by omega), shownBy_fdputs hnewline (by decide +kernel)]
    simp [shown]
  next hnot =>
    refine ⟨U, fun line holds hlen _ => ?_⟩
    have hreport : ¬ Found pattern line := fun h => hnot (hlen ▸ (checkFrom_eq pat holds).mpr h)
    exact (if_neg hreport).symm

/-! ## The lines of what has been read -/

/-- A string that memory holds, where the byte behind it is made its end. -/
theorem holds_slice {data : Buf} {lineStart len : Nat}
    (clean : 0 ∉ Stream.slice data lineStart len) :
    Field.Holds 0 (plus (Function.update data (lineStart + len) 0) lineStart)
      (Stream.slice data lineStart len) := by
  refine ⟨fun i hi => ?_, clean⟩
  rw [Stream.slice_length] at hi
  unfold plus
  rcases Nat.lt_or_eq_of_le hi with hlt | rfl
  · rw [Function.update_of_ne (by omega), List.getD_eq_getElem _ _ (by simpa using hlt)]
    simp [Stream.slice]
  · rw [Function.update_self, List.getD_eq_default _ _ (by simp)]

/-- A slice that a change of memory does not meet. -/
theorem slice_update {data : Buf} {a i n : Nat} {c : UInt8} (apart : a < i ∨ i + n ≤ a) :
    Stream.slice (Function.update data a c) i n = Stream.slice data i n :=
  List.map_congr_left fun j hj => by
    have hj := List.mem_range.mp hj
    exact Function.update_of_ne (by omega) _ _

/-- The bytes between `line_start` and `last`, and the `rest` of the file behind them, as the
loop needs them. -/
structure Window (data : Buf) (cnt : Int) (lineStart last : Nat) (rest : List UInt8) : Prop where
  clean : 0 ∉ Stream.slice data lineStart (last - lineStart)
  /-- The buffer is full unless the file has ended. -/
  full : rest ≠ [] → last = 1024 ∧ cnt ≠ 0
  /-- A newline behind the bytes is no accident. -/
  edge : data last = newline → rest = [] ∨ rest.head? = some newline
  /-- It does not stay behind the buffer for the next read either. -/
  stale : rest = [] ∨ data 1024 ≠ newline ∨
    last = 1024 ∧ (Stream.slice data lineStart (last - lineStart)).getLast? ≠ some newline

/-- What the loop leaves: bytes of a line that is not whole, moved to the start of `data`, and
what is still to be shown of them. -/
structure Pending (pattern name : List UInt8) (owed rest : List UInt8)
    (calls : List (Event Call Call.Answer)) (left : Buf × Nat) : Prop where
  clean : 0 ∉ Stream.slice left.1 0 left.2
  stale : rest = [] ∨ left.1 1024 ≠ newline
  shown : shown calls ++ grepped pattern name (Stream.slice left.1 0 left.2 ++ rest) =
    grepped pattern name (owed ++ rest)

/-- What is moved down is all that is left of the last line. -/
theorem pending_moved {data : Buf} {cnt : Int} {lineStart last len : Nat} {rest : List UInt8}
    (W : Window data cnt lineStart last rest) (hlast : last = lineStart + len)
    (notFirst : lineStart ≠ 0) (small : last ≤ 1024) :
    Pending pattern name (Stream.slice data lineStart (last - lineStart)) rest []
      (ece391Strcpy 0 lineStart (Function.update data last 0), last - lineStart) := by
  obtain rfl := hlast
  have hclean := W.clean
  rw [Nat.add_sub_cancel_left] at hclean ⊢
  have hcopy := ece391Strcpy_eq (Nat.pos_of_ne_zero notFirst) (holds_slice hclean)
    (by rw [Stream.slice_length]; omega)
  rw [Stream.slice_length] at hcopy
  have hmoved : Stream.slice (ece391Strcpy 0 lineStart (Function.update data (lineStart + len) 0))
      0 len = Stream.slice data lineStart len := by
    refine List.map_congr_left fun i hi => ?_
    have hi := List.mem_range.mp hi
    rw [Nat.zero_add, hcopy, if_pos (by omega), Function.update_of_ne (by omega)]
  refine ⟨?_, ?_, ?_⟩
  · rw [hmoved]
    exact hclean
  · by_cases hrest : rest = []
    · exact .inl hrest
    · obtain ⟨hfull, _⟩ := W.full hrest
      refine .inr ?_
      dsimp only
      rw [hcopy, if_neg (by omega), hfull, Function.update_self]
      decide
  · rw [hmoved]
    rfl

/-- A line that ends before `last`, its newline, and what is behind it. -/
theorem slice_line {data : Buf} {lineStart last len : Nat} (within : lineStart + len < last)
    (stop : data (lineStart + len) = newline) :
    Stream.slice data lineStart (last - lineStart) =
      Stream.slice data lineStart len ++
        newline :: Stream.slice data (lineStart + len + 1) (last - (lineStart + len + 1)) := by
  have hsplit : last - lineStart = len + (1 + (last - (lineStart + len + 1))) := by omega
  have hone : Stream.slice data (lineStart + len) 1 = [newline] := congrArg (· :: []) stop
  rw [hsplit, Stream.slice_add, Stream.slice_add, hone]
  rfl

/-- What is shown of a line and of what is behind it. -/
theorem grepped_line {line rest : List UInt8} (clean : newline ∉ line) (fits : line.length ≤ 1024) :
    grepped pattern name (line ++ newline :: rest) =
      report pattern name line ++ grepped pattern name rest := by
  unfold grepped
  rw [Pieces.pieces_line clean fits, List.flatMap_cons]

/-- The last line searched: nothing is left. -/
theorem pending_searched {data : Buf} {cnt : Int} {lineStart last len : Nat} {rest : List UInt8}
    {calls : List (Event Call Call.Answer)} (W : Window data cnt lineStart last rest)
    (within : lineStart + len ≤ last) (small : last ≤ 1024) (ends : last ≤ lineStart + len + 1)
    (line : newline ∉ Stream.slice data lineStart len)
    (stop : lineStart + len < last → data (lineStart + len) = newline)
    (searched : data (lineStart + len) = newline ∨ cnt = 0 ∨ lineStart = 0)
    (shows : shown calls = report pattern name (Stream.slice data lineStart len)) :
    Pending pattern name (Stream.slice data lineStart (last - lineStart)) rest calls
      (Function.update data (lineStart + len) 0, 0) := by
  refine ⟨List.not_mem_nil, ?_, ?_⟩
  · dsimp only
    rcases W.stale with hrest | hstale | ⟨hfull, hlast⟩
    · exact .inl hrest
    · refine .inr ?_
      by_cases h : 1024 = lineStart + len
      · rw [h, Function.update_self]
        decide
      · rw [Function.update_of_ne h]
        exact hstale
    · refine .inr ?_
      by_cases hshort : lineStart + len < last
      · -- a full buffer that ends with a newline
        have hempty : last - (lineStart + len + 1) = 0 := by omega
        rw [slice_line hshort (stop hshort), hempty] at hlast
        simp [Stream.slice] at hlast
      · rw [show 1024 = lineStart + len by omega, Function.update_self]
        decide
  · have hfits : (Stream.slice data lineStart len).length ≤ 1024 := by
      rw [Stream.slice_length]
      omega
    rw [shows]
    show _ ++ grepped pattern name rest = _
    by_cases hshort : lineStart + len < last
    · have hempty : last - (lineStart + len + 1) = 0 := by omega
      rw [slice_line hshort (stop hshort), hempty, List.append_assoc, List.cons_append,
        grepped_line line hfits]
      rfl
    · have hall : last - lineStart = len := by omega
      have hlast : lineStart + len = last := by omega
      rw [hall]
      refine (Pieces.flatMap_pieces_append (report_nil pattern name) (by decide) line hfits
        ?_).symm
      by_cases hrest : rest = []
      · exact .inl hrest
      · obtain ⟨hfull, hcnt⟩ := W.full hrest
        rcases searched with hnewline | hzero | hfirst
        · exact .inr ((W.edge (hlast ▸ hnewline)).imp_right .inl |>.resolve_left hrest)
        · exact absurd hzero hcnt
        · refine .inr (.inr ?_)
          rw [Stream.slice_length]
          omega

/-- The window behind a line that has been searched. -/
theorem Window.next {data : Buf} {cnt : Int} {lineStart last len : Nat} {rest : List UInt8}
    (W : Window data cnt lineStart last rest) (more : lineStart + len + 1 < last)
    (small : last ≤ 1024) (stop : data (lineStart + len) = newline) :
    Window (Function.update data (lineStart + len) 0) cnt (lineStart + len + 1) last rest := by
  have hwithin : lineStart + len < last := by omega
  have hsplit := slice_line hwithin stop
  have hsame : Stream.slice (Function.update data (lineStart + len) 0) (lineStart + len + 1)
      (last - (lineStart + len + 1)) =
        Stream.slice data (lineStart + len + 1) (last - (lineStart + len + 1)) :=
    slice_update (.inl (by omega))
  have hclean := W.clean
  rw [hsplit] at hclean
  refine ⟨?_, W.full, ?_, ?_⟩
  · rw [hsame]
    exact fun h => hclean (List.mem_append_right _ (List.mem_cons_of_mem _ h))
  · rw [Function.update_of_ne (by omega)]
    exact W.edge
  · rw [Function.update_of_ne (by omega), hsame]
    refine W.stale.imp_right (Or.imp_right (And.imp_right fun hlast => ?_))
    have hne : Stream.slice data (lineStart + len + 1) (last - (lineStart + len + 1)) ≠ [] := by
      rw [ne_eq, ← List.length_eq_zero_iff, Stream.slice_length]
      omega
    rw [hsplit, List.getLast?_append_of_ne_nil _ (List.cons_ne_nil _ _),
      List.getLast?_cons_of_ne_nil hne] at hlast
    exact hlast

/-- The loop over the lines. Whatever the bytes are, it stays in the buffer, leaves less than a
buffer and, at the end of the file, nothing. -/
theorem linesLoop_always (S : Setting img term admits extra) (pat : Field.Holds 0 s pattern)
    (named : Field.Holds 0 fname name) (short : name.length < 4294967296) {cnt : Int}
    {last turns lineStart : Nat} {data : Buf} (U : Settled extra pid view k)
    (le : lineStart ≤ last) (small : last ≤ 1024) (enough : last - lineStart < turns) :
    (linesLoop s fname pattern.length cnt last turns lineStart data).Always
      (machine img term pid admits)
      (fun calls left t => Settled extra pid view t ∧ left.2 < 1024 ∧ (cnt = 0 → left.2 = 0) ∧
        (∀ i > 1024, left.1 i = data i) ∧
        ∀ rest, Window data cnt lineStart last rest →
          Pending pattern name (Stream.slice data lineStart (last - lineStart)) rest calls left)
      k := by
  induction turns generalizing lineStart data k with
  | zero => exact absurd enough (Nat.not_lt_zero _)
  | succ turns ih =>
    obtain ⟨len, hlen, hend, hline, hstop⟩ := lineEndFrom_spec data (last - lineStart) lineStart
    unfold linesLoop
    rw [hend]
    dsimp only
    split
    next hmove =>
      obtain ⟨hchar, hcnt, hfirst⟩ := hmove
      have hlast : last = lineStart + len := by
        by_contra hne
        exact hchar (hstop (by omega))
      refine ⟨U, by dsimp only; omega, fun h => absurd h hcnt, fun i hi => ?_, fun rest W => ?_⟩
      · -- what is copied ends where the end was put, if not before
        have hput : plus (Function.update data (lineStart + len) 0) lineStart len = 0 :=
          Function.update_self _ _ _
        obtain ⟨text, hholds, htext⟩ := Field.exists_holds hput
        dsimp only
        rw [ece391Strcpy_eq (by omega) hholds (by omega), if_neg (by omega),
          Function.update_of_ne (by omega)]
      · rw [← hlast]
        exact pending_moved W hlast hfirst small
    next hsearch =>
      have hsearched : data (lineStart + len) = newline ∨ cnt = 0 ∨ lineStart = 0 := by
        by_contra h
        obtain ⟨hchar, hcnt, hfirst⟩ := by simpa only [not_or] using h
        exact hsearch ⟨hchar, hcnt, hfirst⟩
      refine Interaction.Program.Always.bind ?_
      refine (searchLine_always S pat named short U).mono fun calls _ t hdone => ?_
      obtain ⟨U', hshows⟩ := hdone
      have hframe : ∀ i > 1024, Function.update data (lineStart + len) 0 i = data i :=
        fun i hi => Function.update_of_ne (by omega) _ _
      have hshown : ∀ rest, Window data cnt lineStart last rest →
          shown calls = report pattern name (Stream.slice data lineStart len) := by
        intro rest W
        refine hshows _ (holds_slice fun hz => W.clean ?_) (Stream.slice_length _ _ _) (by omega)
        rw [show last - lineStart = len + (last - lineStart - len) by omega, Stream.slice_add]
        exact List.mem_append_left _ hz
      split
      next hends =>
        refine ⟨U', Nat.zero_lt_succ _, fun _ => rfl, hframe, fun rest W => ?_⟩
        rw [List.append_nil]
        exact pending_searched W (by omega) small hends hline (fun h => hstop (by omega))
          hsearched (hshown rest W)
      next hmore =>
        have hnewline := hstop (by omega)
        refine (ih U' (by omega) (by omega)).mono fun calls' left u hdone => ?_
        obtain ⟨U'', hsmall, hnone, hkept, hpending⟩ := hdone
        refine ⟨U'', hsmall, hnone, fun i hi => (hkept i hi).trans (hframe i hi), fun rest W => ?_⟩
        have P := hpending rest (W.next (by omega) small hnewline)
        refine ⟨P.clean, P.stale, ?_⟩
        have hfits : (Stream.slice data lineStart len).length ≤ 1024 := by
          rw [Stream.slice_length]
          omega
        rw [shown_append, List.append_assoc, P.shown, hshown rest W,
          slice_update (.inl (by omega)), slice_line (by omega) hnewline, List.append_assoc,
          List.cons_append, grepped_line hline hfits]

end Lines

/-! ## The reads -/

/-- Memory after `read` has stored `n` bytes of a stream at `data + last`. -/
theorem setPlus_splice (data : Buf) (last : Nat) (stream : Nat → UInt8) (p n i : Nat) :
    setPlus data last (Stream.splice stream p n (plus data last)) i =
      if last ≤ i ∧ i < last + n then stream (p + (i - last)) else data i := by
  unfold setPlus Stream.splice plus
  by_cases hlow : i < last
  · rw [if_pos hlow, if_neg (by omega)]
  · rw [if_neg hlow]
    by_cases hin : i - last < n
    · rw [if_pos hin, if_pos (by omega)]
    · rw [if_neg hin, if_neg (by omega), show last + (i - last) = i by omega]

/-- A text that the buffer does not spoil: no byte is zero, and two newlines in a row are in a
file shorter than a block at most. -/
structure Readable (stream : Nat → UInt8) (length : Nat) : Prop where
  clean : ∀ i < length, stream i ≠ 0
  spaced : length < 4096 ∨
    ∀ i, i + 1 < length → stream i = newline → stream (i + 1) ≠ newline

section Reads

variable {stream : Nat → UInt8} {length p m last : Nat} {data : Buf}

/-- The bytes read, behind those that were left. -/
theorem slice_setPlus {n : Nat} (le : m ≤ n) :
    Stream.slice (setPlus data last (Stream.splice stream p n (plus data last))) 0 (last + m) =
      Stream.slice data 0 last ++ Stream.slice stream p m := by
  rw [Stream.slice_add]
  refine congrArg₂ (· ++ ·) (List.map_congr_left fun i hi => ?_)
    (List.map_congr_left fun i hi => ?_)
  · have hi := List.mem_range.mp hi
    rw [setPlus_splice, if_neg (by omega)]
  · have hi := List.mem_range.mp hi
    rw [setPlus_splice, if_pos (by omega), show 0 + last + i - last = i by omega]

/-- What has been read is a window, as long as no newline is behind the buffer by accident. -/
theorem window_read (readable : Readable stream length) (within : p ≤ length) (small : last < 1024)
    (count : m = min (1024 - last) (length - p)) (clean : 0 ∉ Stream.slice data 0 last)
    (stale : p = length ∨ data 1024 ≠ newline) :
    Window (setPlus data last (Stream.splice stream p (storedBytes p m) (plus data last))) m 0
      (last + m) (Stream.slice stream (p + m) (length - (p + m))) := by
  have hlow := le_storedBytes p m
  have hhigh := storedBytes_le p (m := m) (by omega)
  have hmore : Stream.slice stream (p + m) (length - (p + m)) ≠ [] →
      p + m < length ∧ last + m = 1024 ∧
        (Stream.slice stream (p + m) (length - (p + m))).head? = some (stream (p + m)) := by
    intro hne
    rw [ne_eq, ← List.length_eq_zero_iff, Stream.slice_length] at hne
    refine ⟨by omega, by omega, ?_⟩
    rw [show length - (p + m) = 1 + (length - (p + m) - 1) by omega, Stream.slice_add]
    rfl
  -- the byte behind a full buffer: what was there, or the byte too many
  have hbehind : last + m = 1024 →
      setPlus data last (Stream.splice stream p (storedBytes p m) (plus data last)) 1024 =
        if storedBytes p m = m then data 1024 else stream (p + m) := by
    intro hfull
    rw [setPlus_splice]
    split
    next h => rw [if_neg (by omega), show p + (1024 - last) = p + m by omega]
    next h => rw [if_pos (by omega)]
  refine ⟨?_, fun hne => ?_, fun hnewline => ?_, ?_⟩
  · rw [Nat.sub_zero, slice_setPlus hlow]
    refine List.not_mem_append clean fun hz => ?_
    obtain ⟨i, hi, hzero⟩ := List.mem_map.mp hz
    have hi := List.mem_range.mp hi
    exact readable.clean (p + i) (by omega) hzero
  · obtain ⟨_, hfull, _⟩ := hmore hne
    exact ⟨hfull, by omega⟩
  · by_cases hrest : Stream.slice stream (p + m) (length - (p + m)) = []
    · exact .inl hrest
    · obtain ⟨hlt, hfull, hhead⟩ := hmore hrest
      rw [hfull, hbehind hfull] at hnewline
      split at hnewline
      · rcases stale with hend | hstale
        · omega
        · exact absurd hnewline hstale
      · exact .inr (hhead.trans (congrArg some hnewline))
  · by_cases hrest : Stream.slice stream (p + m) (length - (p + m)) = []
    · exact .inl hrest
    · obtain ⟨hlt, hfull, _⟩ := hmore hrest
      have hstale : data 1024 ≠ newline := stale.resolve_left (by omega)
      rw [hbehind hfull]
      split
      next => exact .inr (.inl hstale)
      next hover =>
        have hblock : 4096 ≤ p % 4096 + m := by
          by_contra h
          exact hover (storedBytes_eq (by omega))
        have hspaced := readable.spaced.resolve_left (by omega)
        by_cases hnewline : stream (p + m) = newline
        · refine .inr (.inr ⟨hfull, ?_⟩)
          obtain ⟨n, rfl⟩ : ∃ n, m = n + 1 := ⟨m - 1, by omega⟩
          have hlast : Stream.slice stream (p + n) 1 = [stream (p + n)] := rfl
          rw [Nat.sub_zero, slice_setPlus hlow, Stream.slice_add, hlast, ← List.append_assoc,
            List.getLast?_concat]
          exact fun h => hspaced (p + n) (by omega) (Option.some.inj h) hnewline
        · exact .inr (.inl hnewline)

end Reads

section File

variable {img : FsImage} {term : TerminalDriver} {pid : Int} {view : PcbView} {k : Kernel}
  {admits : Kernel → ProcEvent ⊕ FdEvent → Prop} {extra : Kernel → Prop}
  {s fname : Buf} {pattern name : List UInt8} {x p : Nat} {fd : Int}

theorem grepped_nil : grepped pattern name [] = [] := by
  unfold grepped
  rw [Pieces.pieces_last List.not_mem_nil (Nat.zero_le _), List.flatMap_singleton, report_nil]

/-- The loop over the reads, from where the descriptor stands. -/
theorem readLoop_always (S : Setting img term admits extra) (wf : img.WellFormed)
    (regular : img.Regular x) (lo : 2 ≤ fd) (hi : fd ≤ 7) (pat : Field.Holds 0 s pattern)
    (named : Field.Holds 0 fname name) (short : name.length < 4294967296)
    {turns lineTurns last : Nat} {data : Buf} (U : Settled extra pid view k)
    (slot : view.fdArray fd = ⟨fileTable, x, p, 1⟩) (within : (p : Int) ≤ (img.inode x).length)
    (small : last < 1024) (lines : 1024 < lineTurns)
    (enough : (img.inode x).length.toNat - p < turns) :
    (readLoop s fname pattern.length fd lineTurns turns last data).Always
      (machine img term pid admits)
      (fun calls r t => (∃ position, Settled extra pid { view with
          fdArray := Function.update view.fdArray fd ⟨fileTable, x, position, 1⟩ } t) ∧
        r.2 = false ∧ (∀ i > 1024, r.1 i = data i) ∧
        (Readable (fileByte img (img.inode x)) (img.inode x).length.toNat →
          0 ∉ Stream.slice data 0 last →
          p = (img.inode x).length.toNat ∨ data 1024 ≠ newline →
            shown calls = grepped pattern name (Stream.slice data 0 last ++
              Stream.slice (fileByte img (img.inode x)) p ((img.inode x).length.toNat - p)))) k := by
  induction turns generalizing p view k last data with
  | zero => exact absurd enough (Nat.not_lt_zero _)
  | succ turns ih =>
    let m := min (1024 - last) ((img.inode x).length.toNat - p)
    have hm : m = min (1024 - last) ((img.inode x).length.toNat - p) := rfl
    have hlow := le_storedBytes p m
    have hhigh := storedBytes_le p (m := m) (by omega)
    refine U.readFile S wf regular lo hi slot within (m := m) (by omega) fun t U' => ?_
    dsimp only
    rw [if_neg (by omega), Int.toNat_natCast]
    refine Interaction.Program.Always.bind ?_
    refine (linesLoop_always S pat named short U' (Nat.zero_le _) (by omega)
      (by omega)).mono fun calls left u hlines => ?_
    obtain ⟨U'', hleft, hended, hframe, hpending⟩ := hlines
    have hkept : ∀ i > 1024, left.1 i = data i := by
      intro i hi
      rw [hframe i hi, setPlus_splice, if_neg (by omega)]
    have hlines : Readable (fileByte img (img.inode x)) (img.inode x).length.toNat →
        0 ∉ Stream.slice data 0 last → p = (img.inode x).length.toNat ∨ data 1024 ≠ newline →
          Pending pattern name (Stream.slice data 0 last ++ Stream.slice
            (fileByte img (img.inode x)) p m) (Stream.slice (fileByte img (img.inode x)) (p + m)
              ((img.inode x).length.toNat - (p + m))) calls left := by
      intro readable clean stale
      have W := window_read readable (by omega) small hm clean stale
      have P := hpending _ W
      rw [Nat.sub_zero, slice_setPlus hlow] at P
      exact P
    have hslice := Stream.slice_add (fileByte img (img.inode x)) p m
      ((img.inode x).length.toNat - (p + m))
    rw [show m + ((img.inode x).length.toNat - (p + m)) = (img.inode x).length.toNat - p by
      omega] at hslice
    split
    next hzero =>
      refine ⟨⟨_, U''⟩, rfl, hkept, fun readable clean stale => ?_⟩
      have P := (hlines readable clean stale).shown
      have hrest : (img.inode x).length.toNat - (p + m) = 0 := by omega
      rw [hended hzero, hrest] at P
      rw [hslice, hrest, ← List.append_assoc, ← P, shown_cons, shown_append]
      show shown calls ++ [] = shown calls ++ grepped pattern name []
      rw [grepped_nil]
    next hmore =>
      refine (ih U'' (p := p + m) (by simp) (by omega) hleft (by omega)).mono
        fun calls' r v hrest => ?_
      obtain ⟨⟨position, V⟩, hresult, hkept', hshows⟩ := hrest
      refine ⟨⟨position, ?_⟩, hresult, fun i hi => (hkept' i hi).trans (hkept i hi),
        fun readable clean stale => ?_⟩
      · rw [Function.update_idem] at V
        exact V
      · have P := hlines readable clean stale
        have hstale : p + m = (img.inode x).length.toNat ∨ left.1 1024 ≠ newline := by
          refine P.stale.imp_left fun hrest => ?_
          have hnone := congrArg List.length hrest
          rw [Stream.slice_length, List.length_nil] at hnone
          omega
        rw [shown_cons, shown_append, hshows readable P.clean hstale, P.shown, hslice,
          List.append_assoc]
        rfl

/-- A file whose bytes the buffer does not spoil. -/
def Clean (img : FsImage) (j : Nat) : Prop :=
  0 ∉ fileBytes img j ∧
    ((fileBytes img j).length < 4096 ∨ ¬ [newline, newline] <:+: fileBytes img j)

theorem Clean.readable {j : Nat} (C : Clean img j) :
    Readable (fileByte img (img.inode (img.dentry j).inodeIdx))
      (img.inode (img.dentry j).inodeIdx).length.toNat := by
  obtain ⟨clean, spaced⟩ := C
  unfold fileBytes at clean spaced
  rw [Stream.slice_length] at spaced
  refine ⟨fun i hi hzero => clean (List.mem_map.mpr ⟨i, List.mem_range.mpr hi, ?_⟩),
    spaced.imp_right fun hinfix i hi hfirst hsecond => hinfix ?_⟩
  · rw [Nat.zero_add, hzero]
  · have htwo : Stream.slice (fileByte img (img.inode (img.dentry j).inodeIdx)) i 2 =
        [newline, newline] := by
      simp [Stream.slice, List.range_succ, hfirst, hsecond]
    rw [show (img.inode (img.dentry j).inodeIdx).length.toNat =
      i + (2 + ((img.inode (img.dentry j).inodeIdx).length.toNat - (i + 2))) by omega,
      Stream.slice_add, Nat.zero_add, Stream.slice_add, htwo, ← List.append_assoc]
    exact List.infix_append _ _ _

/-- `do_one_file`, at any moment of a process that has no child: whatever the file and the stack
hold and whatever other processes do meanwhile, it returns 0 with its descriptor closed again,
and has changed nothing behind its buffer. Of a text that the buffer does not spoil it shows the
lines that the pattern is found in, in order and each behind the file's name, where a line
longer than the buffer counts as several. -/
theorem doOneFile_greps (S : Setting img term admits extra) (wf : img.WellFormed)
    (U : Settled extra pid view k) (T : FdTable view.fdArray)
    (room : ¬ SlotTable.Full (openFds view.fdArray) 2 7) (pat : Field.Holds 0 s pattern)
    (fits : pattern.length < 4294967296) (named : Field.Holds 0 fname name) {j : Nat}
    (first : img.First name j) (regular : (img.dentry j).type = 2) (data : Buf) {turns : Nat}
    (lines : 1024 < turns) (enough : (img.inode (img.dentry j).inodeIdx).length < turns) :
    (doOneFile turns s fname data).Always (machine img term pid admits)
      (fun calls r t => r.2 = 0 ∧ (∀ i > 1024, r.1 i = data i) ∧
        (∃ view', Settled extra pid view' t ∧ FdTable view'.fdArray ∧
          openFds view'.fdArray = openFds view.fdArray) ∧
        (Clean img j → data 1024 ≠ newline →
          shown calls = grepped pattern name (fileBytes img j) ∧
            ((∀ line ∈ (fileBytes img j).splitOn newline, line.length ≤ 1024) →
              shown calls =
                ((fileBytes img j).splitOn newline).flatMap (report pattern name)))) k := by
  have hshort : name.length ≤ 32 := by
    rw [← first.named]
    exact img.entryName_length_le j
  have hknown : knownEntry img fname = some j := (knownEntry_short named hshort).mpr first
  have hslot : openedSlot (img.dentry j) = ⟨fileTable, (img.dentry j).inodeIdx, 0, 1⟩ := by
    simp [openedSlot, regular]
  have hlength := (wf.length j first.lt regular).1
  unfold doOneFile
  rw [ece391Strlen_eq pat fits]
  refine U.openKnown S T room hknown fun fd u hfree U₁ => ?_
  have hlo := hfree.ge
  rw [if_neg (by omega)]
  refine Interaction.Program.Always.bind ?_
  refine (readLoop_always S wf ⟨j, first.lt, regular, rfl⟩ hfree.ge hfree.le pat named (by omega)
    U₁ (by simp [hslot]) hlength (by omega) lines (by omega)).mono fun calls r t hread => ?_
  obtain ⟨⟨position, V⟩, hresult, hframe, hshows⟩ := hread
  rw [Function.update_idem] at V
  rw [hresult, if_neg Bool.false_ne_true]
  have hopen : OpenSlot (Function.update view.fdArray fd
      ⟨fileTable, (img.dentry j).inodeIdx, position, 1⟩) fd := by
    simp [OpenSlot, hfree.ge, hfree.le]
  refine V.closeOpen S (T.update hfree.ge (.inr rfl)) hopen fun v V' => ?_
  rw [Function.update_idem] at V'
  rw [if_neg (by decide)]
  refine ⟨rfl, hframe, ⟨_, V', T.update hfree.ge (.inl rfl), ?_⟩, fun clean stale => ?_⟩
  · rw [openFds_update_closed rfl, Function.update_eq_self_iff]
    exact hfree.free.symm
  · have hall := hshows clean.readable List.not_mem_nil (.inr stale)
    have hshown : shown (⟨.openFile fname, fd⟩ :: (calls ++ [⟨.close fd, (0 : Int)⟩])) =
        grepped pattern name (fileBytes img j) := by
      rw [shown_cons, shown_append, hall]
      exact List.append_nil _
    refine ⟨hshown, fun hfit => hshown.trans ?_⟩
    unfold grepped
    rw [Pieces.pieces_eq_splitOn hfit]

end File

end Mp3Kernel.User
