import Mp3Kernel.User.Fish
import Mp3Kernel.Laws.BlinkList
import Mp3Kernel.Laws.Transfer
import Mathlib.Data.List.GetD
import Mathlib.Algebra.BigOperators.Group.List.Basic
import Mathlib.Algebra.GroupWithZero.Nat

/-!
# The lights of two frames

The lights that `add_frames` adds are one for each place that has a character in one of the two
files, its row the number of the line and its column the place in it, where a line that is too
short has spaces.
-/

namespace Mp3Kernel.Blink

/-! ## Lines -/

/-- The first line of a file. -/
def line : List UInt8 → List UInt8
  | [] => []
  | c :: f => if c = newline then [] else c :: line f

/-- What is behind the newline that ends it, if there is one. -/
def behind : List UInt8 → Option (List UInt8)
  | [] => none
  | c :: f => if c = newline then some f else behind f

/-- The lines of a file; what is behind the last newline is one too. -/
def lines : List UInt8 → List (List UInt8)
  | [] => [[]]
  | c :: f =>
    if c = newline then [] :: lines f
    else (c :: (lines f).headD []) :: (lines f).tail

theorem lines_eq (f : List UInt8) : lines f = line f :: (behind f).elim [] lines := by
  induction f with
  | nil => rfl
  | cons c f ih =>
    unfold lines line behind
    by_cases h : c = newline
    · rw [if_pos h, if_pos h, if_pos h]
      rfl
    · rw [if_neg h, if_neg h, if_neg h, ih]
      rfl

theorem line_ne_newline {f : List UInt8} : ∀ c ∈ line f, c ≠ newline := by
  induction f with
  | nil => exact fun c hc => absurd hc List.not_mem_nil
  | cons c' f ih =>
    unfold line
    split
    · exact fun c hc => absurd hc List.not_mem_nil
    next hne =>
      intro c hc
      rcases List.mem_cons.mp hc with rfl | hc
      · exact hne
      · exact ih c hc

theorem line_length_le (f : List UInt8) : (line f).length ≤ f.length := by
  induction f with
  | nil => exact Nat.le_refl 0
  | cons c f ih =>
    unfold line
    split
    · exact Nat.zero_le _
    · exact Nat.succ_le_succ ih

/-! ## Rows -/

/-- The light of a place, if one of its two characters is not a space. -/
def place (junk : BlinkStruct) (row col : Nat) (c0 c1 : UInt8) : List Call :=
  if c0 = space ∧ c1 = space then [] else [.add (frameStruct junk row col c0 c1)]

/-- The lights of a row, from a column on. -/
def rowLights (junk : BlinkStruct) (row col : Nat) (l0 l1 : List UInt8) : List Call :=
  (List.range (max l0.length l1.length)).flatMap fun i =>
    place junk row (col + i) (l0.getD i space) (l1.getD i space)

/-- The lights of two files. -/
def frameLights (junk : BlinkStruct) (f0 f1 : List UInt8) : List Call :=
  (List.range (max (lines f0).length (lines f1).length)).flatMap fun row =>
    rowLights junk row 0 ((lines f0).getD row []) ((lines f1).getD row [])

/-- One more of whatever is in rows. -/
theorem range_flatMap_succ {α : Type} (n : Nat) (f : Nat → List α) :
    (List.range (n + 1)).flatMap f = f 0 ++ (List.range n).flatMap fun i => f (i + 1) := by
  rw [List.range_succ_eq_map, List.flatMap_cons, List.flatMap_map]

theorem getD_eq_headD {α : Type} (l : List α) (d : α) : l.getD 0 d = l.headD d := by
  cases l <;> rfl

theorem getD_tail {α : Type} (l : List α) (d : α) (i : Nat) : l.getD (i + 1) d = l.tail.getD i d := by
  cases l <;> rfl

/-- The longer of two lists loses one place when both lose their first. -/
theorem max_length {α β : Type} {l : List α} {l' : List β} (h : ¬ (l = [] ∧ l' = [])) :
    max l.length l'.length = max l.tail.length l'.tail.length + 1 := by
  have hpos : 0 < l.length ∨ 0 < l'.length := by
    by_contra hzero
    rw [not_or, Nat.not_lt, Nat.not_lt, Nat.le_zero, Nat.le_zero] at hzero
    exact h ⟨List.length_eq_zero_iff.mp hzero.1, List.length_eq_zero_iff.mp hzero.2⟩
  rw [List.length_tail, List.length_tail]
  omega

theorem rowLights_cons (junk : BlinkStruct) (row col : Nat) {l0 l1 : List UInt8}
    (h : ¬ (l0 = [] ∧ l1 = [])) :
    rowLights junk row col l0 l1 =
      place junk row col (l0.headD space) (l1.headD space) ++
        rowLights junk row (col + 1) l0.tail l1.tail := by
  unfold rowLights
  rw [max_length h, range_flatMap_succ, getD_eq_headD, getD_eq_headD, Nat.add_zero]
  simp only [getD_tail, Nat.add_assoc, Nat.add_comm 1]

/-! ## The inner loop -/

namespace Reader

variable {r r0 r1 : Reader}

/-- What is still to be read of the line. -/
def ahead (r : Reader) : List UInt8 := if r.c = newline then [] else line r.rest

/-- The reader at the end of the line. -/
def finish (r : Reader) : Reader :=
  if r.c = newline then r
  else
    { r with
      c := newline, rest := (behind r.rest).getD [], eof := r.eof || (behind r.rest).isNone }

/-- The file is shorter than a block, so none of its bytes is the last one of a block. -/
def Short (r : Reader) : Prop := r.size < 4096

theorem Short.finish (S : r.Short) : r.finish.Short := by
  unfold Reader.finish
  split <;> exact S

theorem ahead_ne_newline : ∀ c ∈ r.ahead, c ≠ newline := by
  unfold ahead
  split
  · exact fun c hc => absurd hc List.not_mem_nil
  · exact line_ne_newline

theorem ahead_eq_nil (h : r.ahead.headD newline = newline) : r.ahead = [] := by
  cases hl : r.ahead with
  | nil => rfl
  | cons c l =>
    rw [hl] at h
    exact absurd h (r.ahead_ne_newline c (hl ▸ List.mem_cons_self))

/-- A read takes the next byte of the line, or comes to its end. -/
theorem Short.read (S : r.Short) :
    ∃ r', r.read = some r' ∧ r'.Short ∧ r'.c = r.ahead.headD newline ∧
      (r.ahead = [] → r' = r.finish) ∧ r'.ahead = r.ahead.tail ∧ r'.finish = r.finish := by
  obtain ⟨c, rest, eof, size⟩ := r
  unfold Short at S
  by_cases h : c = newline
  · subst h
    exact ⟨_, rfl, S, rfl, fun _ => rfl, rfl, rfl⟩
  · cases rest with
    | nil =>
      refine ⟨⟨newline, [], true, size⟩, ?_, S, ?_⟩
      · simp [Reader.read, h]
      · simp [ahead, Reader.finish, h, line, behind]
    | cons c' rest =>
      have hinside : ¬ (size - (c' :: rest).length) % 4096 = 4095 := by
        rw [List.length_cons]
        dsimp only at S
        omega
      refine ⟨⟨c', rest, eof, size⟩, ?_, S, ?_⟩
      · simp only [Reader.read, position, h, hinside, if_false]
      · by_cases h' : c' = newline
        · simp [ahead, Reader.finish, h, h', line, behind]
        · simp [ahead, Reader.finish, h, h', line, behind]

/-- A reader of a regular file, and the slot of its descriptor. -/
structure Reads (img : FsImage) (slot : FileD) (r : Reader) : Prop where
  position : slot.filePosition = r.position
  length : (img.inode slot.inode).length = r.size
  small : r.size ≤ 1023 * 4096
  left : r.rest.length ≤ r.size
  rest : r.rest =
    Stream.slice (fileByte img (img.inode slot.inode)) r.position r.rest.length

/-- A file just opened. -/
theorem reads_opened {img : FsImage} (wf : img.WellFormed) {j : Nat}
    (known : j < img.boot.numEntry) (regular : (img.dentry j).type = 2) {f : List UInt8}
    (file : f = Stream.slice (fileByte img (img.inode (img.dentry j).inodeIdx)) 0
      (img.inode (img.dentry j).inodeIdx).length.toNat) :
    Reads img (openedSlot (img.dentry j)) ⟨0x30, f, false, f.length⟩ := by
  have hlength : f.length = (img.inode (img.dentry j).inodeIdx).length.toNat := by
    rw [file, Stream.slice_length]
  have hposition : (⟨0x30, f, false, f.length⟩ : Reader).position = 0 := Nat.sub_self f.length
  obtain ⟨hlow, hhigh⟩ := wf.length j known regular
  have hslot : openedSlot (img.dentry j) = ⟨fileTable, (img.dentry j).inodeIdx, 0, 1⟩ := by
    simp [openedSlot, regular]
  rw [hslot]
  refine ⟨hposition.symm, ?_, ?_, Nat.le_refl _, ?_⟩
  · dsimp only
    omega
  · dsimp only
    omega
  · rw [hposition]
    dsimp only
    rw [hlength, ← file]

/-- A read is the kernel's `file_read` of one byte into `c`: that stores the next byte and no
other, or nothing at the end of the file. -/
theorem Reads.fileRead {img : FsImage} {k : Kernel} {fd : Int} {r' : Reader}
    (R : r.Reads img (k.fds fd)) (more : r.c ≠ newline) (next : r.read = some r') (buf : Buf) :
    (fileRead img fd buf 1 k).2.2 = (if r.rest = [] then 0 else 1) ∧
      (fileRead img fd buf 1 k).2.1 = r.rest.head?.elim buf (Function.update buf 0) ∧
      r'.Reads img ((fileRead img fd buf 1 k).1.fds fd) := by
  obtain ⟨c, rest, eof, size⟩ := r
  obtain ⟨hposition, hlength, hsmall, hleft, hrest⟩ := R
  dsimp only [Reader.position] at hposition hlength hsmall hleft hrest more
  have hrange : ∀ m : Nat, (m : Int) = min 1 rest.length →
      ReadRange img (k.fds fd) 1 (size - rest.length) m := fun m hm =>
    ⟨hposition, by omega, by omega, by rw [hlength, hm]; omega⟩
  cases rest with
  | nil =>
    obtain rfl : { c := newline, rest := [], eof := true, size := size } = r' := by
      simpa [Reader.read, more] using next
    obtain ⟨hcount, hbuf, hfds⟩ := (hrange 0 rfl).fileRead buf
    rw [storedBytes_eq (by omega), Stream.splice_zero] at hbuf
    refine ⟨hcount, hbuf, ?_⟩
    rw [hfds, Function.update_self]
    exact ⟨rfl, hlength, hsmall, hleft, rfl⟩
  | cons c' rest =>
    have hinside : ¬ (size - (c' :: rest).length) % 4096 = 4095 := by
      intro hlast
      simp only [Reader.read, Reader.position, more, hlast, if_false, if_true] at next
      cases next
    obtain rfl : { c := c', rest := rest, eof := eof, size := size } = r' := by
      simp only [Reader.read, Reader.position, more, hinside, if_false] at next
      exact Option.some.inj next
    obtain ⟨hcount, hbuf, hfds⟩ := (hrange 1 (by rw [List.length_cons]; omega)).fileRead buf
    have hsplit := Stream.slice_add (fileByte img (img.inode (k.fds fd).inode))
      (size - (c' :: rest).length) 1 rest.length
    rw [Nat.add_comm, ← @List.length_cons _ c' rest, ← hrest] at hsplit
    obtain ⟨hfirst, hothers⟩ := List.cons.inj hsplit
    rw [storedBytes_eq (by omega), Stream.splice_succ, Stream.splice_zero, Nat.add_zero] at hbuf
    refine ⟨hcount, ?_, ?_⟩
    · rw [hbuf]
      exact congrArg (Function.update buf 0) hfirst.symm
    · rw [hfds, Function.update_self]
      rw [List.length_cons] at hleft
      have hnext : size - (c' :: rest).length + 1 = size - rest.length := by
        rw [List.length_cons]
        omega
      refine ⟨hnext, hlength, hsmall, Nat.le_of_succ_le hleft, ?_⟩
      rw [hnext] at hothers
      exact hothers

end Reader

/-- What the inner loop does with two bytes, one of which may be behind the end of its line. -/
theorem place_eq (junk : BlinkStruct) (row col : Nat) {l0 l1 : List UInt8}
    (h0 : ∀ c ∈ l0, c ≠ newline) (h1 : ∀ c ∈ l1, c ≠ newline) (calls : List Call) :
    (if l0.headD newline ≠ space ∧ l0.headD newline ≠ newline ∨
        l1.headD newline ≠ space ∧ l1.headD newline ≠ newline then
      calls ++ [.add (frameStruct junk row col
        (if l0.headD newline = newline then space else l0.headD newline)
        (if l1.headD newline = newline then space else l1.headD newline))]
    else calls) = calls ++ place junk row col (l0.headD space) (l1.headD space) := by
  have hend : ∀ {l : List UInt8}, (∀ c ∈ l, c ≠ newline) →
      (if l.headD newline = newline then space else l.headD newline) = l.headD space ∧
        (l.headD newline ≠ space ∧ l.headD newline ≠ newline ↔ l.headD space ≠ space) := by
    intro l hl
    cases l with
    | nil => simp
    | cons c l =>
      have hc := hl c List.mem_cons_self
      simp [hc]
  rw [(hend h0).1, (hend h1).1]
  unfold place
  by_cases hboth : l0.headD space = space ∧ l1.headD space = space
  · rw [if_pos hboth, List.append_nil, if_neg]
    rw [(hend h0).2, (hend h1).2]
    exact fun h => h.elim (· hboth.1) (· hboth.2)
  · rw [if_neg hboth, if_pos]
    rw [(hend h0).2, (hend h1).2]
    exact Decidable.not_and_iff_or_not.mp hboth

/-- The inner loop adds the lights of a row, and leaves both readers at the ends of their lines. -/
theorem scanRow_eq (junk : BlinkStruct) (row : Nat) {fuel : Nat} :
    ∀ {col : Nat} {r0 r1 : Reader} {calls : List Call}, r0.Short → r1.Short →
      max r0.ahead.length r1.ahead.length < fuel →
      scanRow junk row fuel col r0 r1 calls =
        some (r0.finish, r1.finish, calls ++ rowLights junk row col r0.ahead r1.ahead) := by
  induction fuel with
  | zero => exact fun _ _ h => absurd h (Nat.not_lt_zero _)
  | succ fuel ih =>
    intro col r0 r1 calls S0 S1 enough
    obtain ⟨r0', hread0, S0', hc0, hend0, hahead0, hfinish0⟩ := S0.read
    obtain ⟨r1', hread1, S1', hc1, hend1, hahead1, hfinish1⟩ := S1.read
    unfold scanRow
    rw [hread0, hread1]
    dsimp only [Option.bind_eq_bind, Option.bind_some]
    rw [hc0, hc1]
    by_cases h : r0.ahead = [] ∧ r1.ahead = []
    · rw [if_pos ⟨by rw [h.1]; rfl, by rw [h.2]; rfl⟩, hend0 h.1, hend1 h.2, h.1, h.2]
      simp [rowLights]
    · have hmore : ¬ (r0.ahead.headD newline = newline ∧ r1.ahead.headD newline = newline) := by
        exact fun hnl => h ⟨r0.ahead_eq_nil hnl.1, r1.ahead_eq_nil hnl.2⟩
      rw [max_length h] at enough
      rw [if_neg hmore, place_eq junk row col r0.ahead_ne_newline r1.ahead_ne_newline,
        ih S0' S1' (by rw [hahead0, hahead1]; omega), hfinish0, hfinish1, hahead0, hahead1,
        rowLights_cons junk row col h, List.append_assoc]

/-! ## The outer loop -/

namespace Reader

variable {r : Reader}

/-- The reader at the start of a row, the line of which is over only if the file is. -/
def Fresh (r : Reader) : Prop := r.c = newline ↔ r.eof = true

/-- The lines that are still to be read. -/
def linesAhead (r : Reader) : List (List UInt8) := if r.eof then [] else lines r.rest

theorem ahead_eq (F : r.Fresh) : r.ahead = r.linesAhead.headD [] := by
  unfold ahead linesAhead
  by_cases h : r.eof = true
  · rw [if_pos (F.mpr h), if_pos h]
    rfl
  · rw [if_neg (F.not.mpr h), if_neg h, lines_eq]
    rfl

theorem linesAhead_eq_nil : r.linesAhead = [] ↔ r.eof = true := by
  unfold linesAhead
  by_cases h : r.eof = true
  · simp [h]
  · rw [if_neg h, lines_eq]
    simp [h]

theorem ahead_length_lt {n : Nat} (F : r.Fresh) (short : ∀ l ∈ r.linesAhead, l.length < n)
    (pos : 0 < n) : r.ahead.length < n := by
  rw [ahead_eq F]
  cases hl : r.linesAhead with
  | nil => exact pos
  | cons l ls => exact short l (hl ▸ List.mem_cons_self)

theorem Short.nextRow (S : r.Short) : r.nextRow.Short := S

theorem nextRow_fresh (r : Reader) : r.nextRow.Fresh := by
  unfold nextRow Fresh
  cases r.eof
  · exact iff_of_false (show ¬ (0x30 : UInt8) = newline by decide) Bool.false_ne_true
  · exact iff_of_true rfl rfl

theorem linesAhead_finish (F : r.Fresh) : r.finish.nextRow.linesAhead = r.linesAhead.tail := by
  unfold finish linesAhead nextRow
  dsimp only
  by_cases h : r.eof = true
  · rw [if_pos (F.mpr h), h]
    rfl
  · rw [if_neg (F.not.mpr h), if_neg h, lines_eq r.rest]
    cases behind r.rest <;> simp [h]

end Reader

theorem lines_length_le (f : List UInt8) : (lines f).length ≤ f.length + 1 := by
  induction f with
  | nil => exact Nat.le_refl 1
  | cons c f ih =>
    unfold lines
    split
    · exact Nat.succ_le_succ ih
    · rw [List.length_cons, List.length_tail, List.length_cons]
      omega

/-- No line is longer than the file. -/
theorem mem_lines_length_le {f l : List UInt8} (h : l ∈ lines f) : l.length ≤ f.length := by
  induction f generalizing l with
  | nil =>
    obtain rfl := List.mem_singleton.mp h
    exact Nat.le_refl 0
  | cons c f ih =>
    unfold lines at h
    split at h
    · rcases List.mem_cons.mp h with rfl | h
      · exact Nat.zero_le _
      · exact Nat.le_succ_of_le (ih h)
    · rcases List.mem_cons.mp h with rfl | h
      · have hhead : ((lines f).headD []).length ≤ f.length := by
          rw [lines_eq]
          exact line_length_le f
        exact Nat.succ_le_succ hhead
      · exact Nat.le_succ_of_le (ih (List.mem_of_mem_tail h))

/-- The outer loop adds the lights of all rows. -/
theorem scanRows_eq (junk : BlinkStruct) {turns fuel : Nat} :
    ∀ {row : Nat} {r0 r1 : Reader} {calls : List Call}, r0.Short → r1.Short → r0.Fresh →
      r1.Fresh → (∀ l ∈ r0.linesAhead, l.length < turns) → (∀ l ∈ r1.linesAhead, l.length < turns) →
      0 < turns → max r0.linesAhead.length r1.linesAhead.length < fuel →
      scanRows junk turns fuel row r0 r1 calls =
        some (calls ++ (List.range (max r0.linesAhead.length r1.linesAhead.length)).flatMap
          fun i => rowLights junk (row + i) 0 (r0.linesAhead.getD i [])
            (r1.linesAhead.getD i [])) := by
  induction fuel with
  | zero => exact fun _ _ _ _ _ _ _ h => absurd h (Nat.not_lt_zero _)
  | succ fuel ih =>
    intro row r0 r1 calls S0 S1 F0 F1 short0 short1 pos enough
    unfold scanRows
    by_cases h : r0.linesAhead = [] ∧ r1.linesAhead = []
    · have hends : (r0.eof && r1.eof) = true := by
        rw [Reader.linesAhead_eq_nil.mp h.1, Reader.linesAhead_eq_nil.mp h.2]
        rfl
      rw [if_pos hends, h.1, h.2]
      simp
    · have hmore : ¬ (r0.eof && r1.eof) = true := by
        rw [Bool.and_eq_true, ← Reader.linesAhead_eq_nil, ← Reader.linesAhead_eq_nil]
        exact h
      have hahead0 := Reader.ahead_length_lt F0 short0 pos
      have hahead1 := Reader.ahead_length_lt F1 short1 pos
      have hrow := @scanRow_eq junk row turns 0 r0 r1 calls S0 S1 (Nat.max_lt.mpr ⟨hahead0, hahead1⟩)
      have htail0 := Reader.linesAhead_finish F0
      have htail1 := Reader.linesAhead_finish F1
      rw [max_length h] at enough
      have hleft : max r0.finish.nextRow.linesAhead.length r1.finish.nextRow.linesAhead.length <
          fuel := by
        rw [htail0, htail1]
        omega
      have hrest := @ih (row + 1) r0.finish.nextRow r1.finish.nextRow
        (calls ++ rowLights junk row 0 r0.ahead r1.ahead) S0.finish.nextRow S1.finish.nextRow
        (Reader.nextRow_fresh _) (Reader.nextRow_fresh _)
        (fun l hl => short0 l (List.mem_of_mem_tail (htail0 ▸ hl)))
        (fun l hl => short1 l (List.mem_of_mem_tail (htail1 ▸ hl))) pos hleft
      rw [if_neg hmore, hrow]
      dsimp only [Option.bind_eq_bind, Option.bind_some]
      rw [hrest, htail0, htail1, max_length h, range_flatMap_succ, getD_eq_headD, getD_eq_headD,
        ← Reader.ahead_eq F0, ← Reader.ahead_eq F1, List.append_assoc]
      simp only [getD_tail, Nat.add_assoc, Nat.add_comm 1, Nat.add_zero]

theorem addFrames_run (junk : BlinkStruct) {f0 f1 : List UInt8} {turns : Nat}
    (short : max f0.length f1.length < 4096) (enough : max f0.length f1.length + 1 < turns) :
    addFrames junk turns f0 f1 = some (frameLights junk f0 f1) := by
  have hlength0 := lines_length_le f0
  have hlength1 := lines_length_le f1
  have hfresh : ∀ f, (⟨0x30, f, false, f.length⟩ : Reader).Fresh :=
    fun f => iff_of_false (show ¬ (0x30 : UInt8) = newline by decide) Bool.false_ne_true
  have hshort : ∀ f ∈ [f0, f1], ∀ l ∈ lines f, l.length < turns := by
    intro f hf l hl
    have hle := mem_lines_length_le hl
    simp only [List.mem_cons, List.not_mem_nil, or_false] at hf
    rcases hf with rfl | rfl <;> omega
  have hrows := @scanRows_eq junk turns turns 0 ⟨0x30, f0, false, f0.length⟩
    ⟨0x30, f1, false, f1.length⟩ [] (show f0.length < 4096 by omega)
    (show f1.length < 4096 by omega) (hfresh f0) (hfresh f1) (hshort f0 (by simp))
    (hshort f1 (by simp)) (by omega) (show max (lines f0).length (lines f1).length < turns by omega)
  refine hrows.trans ?_
  simp only [List.nil_append, Nat.zero_add]
  rfl

/-! ## `main` -/

section Main

variable {junk : BlinkStruct} {f0 f1 : List UInt8} {L : Lights}

/-- The calls that add something. -/
def Call.IsAdd : Call → Prop
  | .add _ => True
  | _ => False

/-- The light that a call adds, unless it is not on the screen. -/
def Call.added : Call → Option Light
  | .add b => if b.location.toNat < places then some b.toLight.lit else none
  | _ => none

theorem mem_rowLights {row col : Nat} {l0 l1 : List UInt8} {c : Call}
    (h : c ∈ rowLights junk row col l0 l1) :
    ∃ i c0 c1, i < max l0.length l1.length ∧ c = .add (frameStruct junk row (col + i) c0 c1) := by
  obtain ⟨i, hi, hc⟩ := List.mem_flatMap.mp h
  unfold place at hc
  split at hc
  · exact absurd hc List.not_mem_nil
  · exact ⟨i, _, _, List.mem_range.mp hi, List.mem_singleton.mp hc⟩

theorem getD_lines_length_le (f : List UInt8) (row : Nat) :
    ((lines f).getD row []).length ≤ f.length := by
  by_cases h : row < (lines f).length
  · rw [List.getD_eq_getElem _ _ h]
    exact mem_lines_length_le (List.getElem_mem h)
  · rw [List.getD_eq_default _ _ (Nat.not_lt.mp h)]
    exact Nat.zero_le _

/-- In files that are not too long, no place is numbered zero, or wraps to it. -/
theorem frameLights_nonzero (short : max f0.length f1.length ≤ 800) :
    ∀ c ∈ frameLights junk f0 f1, c.IsAdd ∧ c.Nonzero := by
  intro c hc
  obtain ⟨row, hrow, hc⟩ := List.mem_flatMap.mp hc
  obtain ⟨i, c0, c1, hi, rfl⟩ := mem_rowLights hc
  have hrow := List.mem_range.mp hrow
  have hlines0 := lines_length_le f0
  have hlines1 := lines_length_le f1
  have hcol0 := getD_lines_length_le f0 row
  have hcol1 := getD_lines_length_le f1 row
  refine ⟨trivial, fun hzero => ?_⟩
  have hwrap := congrArg UInt16.toNat hzero
  have hnat : (UInt16.ofNat (row * 80 + (0 + i) + 40)).toNat = row * 80 + (0 + i) + 40 :=
    UInt16.toNat_ofNat_of_lt (by rw [UInt16.size]; omega)
  have hsum : row * 80 + (0 + i) + 40 = 0 := hnat.symm.trans hwrap
  omega

theorem flatMap_length_le {α β : Type} (f : α → List β) (g : α → Nat) (l : List α)
    (h : ∀ a ∈ l, (f a).length ≤ g a) : (l.flatMap f).length ≤ (l.map g).sum := by
  induction l with
  | nil => exact Nat.le_refl 0
  | cons a l ih =>
    rw [List.flatMap_cons, List.length_append, List.map_cons, List.sum_cons]
    exact Nat.add_le_add (h a List.mem_cons_self)
      (ih fun b hb => h b (List.mem_cons_of_mem a hb))

/-- The lines of a file have no more bytes than the file. -/
theorem sum_lines_length_le (f : List UInt8) : ((lines f).map List.length).sum ≤ f.length := by
  induction f with
  | nil => exact Nat.le_refl 0
  | cons c f ih =>
    unfold lines
    split
    · simp only [List.map_cons, List.length_nil, List.sum_cons, Nat.zero_add, List.length_cons]
      omega
    · rw [lines_eq] at ih ⊢
      simp only [List.headD_cons, List.tail_cons, List.map_cons, List.sum_cons,
        List.length_cons] at ih ⊢
      omega

theorem sum_getD_le (ls : List (List UInt8)) (n : Nat) :
    ((List.range n).map fun row => (ls.getD row []).length).sum ≤ (ls.map List.length).sum := by
  induction n generalizing ls with
  | zero => exact Nat.zero_le _
  | succ n ih =>
    rw [List.range_succ_eq_map, List.map_cons, List.map_map, List.sum_cons]
    cases ls with
    | nil => simp [Function.comp_def]
    | cons l ls =>
      have hrest := ih ls
      simpa [Function.comp_def] using hrest

theorem frameLights_length_le : (frameLights junk f0 f1).length ≤ f0.length + f1.length := by
  let n := max (lines f0).length (lines f1).length
  let g0 (row : Nat) : Nat := ((lines f0).getD row []).length
  let g1 (row : Nat) : Nat := ((lines f1).getD row []).length
  have hrow : ∀ row ∈ List.range n, (rowLights junk row 0 ((lines f0).getD row [])
      ((lines f1).getD row [])).length ≤ g0 row + g1 row := by
    intro row _
    have hplaces := flatMap_length_le
      (fun i => place junk row (0 + i) (((lines f0).getD row []).getD i space)
        (((lines f1).getD row []).getD i space)) (fun _ => 1) (List.range (max (g0 row) (g1 row)))
      fun i _ => by
        unfold place
        split <;> simp
    have hcount : ((List.range (max (g0 row) (g1 row))).map fun _ => 1).sum =
        max (g0 row) (g1 row) := by simp
    rw [hcount] at hplaces
    exact Nat.le_trans hplaces (by omega)
  have hsum := flatMap_length_le _ _ _ hrow
  rw [List.sum_map_add] at hsum
  have h0 := Nat.le_trans (sum_getD_le (lines f0) n) (sum_lines_length_le f0)
  have h1 := Nat.le_trans (sum_getD_le (lines f1) n) (sum_lines_length_le f1)
  exact Nat.le_trans hsum (Nat.add_le_add h0 h1)

theorem calls_append (cs cs' : List Call) (L : Lights) :
    (Lights.calls (cs ++ cs') L).1 = (Lights.calls cs' (Lights.calls cs L).1).1 := by
  induction cs generalizing L with
  | nil => rfl
  | cons c cs ih => exact ih (L.call c).1

/-- Lights are added in front, as long as there is a place for each. -/
theorem calls_adds {cs : List Call} (adds : ∀ c ∈ cs, c.IsAdd)
    (room : L.list.length + cs.length ≤ places) :
    (Lights.calls cs L).1.list = (cs.filterMap Call.added).reverse ++ L.list := by
  induction cs generalizing L with
  | nil => rfl
  | cons c cs ih =>
    rw [List.length_cons] at room
    cases c with
    | add b =>
      have hrest : ∀ c ∈ cs, c.IsAdd := fun c hc => adds c (List.mem_cons_of_mem _ hc)
      have hroom : L.list.length < places := by omega
      have hcall : (L.call (.add b)).1.list = if b.location.toNat < places then
          b.toLight.lit :: L.list else L.list := by
        unfold Lights.call
        by_cases h : b.location.toNat < places <;> simp [h, hroom]
      have hlength : (L.call (.add b)).1.list.length + cs.length ≤ places := by
        rw [hcall]
        split
        · rw [List.length_cons]
          omega
        · omega
      show (Lights.calls cs (L.call (.add b)).1).1.list = _
      rw [ih hrest hlength, hcall, List.filterMap_cons, Call.added]
      by_cases h : b.location.toNat < places <;> simp [h]
    | _ => exact (adds _ List.mem_cons_self).elim

theorem calls_ticks (n : Nat) (L : Lights) :
    (Lights.calls (List.replicate n .tasklet) L).1.list = L.list.map Light.tick^[n] := by
  induction n generalizing L with
  | zero => exact (List.map_id _).symm
  | succ n ih =>
    refine (ih (L.call .tasklet).1).trans ?_
    rw [show (L.call .tasklet).1.list = L.list.map Light.tick from rfl, List.map_map]
    rfl

/-- The light that `main` adds comes first, and a sync for its location is for it. -/
theorem call_sync_first {b : Light} {l : List Light} {v : Nat → UInt8} {arg : UInt32}
    (location : b.location = (arg &&& 0xFFFF).toUInt16) :
    ∃ b' v', ((⟨b :: l, v⟩ : Lights).call (.sync arg)).1 = ⟨b' :: l, v'⟩ ∧
      b'.location = b.location := by
  unfold Lights.call
  dsimp only
  split
  next b₁ b₂ _ _ =>
    have hfirst : updateFirst (fun b => b.location == (arg &&& 0xFFFF).toUInt16) b₁.follow (b :: l) =
        b₁.follow b :: l := if_pos (beq_iff_eq.mpr location)
    rw [hfirst]
    exact ⟨b₁.follow b, _, rfl, rfl⟩
  next => exact ⟨b, v, rfl, rfl⟩

theorem call_remove_first {b : Light} {l : List Light} {v : Nat → UInt8} {arg : UInt32}
    (location : b.location = arg.toUInt16) :
    ((⟨b :: l, v⟩ : Lights).call (.remove arg)).1 = ⟨l, v⟩ := by
  have hfound : (⟨b :: l, v⟩ : Lights).light arg.toUInt16 = some b := by
    unfold Lights.light
    rw [List.find?_cons, beq_iff_eq.mpr location]
  unfold Lights.call
  dsimp only
  rw [hfound, List.eraseP_cons, beq_iff_eq.mpr location]
  rfl

/-- What `main` does to the lights there are: they tick, and its own light is gone. -/
theorem calls_mainCalls (room : L.list.length < places) (junk : BlinkStruct) :
    (Lights.calls (mainCalls junk) L).1.list = L.list.map Light.tick^[4 * wait] := by
  let ticks := List.replicate wait Call.tasklet
  let b : BlinkStruct :=
    { junk with
      onChar := 0x49, offChar := 0x4D, onLength := 7, offLength := 6, location := 6 * 80 + 60 }
  have hlocations : ∀ (n : Nat) (b : Light), (Light.tick^[n] b).location = b.location := by
    intro n
    induction n with
    | zero => exact fun _ => rfl
    | succ n ih => exact fun b => (ih b.tick).trans (tick_location b)
  -- the state behind some ticks
  have hticks : ∀ L : Lights, ∃ v,
      (Lights.calls ticks L).1 = ⟨L.list.map Light.tick^[wait], v⟩ := by
    intro L
    refine ⟨(Lights.calls ticks L).1.vmem, ?_⟩
    rw [← calls_ticks wait L]
  have hone : ∀ (c : Call) (L : Lights), (Lights.calls [c] L).1 = (L.call c).1 := fun _ _ => rfl
  have hsplit : mainCalls junk = ticks ++ ([.add b] ++ (ticks ++
      ([.sync ((40 : UInt32) <<< 16 ||| (6 * 80 + 60))] ++ (ticks ++
        ([.remove (6 * 80 + 60)] ++ ticks))))) := by
    simp [mainCalls, ticks, b]
  have hadd : ∀ L : Lights, L.list.length < places →
      ∃ v, (L.call (.add b)).1 = ⟨b.toLight.lit :: L.list, v⟩ := by
    intro L hroom
    refine ⟨b.poke b.onChar L.vmem, ?_⟩
    unfold Lights.call
    dsimp only
    rw [if_pos ⟨show ((6 * 80 + 60 : UInt16)).toNat < places by decide, hroom⟩]
  have hnumber : (6 * 80 + 60 : UInt16) =
        (((40 : UInt32) <<< 16 ||| (6 * 80 + 60)) &&& 0xFFFF).toUInt16 ∧
      (6 * 80 + 60 : UInt16) = (6 * 80 + 60 : UInt32).toUInt16 := by
    decide
  rw [hsplit]
  simp only [calls_append, hone]
  obtain ⟨v₁, h₁⟩ := hticks L
  rw [h₁]
  obtain ⟨v₂, h₂⟩ := hadd ⟨L.list.map Light.tick^[wait], v₁⟩ (by rwa [List.length_map])
  rw [h₂]
  obtain ⟨v₃, h₃⟩ := hticks ⟨b.toLight.lit :: L.list.map Light.tick^[wait], v₂⟩
  rw [h₃, List.map_cons]
  obtain ⟨b₄, v₄, h₄, hlocation⟩ := @call_sync_first (Light.tick^[wait] b.toLight.lit)
    ((L.list.map Light.tick^[wait]).map Light.tick^[wait]) v₃
    ((40 : UInt32) <<< 16 ||| (6 * 80 + 60)) ((hlocations wait _).trans hnumber.1)
  rw [h₄]
  obtain ⟨v₅, h₅⟩ := hticks ⟨b₄ :: (L.list.map Light.tick^[wait]).map Light.tick^[wait], v₄⟩
  have hremoved : (Light.tick^[wait] b₄).location = (6 * 80 + 60 : UInt32).toUInt16 :=
    ((hlocations wait b₄).trans hlocation).trans ((hlocations wait _).trans hnumber.2)
  rw [h₅, List.map_cons, call_remove_first hremoved, calls_ticks]
  have hsum : wait + (wait + (wait + wait)) = 4 * wait := by omega
  simp only [List.map_map, ← Function.iterate_add, hsum]

theorem mainCalls_nonzero (junk : BlinkStruct) : ∀ c ∈ mainCalls junk, c.Nonzero := by
  intro c hc
  simp only [mainCalls, List.mem_append, List.mem_cons, List.mem_replicate] at hc
  rcases hc with ((⟨-, rfl⟩ | rfl | ⟨-, rfl⟩) | rfl | ⟨-, rfl⟩) | rfl | ⟨-, rfl⟩
  all_goals first | trivial | exact show (6 * 80 + 60 : UInt16) ≠ 0 by decide

/-- For frames of at most 800 bytes, every call that `main` makes ends, only characters of the
screen are written, and what it leaves is the lights of the frames that are on the screen, each as
it is 400 ticks after it was added. -/
theorem main_leaves (short : max f0.length f1.length ≤ 800) {turns fuel : Nat}
    (enough : 801 < turns ∧ places < fuel) (junk junk' : BlinkStruct) (vmem : Nat → UInt8) :
    ∃ s rs v, main junk junk' turns fuel f0 f1 vmem = some (s, rs) ∧
      s.Shows ⟨((frameLights junk f0 f1).filterMap Call.added).reverse.map Light.tick^[400], v⟩ ∧
      ∀ a, OffScreen a → s.vmem a = vmem a := by
  let frames := frameLights junk f0 f1
  have hframes := @frameLights_nonzero junk f0 f1 short
  have hnonzero : ∀ c ∈ frames ++ mainCalls junk', c.Nonzero := by
    intro c hc
    rcases List.mem_append.mp hc with hc | hc
    · exact (hframes c hc).2
    · exact mainCalls_nonzero junk' c hc
  have hlength : frames.length < places := by
    have hle : frames.length ≤ f0.length + f1.length := frameLights_length_le
    have hplaces : places = 2000 := rfl
    omega
  obtain ⟨s, rs, hcalls, -, hshows⟩ := (start_shows vmem).calls enough.2 hnonzero
  have hadded : (Lights.calls frames ⟨[], vmem⟩).1.list = (frames.filterMap Call.added).reverse :=
    (calls_adds (fun c hc => (hframes c hc).1) (by simpa using Nat.le_of_lt hlength)).trans
      (List.append_nil _)
  have hroom : (Lights.calls frames ⟨[], vmem⟩).1.list.length < places := by
    rw [hadded, List.length_reverse]
    exact Nat.lt_of_le_of_lt (List.length_filterMap_le ..) hlength
  have hlist := calls_mainCalls hroom junk'
  rw [← calls_append, hadded] at hlist
  have hlights : (Lights.calls (frames ++ mainCalls junk') ⟨[], vmem⟩).1 =
      ⟨(frames.filterMap Call.added).reverse.map Light.tick^[400], s.vmem⟩ := by
    obtain ⟨l, -, hL⟩ := hshows
    exact congr (congrArg Lights.mk hlist) (congrArg Lights.vmem hL)
  refine ⟨s, rs, s.vmem, ?_, hlights ▸ hshows, fun a off => ?_⟩
  · unfold main
    rw [addFrames_run junk (by omega) (by omega)]
    exact hcalls
  · have hframe := @Lights.OnScreen.calls ⟨[], vmem⟩ (fun b hb => absurd hb List.not_mem_nil)
      (frames ++ mainCalls junk') a off
    rw [hlights] at hframe
    exact hframe

/-- One light, on and off for 15 ticks: after 400 ticks it has been on for 10. -/
theorem main_leaves_one :
    ∃ s rs v, main Fish.zeros Fish.zeros 802 2001 [0x2F] [0x5C] (fun _ => 0) = some (s, rs) ∧
      s.Shows ⟨[⟨40, 0x2F, 0x5C, 15, 15, 5, 1⟩], v⟩ := by
  obtain ⟨s, rs, v, hmain, hshows, -⟩ := @main_leaves [0x2F] [0x5C]
    (show max 1 1 ≤ 800 by decide) 802 2001 (show 801 < 802 ∧ places < 2001 by decide) Fish.zeros
    Fish.zeros fun _ => 0
  refine ⟨s, rs, v, hmain, ?_⟩
  let b : Light := ⟨40, 0x2F, 0x5C, 15, 15, 15, 1⟩
  have hadded : (frameLights Fish.zeros [0x2F] [0x5C]).filterMap Call.added = [b] := by
    decide +kernel
  have hperiod : Light.tick^[30] b = b := by decide +kernel
  have hticks : Light.tick^[400] b = ⟨40, 0x2F, 0x5C, 15, 15, 5, 1⟩ := by
    have hten : Light.tick^[10] b = ⟨40, 0x2F, 0x5C, 15, 15, 5, 1⟩ := by decide +kernel
    rw [show 400 = 10 + 30 * 13 from rfl, Function.iterate_add_apply, Function.iterate_mul,
      Function.iterate_fixed hperiod, hten]
  rw [hadded, List.reverse_singleton, List.map_singleton, hticks] at hshows
  exact hshows

end Main

end Mp3Kernel.Blink
