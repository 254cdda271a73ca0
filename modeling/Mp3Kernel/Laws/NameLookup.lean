import Mathlib.Data.Nat.Find
import Mp3Kernel.Laws.DescriptorSteps

/-!
# Looking entries up by name and by index

`strncmp` over a field compares what the two fields hold (`strncmp_eq_zero_iff`), so the
search finds the first entry whose name is the filename's first 32 characters, and the length
loop decides whether there were more (`knownEntry_some_iff`). The loop stops at a newline as
well, so it lets one kind of longer name through. The search by index draws its boundary one
entry past the table.
-/

namespace Mp3Kernel

/-! ## What the loops compare -/

theorem i8_injective {a b : UInt8} (h : i8 a - i8 b = 0) : a = b := by
  have ha := a.toNat_lt
  have hb := b.toNat_lt
  unfold i8 at h
  rw [Int.bmod_def, Int.bmod_def] at h
  apply UInt8.toNat_inj.mp
  split at h <;> split at h <;> omega

theorem strncmpFrom_eq_zero_iff (s1 s2 : Buf) (n i : Nat) :
    strncmpFrom s1 s2 n i = 0 ↔ Field.text 0 s1 n i = Field.text 0 s2 n i := by
  induction n generalizing i with
  | zero => exact iff_of_true rfl rfl
  | succ n ih =>
    unfold strncmpFrom Field.text
    by_cases hchar : s1 i = s2 i
    · rw [← hchar]
      by_cases hz : s1 i = 0
      · rw [if_pos (.inr hz), if_pos hz, if_pos hz]
        exact iff_of_true (Int.sub_self _) rfl
      · rw [if_neg (not_or.mpr ⟨fun h => h rfl, hz⟩), if_neg hz, if_neg hz, ih, List.cons.injEq]
        exact (and_iff_right rfl).symm
    · rw [if_pos (.inl hchar)]
      refine iff_of_false (fun h => hchar (i8_injective h)) ?_
      split
      next hz =>
        rw [if_neg fun h => hchar (hz.trans h.symm)]
        exact (List.cons_ne_nil _ _).symm
      next =>
        split
        · exact List.cons_ne_nil _ _
        · intro h
          exact hchar (List.cons.inj h).1

/-- `strncmp` compares the strings of two fields. -/
theorem strncmp_eq_zero_iff (s1 s2 : Buf) (n : Nat) :
    strncmp s1 s2 n = 0 ↔ Field.text 0 s1 n 0 = Field.text 0 s2 n 0 :=
  strncmpFrom_eq_zero_iff s1 s2 n 0

theorem nameTooLongFrom_iff {filename : Buf} {n i : Nat} (hi : i + n = 33) (hn : 0 < n) :
    nameTooLongFrom filename n i = true ↔
      ∀ j, i ≤ j → j ≤ 32 → filename j ≠ 0 ∧ filename j ≠ newline := by
  induction n generalizing i with
  | zero => exact absurd hn (Nat.lt_irrefl 0)
  | succ n ih =>
    unfold nameTooLongFrom
    by_cases hstop : filename i = 0 ∨ filename i = newline
    · rw [if_pos hstop]
      refine iff_of_false Bool.false_ne_true fun h => ?_
      obtain ⟨h0, hnl⟩ := h i (Nat.le_refl i) (by omega)
      exact hstop.elim h0 hnl
    · rw [if_neg hstop]
      by_cases hlast : i = 32
      · rw [if_pos hlast]
        refine iff_of_true rfl fun j hj hj' => ?_
        have hji : j = i := by omega
        rw [hji]
        exact not_or.mp hstop
      · rw [if_neg hlast, ih (by omega) (by omega)]
        constructor
        · intro h j hj hj'
          by_cases hji : j = i
          · rw [hji]
            exact not_or.mp hstop
          · exact h j (by omega) hj'
        · intro h j hj hj'
          exact h j (by omega) hj'

section Held

variable {filename : Buf} {name : List UInt8}

/-- The length loop refuses a name of more than 32 characters, unless one of the first 33 is a
newline. -/
theorem nameTooLong_iff (h : Field.Holds 0 filename name) :
    nameTooLong filename = true ↔ 32 < name.length ∧ newline ∉ name.take 33 := by
  unfold nameTooLong
  rw [nameTooLongFrom_iff rfl (by decide)]
  constructor
  · intro hchars
    have hlen : 32 < name.length := by
      by_contra hshort
      exact (hchars name.length (Nat.zero_le _) (by omega)).1 h.end
    refine ⟨hlen, fun hmem => ?_⟩
    obtain ⟨j, hj, hjnl⟩ := List.mem_take_iff_getElem.mp hmem
    have hj' : j < name.length := by omega
    exact (hchars j (Nat.zero_le _) (by omega)).2 ((h.char hj').trans hjnl)
  · rintro ⟨hlen, hnl⟩ j - hj
    have hj' : j < name.length := by omega
    refine ⟨h.char_ne hj', fun heq => hnl ?_⟩
    exact List.mem_take_iff_getElem.mpr ⟨j, by omega, (h.char hj').symm.trans heq⟩

end Held

/-! ## The directory -/

/-- An entry's name: the bytes of its 32-byte field before the first NUL, or all of them. -/
def FsImage.entryName (img : FsImage) (j : Nat) : List UInt8 :=
  Field.text 0 (img.dentry j).name 32 0

/-- Entry `j` is the first of the directory with a name. -/
structure FsImage.First (img : FsImage) (name : List UInt8) (j : Nat) : Prop where
  lt : j < img.boot.numEntry
  named : img.entryName j = name
  before : ∀ i < j, img.entryName i ≠ name

section Directory

variable {img : FsImage} {filename : Buf} {name : List UInt8} {j : Nat}

theorem FsImage.entryName_length_le (img : FsImage) (j : Nat) : (img.entryName j).length ≤ 32 :=
  Field.text_length_le 0 _ 32 0

theorem FsImage.First.unique {i : Nat} (hi : img.First name i) (hj : img.First name j) :
    i = j := by
  rcases Nat.lt_trichotomy i j with h | h | h
  · exact absurd hi.named (hj.before i h)
  · exact h
  · exact absurd hj.named (hi.before j h)

/-- Among the entries with a property one comes first. -/
theorem exists_first_entry {n : Nat} {p : Nat → Prop} (h : ∃ j < n, p j) :
    ∃ j < n, p j ∧ ∀ i < j, ¬ p i := by
  classical
  obtain ⟨hlt, hfound⟩ := Nat.find_spec h
  refine ⟨Nat.find h, hlt, hfound, fun i hi hi' => Nat.find_min h hi ?_⟩
  exact ⟨Nat.lt_trans hi hlt, hi'⟩

theorem FsImage.exists_first (h : ∃ j < img.boot.numEntry, img.entryName j = name) :
    ∃ j, img.First name j := by
  obtain ⟨j, hlt, hname, hbefore⟩ := exists_first_entry h
  exact ⟨j, hlt, hname, hbefore⟩

/-- The search finds the first entry it takes for the name. -/
theorem findEntry_some_iff (img : FsImage) (filename : Buf) {n i : Nat} :
    findEntry img filename n i = some j ↔
      (i ≤ j ∧ j < i + n) ∧ strncmp filename (img.dentry j).name 32 = 0 ∧
        ∀ m, i ≤ m → m < j → strncmp filename (img.dentry m).name 32 ≠ 0 := by
  induction n generalizing i with
  | zero =>
    refine iff_of_false nofun ?_
    rintro ⟨hrange, -⟩
    omega
  | succ n ih =>
    unfold findEntry
    by_cases hmatch : strncmp filename (img.dentry i).name 32 = 0
    · rw [if_pos hmatch, Option.some.injEq]
      constructor
      · rintro rfl
        exact ⟨by omega, hmatch, fun m hm hm' => by omega⟩
      · rintro ⟨hrange, -, hbefore⟩
        by_contra hne
        exact hbefore i (Nat.le_refl i) (by omega) hmatch
    · rw [if_neg hmatch, ih]
      constructor
      · rintro ⟨hrange, hfound, hbefore⟩
        refine ⟨by omega, hfound, fun m hm hm' => ?_⟩
        by_cases hmi : m = i
        · exact hmi ▸ hmatch
        · exact hbefore m (by omega) hm'
      · rintro ⟨hrange, hfound, hbefore⟩
        have hne : j ≠ i := fun h => hmatch (h ▸ hfound)
        exact ⟨by omega, hfound, fun m hm hm' => hbefore m (by omega) hm'⟩

/-- The search compares the filename's first 32 characters with each entry's name. -/
theorem findEntry_iff_first (h : Field.Holds 0 filename name) :
    findEntry img filename img.boot.numEntry 0 = some j ↔ img.First (name.take 32) j := by
  have hmatch : ∀ m, strncmp filename (img.dentry m).name 32 = 0 ↔
      img.entryName m = name.take 32 := by
    intro m
    rw [strncmp_eq_zero_iff, h.text_eq]
    exact eq_comm
  rw [findEntry_some_iff]
  constructor
  · rintro ⟨hrange, hfound, hbefore⟩
    refine ⟨by omega, (hmatch j).mp hfound, fun i hi => ?_⟩
    exact (not_congr (hmatch i)).mp (hbefore i (Nat.zero_le i) hi)
  · rintro ⟨hlt, hname, hbefore⟩
    exact ⟨by omega, (hmatch j).mpr hname, fun m _ hm => (not_congr (hmatch m)).mpr (hbefore m hm)⟩

/-- What the lookup takes a name for. -/
theorem knownEntry_some_iff (h : Field.Holds 0 filename name) :
    knownEntry img filename = some j ↔
      ¬ (32 < name.length ∧ newline ∉ name.take 33) ∧ img.First (name.take 32) j := by
  unfold knownEntry
  by_cases hlong : nameTooLong filename = true
  · rw [if_pos hlong]
    refine iff_of_false nofun ?_
    rintro ⟨hshort, -⟩
    exact hshort ((nameTooLong_iff h).mp hlong)
  · rw [if_neg hlong, findEntry_iff_first h]
    exact (and_iff_right ((not_congr (nameTooLong_iff h)).mp hlong)).symm

/-- A name of at most 32 characters is looked up exactly. -/
theorem knownEntry_short (h : Field.Holds 0 filename name) (short : name.length ≤ 32) :
    knownEntry img filename = some j ↔ img.First name j := by
  rw [knownEntry_some_iff h, List.take_of_length_le short]
  exact and_iff_right fun hlong => by omega

/-- So is a name without a newline, whatever its length. -/
theorem knownEntry_line (h : Field.Holds 0 filename name) (line : newline ∉ name) :
    knownEntry img filename = some j ↔ img.First name j := by
  by_cases short : name.length ≤ 32
  · exact knownEntry_short h short
  · rw [knownEntry_some_iff h]
    refine iff_of_false ?_ ?_
    · rintro ⟨hlong, -⟩
      exact hlong ⟨by omega, fun hmem => line (List.mem_of_mem_take hmem)⟩
    · intro hfirst
      have hlen := img.entryName_length_le j
      rw [hfirst.named] at hlen
      exact short hlen

end Directory

/-! ## `read_dentry_by_name` -/

/-- The answer for a name, and what the lookup leaves in `last_dentry`, are exact. -/
structure ExactLookup (img : FsImage) (filename : Buf) (name : List UInt8) (k : Kernel) : Prop where
  found : (readDentryByName img filename k).2 = 0 ↔
    name.length ≤ 32 ∧ ∃ j < img.boot.numEntry, img.entryName j = name
  first : (readDentryByName img filename k).2 = 0 →
    ∃ j, img.First name j ∧ (readDentryByName img filename k).1.fs.lastDentry = some j
  refused : (readDentryByName img filename k).2 ≠ 0 →
    (readDentryByName img filename k).2 = -1 ∧
      (readDentryByName img filename k).1.fs.lastDentry = k.fs.lastDentry
  empty : name = [] → (readDentryByName img filename k).2 = -1

section ByName

variable {img : FsImage} {filename : Buf} {name : List UInt8} {k : Kernel} {j : Nat}

theorem searchFrom_none_lastDentry {n i : Nat} {v : FsVars}
    (h : findEntry img filename n i = none) :
    (searchFrom img filename n i v).1.lastDentry = v.lastDentry := by
  induction n generalizing i v with
  | zero => rfl
  | succ n ih =>
    unfold findEntry at h
    unfold searchFrom
    dsimp only
    split at h
    next => cases h
    next hmatch =>
      rw [if_neg hmatch]
      exact ih h

/-- A lookup that fails leaves `last_dentry` alone. -/
theorem readDentryByName_lastDentry (h : knownEntry img filename = none) (k : Kernel) :
    (readDentryByName img filename k).1.fs.lastDentry = k.fs.lastDentry := by
  unfold knownEntry at h
  rw [readDentryByName_fs]
  split at h
  next hlong => rw [if_pos hlong]
  next hshort =>
    rw [if_neg hshort]
    exact searchFrom_none_lastDentry h

theorem readDentryByName_eq_zero_iff (img : FsImage) (filename : Buf) (k : Kernel) :
    (readDentryByName img filename k).2 = 0 ↔ ∃ j, knownEntry img filename = some j := by
  cases h : knownEntry img filename with
  | none =>
    rw [readDentryByName_unknown img filename h k]
    exact iff_of_false (by decide) (by rintro ⟨j, hj⟩; cases hj)
  | some j => exact iff_of_true (readDentryByName_known img filename h k).1 ⟨j, rfl⟩

/-- For the names of a directory, none empty, the lookup is exact unless it finds a name of more
than 32 characters. -/
theorem exactLookup_iff_known (h : Field.Holds 0 filename name)
    (nonempty : ∀ j < img.boot.numEntry, img.entryName j ≠ []) (k : Kernel) :
    ExactLookup img filename name k ↔
      ¬ (32 < name.length ∧ ∃ j, knownEntry img filename = some j) := by
  constructor
  · rintro exact ⟨hlong, hknown⟩
    have hfound := exact.found.mp ((readDentryByName_eq_zero_iff img filename k).mpr hknown)
    omega
  · intro hexact
    cases hknown : knownEntry img filename with
    | none =>
      have hresult := readDentryByName_unknown img filename hknown k
      refine ⟨?_, ?_, ?_, fun _ => hresult⟩
      · rw [hresult]
        refine iff_of_false (by decide) ?_
        rintro ⟨hshort, hentry⟩
        obtain ⟨j, hj⟩ := FsImage.exists_first hentry
        rw [(knownEntry_short h hshort).mpr hj] at hknown
        cases hknown
      · intro hzero
        rw [hresult] at hzero
        exact absurd hzero (by decide)
      · exact fun _ => ⟨hresult, readDentryByName_lastDentry hknown k⟩
    | some j =>
      have hshort : name.length ≤ 32 := by
        by_contra hlong
        exact hexact ⟨by omega, j, hknown⟩
      have hfirst := (knownEntry_short h hshort).mp hknown
      obtain ⟨hresult, hfs⟩ := readDentryByName_known img filename hknown k
      refine ⟨?_, ?_, ?_, ?_⟩
      · exact iff_of_true hresult ⟨hshort, j, hfirst.lt, hfirst.named⟩
      · intro _
        exact ⟨j, hfirst, by rw [hfs]⟩
      · exact fun hne => absurd hresult hne
      · intro hempty
        exact absurd (hfirst.named.trans hempty) (nonempty j hfirst.lt)

/-- With names of at least one character and no newline, the lookup is exact for every string
but a full entry's name followed by a newline. -/
theorem readDentryByName_exact_iff {img : FsImage} {filename : Buf} {name : List UInt8}
    (holds : Field.Holds 0 filename name)
    (names : ∀ j < img.boot.numEntry, img.entryName j ≠ [] ∧ newline ∉ img.entryName j)
    (k : Kernel) :
    ExactLookup img filename name k ↔
      ¬ (name[32]? = some newline ∧ ∃ j < img.boot.numEntry, img.entryName j = name.take 32) := by
  rw [exactLookup_iff_known holds (fun j hj => (names j hj).1) k]
  refine not_congr ⟨?_, ?_⟩
  · rintro ⟨hlong, j, hknown⟩
    obtain ⟨hpassed, hfirst⟩ := (knownEntry_some_iff holds).mp hknown
    have hnl : newline ∈ name.take 33 := by
      by_contra hnl
      exact hpassed ⟨hlong, hnl⟩
    -- the first 32 characters are an entry's name, and hold no newline
    have hproper := (names j hfirst.lt).2
    rw [hfirst.named] at hproper
    rw [List.take_add_one, List.mem_append, Option.mem_toList] at hnl
    exact ⟨hnl.resolve_left hproper, j, hfirst.lt, hfirst.named⟩
  · rintro ⟨hnl, hentry⟩
    obtain ⟨hlong, hchar⟩ := List.getElem?_eq_some_iff.mp hnl
    obtain ⟨j, hfirst⟩ := FsImage.exists_first hentry
    refine ⟨hlong, j, (knownEntry_some_iff holds).mpr ⟨?_, hfirst⟩⟩
    rintro ⟨-, hnone⟩
    exact hnone (List.mem_take_iff_getElem.mpr ⟨32, by omega, hchar⟩)

/-- An image with one empty file. -/
def namedImage (name : List UInt8) : FsImage where
  boot := ⟨1, 1, 1⟩
  dentry := fun _ => ⟨cstr name, 2, 0⟩
  inode := fun _ => ⟨0, fun i => i⟩
  data := fun _ _ => 0

theorem namedImage_entryName {name : List UInt8} (proper : 0 ∉ name) (short : name.length ≤ 32)
    (j : Nat) : (namedImage name).entryName j = name := by
  have hholds : Field.Holds 0 (cstr name) name := Field.holds_getD proper
  show Field.text 0 (cstr name) 32 0 = name
  rw [hholds.text_eq, List.take_of_length_le short]

/-- A name of 32 characters. -/
def fullName : List UInt8 := bytes "verylargetextwithverylongname.tx"

theorem fullName_proper : 0 ∉ fullName ∧ newline ∉ fullName ∧ fullName.length = 32 := by
  decide +kernel

theorem namedImage_fullName (j : Nat) :
    (namedImage fullName).entryName j ≠ [] ∧ newline ∉ (namedImage fullName).entryName j := by
  obtain ⟨hproper, hnl, hlen⟩ := fullName_proper
  rw [namedImage_entryName hproper (Nat.le_of_eq hlen)]
  exact ⟨List.ne_nil_of_length_pos (by omega), hnl⟩

/-- The name itself is looked up exactly. -/
theorem readDentryByName_exact_full :
    ExactLookup (namedImage fullName) (cstr fullName) fullName coldBoot :=
  (readDentryByName_exact_iff (Field.holds_getD fullName_proper.1)
    (fun j _ => namedImage_fullName j) coldBoot).mpr fun h => absurd h.1 (by decide +kernel)

/-- Followed by a newline it is still found, as a name of 33 characters. -/
theorem readDentryByName_newline :
    (∀ j < (namedImage fullName).boot.numEntry, (namedImage fullName).entryName j ≠ [] ∧
        newline ∉ (namedImage fullName).entryName j) ∧
      Field.Holds 0 (cstr (fullName ++ [newline])) (fullName ++ [newline]) ∧
      ¬ ExactLookup (namedImage fullName) (cstr (fullName ++ [newline])) (fullName ++ [newline])
        coldBoot := by
  refine ⟨fun j _ => namedImage_fullName j, Field.holds_getD (by decide +kernel), fun h => ?_⟩
  have hshort := (h.found.mp (by decide +kernel)).1
  exact absurd hshort (by decide +kernel)

end ByName

/-! ## `read_dentry_by_index` -/

section ByIndex

variable (img : FsImage) (index : Nat) (k : Kernel)

theorem readDentryByIndex_refused (h : img.boot.numEntry < index) :
    (readDentryByIndex img index k).2 = 1 := by
  unfold readDentryByIndex
  rw [if_pos h]

theorem readDentryByIndex_accepted (h : index ≤ img.boot.numEntry) :
    (readDentryByIndex img index k).2 = 0 ∧
      (readDentryByIndex img index k).1.fs.tempDentry = some index := by
  unfold readDentryByIndex
  rw [if_neg (Nat.not_lt.mpr h)]
  refine ⟨rfl, ?_⟩
  dsimp only
  rw [Kernel.putc_fs, Kernel.puts_frame _ _ Kernel.fs fun _ _ => rfl, Kernel.printfPlain_fs,
    Kernel.printfPlain_fs]

/-- One entry past the table is accepted. -/
theorem readDentryByIndex_eq_zero_iff :
    (readDentryByIndex img index k).2 = 0 ↔ index ≤ img.boot.numEntry := by
  by_cases h : index ≤ img.boot.numEntry
  · exact iff_of_true (readDentryByIndex_accepted img index k h).1 h
  · rw [readDentryByIndex_refused img index k (Nat.lt_of_not_le h)]
    exact iff_of_false (by decide) h

/-- Entry `j` is what the lookup by name selects for a name. -/
def SelectedByName (filename : Buf) (j : Nat) : Prop :=
  (readDentryByName img filename k).2 = 0 ∧
    (readDentryByName img filename k).1.fs.lastDentry = some j

/-- Entry `j` is what the lookup by index selects. -/
def SelectedByIndex (j : Nat) : Prop :=
  (readDentryByIndex img index k).2 = 0 ∧
    (readDentryByIndex img index k).1.fs.tempDentry = some j

/-- What an index selects is in the table, and is what its name selects. -/
structure IndexAgrees : Prop where
  found : (readDentryByIndex img index k).2 = 0 ↔ index < img.boot.numEntry
  named : (readDentryByIndex img index k).2 = 0 → ∃ j, SelectedByIndex img index k j ∧
    ∀ filename, Field.Holds 0 filename (img.entryName j) → SelectedByName img k filename j

variable {img index k}

theorem selectedByName_iff {filename : Buf} {j : Nat} :
    SelectedByName img k filename j ↔ knownEntry img filename = some j := by
  unfold SelectedByName
  cases h : knownEntry img filename with
  | none =>
    refine iff_of_false ?_ nofun
    rintro ⟨hzero, -⟩
    rw [readDentryByName_unknown img filename h k] at hzero
    exact absurd hzero (by decide)
  | some i =>
    obtain ⟨hzero, hfs⟩ := readDentryByName_known img filename h k
    rw [hzero, hfs]
    exact and_iff_right rfl

theorem selectedByIndex_iff {j : Nat} :
    SelectedByIndex img index k j ↔ index ≤ img.boot.numEntry ∧ index = j := by
  unfold SelectedByIndex
  rw [readDentryByIndex_eq_zero_iff]
  refine and_congr_right fun h => ?_
  rw [(readDentryByIndex_accepted img index k h).2, Option.some.injEq]

/-- Every entry a name selects is selected by one index. -/
theorem selectedByName_index {filename : Buf} {name : List UInt8} {j : Nat}
    (holds : Field.Holds 0 filename name) (h : SelectedByName img k filename j) :
    ∃! i, SelectedByIndex img i k j := by
  have hlt := ((knownEntry_some_iff holds).mp (selectedByName_iff.mp h)).2.lt
  refine ⟨j, selectedByIndex_iff.mpr ⟨Nat.le_of_lt hlt, rfl⟩, fun i hi => ?_⟩
  exact (selectedByIndex_iff.mp hi).2

/-- The two lookups describe one directory, but for the index one past the table. -/
theorem readDentryByIndex_agrees_iff (img : FsImage)
    (distinct : ∀ i < img.boot.numEntry, ∀ j < img.boot.numEntry,
      img.entryName i = img.entryName j → i = j) (index : Nat) (k : Kernel) :
    (IndexAgrees img index k ∧
        ∀ filename name, Field.Holds 0 filename name → ∀ j, SelectedByName img k filename j →
          ∃! i, SelectedByIndex img i k j) ↔
      index ≠ img.boot.numEntry := by
  constructor
  · rintro ⟨hagrees, -⟩ heq
    have hfound := hagrees.found.mp ((readDentryByIndex_eq_zero_iff img index k).mpr
      (Nat.le_of_eq heq))
    omega
  · intro hne
    refine ⟨⟨?_, fun hzero => ?_⟩, fun filename name holds j => selectedByName_index holds⟩
    · rw [readDentryByIndex_eq_zero_iff]
      omega
    · have hle := (readDentryByIndex_eq_zero_iff img index k).mp hzero
      have hlt : index < img.boot.numEntry := by omega
      refine ⟨index, selectedByIndex_iff.mpr ⟨hle, rfl⟩, fun filename holds => ?_⟩
      rw [selectedByName_iff, knownEntry_short holds (img.entryName_length_le index)]
      refine ⟨hlt, rfl, fun i hi hname => ?_⟩
      exact absurd (distinct i (by omega) index hlt hname) (by omega)

/-- The first entry of a directory of one. -/
theorem readDentryByIndex_agrees_first : IndexAgrees (namedImage fullName) 0 coldBoot :=
  ((readDentryByIndex_agrees_iff (namedImage fullName)
    (fun i hi j hj _ => (Nat.lt_one_iff.mp hi).trans (Nat.lt_one_iff.mp hj).symm) 0
    coldBoot).mpr (by decide)).1

/-- The index one past it is accepted too. -/
theorem readDentryByIndex_past_end :
    (∀ i < (namedImage fullName).boot.numEntry, ∀ j < (namedImage fullName).boot.numEntry,
        (namedImage fullName).entryName i = (namedImage fullName).entryName j → i = j) ∧
      (namedImage fullName).entryName 0 ≠ [] ∧
      ¬ IndexAgrees (namedImage fullName) 1 coldBoot := by
  refine ⟨fun i hi j hj _ => (Nat.lt_one_iff.mp hi).trans (Nat.lt_one_iff.mp hj).symm,
    (namedImage_fullName 0).1, fun h => ?_⟩
  exact absurd (h.found.mp rfl) (by decide)

end ByIndex

end Mp3Kernel
