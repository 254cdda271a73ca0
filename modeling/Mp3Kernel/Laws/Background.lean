import Mp3Kernel.Kernel.UserCalls
import Mp3Kernel.Laws.Calls
import Mp3Kernel.Laws.Isolation
import Mp3Kernel.Laws.Output
import Mp3Kernel.Laws.Screen
import Mp3Kernel.Laws.VideoPage

/-!
# Calls of a background process

With its terminal not the visible one, a process has its own back buffer mapped at `0xB8000`,
so nothing it makes the kernel draw reaches the screen. But a name that is not found is
reported through `printf`, which moves the visible terminal's cursor, and not through `putct`,
which would move the terminal's own.
-/

namespace Mp3Kernel

/-- A process of a terminal that is not the visible one runs: `0xB8000` and the video page are
as `switch_term_vim` leaves them, and the page at 128 MB as `set_page` does. -/
structure Background (k : Kernel) : Prop where
  apart : k.curExecuteTerm ≠ k.curVisTerm
  settled : (k.switchTermVim k.curVisTerm k.curExecuteTerm).mmu = k.mmu
  indices : k.mmu.VideoIndices
  flag : k.proc.pidVidmapFlag k.proc.currentId = 0 ∨ k.proc.pidVidmapFlag k.proc.currentId = 1
  running : ValidPid k.proc.currentId
  page : k.mmu.setPage k.proc.currentId = k.mmu
  cursor : k.screen.InRange

/-- The visible terminal's page and its cursor are as they were. -/
def Undisturbed (k k' : Kernel) : Prop :=
  onPage videoAddr k'.mem = onPage videoAddr k.mem ∧
    k'.con.screenX = k.con.screenX ∧ k'.con.screenY = k.con.screenY

/-- A call that looks up a name, and does not find it. -/
def UserCall.Prints (img : FsImage) (k : Kernel) : UserCall → Prop
  | .openFile (some filename) =>
    findSlot k.currentPcb.fdArray 6 2 ≠ none ∧ knownEntry img filename = none
  | .execute _ (some command) =>
    findPid k.proc.idArray maximumProcess 0 ≠ none ∧
      knownEntry img (cstr (parseCommand command).1) = none
  | _ => False

/-- A read goes through a driver that is in the repository. -/
def UserCall.Admitted (k : Kernel) : UserCall → Prop
  | .read fd _ _ => (k.currentPcb.fdArray fd).fileOpTable.readFn ≠ .terminalRead
  | _ => True

/-! ## Where a background process can write -/

/-- Not an address of the visible terminal's page. -/
def OffScreen (a : Nat) : Prop := a < videoAddr ∨ videoAddr + 4096 ≤ a

section Pages

variable {k : Kernel}

theorem backBuffer_offScreen (t : Int) {a : Nat} (h : backBuffer t ≤ a) : OffScreen a := by
  have hback : videoAddr + 4096 ≤ backBuffer t := by
    unfold backBuffer
    split
    · decide
    · split <;> decide
  exact .inr (by omega)

theorem Background.termFrame (B : Background k) :
    termFrame k.curVisTerm k.curExecuteTerm * 4096 = backBuffer k.curExecuteTerm := by
  rw [termFrame_textPage, textPage, if_neg B.apart]

theorem Background.remapped (B : Background k) : Remapped k :=
  ⟨B.settled, B.indices.vimPt, B.cursor⟩

/-- The kernel draws on the executing terminal's back buffer. -/
theorem Background.screenBase (B : Background k) :
    k.screenBase = backBuffer k.curExecuteTerm :=
  B.remapped.screenBase.trans (if_neg B.apart)

/-- Where a process has a video page at all, it is that back buffer too. -/
theorem Background.videoBase (B : Background k) (shown : k.mmu.VideoAccessible) :
    k.mmu.videoBase = backBuffer k.curExecuteTerm := by
  have hsettled : k.mmu.switchTermVim (k.proc.pidVidmapFlag k.proc.currentId) k.curVisTerm
      k.curExecuteTerm = k.mmu := B.settled
  rcases B.flag with hflag | hflag
  · rw [hflag] at hsettled
    refine absurd ?_ (B.indices.hidden k.curVisTerm k.curExecuteTerm)
    rwa [hsettled]
  · rw [hflag] at hsettled
    rw [← B.termFrame, ← hsettled]
    exact B.indices.videoBase_shown _ _

/-- The process's 4 MB page is past the kernel's. -/
theorem Background.userBase_ge (B : Background k) : 0x800000 ≤ k.mmu.userBase := by
  have hbase : ((k.mmu.pageDirectory 32).pageBaseAddr : Int) = 2 + k.proc.currentId := by
    rw [← B.page]
    exact Mmu.setPage_base B.running
  obtain ⟨lo, _⟩ := B.running
  unfold Mmu.userBase
  omega

/-- A background process's own memory is off the screen. -/
theorem Background.userAddr_offScreen (B : Background k) {va a : Nat}
    (h : k.mmu.userAddr va = some a) : OffScreen a := by
  unfold Mmu.userAddr at h
  split at h
  next =>
    obtain rfl := Option.some.inj h
    have hbase := B.userBase_ge
    unfold OffScreen videoAddr
    omega
  next =>
    split at h
    next hvideo =>
      obtain rfl := Option.some.inj h
      rw [B.videoBase hvideo.2]
      exact backBuffer_offScreen _ (Nat.le_add_right _ _)
    next => cases h

/-- What it stores through a pointer of its own. -/
theorem storeUser_some {va n : Nat} {out : Buf} {k' : Kernel}
    (h : k.storeUser va n out = some k') :
    k'.con = k.con ∧
      ∀ a, (∀ va, k.mmu.userAddr va ≠ some a) → k'.mem a = k.mem a := by
  unfold Kernel.storeUser at h
  split at h
  next =>
    obtain rfl := Option.some.inj h
    refine ⟨rfl, fun a ha => foldl_elsewhere (fun m i => ?_) _ _⟩
    unfold Kernel.storeByte
    cases hstored : k.mmu.userAddr (va + i) with
    | none => rfl
    | some a' => exact Function.update_of_ne (fun e => ha _ (e ▸ hstored)) _ _
  next => cases h

end Pages

/-! ## The messages -/

/-- A text that `putc` types along a row. -/
def RowText (text : List UInt8) : Prop := ∀ c ∈ text, c ≠ backspace ∧ ¬ endsRow c

section Lookup

variable {img : FsImage} {filename : Buf} {k : Kernel}

/-- A name that is found. -/
theorem lookup_quiet {j : Nat} (h : knownEntry img filename = some j) :
    (readDentryByName img filename k).1.mem = k.mem ∧
      (readDentryByName img filename k).1.con = k.con := by
  unfold knownEntry at h
  split at h
  next => cases h
  next hshort =>
    have hsearch := searchFrom_some img filename (v := k.fs) h
    unfold readDentryByName
    rw [if_neg hshort, hsearch]
    exact ⟨rfl, rfl⟩

/-- A name that is not found: a line is printed. -/
theorem lookup_prints (h : knownEntry img filename = none) :
    ∃ v text, RowText text ∧ text.length < 80 ∧
      (readDentryByName img filename k).1 = { k with fs := v }.puts (text ++ [newline]) := by
  unfold knownEntry at h
  unfold readDentryByName
  split at h
  next hlong =>
    rw [if_pos hlong]
    exact ⟨k.fs, bytes "file name exceeding 32 bytes ", by unfold RowText; decide +kernel,
      by decide +kernel, rfl⟩
  next hshort =>
    have hsearch := searchFrom_none img filename (v := k.fs) h
    rw [if_neg hshort]
    dsimp only
    rw [if_neg (by omega)]
    exact ⟨_, bytes "file not found", by unfold RowText; decide +kernel, by decide +kernel, rfl⟩

end Lookup

/-! ## The calls -/

/-- Nothing is drawn on the visible terminal's page, and its cursor stays. -/
def Silent (k k' : Kernel) : Prop :=
  (∀ a, ¬ OffScreen a → k'.mem a = k.mem a) ∧ k'.con = k.con

/-- Nothing is drawn on the visible terminal's page, but a line of text has moved its
cursor. -/
def Reports (k k' : Kernel) : Prop :=
  (∀ a, ¬ OffScreen a → k'.mem a = k.mem a) ∧
    ∃ text, RowText text ∧ text.length < 80 ∧
      k'.screen = (text ++ [newline]).foldl (fun s c => Pen.put flat c s) k.screen

section Calls

variable {img : FsImage} {term : TerminalDriver} {k k' : Kernel}

theorem Silent.of_eq (mem : k'.mem = k.mem) (con : k'.con = k.con) : Silent k k' :=
  ⟨fun _ _ => by rw [mem], con⟩

/-- A lookup by a background process, of a name that is not found. -/
theorem Background.lookup_reports (B : Background k) {filename : Buf}
    (h : knownEntry img filename = none) :
    Reports k (readDentryByName img filename k).1 := by
  obtain ⟨v, text, typed, short, hcall⟩ := lookup_prints (k := k) h
  have R : ({ k with fs := v } : Kernel).screen.InRange := B.cursor
  refine ⟨fun a ha => ?_, text, typed, short, ?_⟩
  · rw [hcall]
    refine Kernel.puts_offScreen R _ ?_
    have hbase : ({ k with fs := v } : Kernel).screenBase = backBuffer k.curExecuteTerm :=
      B.screenBase
    rw [hbase]
    by_contra hback
    exact ha (backBuffer_offScreen k.curExecuteTerm (by omega))
  · rw [hcall]
    exact Kernel.puts_screen R _

theorem Silent.trans {k₁ k₂ k₃ : Kernel} (h : Silent k₁ k₂) (h' : Silent k₂ k₃) : Silent k₁ k₃ :=
  ⟨fun a ha => (h'.1 a ha).trans (h.1 a ha), h'.2.trans h.2⟩

/-- The two things a call can do to the screen, and what decides between them. -/
def ScreenEffect (prints : Prop) (k k' : Kernel) : Prop :=
  (prints ∧ Reports k k') ∨ (¬ prints ∧ Silent k k')

theorem callOpen_silent {filename : Buf} {j : Nat} (h : knownEntry img filename = some j)
    (f : OpenFn) (k : Kernel) : Silent k (callOpen img f filename k).1 := by
  obtain ⟨hmem, hcon⟩ := lookup_quiet (k := k) h
  cases f with
  | dirOpen | badcallOpen => exact .of_eq rfl rfl
  | fileOpen =>
    unfold callOpen fileOpen
    dsimp only
    split <;> exact .of_eq hmem hcon
  | rtcOpen =>
    show Silent k (k.rtcVirRate 1)
    unfold Kernel.rtcVirRate
    dsimp only
    split <;> exact .of_eq rfl rfl

theorem Background.openCall (B : Background k) (filename : Option Buf) :
    ScreenEffect ((UserCall.openFile filename).Prints img k) k (openCall img filename k).1 := by
  cases filename with
  | none => exact .inr ⟨id, .of_eq rfl rfl⟩
  | some filename =>
    cases hslot : findSlot k.currentPcb.fdArray 6 2 with
    | none =>
      unfold Mp3Kernel.openCall
      simp only [hslot]
      exact .inr ⟨fun h => h.1 hslot, .of_eq rfl rfl⟩
    | some index =>
      have hslot' : findSlot k.currentPcb.fdArray 6 2 ≠ none := by simp [hslot]
      unfold Mp3Kernel.openCall
      simp only [hslot]
      cases hknown : knownEntry img filename with
      | none =>
        have hresult := readDentryByName_unknown img filename hknown k
        rw [if_pos (by omega)]
        exact .inl ⟨⟨hslot', hknown⟩, B.lookup_reports hknown⟩
      | some j =>
        have hresult := (readDentryByName_known img filename hknown k).1
        obtain ⟨hmem, hcon⟩ := lookup_quiet (k := k) hknown
        rw [if_neg (not_not.mpr hresult)]
        refine .inr ⟨fun h => ?_, ?_⟩
        · cases hknown.symm.trans h.2
        · exact (Silent.of_eq hmem hcon).trans (callOpen_silent hknown _ _)

/-- What a failing `execute` does to the screen. -/
theorem Background.execute (B : Background k) {frame : Frame} {command : Option (List UInt8)}
    {eax : Int} (h : executeHandler img frame command k = some (k', .ret eax)) :
    ScreenEffect ((UserCall.execute frame command).Prints img k) k k' := by
  cases command with
  | none =>
    obtain ⟨rfl, _⟩ := Prod.mk.inj (Option.some.inj h)
    exact .inr ⟨id, .of_eq rfl rfl⟩
  | some command =>
    unfold executeHandler at h
    dsimp only at h
    split at h
    next hfull =>
      obtain ⟨rfl, _⟩ := Prod.mk.inj (Option.some.inj h)
      exact .inr ⟨fun hprints => hprints.1 hfull, .of_eq rfl rfl⟩
    next pid hpid =>
      have hfree : findPid k.proc.idArray maximumProcess 0 ≠ none := by simp [hpid]
      have B' : Background (k.setId pid 1) :=
        ⟨B.apart, B.settled, B.indices, B.flag, B.running, B.page, B.cursor⟩
      split at h
      next => cases h
      next =>
        cases hknown : knownEntry img (cstr (parseCommand command).1) with
        | none =>
          have hresult := readDentryByName_unknown img _ hknown (k.setId pid 1)
          have hreports := B'.lookup_reports hknown
          rw [if_pos hresult] at h
          obtain ⟨rfl, _⟩ := Prod.mk.inj (Option.some.inj h)
          exact .inl ⟨⟨hfree, hknown⟩, hreports.1, hreports.2⟩
        | some j =>
          have hresult := (readDentryByName_known img _ hknown (k.setId pid 1)).1
          obtain ⟨hmem, hcon⟩ := lookup_quiet (k := k.setId pid 1) hknown
          rw [if_neg (by omega)] at h
          rcases startProgram_some h with ⟨_, _, rfl⟩ | ⟨_, _, _, hexit, _⟩
          · refine .inr ⟨fun hprints => ?_, .of_eq hmem hcon⟩
            cases hknown.symm.trans hprints.2
          · cases hexit

/-- A read through a driver of the repository changes no page and moves no cursor of its own;
its buffer is stored separately. -/
theorem readCall_parts {fd : Int}
    (admitted : (k.currentPcb.fdArray fd).fileOpTable.readFn ≠ .terminalRead) (buf : Option Buf)
    (nbytes : Int) :
    (readCall img term fd buf nbytes k).1.mem = k.mem ∧
      (readCall img term fd buf nbytes k).1.con = k.con ∧
      (readCall img term fd buf nbytes k).1.mmu = k.mmu := by
  unfold readCall
  split
  next => exact ⟨rfl, rfl, rfl⟩
  next b =>
    split
    next => exact ⟨rfl, rfl, rfl⟩
    next =>
      dsimp only
      cases hfn : (k.currentPcb.fdArray fd).fileOpTable.readFn with
      | dirRead =>
        simp only [callRead, dirRead]
        split <;> exact ⟨rfl, rfl, rfl⟩
      | fileRead => exact ⟨rfl, rfl, rfl⟩
      | badcallRead => exact ⟨rfl, rfl, rfl⟩
      | terminalRead => exact absurd hfn admitted
      | rtcRead => exact ⟨rfl, rfl, rfl⟩

/-- A store through a pointer of the process's own is silent. -/
theorem Background.storeUser (B : Background k) {k₁ : Kernel} (mem : k₁.mem = k.mem)
    (con : k₁.con = k.con) (mmu : k₁.mmu = k.mmu) {va n : Nat} {out : Buf}
    (h : k₁.storeUser va n out = some k') : Silent k k' := by
  obtain ⟨hcon, hmem⟩ := storeUser_some h
  refine ⟨fun a ha => ?_, hcon.trans con⟩
  rw [hmem a fun va hva => ?_, mem]
  rw [mmu] at hva
  exact ha (B.userAddr_offScreen hva)

/-- `vidmap` stores in the process's 4 MB page alone. -/
theorem Background.vidmap (B : Background k) {screenStart : Nat} {eax : Int}
    (h : vidmapHandler screenStart k = some (k', eax)) : Silent k k' := by
  obtain ⟨_, hcon, hmem⟩ := vidmapHandler_frame h
  have hbase := B.userBase_ge
  refine ⟨fun a ha => hmem a ?_, hcon⟩
  unfold OffScreen videoAddr at ha
  omega

/-- A read stores in the process's own memory alone. -/
theorem Background.read (B : Background k) {fd : Int} {buf : Option Nat} {nbytes eax : Int}
    (admitted : (UserCall.read fd buf nbytes).Admitted k)
    (h : userCall img term (.read fd buf nbytes) k = some (k', eax)) : Silent k k' := by
  cases buf with
  | none =>
    obtain ⟨hmem, hcon, _⟩ := @readCall_parts img term k fd admitted none nbytes
    simp only [Mp3Kernel.userCall] at h
    generalize readCall img term fd none nbytes k = r at h hmem hcon
    obtain rfl := (Prod.mk.inj (Option.some.inj h)).1
    exact .of_eq hmem hcon
  | some va =>
    obtain ⟨hmem, hcon, hmmu⟩ := @readCall_parts img term k fd admitted (some (k.userBuf va)) nbytes
    simp only [Mp3Kernel.userCall] at h
    obtain ⟨k₁, hstore, hk₁⟩ := Option.map_eq_some_iff.mp h
    obtain rfl := (Prod.mk.inj hk₁).1
    exact B.storeUser hmem hcon hmmu hstore

/-- So does `getargs`. -/
theorem Background.getargs (B : Background k) {buf : Option Nat} {nbytes eax : Int}
    (h : userCall img term (.getargs buf nbytes) k = some (k', eax)) : Silent k k' := by
  cases buf with
  | none =>
    obtain rfl := (Prod.mk.inj (Option.some.inj h)).1
    exact .of_eq rfl rfl
  | some va =>
    simp only [Mp3Kernel.userCall] at h
    split at h
    next =>
      obtain ⟨k₁, hstore, hk₁⟩ := Option.map_eq_some_iff.mp h
      obtain rfl := (Prod.mk.inj hk₁).1
      exact B.storeUser rfl rfl rfl hstore
    next =>
      obtain rfl := (Prod.mk.inj (Option.some.inj h)).1
      exact .of_eq rfl rfl

/-- What any call does to the screen. -/
theorem Background.userCall (B : Background k) {c : UserCall} (admitted : c.Admitted k) {eax : Int}
    (h : userCall img term c k = some (k', eax)) : ScreenEffect (c.Prints img k) k k' := by
  cases c with
  | openFile filename =>
    obtain rfl : (Mp3Kernel.openCall img filename k).1 = k' := congrArg Prod.fst (Option.some.inj h)
    exact B.openCall filename
  | read fd buf nbytes => exact .inr ⟨id, B.read admitted h⟩
  | close fd =>
    obtain rfl : (closeCall fd k).1 = k' := congrArg Prod.fst (Option.some.inj h)
    refine .inr ⟨id, ?_⟩
    unfold closeCall
    split <;> exact .of_eq rfl rfl
  | getargs buf nbytes => exact .inr ⟨id, B.getargs h⟩
  | vidmap screenStart => exact .inr ⟨id, B.vidmap h⟩
  | execute frame command =>
    simp only [Mp3Kernel.userCall] at h
    split at h
    next k₁ eax₁ hexec =>
      obtain rfl := (Prod.mk.inj (Option.some.inj h)).1
      exact B.execute hexec
    next => cases h

end Calls

end Mp3Kernel
