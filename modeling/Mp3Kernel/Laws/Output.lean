import Mp3Kernel.Laws.TextPage
import Mp3Kernel.Lib.Interleave

/-!
# Output to three terminals

Processes write with `putct`, on the screen or on their terminal's back buffer; the keyboard
echoes with `putc`, on the visible terminal. Each terminal has a page and a cursor of its own,
and an output draws on one page through a window and moves that cursor: so a terminal ends as
its own bytes alone, fed to `putct` or to `putc`, would leave it.
-/

namespace Mp3Kernel

/-- One of the three terminals. -/
def IsTerm (t : Int) : Prop := t = 0 ∨ t = 1 ∨ t = 2

instance (t : Int) : Decidable (IsTerm t) := inferInstanceAs (Decidable (_ ∨ _ ∨ _))

/-- What puts a byte on a page, and what decides whose page it is. -/
inductive Output
  /-- The scheduler runs a process of a terminal. -/
  | run (term : Int)
  /-- The process that runs writes a byte. -/
  | write (c : UInt8)
  /-- The keyboard echoes one. -/
  | echo (c : UInt8)

/-- A process's terminal is one of the three. -/
def Output.Valid : Output → Prop
  | .run term => IsTerm term
  | _ => True

def outputStep (k : Kernel) : Output → Kernel
  | .run term => k.switchTerms k.curVisTerm term
  | .write c => k.putct c
  | .echo c =>
    ((k.switchTermVim k.curVisTerm k.curVisTerm).putc c).switchTermVim k.curVisTerm k.curExecuteTerm

/-- The terminal an output goes to, and the byte. -/
def outputSent (k : Kernel) : Output → Option (Int × UInt8)
  | .run _ => none
  | .write c => some (k.curExecuteTerm, c)
  | .echo c => some (k.curVisTerm, c)

/-- The physical page of a terminal's text. -/
def textPage (v t : Int) : Nat := if t = v then videoAddr else backBuffer t

/-- The cursor of a terminal. -/
def Kernel.cursor (v t : Int) (k : Kernel) : Int × Int :=
  if t = v then (k.con.screenX, k.con.screenY)
  else (k.con.screenXT (termSlot t), k.con.screenYT (termSlot t))

/-- A terminal's page and cursor, while `v` is visible. -/
def Kernel.terminal (v t : Int) (k : Kernel) : Pen :=
  ⟨onPage (textPage v t) k.mem, (k.cursor v t).1, (k.cursor v t).2⟩

/-- `v` is visible, the back buffers are mapped to themselves, `0xB8000` is mapped as
`switch_term_vim` leaves it, and every cursor is on its page. -/
structure ConsoleReady (v : Int) (k : Kernel) : Prop where
  vis : k.curVisTerm = v
  exe : IsTerm k.curExecuteTerm
  index : k.mmu.vimPtIdx = ptIndex videoAddr
  video : (k.mmu.pageTable (ptIndex videoAddr)).pageBaseAddr = termFrame v k.curExecuteTerm
  backs : ∀ t, IsTerm t →
    (k.mmu.pageTable (ptIndex (backBuffer t))).pageBaseAddr = frameOf (backBuffer t)
  cursors : ∀ t, IsTerm t → (k.terminal v t).InRange

/-! ## The pages -/

section Pages

variable {v t u : Int}

theorem backBuffer_frame (t : Int) : frameOf (backBuffer t) * 4096 = backBuffer t := by
  unfold backBuffer
  split
  · rfl
  · split <;> rfl

theorem termFrame_textPage (v t : Int) : termFrame v t * 4096 = textPage v t := by
  unfold termFrame textPage
  by_cases h : t = v
  · rw [if_pos h.symm, if_pos h]
    rfl
  · rw [if_neg (Ne.symm h), if_neg h]
    exact backBuffer_frame t

/-- Two terminals' pages do not meet. -/
theorem textPage_apart (ht : IsTerm t) (hu : IsTerm u) (h : t ≠ u) :
    textPage v t + 4096 ≤ textPage v u ∨ textPage v u + 4096 ≤ textPage v t := by
  unfold textPage
  have hback : backBuffer t + 4096 ≤ backBuffer u ∨ backBuffer u + 4096 ≤ backBuffer t := by
    rcases ht with rfl | rfl | rfl <;> rcases hu with rfl | rfl | rfl <;>
      first | exact absurd rfl h | decide
  have hscreen : ∀ w, IsTerm w → videoAddr + 4096 ≤ backBuffer w := by
    rintro _ (rfl | rfl | rfl) <;> decide
  by_cases htv : t = v
  · have huv : u ≠ v := fun huv => h (htv.trans huv.symm)
    rw [if_pos htv, if_neg huv]
    exact .inl (hscreen u hu)
  · rw [if_neg htv]
    by_cases huv : u = v
    · rw [if_pos huv]
      exact .inr (hscreen t ht)
    · rw [if_neg huv]
      exact hback

theorem termSlot_inj (ht : IsTerm t) (hu : IsTerm u) (h : t ≠ u) : termSlot t ≠ termSlot u := by
  rcases ht with rfl | rfl | rfl <;> rcases hu with rfl | rfl | rfl <;>
    first | exact absurd rfl h | decide

/-- Drawing on one terminal's page leaves the others' as they are. -/
theorem onPage_other {m m' page : Nat → UInt8} (D : Drawn (textPage v t) m m' page)
    (ht : IsTerm t) (hu : IsTerm u) (h : t ≠ u) :
    onPage (textPage v u) m' = onPage (textPage v u) m := by
  have hapart := textPage_apart (v := v) ht hu h
  exact onPage_eq_iff.mpr fun a _ _ => D.frame a (by omega)

end Pages

/-! ## Remapping -/

theorem ptIndex_backBuffer (t : Int) : ptIndex (backBuffer t) ≠ ptIndex videoAddr := by
  unfold backBuffer
  split
  · decide
  · split <;> decide

/-- `0xB8000` and the video page are as `switch_term_vim` leaves them for the visible and the
executing terminal. -/
structure Remapped (k : Kernel) : Prop where
  settled : (k.switchTermVim k.curVisTerm k.curExecuteTerm).mmu = k.mmu
  vimPt : k.mmu.vimPtIdx = ptIndex videoAddr
  cursor : k.screen.InRange

/-- The executing terminal's page is what is mapped. -/
theorem Remapped.screenBase {k : Kernel} (S : Remapped k) :
    k.screenBase = textPage k.curVisTerm k.curExecuteTerm := by
  have hsettled : k.mmu.switchTermVim (k.proc.pidVidmapFlag k.proc.currentId) k.curVisTerm
      k.curExecuteTerm = k.mmu := S.settled
  unfold Kernel.screenBase
  rw [← hsettled, Mmu.switchTermVim_pageTable, S.vimPt, Function.update_self]
  exact termFrame_textPage _ _

section Steps

variable {v t : Int} {k : Kernel}

/-- Mapping the screen for the visible terminal and another makes the console ready. -/
theorem consoleReady_switchTerms (ht : IsTerm t) (index : k.mmu.vimPtIdx = ptIndex videoAddr)
    (backs : ∀ u, IsTerm u →
      (k.mmu.pageTable (ptIndex (backBuffer u))).pageBaseAddr = frameOf (backBuffer u))
    (cursors : ∀ u, IsTerm u → (k.terminal v u).InRange) :
    ConsoleReady v (k.switchTerms v t) where
  vis := rfl
  exe := ht
  index := (Mmu.switchTermVim_vimPtIdx _ _ _ _).trans index
  video := by
    show ((k.mmu.switchTermVim _ v t).pageTable (ptIndex videoAddr)).pageBaseAddr = termFrame v t
    rw [Mmu.switchTermVim_pageTable, index, Function.update_self]
  backs := fun u hu => by
    show ((k.mmu.switchTermVim _ v t).pageTable (ptIndex (backBuffer u))).pageBaseAddr = _
    rw [Mmu.switchTermVim_pageTable, index, Function.update_of_ne (ptIndex_backBuffer u)]
    exact backs u hu
  cursors := cursors

/-- The page `putct` draws on, and the cursor it starts from. -/
theorem ConsoleReady.putctPen (C : ConsoleReady v k) :
    Window k.putctPen.2 (textPage v k.curExecuteTerm) ∧
      k.putctPen.1.onPage (textPage v k.curExecuteTerm) = k.terminal v k.curExecuteTerm := by
  have hvis := C.vis
  unfold Kernel.putctPen Kernel.terminal Kernel.cursor
  by_cases h : k.curExecuteTerm = v
  · rw [hvis, if_pos h, if_pos h]
    refine ⟨Mmu.window _ (by decide) ?_, rfl⟩
    rw [C.video]
    exact termFrame_textPage v _
  · rw [hvis, if_neg h, if_neg h]
    refine ⟨Mmu.window _ ?_ ?_, rfl⟩
    · rw [← backBuffer_frame]
      exact Nat.mul_mod_left _ _
    · rw [C.backs _ C.exe, backBuffer_frame, textPage, if_neg h]

/-- The pen `putct` leaves. -/
def Kernel.putctEnd (c : UInt8) (k : Kernel) : Pen := Pen.put k.putctPen.2 c k.putctPen.1

/-- The cursors after `putct`: the executing terminal's, and the others'. -/
theorem ConsoleReady.putct_cursor (C : ConsoleReady v k) (c : UInt8) :
    (k.putct c).cursor v k.curExecuteTerm = ((k.putctEnd c).x, (k.putctEnd c).y) ∧
      ∀ u, IsTerm u → u ≠ k.curExecuteTerm → (k.putct c).cursor v u = k.cursor v u := by
  have hvis := C.vis
  unfold Kernel.cursor Kernel.putct Kernel.putctEnd
  constructor
  · by_cases h : k.curExecuteTerm = v
    · simp only [hvis, h, if_true]
    · simp only [hvis, h, if_false, Function.update_self]
  · intro u hu hne
    have hslot := termSlot_inj hu C.exe hne
    by_cases h : k.curExecuteTerm = v
    · have huv : u ≠ v := fun huv => hne (huv.trans h.symm)
      simp only [hvis, h, if_true, huv, if_false]
      rw [h] at hslot
      rw [Function.update_of_ne hslot, Function.update_of_ne hslot]
    · simp only [hvis, h, if_false]
      rw [Function.update_of_ne hslot, Function.update_of_ne hslot]

/-- `putct` draws on the executing terminal as `putc` would, and on no other. -/
theorem ConsoleReady.putct_terminal (C : ConsoleReady v k) (c : UInt8) :
    (k.putct c).terminal v k.curExecuteTerm = Pen.put flat c (k.terminal v k.curExecuteTerm) ∧
      ∀ u, IsTerm u → u ≠ k.curExecuteTerm → (k.putct c).terminal v u = k.terminal v u := by
  obtain ⟨hwindow, hpen⟩ := C.putctPen
  have R : k.putctPen.1.InRange := by
    have hcursor := C.cursors _ C.exe
    rwa [← hpen] at hcursor
  obtain ⟨hdrawn, hx, hy⟩ := Pen.put_window hwindow c R
  obtain ⟨hself, hother⟩ := C.putct_cursor c
  have hstart : k.putctPen.1.mem = k.mem := by
    unfold Kernel.putctPen
    split <;> rfl
  rw [hpen] at hdrawn hx hy
  constructor
  · show Pen.mk (onPage _ (k.putctEnd c).mem) _ _ = _
    rw [hself, Kernel.putctEnd, hdrawn.page]
    dsimp only
    rw [hx, hy]
  · intro u hu hne
    show Pen.mk (onPage _ (k.putctEnd c).mem) _ _ = Pen.mk _ _ _
    rw [hother u hu hne, Kernel.putctEnd, onPage_other hdrawn C.exe hu hne.symm, hstart]

/-- An echo draws on the visible terminal, and on no other. -/
theorem ConsoleReady.echo_terminal (C : ConsoleReady v k) (hv : IsTerm v) (c : UInt8) :
    (outputStep k (.echo c)).terminal v v = Pen.put flat c (k.terminal v v) ∧
      ∀ u, IsTerm u → u ≠ v → (outputStep k (.echo c)).terminal v u = k.terminal v u := by
  have hvis := C.vis
  let k₁ := k.switchTermVim k.curVisTerm k.curVisTerm
  have hframe : (k₁.mmu.pageTable (ptIndex videoAddr)).pageBaseAddr * 4096 = textPage v v := by
    show ((k.mmu.switchTermVim _ _ _).pageTable (ptIndex videoAddr)).pageBaseAddr * 4096 = _
    rw [Mmu.switchTermVim_pageTable, C.index, Function.update_self, hvis]
    exact termFrame_textPage v v
  have hwindow : Window (k₁.pageAt videoAddr) (textPage v v) :=
    Mmu.window _ (by decide) hframe
  let s : Pen := ⟨k.mem, k.con.screenX, k.con.screenY⟩
  have hpen : s.onPage (textPage v v) = k.terminal v v := by
    unfold Kernel.terminal Kernel.cursor
    rw [if_pos rfl]
    rfl
  have R : s.InRange := by
    have hcursor := C.cursors v hv
    rwa [← hpen] at hcursor
  obtain ⟨hdrawn, hx, hy⟩ := Pen.put_window hwindow c R
  rw [hpen] at hdrawn hx hy
  constructor
  · show Pen.mk (onPage _ (Pen.put (k₁.pageAt videoAddr) c s).mem) _ _ = _
    rw [hdrawn.page, Kernel.cursor, if_pos rfl]
    show Pen.mk _ (Pen.put (k₁.pageAt videoAddr) c s).x (Pen.put (k₁.pageAt videoAddr) c s).y = _
    rw [hx, hy]
  · intro u hu hne
    show Pen.mk (onPage _ (Pen.put (k₁.pageAt videoAddr) c s).mem) _ _ = Pen.mk _ _ _
    rw [onPage_other hdrawn hv hu hne.symm]
    unfold Kernel.cursor
    rw [if_neg hne, if_neg hne]
    rfl

/-- One terminal's cursor has moved as `putc` moves it, the others' have not. -/
theorem ConsoleReady.cursors_after (C : ConsoleReady v k) {k' : Kernel} {c : UInt8}
    (drawn : k'.terminal v t = Pen.put flat c (k.terminal v t)) (ht : IsTerm t)
    (others : ∀ u, IsTerm u → u ≠ t → k'.terminal v u = k.terminal v u) :
    ∀ u, IsTerm u → (k'.terminal v u).InRange := by
  intro u hu
  by_cases hut : u = t
  · rw [hut, drawn]
    exact (C.cursors t ht).put flat c
  · rw [others u hu hut]
    exact C.cursors u hu

theorem ConsoleReady.putct (C : ConsoleReady v k) (c : UInt8) : ConsoleReady v (k.putct c) := by
  obtain ⟨hself, hother⟩ := C.putct_terminal c
  exact ⟨C.vis, C.exe, C.index, C.video, C.backs, C.cursors_after hself C.exe hother⟩

theorem ConsoleReady.echo (C : ConsoleReady v k) (hv : IsTerm v) (c : UInt8) :
    ConsoleReady v (outputStep k (.echo c)) := by
  obtain ⟨hself, hother⟩ := C.echo_terminal hv c
  have hvis := C.vis
  have hpages : (outputStep k (.echo c)).mmu.pageTable =
      Function.update k.mmu.pageTable (ptIndex videoAddr)
        { k.mmu.pageTable (ptIndex videoAddr) with
          pageBaseAddr := termFrame v k.curExecuteTerm } := by
    show ((k.mmu.switchTermVim _ _ _).switchTermVim _ _ _).pageTable = _
    rw [Mmu.switchTermVim_pageTable, Mmu.switchTermVim_pageTable, Mmu.switchTermVim_vimPtIdx,
      C.index, Function.update_idem, Function.update_self, hvis]
  refine ⟨hvis, C.exe, ?_, ?_, fun u hu => ?_, C.cursors_after hself hv hother⟩
  · show ((k.mmu.switchTermVim _ _ _).switchTermVim _ _ _).vimPtIdx = _
    rw [Mmu.switchTermVim_vimPtIdx, Mmu.switchTermVim_vimPtIdx]
    exact C.index
  · rw [hpages, Function.update_self]
    rfl
  · rw [hpages, Function.update_of_ne (ptIndex_backBuffer u)]
    exact C.backs u hu

/-- What each output does to one terminal: it draws the bytes sent to it, and no others. -/
theorem outputStep_acts (hv : IsTerm v) (ht : IsTerm t) :
    Interleave.Acts outputStep outputSent t (ConsoleReady v) Output.Valid (Kernel.terminal v t)
      fun s c => Pen.put flat c s where
  keeps := by
    intro k e C valid
    cases e with
    | run term =>
      rw [outputStep, C.vis]
      exact consoleReady_switchTerms valid C.index C.backs C.cursors
    | write c => exact C.putct c
    | echo c => exact C.echo hv c
  sent := by
    intro k e item C _ hsent
    cases e with
    | run term => cases hsent
    | write c =>
      obtain ⟨rfl, rfl⟩ := Prod.mk.inj (Option.some.inj hsent)
      exact (C.putct_terminal c).1
    | echo c =>
      obtain ⟨rfl, rfl⟩ := Prod.mk.inj (Option.some.inj hsent)
      obtain rfl := C.vis
      exact (C.echo_terminal hv c).1
  unsent := by
    intro k e C _ hother
    cases e with
    | run term => rfl
    | write c =>
      have hne : t ≠ k.curExecuteTerm := by
        rintro rfl
        exact hother c rfl
      exact (C.putct_terminal c).2 t ht hne
    | echo c =>
      have hne : t ≠ v := by
        rintro rfl
        exact hother c (by rw [outputSent, C.vis])
      exact (C.echo_terminal hv c).2 t ht hne

end Steps

/-! ## The whole run -/

/-- `paging_init` maps the back buffers to themselves. -/
theorem pagingInit_backs (m : Mmu) (u : Int) (hu : IsTerm u) :
    (m.pagingInit.pageTable (ptIndex (backBuffer u))).pageBaseAddr = frameOf (backBuffer u) := by
  rcases hu with rfl | rfl | rfl <;> rfl

/-- `putct` over a string. -/
def Kernel.putcts (k : Kernel) (cs : List UInt8) : Kernel := cs.foldl (fun k c => k.putct c) k

theorem ConsoleReady.putcts_terminal {v : Int} {k : Kernel} (C : ConsoleReady v k)
    (cs : List UInt8) :
    (k.putcts cs).terminal v k.curExecuteTerm =
      cs.foldl (fun s c => Pen.put flat c s) (k.terminal v k.curExecuteTerm) := by
  induction cs generalizing k with
  | nil => rfl
  | cons c cs ih =>
    have hput := (C.putct_terminal c).1
    show ((k.putct c).putcts cs).terminal v (k.putct c).curExecuteTerm = _
    rw [ih (C.putct c)]
    show cs.foldl _ ((k.putct c).terminal v k.curExecuteTerm) = _
    rw [hput, List.foldl_cons]

/-- Whatever the processes of the three terminals write and the keyboard echoes, in whatever
order, each terminal's page and cursor end as if its own process alone had run and written the
terminal's own bytes with `putct`; and as `putc` leaves any screen that showed the page and the
cursor the terminal had, given the same bytes. -/
theorem output_compositional {v : Int} (visible : IsTerm v) {k : Kernel} (ready : ConsoleReady v k)
    {es : List Output} (valid : ∀ e ∈ es, e.Valid) {t : Int} (ht : IsTerm t) :
    let sent := Interleave.own outputStep outputSent t k es
    (es.foldl outputStep k).terminal v t = ((k.switchTerms v t).putcts sent).terminal v t ∧
      ∀ r : Kernel, r.screen = k.terminal v t →
        (es.foldl outputStep k).terminal v t = (r.puts sent).screen := by
  intro sent
  obtain ⟨_, hview⟩ := (outputStep_acts visible ht).view_run es valid ready
  constructor
  · have C : ConsoleReady v (k.switchTerms v t) :=
      consoleReady_switchTerms ht ready.index ready.backs ready.cursors
    rw [hview]
    exact (C.putcts_terminal sent).symm
  · intro r same
    have R : r.screen.InRange := by
      rw [same]
      exact ready.cursors t ht
    rw [hview, Kernel.puts_screen R, same]

/-- Terminal 0 is visible; its process writes `a`, terminal 1's writes `b`, and `c` is echoed. -/
theorem output_compositional_two :
    ([.write 0x61, .run 1, .write 0x62, .echo 0x63].foldl outputStep
        (coldBoot.switchTerms 0 0)).terminal 0 1 =
      (((coldBoot.switchTerms 0 0).switchTerms 0 1).putcts [0x62]).terminal 0 1 :=
  have cursors : ∀ u, IsTerm u → (coldBoot.terminal 0 u).InRange := by
    rintro _ (rfl | rfl | rfl) <;> exact ⟨by decide, by decide, by decide, by decide⟩
  (output_compositional (.inl rfl)
    (consoleReady_switchTerms (.inl rfl) rfl (pagingInit_backs _) cursors)
    (by simp [Output.Valid, IsTerm]) (.inr (.inl rfl))).1

end Mp3Kernel
