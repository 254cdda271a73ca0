import Mp3Kernel.Laws.ProcessSteps
import Mp3Kernel.Lib.Forest

/-!
# The process table over whole runs

`id_array`, `pcb_arr`, `current_id`, `current_pcb_ptr`, the TSS and the PCBs record one
thing between them: a forest of live processes and a leaf of it that runs. `Tree` is the
forest as those arrays hold it and `Table` adds the running leaf. A started process is
grafted under the running one, or as a root; one that halts is a leaf and is pruned.
-/

namespace Mp3Kernel

/-! ## The forest -/

/-- A parent id as a node: `-1` is none. -/
def parentOf (id : Int) : Option Int := if id = -1 then none else some id

@[simp] theorem parentOf_eq_none {id : Int} : parentOf id = none ↔ id = -1 := by
  unfold parentOf
  split <;> simp_all

@[simp] theorem parentOf_eq_some {id q : Int} : parentOf id = some q ↔ id = q ∧ q ≠ -1 := by
  unfold parentOf
  split <;> simp_all
  omega

theorem ValidPid.ne_neg_one {pid : Int} (h : ValidPid pid) : pid ≠ -1 := by
  obtain ⟨lo, _⟩ := h
  omega

theorem parentOf_valid {pid : Int} (h : ValidPid pid) : parentOf pid = some pid :=
  parentOf_eq_some.mpr ⟨rfl, h.ne_neg_one⟩

namespace Proc

/-- The parent a process's PCB names. -/
def parent (p : Proc) (pid : Int) : Option Int := parentOf (p.pcb pid).parentProcessId

/-- The PCB pointer that goes with a parent. -/
def linkTo (p : Proc) : Option Int → Int
  | none => 0
  | some q => p.pcbArr q

/-- The live processes and their parents form a forest, and the arrays and PCBs agree on
it. A process has at most one live child: it starts one and is not scheduled until that
one has halted. -/
structure Tree (p : Proc) : Prop where
  bit : ∀ pid, ValidPid pid → p.idArray pid = 0 ∨ p.idArray pid = 1
  arr : ∀ pid, ValidPid pid → p.pcbArr pid = if p.Live pid then pcbAddr pid else 0
  link : ∀ pid, p.Live pid → (p.pcb pid).parentPtr = p.linkTo (p.parent pid)
  rooted : ∀ pid, p.Live pid → Rooted p.Live p.parent pid
  single : ∀ a b q, p.Live a → p.Live b → p.parent a = some q → p.parent b = some q → a = b

/-- The forest and its running leaf. -/
structure Table (p : Proc) : Prop extends Tree p where
  current : p.Live p.currentId
  ptr : p.currentPcbPtr = p.pcbArr p.currentId
  esp0 : p.tssEsp0 = kernelStack p.currentId
  leaf : ∀ a, p.Live a → p.parent a ≠ some p.currentId

variable {p p' : Proc} {c : Int}

/-- The live processes as a forest. -/
def Tree.forest (T : Tree p) : Forest Int := ⟨p.Live, p.parent, T.rooted⟩

theorem Tree.arr_live (T : Tree p) {pid : Int} (h : p.Live pid) : p.pcbArr pid = pcbAddr pid := by
  rw [T.arr pid h.1, if_pos h]

theorem Tree.arr_ne_zero (T : Tree p) {pid : Int} (h : p.Live pid) : p.pcbArr pid ≠ 0 := by
  rw [T.arr_live h]
  exact pcbAddr_ne_zero h.1

theorem Tree.live_parent (T : Tree p) {a q : Int} (ha : p.Live a) (h : p.parent a = some q) :
    p.Live q :=
  T.forest.live_parent ha h

theorem Table.ptr_eq (T : Table p) : p.currentPcbPtr = pcbAddr p.currentId :=
  T.ptr.trans (T.arr_live T.current)

/-- The PCB the kernel works on is the current process's own. -/
theorem Table.currentPcb_eq (T : Table p) : p.currentPcb = p.pcb p.currentId :=
  congrArg p.pcbAt T.ptr_eq

/-- Two tables in which a process has the same links. -/
def SameLinks (p p' : Proc) (pid : Int) : Prop :=
  (p'.pcb pid).parentProcessId = (p.pcb pid).parentProcessId ∧
    (p'.pcb pid).parentPtr = (p.pcb pid).parentPtr

theorem SameLinks.parent {pid : Int} (h : SameLinks p p' pid) : p'.parent pid = p.parent pid :=
  congrArg parentOf h.1

/-- The live processes once a slot has been taken. -/
theorem live_taken (valid : ValidPid c) (ids : p'.idArray = Function.update p.idArray c 1)
    (a : Int) : p'.Live a ↔ a = c ∨ p.Live a := by
  by_cases hac : a = c
  · simp [Live, ids, hac, valid]
  · simp [Live, ids, hac]

/-- The live processes once a slot has been given up. -/
theorem live_given (ids : p'.idArray = Function.update p.idArray c 0) (a : Int) :
    p'.Live a ↔ p.Live a ∧ a ≠ c := by
  by_cases hac : a = c
  · simp [Live, ids, hac]
  · simp [Live, ids, hac]

/-- The forest after a free slot is taken, as a root or under a process without a live
child: a forest, in which the new process is a leaf. -/
theorem Tree.graft (T : Tree p) (valid : ValidPid c) (free : p.idArray c = 0)
    (ids : p'.idArray = Function.update p.idArray c 1)
    (arr : p'.pcbArr = Function.update p.pcbArr c (pcbAddr c))
    (old : ∀ a, p.Live a → SameLinks p p' a)
    (new : (p'.pcb c).parentPtr = p.linkTo (p'.parent c))
    (under : ∀ q, p'.parent c = some q → p.Live q ∧ ∀ a, p.Live a → p.parent a ≠ some q) :
    Tree p' ∧ p'.Live c ∧ ∀ a, p'.Live a → p'.parent a ≠ some c := by
  have hnot : ¬ p.Live c := fun h => by
    have := h.2
    omega
  have hne : ∀ a, p.Live a → a ≠ c := fun a ha e => hnot (e ▸ ha)
  have hlive := live_taken valid ids
  have hparent : ∀ a, p.Live a → p'.parent a = p.parent a := fun a ha => (old a ha).parent
  have hlink : ∀ q, p.Live q → p'.pcbArr q = p.pcbArr q := fun q hq => by
    simp [arr, hne q hq]
  have hlinkTo : ∀ up, (∀ q, up = some q → p.Live q) → p'.linkTo up = p.linkTo up := by
    intro up hup
    cases up with
    | none => rfl
    | some q => exact hlink q (hup q rfl)
  have hup : ∀ a, p'.Live a → ∀ q, p'.parent a = some q → p.Live q := by
    intro a ha q hq
    rcases (hlive a).mp ha with rfl | hold
    · exact (under q hq).1
    · exact T.live_parent hold ((hparent a hold).symm.trans hq)
  have hforest : ∀ a, p'.Live a → Rooted p'.Live p'.parent a :=
    (T.forest.graft c (fun x hx => ⟨(hlive x).mpr (.inr hx), hparent x hx⟩)
      (fun x hx => (hlive x).mp hx) ((hlive c).mpr (.inl rfl))
      (fun b hb => (under b hb).1)).rooted
  refine ⟨⟨?_, ?_, ?_, hforest, ?_⟩, (hlive c).mpr (.inl rfl), ?_⟩
  · intro pid hpid
    by_cases h : pid = c
    · simp [ids, h]
    · simpa [ids, h] using T.bit pid hpid
  · intro pid hpid
    by_cases h : pid = c
    · rw [if_pos ((hlive pid).mpr (.inl h)), arr, h, Function.update_self]
    · have hiff : p'.Live pid ↔ p.Live pid := by simp [hlive, h]
      simp only [arr, Function.update_of_ne h, T.arr pid hpid, hiff]
  · intro pid hpid
    rw [hlinkTo _ (hup pid hpid)]
    rcases (hlive pid).mp hpid with rfl | hold
    · exact new
    · rw [(old pid hold).2, hparent pid hold, T.link pid hold]
  · intro a b q ha hb hpa hpb
    rcases (hlive a).mp ha with rfl | hola <;> rcases (hlive b).mp hb with rfl | holb
    · rfl
    · exact absurd ((hparent b holb).symm.trans hpb) ((under q hpa).2 b holb)
    · exact absurd ((hparent a hola).symm.trans hpa) ((under q hpb).2 a hola)
    · exact T.single a b q hola holb ((hparent a hola).symm.trans hpa)
        ((hparent b holb).symm.trans hpb)
  · intro a ha h
    exact hnot (hup a ha c h)

/-- The forest after a leaf's slot is given up. -/
theorem Tree.prune (T : Tree p) (leaf : ∀ a, p.Live a → p.parent a ≠ some c)
    (ids : p'.idArray = Function.update p.idArray c 0)
    (arr : p'.pcbArr = Function.update p.pcbArr c 0)
    (old : ∀ a, p.Live a → a ≠ c → SameLinks p p' a) : Tree p' := by
  have hlive := live_given ids
  have hparent : ∀ a, p.Live a → a ≠ c → p'.parent a = p.parent a := fun a ha hac =>
    (old a ha hac).parent
  have hforest : ∀ a, p'.Live a → Rooted p'.Live p'.parent a :=
    (T.forest.prune c leaf
      (fun x hx hxc => ⟨(hlive x).mpr ⟨hx, hxc⟩, hparent x hx hxc⟩)
      (fun x hx => (hlive x).mp hx)).rooted
  refine ⟨?_, ?_, ?_, hforest, ?_⟩
  · intro pid hpid
    by_cases h : pid = c
    · simp [ids, h]
    · simpa [ids, h] using T.bit pid hpid
  · intro pid hpid
    by_cases h : pid = c
    · have hdead : ¬ p'.Live pid := fun hl => ((hlive pid).mp hl).2 h
      rw [if_neg hdead, arr, h, Function.update_self]
    · have hiff : p'.Live pid ↔ p.Live pid := by simp [hlive, h]
      simp only [arr, Function.update_of_ne h, T.arr pid hpid, hiff]
  · intro pid hpid
    obtain ⟨hold, hne⟩ := (hlive pid).mp hpid
    rw [(old pid hold hne).2, hparent pid hold hne, T.link pid hold]
    cases hp : p.parent pid with
    | none => rfl
    | some q =>
      have hqc : q ≠ c := fun e => leaf pid hold (e ▸ hp)
      simp [linkTo, arr, hqc]
  · intro a b q ha hb hpa hpb
    obtain ⟨hola, hac⟩ := (hlive a).mp ha
    obtain ⟨holb, hbc⟩ := (hlive b).mp hb
    exact T.single a b q hola holb ((hparent a hola hac).symm.trans hpa)
      ((hparent b holb hbc).symm.trans hpb)

end Proc

/-! ## One process started -/

/-- Equal apart from the two registers `execute` saves in the caller's PCB. -/
def Pcb.SameButRegs (a b : Pcb) : Prop :=
  b = { a with ebpWhenExecute := b.ebpWhenExecute, espWhenExecute := b.espWhenExecute }

/-- `Proc.enter` writes the new PCB and, in the caller's, two registers. -/
theorem Proc.enter_pcbAt (frame : Frame) (pid : Int) (child : Pcb) (p : Proc) (a : Int) :
    (Function.update p.pcbAt (pcbAddr pid) child a).SameButRegs
      ((p.enter frame pid child).pcbAt a) := by
  unfold Proc.enter
  dsimp only
  split
  · by_cases h : a = child.parentPtr
    · subst h
      simp [Pcb.SameButRegs]
    · simp [Pcb.SameButRegs, Function.update_of_ne h]
  · simp [Pcb.SameButRegs]

/-- Away from the new PCB and the caller's nothing is written. -/
theorem Proc.enter_pcbAt_of_ne (frame : Frame) {pid : Int} {child : Pcb} (p : Proc) {a : Int}
    (hnew : a ≠ pcbAddr pid) (hcaller : a ≠ child.parentPtr) :
    (p.enter frame pid child).pcbAt a = p.pcbAt a := by
  unfold Proc.enter
  dsimp only
  split
  · simp [Function.update_of_ne hnew, Function.update_of_ne hcaller]
  · simp [Function.update_of_ne hnew]

section Enter

variable (frame : Frame) (pid : Int) (child : Pcb) (p : Proc)

@[simp] theorem Proc.enter_idArray : (p.enter frame pid child).idArray = p.idArray := by
  unfold Proc.enter
  dsimp only
  split <;> rfl

@[simp] theorem Proc.enter_pcbArr :
    (p.enter frame pid child).pcbArr = Function.update p.pcbArr pid (pcbAddr pid) := by
  unfold Proc.enter
  dsimp only
  split <;> rfl

@[simp] theorem Proc.enter_currentId : (p.enter frame pid child).currentId = pid := by
  unfold Proc.enter
  dsimp only
  split <;> rfl

@[simp] theorem Proc.enter_currentPcbPtr :
    (p.enter frame pid child).currentPcbPtr = pcbAddr pid := by
  unfold Proc.enter
  dsimp only
  split <;> rfl

@[simp] theorem Proc.enter_tssEsp0 : (p.enter frame pid child).tssEsp0 = kernelStack pid := by
  unfold Proc.enter
  dsimp only
  split <;> rfl

@[simp] theorem Proc.enter_pidVidmapFlag :
    (p.enter frame pid child).pidVidmapFlag = p.pidVidmapFlag := by
  unfold Proc.enter
  dsimp only
  split <;> rfl

end Enter

section Started

variable {frame : Frame} {parentPtr parentId : Int} {k k' : Kernel} {pid : Int}
  (h : Started frame parentPtr parentId k k' pid)

include h

/-- The pid a start takes was not live. -/
theorem Started.not_live : ¬ k.proc.Live pid := by
  rintro ⟨_, hbit⟩
  have := h.free
  omega

theorem Started.idArray : k'.proc.idArray = Function.update k.proc.idArray pid 1 := by
  obtain ⟨_, hproc⟩ := h.proc
  rw [hproc, Proc.enter_idArray]
  rfl

theorem Started.live (a : Int) : k'.proc.Live a ↔ a = pid ∨ k.proc.Live a :=
  Proc.live_taken h.valid h.idArray a

theorem Started.pcbArr : k'.proc.pcbArr = Function.update k.proc.pcbArr pid (pcbAddr pid) := by
  obtain ⟨_, hproc⟩ := h.proc
  rw [hproc, Proc.enter_pcbArr]
  rfl

theorem Started.currentId : k'.proc.currentId = pid := by
  obtain ⟨_, hproc⟩ := h.proc
  rw [hproc, Proc.enter_currentId]

theorem Started.currentPcbPtr : k'.proc.currentPcbPtr = pcbAddr pid := by
  obtain ⟨_, hproc⟩ := h.proc
  rw [hproc, Proc.enter_currentPcbPtr]

theorem Started.tssEsp0 : k'.proc.tssEsp0 = kernelStack pid := by
  obtain ⟨_, hproc⟩ := h.proc
  rw [hproc, Proc.enter_tssEsp0]

theorem Started.pidVidmapFlag : k'.proc.pidVidmapFlag = k.proc.pidVidmapFlag := by
  obtain ⟨_, hproc⟩ := h.proc
  rw [hproc, Proc.enter_pidVidmapFlag]
  rfl

/-- The new process's own PCB. -/
theorem Started.pcb_new : ∃ executeArg,
    (newPcb frame parentPtr parentId executeArg).SameButRegs (k'.proc.pcb pid) := by
  obtain ⟨executeArg, hproc⟩ := h.proc
  have hat := Proc.enter_pcbAt frame pid (newPcb frame parentPtr parentId executeArg)
    (k.proc.setId pid 1) (pcbAddr pid)
  rw [Function.update_self] at hat
  exact ⟨executeArg, by rwa [Proc.pcb, hproc]⟩

/-- Any other process's PCB, up to the registers saved in the caller's. -/
theorem Started.pcb_old {a : Int} (ha : a ≠ pid) :
    (k.proc.pcb a).SameButRegs (k'.proc.pcb a) := by
  obtain ⟨executeArg, hproc⟩ := h.proc
  have hat := Proc.enter_pcbAt frame pid (newPcb frame parentPtr parentId executeArg)
    (k.proc.setId pid 1) (pcbAddr a)
  rw [Function.update_of_ne (fun e => ha (pcbAddr_inj.mp e))] at hat
  rwa [Proc.pcb, hproc]

/-- The PCB of a process that is not the caller. -/
theorem Started.pcb_other {a : Int} (ha : a ≠ pid) (hcaller : pcbAddr a ≠ parentPtr) :
    k'.proc.pcb a = k.proc.pcb a := by
  obtain ⟨executeArg, hproc⟩ := h.proc
  rw [Proc.pcb, hproc]
  exact Proc.enter_pcbAt_of_ne frame _ (fun e => ha (pcbAddr_inj.mp e)) hcaller

end Started

theorem Pcb.SameButRegs.parentProcessId {a b : Pcb} (h : a.SameButRegs b) :
    b.parentProcessId = a.parentProcessId := by
  rw [h]

theorem Pcb.SameButRegs.fdArray {a b : Pcb} (h : a.SameButRegs b) : b.fdArray = a.fdArray := by
  rw [h]

theorem Pcb.SameButRegs.parentPtr {a b : Pcb} (h : a.SameButRegs b) :
    b.parentPtr = a.parentPtr := by
  rw [h]

theorem Pcb.SameButRegs.vidmapFlag {a b : Pcb} (h : a.SameButRegs b) :
    b.vidmapFlag = a.vidmapFlag := by
  rw [h]

namespace Proc

/-- The rule for a start: from a forest, with the new process a root or under a live process
without a live child, to a table in which it runs. -/
theorem Tree.started {frame : Frame} {parentPtr parentId : Int} {k k' : Kernel} {pid : Int}
    (T : Tree k.proc) (h : Started frame parentPtr parentId k k' pid)
    (link : parentPtr = k.proc.linkTo (parentOf parentId))
    (under : ∀ q, parentOf parentId = some q →
      k.proc.Live q ∧ ∀ a, k.proc.Live a → k.proc.parent a ≠ some q) :
    Table k'.proc := by
  obtain ⟨_, hnew⟩ := h.pcb_new
  have hparent : k'.proc.parent pid = parentOf parentId := congrArg parentOf hnew.parentProcessId
  have hold : ∀ a, k.proc.Live a → SameLinks k.proc k'.proc a := by
    intro a ha
    have hne : a ≠ pid := fun e => h.not_live (e ▸ ha)
    exact ⟨(h.pcb_old hne).parentProcessId, (h.pcb_old hne).parentPtr⟩
  obtain ⟨htree, hlive, hleaf⟩ := T.graft h.valid h.free h.idArray h.pcbArr hold
    (by rw [hnew.parentPtr, hparent]; exact link) (by rw [hparent]; exact under)
  refine ⟨htree, ?_, ?_, ?_, ?_⟩
  · rwa [h.currentId]
  · rw [h.currentPcbPtr, h.currentId, htree.arr_live hlive]
  · rw [h.tssEsp0, h.currentId]
  · rwa [h.currentId]

/-- A base shell's slot given up. -/
theorem Table.released {k : Kernel} (T : Table k.proc) : Tree k.released.proc :=
  T.toTree.prune T.leaf rfl rfl fun _ _ _ => ⟨rfl, rfl⟩

end Proc

/-! ## One process halted -/

theorem Kernel.released_live (k : Kernel) (a : Int) :
    k.released.proc.Live a ↔ k.proc.Live a ∧ a ≠ k.proc.currentId :=
  Proc.live_given (p := k.proc) rfl a

theorem Returned.live {k k' : Kernel} (h : Returned k k') (a : Int) :
    k'.proc.Live a ↔ k.proc.Live a ∧ a ≠ k.proc.currentId :=
  Proc.live_given h.handed.ids a

/-- What a change to one PCB leaves alone there, it leaves alone in every PCB. -/
theorem Kernel.modifyPcb_keeps {β : Type} (get : Pcb → β) (k : Kernel) (addr : Int)
    {f : Pcb → Pcb} (hf : ∀ pcb, get (f pcb) = get pcb) (a : Int) :
    get ((k.modifyPcb addr f).proc.pcbAt a) = get (k.proc.pcbAt a) := by
  by_cases h : a = addr
  · simpa [Kernel.modifyPcb, h] using hf (k.proc.pcbAt addr)
  · simp [Kernel.modifyPcb, Function.update_of_ne h]

/-- What neither closing slots nor `retire` changes, a halt leaves alone in every PCB. -/
theorem HandedOver.keeps {β : Type} (get : Pcb → β) {pid currPcb : Int} {k k' : Kernel}
    (h : HandedOver pid currPcb k k') (retire : ∀ pcb, get (Pcb.retire pcb) = get pcb)
    (close : ∀ pcb, get (Pcb.clearSlots userSlot pcb) = get pcb) (a : Int) :
    get (k'.proc.pcb a) = get (k.proc.pcb a) := by
  unfold Proc.pcb
  rw [h.pcbs]
  exact ((k.modifyPcb currPcb Pcb.retire).modifyPcb_keeps get _ close (pcbAddr a)).trans
    (k.modifyPcb_keeps get currPcb retire (pcbAddr a))

theorem HandedOver.links {pid currPcb : Int} {k k' : Kernel} (h : HandedOver pid currPcb k k')
    (a : Int) : Proc.SameLinks k.proc k'.proc a :=
  ⟨h.keeps Pcb.parentProcessId (fun _ => rfl) (fun _ => rfl) a,
    h.keeps Pcb.parentPtr (fun _ => rfl) (fun _ => rfl) a⟩

/-- A process's PCB, after another one's halt, has the flag it had. -/
theorem HandedOver.vidmapFlag {pid currPcb : Int} {k k' : Kernel}
    (h : HandedOver pid currPcb k k') {a : Int} (ha : pcbAddr a ≠ currPcb) :
    (k'.proc.pcb a).vidmapFlag = (k.proc.pcb a).vidmapFlag := by
  unfold Proc.pcb
  rw [h.pcbs]
  by_cases hptr : pcbAddr a = k.proc.currentPcbPtr
  · simp [Kernel.modifyPcb, ← hptr, Pcb.clearSlots, Function.update_of_ne ha]
  · simp [Kernel.modifyPcb, Function.update_of_ne hptr, Function.update_of_ne ha]

section Mapped

variable {k k' : Kernel} (h : Mapped k k')

include h

/-- What setting a `vidmap` flag leaves alone. -/
theorem Mapped.keeps {β : Type} (get : Pcb → β)
    (hf : ∀ pcb, get { pcb with vidmapFlag := 1 } = get pcb) (addr : Int) :
    get (k'.proc.pcbAt addr) = get (k.proc.pcbAt addr) := by
  rw [h.proc]
  exact k.modifyPcb_keeps get k.proc.currentPcbPtr hf addr

theorem Mapped.links (a : Int) : Proc.SameLinks k.proc k'.proc a :=
  ⟨h.keeps Pcb.parentProcessId (fun _ => rfl) _, h.keeps Pcb.parentPtr (fun _ => rfl) _⟩

theorem Mapped.idArray : k'.proc.idArray = k.proc.idArray := by rw [h.proc]; rfl

theorem Mapped.pcbArr : k'.proc.pcbArr = k.proc.pcbArr := by rw [h.proc]; rfl

theorem Mapped.currentId : k'.proc.currentId = k.proc.currentId := by rw [h.proc]; rfl

theorem Mapped.currentPcbPtr : k'.proc.currentPcbPtr = k.proc.currentPcbPtr := by rw [h.proc]; rfl

theorem Mapped.tssEsp0 : k'.proc.tssEsp0 = k.proc.tssEsp0 := by rw [h.proc]; rfl

end Mapped

namespace Proc

variable {k k' : Kernel}

/-- The process a halt hands over to. -/
theorem Table.parent_current (T : Table k.proc) (h : k.currentPcb.parentProcessId ≠ -1) :
    k.proc.parent k.proc.currentId = some k.currentPcb.parentProcessId := by
  rw [Kernel.currentPcb, T.currentPcb_eq] at h ⊢
  exact parentOf_eq_some.mpr ⟨rfl, h⟩

/-- The rule for a halt that returns to the parent: the leaf goes and its parent runs. -/
theorem Table.returned (T : Table k.proc) (h : Returned k k') : Table k'.proc := by
  have hup := T.parent_current h.child
  have hparent := T.live_parent T.current hup
  have hne : k.currentPcb.parentProcessId ≠ k.proc.currentId := fun e =>
    T.leaf _ T.current (e ▸ hup)
  have htree : Tree k'.proc := T.toTree.prune T.leaf h.handed.ids h.handed.arr
    fun a _ _ => h.handed.links a
  have hcur : k'.proc.currentId = k.currentPcb.parentProcessId := h.handed.current
  have hlive : k'.proc.Live k.currentPcb.parentProcessId := (h.live _).mpr ⟨hparent, hne⟩
  refine ⟨htree, ?_, ?_, ?_, ?_⟩
  · rwa [hcur]
  · rw [h.handed.ptr, hcur, htree.arr_live hlive]
    exact T.arr_live hparent
  · rw [hcur]
    exact h.handed.esp0
  · intro a ha
    obtain ⟨hold, hac⟩ := (h.live a).mp ha
    rw [(h.handed.links a).parent, hcur]
    intro hpa
    exact hac (T.single a k.proc.currentId _ hold T.current hpa hup)

/-! ## Every step and every run -/

/-- A forest is read off the two arrays and the links alone. -/
theorem Tree.congr {p p' : Proc} (T : Tree p) (ids : p'.idArray = p.idArray)
    (arr : p'.pcbArr = p.pcbArr) (old : ∀ a, SameLinks p p' a) : Tree p' := by
  have hlive : p'.Live = p.Live := by
    funext a
    simp [Live, ids]
  have hparent : p'.parent = p.parent := funext fun a => (old a).parent
  refine ⟨?_, ?_, ?_, ?_, ?_⟩
  · rw [ids]
    exact T.bit
  · simpa only [arr, hlive] using T.arr
  · intro pid hpid
    rw [hlive] at hpid
    rw [(old pid).2, hparent, T.link pid hpid]
    cases p.parent pid with
    | none => rfl
    | some q => simp [linkTo, arr]
  · simpa only [hlive, hparent] using T.rooted
  · simpa only [hlive, hparent] using T.single

end Proc

/-- The scheduler makes current only a process without a live child. -/
def schedulesLeaf (k : Kernel) : ProcEvent → Prop
  | .schedule pid _ _ => ∀ a, k.proc.Live a → k.proc.parent a ≠ some pid
  | _ => True

namespace Proc

/-- No base shell has the parent pointer that the tail of `halt` would read. -/
theorem Table.not_stray {k : Kernel} (T : Table k.proc) : ¬ Stray k := by
  rintro ⟨_, hbase, hlink⟩
  rw [Kernel.currentPcb, T.currentPcb_eq] at hbase hlink
  have hroot : k.proc.parent k.proc.currentId = none := parentOf_eq_none.mpr hbase
  rw [T.link _ T.current, hroot] at hlink
  exact hlink rfl

/-- What one process event preserves. -/
theorem Table.step {img : FsImage} {e : ProcEvent} {k k' : Kernel} (T : Table k.proc)
    (ok : schedulesLeaf k e) (h : procStep img e k = some k') : Table k'.proc := by
  cases procStep_some h with
  | noShell _ hsame | noChild _ hsame => rwa [hsame.proc]
  | shell _ hstarted => exact T.toTree.started hstarted rfl (by simp [parentOf])
  | child _ hstarted =>
    have hcur := parentOf_valid T.current.1
    refine T.toTree.started hstarted ?_ ?_
    · rw [hcur, callerPtr, if_pos T.current.1.ne_neg_one]
      rfl
    · intro q hq
      obtain rfl := Option.some.inj (hcur.symm.trans hq)
      exact ⟨T.current, T.leaf⟩
  | restarted hnew =>
    obtain ⟨_, hstarted⟩ := hnew.started
    exact T.released.started hstarted rfl (by simp [parentOf])
  | stray hstray => exact absurd hstray T.not_stray
  | returned hback => exact T.returned hback
  | notMapped _ hsame => rwa [hsame]
  | mapped _ hmapped =>
    have hlinks : ∀ a, SameLinks k.proc k'.proc a := hmapped.links
    refine ⟨T.toTree.congr hmapped.idArray hmapped.pcbArr hlinks, ?_, ?_, ?_, ?_⟩
    · simpa only [Live, hmapped.idArray, hmapped.currentId] using T.current
    · rw [hmapped.currentPcbPtr, hmapped.pcbArr, hmapped.currentId, T.ptr]
    · rw [hmapped.tssEsp0, hmapped.currentId, T.esp0]
    · intro a ha
      rw [(hlinks a).parent, hmapped.currentId]
      exact T.leaf a (by simpa only [Live, hmapped.idArray] using ha)
  | unmapped hsame | remapped hsame | switched hsame => rw [hsame]; exact T
  | scheduled hlive hsame =>
    rw [hsame]
    exact ⟨T.toTree.congr rfl rfl fun _ => ⟨rfl, rfl⟩, hlive, rfl, rfl, ok⟩

end Proc

/-- Nothing is live before the first shell. -/
theorem Booted.tree {k : Kernel} (boot : Booted k) : Proc.Tree k.proc := by
  have hdead : ∀ pid, ¬ k.proc.Live pid := fun pid h => by
    have := boot.ids pid h.1
    have := h.2
    omega
  refine ⟨fun pid h => .inl (boot.ids pid h), ?_, ?_, ?_, ?_⟩
  · intro pid h
    rw [if_neg (hdead pid), boot.pcbs pid h]
  · exact fun pid h => absurd h (hdead pid)
  · exact fun pid h => absurd h (hdead pid)
  · exact fun a b q ha => absurd ha (hdead a)

/-- The first shell, started from a machine just booted. -/
theorem Booted.table {img : FsImage} {frame : Frame} {k k' : Kernel} {eip esp : Nat}
    (boot : Booted k) (first : initShell img frame k = some (k', .iret eip esp)) :
    Proc.Table k'.proc := by
  rcases initShell_some first with ⟨_, hexit, _⟩ | ⟨_, pid, _, _, hstarted⟩
  · cases hexit
  · exact boot.tree.started hstarted rfl (by simp [parentOf])

/-- The invariant over whole runs. -/
theorem table_of_run {img : FsImage} {frame : Frame} {k₀ k₁ k : Kernel} {eip esp : Nat}
    (boot : Booted k₀) (first : initShell img frame k₀ = some (k₁, .iret eip esp))
    (run : Runs.Reach (procStep img) schedulesLeaf k₁ k) : Proc.Table k.proc :=
  run.invariant (fun k => Proc.Table k.proc) (boot.table first) fun _ _ _ T ok h => T.step ok h

/-! ## The table, and the two calls that change it -/

/-- A successful `execute` from a table. -/
theorem Proc.Table.executed {img : FsImage} {frame : Frame} {command : Option (List UInt8)}
    {k k' : Kernel} {eip esp : Nat} (T : Proc.Table k.proc)
    (h : executeHandler img frame command k = some (k', .iret eip esp)) :
    ValidPid k'.proc.currentId ∧ k.proc.idArray k'.proc.currentId = 0 ∧
      ∀ a, k.proc.Live a →
        (k.proc.pcb a).SameButRegs (k'.proc.pcb a) ∧
          (a ≠ k.proc.currentId → k'.proc.pcb a = k.proc.pcb a) := by
  rcases executeHandler_some h with ⟨_, hexit, _⟩ | ⟨_, pid, _, _, hstarted⟩
  · cases hexit
  rw [hstarted.currentId]
  refine ⟨hstarted.valid, hstarted.free, fun a ha => ?_⟩
  have hne : a ≠ pid := fun e => hstarted.not_live (e ▸ ha)
  refine ⟨hstarted.pcb_old hne, fun hcaller => hstarted.pcb_other hne ?_⟩
  rw [callerPtr, if_pos T.current.1.ne_neg_one, T.arr_live T.current]
  exact fun e => hcaller (pcbAddr_inj.mp e)

/-- A halt of a process with a parent returns to the parent. -/
theorem Proc.Table.halt_returns (img : FsImage) (frame : Frame) (status : UInt8) {k : Kernel}
    (T : Proc.Table k.proc) (h : (k.proc.pcb k.proc.currentId).parentProcessId ≠ -1) :
    ∃ k' esp ebp eax, haltHandler img frame status k = some (k', .leave esp ebp eax) ∧
      Returned k k' := by
  have hpcb : k.currentPcb = k.proc.pcb k.proc.currentId := T.currentPcb_eq
  rw [← hpcb] at h
  have hup := T.parent_current h
  have hparent := T.arr_ne_zero (T.live_parent T.current hup)
  have hlink : k.currentPcb.parentPtr ≠ 0 := by
    rw [hpcb, T.link _ T.current, hup]
    exact hparent
  have hptr : k.proc.currentPcbPtr ≠ 0 := T.ptr ▸ T.arr_ne_zero T.current
  obtain ⟨k', esp, ebp, eax, hcall⟩ := haltHandler_child img frame status hptr h hparent hlink
  refine ⟨k', esp, ebp, eax, hcall, ?_⟩
  rcases haltHandler_some hcall with ⟨_, _, hexit, _⟩ | hstray | ⟨_, _, _, _, hback⟩
  · cases hexit
  · exact absurd hstray.base h
  · exact hback

/-- The process and PCB that a halt makes current. -/
theorem Proc.Table.returned_current {k k' : Kernel} (T : Proc.Table k.proc) (h : Returned k k') :
    k'.proc.currentId = (k.proc.pcb k.proc.currentId).parentProcessId ∧
      k'.proc.currentPcbPtr = k.proc.pcbArr (k.proc.pcb k.proc.currentId).parentProcessId := by
  rw [← show k.currentPcb = k.proc.pcb k.proc.currentId from T.currentPcb_eq]
  exact ⟨h.handed.current, h.handed.ptr⟩

/-- In every state that a run of process events reaches from the first shell, with the
scheduler choosing leaves: the bit array and the pointer array agree; the current process is
live, with its own PCB and kernel stack; parents are live, linked, and never cyclic; a
successful `execute` takes a free pid and touches two registers of the caller's PCB alone;
and a halt hands over to the parent. -/
theorem processTable_of_run {img : FsImage} {frame : Frame} {k₀ k₁ k : Kernel} {eip esp : Nat}
    (boot : Booted k₀) (first : initShell img frame k₀ = some (k₁, .iret eip esp))
    (run : Runs.Reach (procStep img) schedulesLeaf k₁ k) :
    (∀ pid, ValidPid pid → (k.proc.idArray pid = 1 ↔ k.proc.pcbArr pid ≠ 0)) ∧
    (k.proc.Live k.proc.currentId ∧
      k.proc.currentPcbPtr = k.proc.pcbArr k.proc.currentId ∧
      k.proc.tssEsp0 = 0x800000 - 8192 * k.proc.currentId - 4) ∧
    (∀ pid, k.proc.Live pid →
      (k.proc.pcb pid).parentProcessId = -1 ∨
        (k.proc.Live (k.proc.pcb pid).parentProcessId ∧
          (k.proc.pcb pid).parentPtr = k.proc.pcbArr (k.proc.pcb pid).parentProcessId)) ∧
    (∀ pid, k.proc.Live pid →
      Rooted k.proc.Live k.proc.parent pid ∧
        ¬ Relation.TransGen (fun a b => k.proc.parent a = some b) pid pid) ∧
    (∀ frame command k' eip esp,
      executeHandler img frame command k = some (k', .iret eip esp) →
        ValidPid k'.proc.currentId ∧ k.proc.idArray k'.proc.currentId = 0 ∧
          ∀ a, k.proc.Live a →
            (k.proc.pcb a).SameButRegs (k'.proc.pcb a) ∧
              (a ≠ k.proc.currentId → k'.proc.pcb a = k.proc.pcb a)) ∧
    (∀ frame status, (k.proc.pcb k.proc.currentId).parentProcessId ≠ -1 →
      ∃ k' esp ebp eax, haltHandler img frame status k = some (k', .leave esp ebp eax) ∧
        k'.proc.currentId = (k.proc.pcb k.proc.currentId).parentProcessId ∧
        k'.proc.currentPcbPtr = k.proc.pcbArr (k.proc.pcb k.proc.currentId).parentProcessId) := by
  have T := table_of_run boot first run
  refine ⟨?_, ⟨T.current, T.ptr, T.esp0⟩, ?_, ?_, ?_, ?_⟩
  · intro pid hpid
    constructor
    · exact fun hbit => T.arr_ne_zero ⟨hpid, hbit⟩
    · intro hptr
      rw [T.arr pid hpid] at hptr
      by_contra hbit
      exact hptr (if_neg fun hlive => hbit hlive.2)
  · intro pid hpid
    cases hp : k.proc.parent pid with
    | none => exact .inl (parentOf_eq_none.mp hp)
    | some q =>
      obtain ⟨hq, _⟩ := parentOf_eq_some.mp hp
      rw [T.link pid hpid, hp, hq]
      exact .inr ⟨T.live_parent hpid hp, rfl⟩
  · exact fun pid hpid => ⟨T.rooted pid hpid, T.forest.acyclic hpid⟩
  · exact fun _ _ _ _ _ h => T.executed h
  · intro frame status hchild
    obtain ⟨k', esp, ebp, eax, hcall, hback⟩ := T.halt_returns img frame status hchild
    exact ⟨k', esp, ebp, eax, hcall, T.returned_current hback⟩

/-- The first shell, and a second one run from it. -/
theorem processTable_two_shells :
    ∃ k₁ k₂, initShell shellImage zeroFrame coldBoot = some (k₁, .iret 0x08048018 newUserBottom) ∧
      procStep shellImage (.execute zeroFrame (some (bytes "shell"))) k₁ = some k₂ ∧
      k₂.proc.currentId = 1 ∧
      k₂.proc.Live k₂.proc.currentId ∧
      k₂.proc.currentPcbPtr = k₂.proc.pcbArr k₂.proc.currentId ∧
      k₂.proc.tssEsp0 = 0x800000 - 8192 * k₂.proc.currentId - 4 :=
  ⟨_, _, rfl, rfl, rfl,
    (@processTable_of_run shellImage zeroFrame coldBoot _ _ _ _ coldBoot_booted rfl
      (.tail .refl (e := .execute zeroFrame (some (bytes "shell"))) trivial rfl)).2.1⟩

end Mp3Kernel
