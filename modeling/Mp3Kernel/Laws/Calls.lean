import Mp3Kernel.Laws.DescriptorSteps
import Mp3Kernel.Laws.ProcessTable

/-!
# The process table over all calls

To the process table a descriptor call is a change of the running process's descriptors,
which no link of the forest is kept in. So the table holds over runs of all system calls, and
not only of those that start and end processes.
-/

namespace Mp3Kernel

/-! ## Descriptor calls and the process table -/

namespace Proc

variable {p : Proc}

theorem withFds_pcb_of_ne (T : Table p) (fdArray : Int → FileD) {a : Int} (h : a ≠ p.currentId) :
    (p.withFds fdArray).pcb a = p.pcb a := by
  refine Function.update_of_ne ?_ _ _
  rw [T.ptr_eq]
  exact fun e => h (pcbAddr_inj.mp e)

/-- What no change of the descriptors is kept in. -/
theorem withFds_keeps {β : Type} (get : Pcb → β)
    (hf : ∀ pcb fdArray, get { pcb with fdArray := fdArray } = get pcb) {fdArray : Int → FileD}
    (a : Int) : get ((p.withFds fdArray).pcb a) = get (p.pcb a) := by
  by_cases h : pcbAddr a = p.currentPcbPtr
  · simpa [pcb, withFds, h, currentPcb] using hf _ _
  · simp [pcb, withFds, Function.update_of_ne h]

theorem withFds_links (fdArray : Int → FileD) (a : Int) : SameLinks p (p.withFds fdArray) a :=
  ⟨withFds_keeps Pcb.parentProcessId (fun _ _ => rfl) a,
    withFds_keeps Pcb.parentPtr (fun _ _ => rfl) a⟩

theorem Table.withFds (T : Table p) (fdArray : Int → FileD) : Table (p.withFds fdArray) := by
  refine ⟨T.toTree.congr rfl rfl fun a => withFds_links fdArray a, T.current, T.ptr, T.esp0, ?_⟩
  intro a ha
  rw [(withFds_links fdArray a).parent]
  exact T.leaf a ha

end Proc

/-! ## Every call -/

/-- The scheduler chooses leaves. -/
def callsLeaf (k : Kernel) : ProcEvent ⊕ FdEvent → Prop
  | .inl e => schedulesLeaf k e
  | .inr _ => True

section Calls

variable {img : FsImage} {term : TerminalDriver} {k k' : Kernel}

theorem sysStep_fd {e : FdEvent} (h : sysStep img term (.inr e) k = some k') :
    k' = fdStep img term e k := by
  simp only [sysStep] at h
  split at h
  next => cases h
  next => exact (Option.some.inj h).symm

/-- What one call preserves. -/
theorem Proc.Table.call (T : Proc.Table k.proc) (keeps : term.KeepsProcesses)
    {e : ProcEvent ⊕ FdEvent} (ok : callsLeaf k e) (h : sysStep img term e k = some k') :
    Proc.Table k'.proc := by
  cases e with
  | inl e => exact T.step ok h
  | inr e =>
    obtain ⟨fdArray, hfds⟩ := @fdStep_proc img term keeps e k
    rw [sysStep_fd h, hfds]
    exact T.withFds fdArray

/-- The invariant over whole runs of calls. -/
theorem table_of_calls (keeps : term.KeepsProcesses) {frame : Frame} {k₀ k₁ : Kernel}
    {eip esp : Nat} (boot : Booted k₀) (first : initShell img frame k₀ = some (k₁, .iret eip esp))
    (run : Runs.Reach (sysStep img term) callsLeaf k₁ k) : Proc.Table k.proc :=
  run.invariant (fun k => Proc.Table k.proc) (boot.table first) fun _ _ _ T ok h =>
    T.call keeps ok h

end Calls

end Mp3Kernel
