import SeedOS.Process.CopyUndone
import SeedOS.System.Conservation
import SeedOS.System.KernelFrames
import SeedOS.System.SharedReads

namespace SeedOS.System

open Foundation Memory Process Function

/-- A fork that failed has left the parent's memory, the open files and the processes as they
were. -/
structure ForkUndone (k k' : Kernel) (proc : Pcb) : Prop where
  memory : ParentKept k.vm k'.vm proc.pml4Phys
  refcounts : ∀ f, (k'.files f).map (·.refcount) = (k.files f).map (·.refcount)
  processList : k'.processList = k.processList
  pcbs : k'.pcbs = k.pcbs

def AllocFails (k : Kernel) (proc : Pcb) (blocks : ForkBlocks) : Prop :=
  blocks.pcb = none ∨ blocks.stack = none ∨
    (vmmCopyAddressSpaceCow k.vm proc.pml4Phys).1 = 0#64 ∨ blocks.kthread = false

section Undone

variable {k k' : Kernel} {p : Ptr} {proc : Pcb} {roots : Set ℕ} {role : Roles} {fuel : ℕ}

theorem FilesOk.refcounts (h : FilesOk k) (h' : FilesOk k') (htable : k'.table = k.table)
    (f : Ptr) :
    (k'.files f).map (·.refcount) = (k.files f).map (·.refcount) := by
  have hcounted := htable ▸ h'.counted
  cases hf : k.files f with
  | none =>
    cases hf' : k'.files f with
    | none => rfl
    | some v' => exact absurd (h.counted.uses_none hf) (Nat.ne_of_gt (hcounted.count f v' hf').2)
  | some v =>
    cases hf' : k'.files f with
    | none => exact absurd (hcounted.uses_none hf') (Nat.ne_of_gt (h.counted.count f v hf).2)
    | some v' =>
      rw [Option.map_some, Option.map_some, (hcounted.count f v' hf').1,
        (h.counted.count f v hf).1]

theorem forkUndone_iff (h : FilesOk k) (h' : FilesOk k') (hpcbs : k'.pcbs = k.pcbs)
    (hlist : k'.processList = k.processList) :
    ForkUndone k k' proc ↔ ParentKept k.vm k'.vm proc.pml4Phys := by
  refine ⟨fun hu ↦ hu.memory, fun hmem ↦ ⟨hmem, ?_, hlist, hpcbs⟩⟩
  apply h.refcounts h'
  funext q i
  simp only [Kernel.table, hpcbs]

/-- A fork that fails for want of memory returns `-ENOMEM`. It has changed nothing exactly if
the allocation that failed came before the copy of the address space, or this copy came to no
page: a page of the parent that was shared is freed with the child. -/
theorem failed_fork_undone_iff {blocks : ForkBlocks} {ret : Word} (h : Inv k.vm roots role)
    (hfiles : FilesOk k) (hp : k.pcbs p = some proc) (hr : pageOf proc.pml4Phys ∈ roots)
    (hpcb : ∀ c, blocks.pcb = some c → NewPcb k c) (hfail : AllocFails k proc blocks)
    (heq : sysFork fuel k p blocks = some (ret, k')) :
    ret = enomem ∧ (ForkUndone k k' proc ↔
      blocks.pcb = none ∨ blocks.stack = none ∨ NoPageCopied k.vm proc.pml4Phys) := by
  have hfiles' := (sysFork_files hfiles hpcb heq).1
  obtain ⟨proc', hp', hcase⟩ := sysFork_cases heq
  obtain rfl := Option.some.inj (hp.symm.trans hp')
  obtain ⟨rfl, rfl, hnone⟩ | ⟨c, dst, vm, hblock, hstack, hvm, hcase⟩ := hcase
  · refine ⟨rfl, iff_of_true ?_ (hnone.imp_right .inl)⟩
    rw [forkUndone_iff hfiles hfiles rfl rfl]
    exact .refl h hr
  have hreach : blocks.pcb = none ∨ blocks.stack = none ∨ NoPageCopied k.vm proc.pml4Phys ↔
      NoPageCopied k.vm proc.pml4Phys := by simp [hblock, hstack]
  rw [hreach]
  obtain ⟨rfl, rfl, rfl⟩ | ⟨k₀, k₁, k₂, k₃, hz, rfl, href, hlink, hadd, hend⟩ := hcase
  · refine ⟨rfl, ?_⟩
    rw [forkUndone_iff hfiles hfiles' rfl rfl]
    exact copy_failed_iff h hr hvm
  · have hthread : blocks.kthread = false := by
      rcases hfail with hf | hf | hf | hf
      · simp [hblock] at hf
      · exact absurd hf hstack
      · exact absurd (by rw [← hf, hvm]) hz
      · exact hf
    obtain ⟨htrue, -⟩ | ⟨-, hret, hdestroy⟩ := hend
    · simp [hthread] at htrue
    obtain ⟨hpcbs, hlist, hmem⟩ := childDestroyed_frame hp (hpcb c hblock).new href rfl rfl hlink
      hadd hdestroy
    refine ⟨hret, ?_⟩
    rw [forkUndone_iff hfiles hfiles' hpcbs hlist, hmem, if_pos hz]
    exact teardown_iff h hr (cowCopy_of_success hvm hz) hz

def noThread : ForkBlocks := { forkBlocks with kthread := false }

theorem initKernel_space : ∃ proc, initKernel.pcbs initPtr = some proc ∧
    proc.pml4Phys = firstSpace.pml4Phys ∧ initKernel.vm = firstSpace.vm := by
  obtain ⟨⟨pml4Phys, vm⟩, hcreate⟩ : ∃ c, vmmCreateAddressSpace bootVm = c := ⟨_, rfl⟩
  have hz : (vmmCreateAddressSpace bootVm).1 ≠ 0#64 := firstSpace_created
  rw [hcreate] at hz
  simp only [firstSpace, hcreate]
  unfold initKernel Kernel.exec processCreate initBlocks initPtr
  simp [emptyKernel, hcreate, hz, openStdio, ttyOpen, Kernel.modify, linkToParent, processAdd, setFd]

theorem failed_fork_undone_init : ∃ proc k', initKernel.pcbs initPtr = some proc ∧
    sysFork 1 initKernel initPtr noThread = some (enomem, k') ∧ ForkUndone initKernel k' proc := by
  obtain ⟨role, hinv⟩ := bootVm_inv
  obtain ⟨proc, hp, hpml4, hvm⟩ := initKernel_space
  obtain ⟨-, role', h, -⟩ := vmmCreateAddressSpace_spec hinv
    (show vmmCreateAddressSpace bootVm = (firstSpace.pml4Phys, firstSpace.vm) from rfl)
    firstSpace_created
  have hfiles : FilesOk initKernel := PartialRuns.invariant initKernel_run (.of_boot emptyKernel_boot)
    fun k a k' hk ha heq ↦ (exec_files hk ha heq).1
  have hnew : ∀ c, noThread.pcb = some c → NewPcb initKernel c := fun c hc ↦
    Option.some.inj hc ▸ initKernel_child
  have hsome : (sysFork 1 initKernel initPtr noThread).isSome := by decide +kernel
  obtain ⟨⟨ret, k'⟩, heq⟩ := Option.isSome_iff_exists.mp hsome
  have hpage : NoPageCopied initKernel.vm proc.pml4Phys := by
    rw [hpml4, hvm]
    exact .inl (by decide +kernel)
  rw [← hvm] at h
  obtain ⟨rfl, hundone⟩ := failed_fork_undone_iff h hfiles hp (hpml4 ▸ Set.mem_insert _ _) hnew
    (.inr (.inr (.inr rfl))) heq
  exact ⟨proc, k', hp, heq, hundone.mpr (.inr (.inr hpage))⟩

/-- Init has mapped a page and forks, and there is no thread for the child. The fork fails,
but the frame of the page is free afterwards and its entry has other flags. -/
theorem failed_fork_frees_page : KernelRuns NewBlocks emptyKernel pagedKernel ∧
    ∃ proc k' f flags, pagedKernel.pcbs initPtr = some proc ∧
    sysFork 1 pagedKernel initPtr noThread = some (enomem, k') ∧
    pageMapping pagedKernel.vm proc.pml4Phys userMmapStart = some (f, flags) ∧
    bitmapIsUsed pagedKernel.vm.pmm.bitmap f = true ∧ bitmapIsUsed k'.vm.pmm.bitmap f = false ∧
    pageMapping k'.vm proc.pml4Phys userMmapStart ≠ some (f, flags) ∧
    ¬ ForkUndone pagedKernel k' proc := by
  have hcheck : (pagedKernel.pcbs initPtr).any fun proc ↦
      (sysFork 1 pagedKernel initPtr noThread).any fun r ↦
        (pageMapping pagedKernel.vm proc.pml4Phys userMmapStart).any fun m ↦
          r.1 = enomem ∧ bitmapIsUsed pagedKernel.vm.pmm.bitmap m.1 = true ∧
          bitmapIsUsed r.2.vm.pmm.bitmap m.1 = false ∧
          pageMapping r.2.vm proc.pml4Phys userMmapStart ≠ some m := by
    decide +kernel
  obtain ⟨proc, hp, hcheck⟩ := (Option.any_eq_true ..).mp hcheck
  obtain ⟨⟨ret, k'⟩, hfork, hcheck⟩ := (Option.any_eq_true ..).mp hcheck
  obtain ⟨⟨f, flags⟩, hmap, hcheck⟩ := (Option.any_eq_true ..).mp hcheck
  obtain ⟨rfl, hused, hfree, hflags⟩ := of_decide_eq_true hcheck
  refine ⟨pagedKernel_run, proc, k', f, flags, hp, hfork, hmap, hused, hfree, hflags, fun hundone ↦ ?_⟩
  have hstill := hundone.memory.used userMmapStart f flags (by decide) hmap
  exact Bool.false_ne_true (hfree.symm.trans hstill)

end Undone

end SeedOS.System
