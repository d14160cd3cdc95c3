import SeedOS.Foundation.Machine
import SeedOS.Memory.CowCopy
import SeedOS.Process.CowFault
import SeedOS.Process.Loading

namespace SeedOS.System

open Foundation Memory Process Function

inductive ProcState
  | embryo | runnable | running | sleeping | zombie
  deriving DecidableEq

structure Proc where
  pid : Word
  pml4Phys : Word
  brkStart : Word
  brk : Word
  state : ProcState
  deriving DecidableEq

/-- Memory together with the processes that share it. `partialCopies` are the
address spaces of failed copies that `vmm_copy_address_space_cow` has still to
tear down, and `kernel` the frames that belong to the kernel itself. -/
structure Sys where
  vm : Vm
  procs : List Proc
  nextPid : Word
  mmapNext : Word
  partialCopies : List Word
  kernel : Set ℕ

inductive Act
  | kernelHeap (vm : Vm) (taken : Set ℕ)
  | create
  | elfLoad (pid : Word) (data : File) (size : Word)
  | setupStack (pid : Word) (argv envp : List (List (BitVec 8))) (info : ElfInfo)
  | start (pid : Word)
  | fork (pid : Word)
  | forkUndo (dst : Word)
  | write (pid va : Word) (b : BitVec 8)
  | cowFault (pid va : Word)
  | brk (pid addr : Word)
  | mmap (pid addr len prot flags fd : Word)
  | munmap (pid addr len : Word)
  | exit (pid : Word)
  | destroy (pid : Word)

def Sys.find (s : Sys) (pid : Word) : Option Proc := s.procs.find? (·.pid = pid)

def Sys.on (s : Sys) (pid : Word) (f : Proc → Sys) : Sys :=
  match s.find pid with
  | some p => f p
  | none => s

def Sys.update (s : Sys) (p p' : Proc) : Sys :=
  { s with procs := s.procs.map fun q ↦ if q = p then p' else q }

/-- `sys_fork` up to the failure exit of the copy. -/
def Sys.fork (s : Sys) (p : Proc) : Sys :=
  match cowCopy s.vm p.pml4Phys with
  | (dst, ok, vm) =>
    if dst = 0#64 then { s with vm := vm }
    else if ok then
      { s with
        vm := vm
        procs := { p with pid := s.nextPid, pml4Phys := dst, state := .runnable } :: s.procs
        nextPid := s.nextPid + 1#64 }
    else { s with vm := vm, partialCopies := dst :: s.partialCopies }

def noInfo : ElfInfo := ⟨0#64, 0#64, 0#16, 0#64⟩

def exec (s : Sys) : Act → Sys
  | .kernelHeap vm taken => { s with vm := vm, kernel := s.kernel ∪ taken }
  | .create =>
    match vmmCreateAddressSpace s.vm with
    | (phys, vm) =>
      if phys = 0#64 then { s with vm := vm }
      else
        { s with
          vm := vm
          procs := ⟨s.nextPid, phys, 0#64, 0#64, .embryo⟩ :: s.procs
          nextPid := s.nextPid + 1#64 }
  | .elfLoad pid data size => s.on pid fun p ↦
    match elfLoad s.vm p.pml4Phys data size noInfo with
    | (ret, info, vm) =>
      if ret < 0 then { s with vm := vm }
      else { s with vm := vm }.update p { p with brkStart := info.brkStart, brk := info.brkStart }
  | .setupStack pid argv envp info => s.on pid fun p ↦
    { s with vm := (elfSetupStack s.vm p.pml4Phys argv envp info).2 }
  | .start pid => s.on pid fun p ↦ s.update p { p with state := .running }
  | .fork pid => s.on pid s.fork
  | .forkUndo dst =>
    if dst ∈ s.partialCopies then
      { s with
        vm := vmmFreeUserAddressSpace s.vm dst
        partialCopies := s.partialCopies.erase dst }
    else s
  | .write pid va b => s.on pid fun p ↦ { s with vm := userWrite s.vm p.pml4Phys va b }
  | .cowFault pid va => s.on pid fun p ↦ { s with vm := (handleCowFault s.vm p.pml4Phys va).2 }
  | .brk pid addr => s.on pid fun p ↦
    match sysBrk s.vm p.pml4Phys p.brkStart p.brk addr with
    | (_, brk, vm) => { s with vm := vm }.update p { p with brk := brk }
  | .mmap pid addr len prot flags fd => s.on pid fun p ↦
    match sysMmap s.vm p.pml4Phys s.mmapNext addr len prot flags fd with
    | (_, mmapNext, vm) => { s with vm := vm, mmapNext := mmapNext }
  | .munmap pid addr len => s.on pid fun p ↦
    { s with vm := (sysMunmap s.vm p.pml4Phys addr len).2 }
  | .exit pid => s.on pid fun p ↦ s.update p { p with state := .zombie }
  | .destroy pid => s.on pid fun p ↦
    { s with vm := vmmFreeUserAddressSpace s.vm p.pml4Phys, procs := s.procs.erase p }

/-- What `kmalloc` and `kfree` may do to memory on behalf of `process_create` and
`sys_fork`: growing the heap takes free frames for the kernel, and only frames of
the kernel change. The heap lies below a PML4 slot that is in use at boot, so no
slot of the kernel PML4 changes. -/
structure KernelHeap (s : Sys) (vm : Vm) (taken : Set ℕ) : Prop where
  available : ∀ f ∈ taken, s.vm.pmm.Available f
  total : vm.pmm.totalPages = s.vm.pmm.totalPages
  used : ∀ g, bitmapIsUsed vm.pmm.bitmap g = true ↔
    bitmapIsUsed s.vm.pmm.bitmap g = true ∨ g ∈ taken
  mem : ∀ g, g ∉ s.kernel → g ∉ taken → vm.mem g = s.vm.mem g
  kernel : vm.kernelPml4Phys = s.vm.kernelPml4Phys
  pml4 : vm.mem (pageOf s.vm.kernelPml4Phys) = s.vm.mem (pageOf s.vm.kernelPml4Phys)
  tables : ∀ p f, KernelPath p → tableAt kernelNext vm.mem (pageOf s.vm.kernelPml4Phys) p = some f →
    f ∈ s.kernel ∨ f ∈ taken

/-- When an action can happen: system calls are made by processes that have not
exited, and `process_destroy` gets a zombie, a child whose kernel thread could not
be made, or a process whose image could not be loaded. -/
def Enabled (s : Sys) : Act → Prop
  | .kernelHeap vm taken => KernelHeap s vm taken
  | .setupStack _ argv envp _ => StackFits argv envp
  | .fork pid | .write pid _ _ | .cowFault pid _ | .brk pid _ | .mmap pid _ _ _ _ _
  | .munmap pid _ _ | .exit pid => ∀ p, s.find pid = some p → p.state ≠ .zombie
  | .destroy pid => ∀ p, s.find pid = some p → p.state ≠ .running ∧ p.state ≠ .sleeping
  | _ => True

/-- The addresses an action touches on behalf of a process are in the user half. -/
def InUserHalf (s : Sys) : Act → Prop
  | .elfLoad _ data _ => ∀ k < (readEhdr data).phnum.toNat, (nthPhdr data k).IsLoad →
    (nthPhdr data k).InUserHalf
  | .write _ va _ | .cowFault _ va => (pml4Index va).val < 256
  | .brk pid addr => ∀ p, s.find pid = some p → ∀ v,
    brkMaps p.brkStart p.brk addr v ∨ brkReleases p.brkStart p.brk addr v →
      (pml4Index v).val < 256
  | .mmap _ addr len _ flags fd => ∀ v, mmapMaps s.mmapNext addr len flags fd v →
    (pml4Index v).val < 256
  | .munmap _ addr len => ∀ v, munmapReleases addr len v → (pml4Index v).val < 256
  | _ => True

def Sys.spaces (s : Sys) : List ℕ :=
  s.procs.map (fun p ↦ pageOf p.pml4Phys) ++ s.partialCopies.map pageOf

def Sys.roots (s : Sys) : Set ℕ := {r | r ∈ s.spaces}

/-- The state after boot: no process yet, and the tables of the kernel half lie in
frames that the allocator does not hand out. -/
structure Boot (s : Sys) : Prop where
  procs : s.procs = []
  partialCopies : s.partialCopies = []
  mmapNext : s.mmapNext = userMmapStart
  kernel : ∀ f, f ∈ s.kernel ↔ ¬ s.vm.pmm.Available f
  tables : ∀ p f, KernelPath p →
    tableAt kernelNext s.vm.mem (pageOf s.vm.kernelPml4Phys) p = some f → f ∈ s.kernel

/-- A small machine after boot: 32 frames, of which the first three are in use,
with the kernel PML4 in frame 1 and one kernel table in frame 2. -/
def bootVm : Vm where
  mem f i := if f = 1 ∧ i.val = 511 then 0x2003#64 else 0#64
  pmm := ⟨fun i ↦ if i = 0 then 0x07#8 else 0#8, 32, 29#64, Pmm.small_le⟩
  pageInfo := some fun _ ↦ 0#8
  maxPages := 32
  kernelPml4Phys := 0x1000#64

def bootSys : Sys :=
  ⟨bootVm, [], 1#64, userMmapStart, [], {f | ¬ bootVm.pmm.Available f}⟩

theorem bootVm_kernelNext (f : ℕ) (i : Fin 512) :
    kernelNext (bootVm.mem f i) = none ∨ kernelNext (bootVm.mem f i) = some 2 := by
  unfold bootVm
  dsimp only
  split_ifs
  · exact .inr (by decide)
  · exact .inl (by decide)

theorem bootSys_boot : Boot bootSys := by
  have hav : ∀ f, f = 1 ∨ f = 2 → ¬ bootVm.pmm.Available f := by
    rintro f (rfl | rfl) ⟨_, _, hu⟩
    · exact absurd hu (by decide)
    · exact absurd hu (by decide)
  have htab : ∀ p t f, t = 1 ∨ t = 2 → tableAt kernelNext bootVm.mem t p = some f →
      f = 1 ∨ f = 2 := by
    intro p
    induction p with
    | nil =>
      intro t f ht hf
      exact Option.some.inj hf ▸ ht
    | cons i p ih =>
      intro t f _ hf
      rcases bootVm_kernelNext t i with hn | hn
      · simp [tableAt, hn] at hf
      · exact ih 2 f (.inr rfl) (by simpa [tableAt, hn] using hf)
  exact ⟨rfl, rfl, rfl, fun f ↦ Iff.rfl, fun p f _ hf ↦ hav f (htab p 1 f (.inl rfl) hf)⟩

theorem state_ne_of_check {s : Sys} {pid : Word} {x : ProcState}
    (h : (s.find pid).all (fun p ↦ p.state ≠ x) = true) :
    ∀ p, s.find pid = some p → p.state ≠ x := by
  intro p hp
  simpa [hp] using h

end SeedOS.System
