import SeedOS.Foundation.Chain
import SeedOS.System.Processes

namespace SeedOS.System

open Foundation Memory Process Function

abbrev Ptr := Word

/-- The two tables of file operations; both have a close handler. -/
inductive FileOps
  | tty | ext2
  deriving DecidableEq

structure VfsFile where
  refcount : BitVec 32
  ops : Option FileOps
  deriving DecidableEq

inductive FileEvent
  | close (file : Ptr)
  | kfree (file : Ptr)
  deriving DecidableEq

/-- A process control block. `fresh` holds from the fork that made a child until the
child's trampoline has run. -/
structure Pcb where
  pid : Word
  state : ProcState
  pml4Phys : Word
  fdTable : Fin 256 → Option Ptr
  parent : Option Ptr
  children : Option Ptr
  sibling : Option Ptr
  exitCode : BitVec 32
  waitPid : BitVec 32
  next : Option Ptr
  fresh : Bool

/-- The processes, their open files and their memory. A pointer that is not in `pcbs`
or `files` is not an allocated one. -/
structure Kernel where
  pcbs : Ptr → Option Pcb
  files : Ptr → Option VfsFile
  processList : Option Ptr
  initProcess : Option Ptr
  nextPid : Word
  vm : Vm
  log : List FileEvent

def ebadf : Word := -9#64
def echild : Word := -10#64
def emfile : Word := -24#64

/-- The functions below return `none` where the code would use memory that is not
allocated, or would not leave a loop. -/
def Kernel.modify (k : Kernel) (p : Ptr) (f : Pcb → Pcb) : Option Kernel :=
  (k.pcbs p).map fun proc ↦ { k with pcbs := update k.pcbs p (some (f proc)) }

theorem modify_eq {k : Kernel} {p : Ptr} {proc : Pcb} (hp : k.pcbs p = some proc) (g : Pcb → Pcb) :
    k.modify p g = some { k with pcbs := update k.pcbs p (some (g proc)) } := by
  rw [Kernel.modify, hp, Option.map_some]

section Files

def vfsFileAlloc (k : Kernel) (file : Ptr) : Kernel :=
  { k with files := update k.files file (some ⟨1#32, none⟩) }

def vfsFileRef (k : Kernel) (file : Ptr) : Option Kernel :=
  (k.files file).map fun f ↦
    { k with files := update k.files file (some { f with refcount := f.refcount + 1#32 }) }

def vfsFileUnref (k : Kernel) (file : Ptr) : Option Kernel :=
  (k.files file).map fun f ↦
    let f := { f with refcount := f.refcount - 1#32 }
    if f.refcount.toInt ≤ 0 then
      { k with
        files := update k.files file none
        log := k.log ++ (if f.ops.isSome then [.close file] else []) ++ [.kfree file] }
    else { k with files := update k.files file (some f) }

def vfsClose (k : Kernel) (file : Ptr) : Option Kernel := vfsFileUnref k file

/-- `tty_open`, given the block that `vfs_file_alloc` gets. -/
def ttyOpen (k : Kernel) (block : Option Ptr) : Option Ptr × Kernel :=
  match block with
  | none => (none, k)
  | some file =>
    (some file, { k with files := update k.files file (some ⟨1#32, some .tty⟩) })

def setFd (i : Fin 256) (file : Option Ptr) (proc : Pcb) : Pcb :=
  { proc with fdTable := update proc.fdTable i file }

def processFdAlloc (proc : Pcb) : Option (Fin 256) :=
  (List.finRange 256).find? fun i ↦ proc.fdTable i = none

structure OpenBlocks where
  file : Option Ptr
  priv : Option Ptr

/-- `sys_open`, once the path has been resolved to a regular file; `early` is the
error it returns if that fails. -/
def sysOpen (k : Kernel) (p : Ptr) (early : Option Word) (blocks : OpenBlocks) :
    Option (Word × Kernel) := do
  let proc ← k.pcbs p
  match early with
  | some err => some (err, k)
  | none =>
    match processFdAlloc proc with
    | none => some (emfile, k)
    | some fd =>
      match blocks.file with
      | none =>
        let k ← k.modify p (setFd fd none)
        some (enomem, k)
      | some file =>
        let k := vfsFileAlloc k file
        match blocks.priv with
        | none =>
          let k ← vfsClose k file
          let k ← k.modify p (setFd fd none)
          some (enomem, k)
        | some _ =>
          let k := { k with files := update k.files file (some ⟨1#32, some .ext2⟩) }
          let k ← k.modify p (setFd fd (some file))
          some (BitVec.ofNat 64 fd.val, k)

def sysClose (k : Kernel) (p : Ptr) (fd : Word) : Option (Word × Kernel) := do
  let proc ← k.pcbs p
  if h : fd.toNat < 256 then
    match proc.fdTable ⟨fd.toNat, h⟩ with
    | none => some (ebadf, k)
    | some file =>
      let k ← vfsClose k file
      let k ← k.modify p (setFd ⟨fd.toNat, h⟩ none)
      some (0#64, k)
  else some (ebadf, k)

def closeFds (p : Ptr) : List (Fin 256) → Kernel → Option Kernel
  | [], k => some k
  | i :: fds, k => do
    let proc ← k.pcbs p
    match proc.fdTable i with
    | none => closeFds p fds k
    | some file =>
      let k ← vfsClose k file
      let k ← k.modify p (setFd i none)
      closeFds p fds k

def refFds (table : Fin 256 → Option Ptr) : List (Fin 256) → Kernel → Option Kernel
  | [], k => some k
  | i :: fds, k =>
    match table i with
    | none => refFds table fds k
    | some file => do
      let k ← vfsFileRef k file
      refFds table fds k

end Files

section Lists

def Kernel.nextOf (k : Kernel) (p : Ptr) : Option (Option Ptr) := (k.pcbs p).map (·.next)

def Kernel.siblingOf (k : Kernel) (p : Ptr) : Option (Option Ptr) := (k.pcbs p).map (·.sibling)

def setChildSlot (k : Kernel) (parent : Ptr) (slot : Slot Ptr) (link : Option Ptr) :
    Option Kernel :=
  match slot with
  | .head => k.modify parent fun proc ↦ { proc with children := link }
  | .link a => k.modify a fun proc ↦ { proc with sibling := link }

def setProcessSlot (k : Kernel) (slot : Slot Ptr) (link : Option Ptr) : Option Kernel :=
  match slot with
  | .head => some { k with processList := link }
  | .link a => k.modify a fun proc ↦ { proc with next := link }

def unlinkChild (fuel : ℕ) (k : Kernel) (parent p : Ptr) : Option Kernel := do
  let proc ← k.pcbs p
  let head ← k.pcbs parent
  match ← findSlot k.siblingOf p fuel .head head.children with
  | none => some k
  | some slot => setChildSlot k parent slot proc.sibling

def unlinkProcess (fuel : ℕ) (k : Kernel) (p : Ptr) : Option Kernel := do
  let proc ← k.pcbs p
  match ← findSlot k.nextOf p fuel .head k.processList with
  | none => some k
  | some slot => setProcessSlot k slot proc.next

def linkChild (k : Kernel) (parent p : Ptr) : Option Kernel := do
  let head ← k.pcbs parent
  let k ← k.modify p fun proc ↦ { proc with sibling := head.children }
  k.modify parent fun proc ↦ { proc with children := some p }

def processAdd (k : Kernel) (p : Ptr) : Option Kernel := do
  let k ← k.modify p fun proc ↦ { proc with next := k.processList }
  some { k with processList := some p }

end Lists

section Lifecycle

def unlinkFromParent (fuel : ℕ) (k : Kernel) (p : Ptr) : Option Kernel := do
  let proc ← k.pcbs p
  match proc.parent with
  | none => some k
  | some parent => unlinkChild fuel k parent p

def freeProcess (k : Kernel) (p : Ptr) : Option Kernel :=
  (k.pcbs p).map fun proc ↦
    { k with
      vm := if proc.pml4Phys ≠ 0#64 then vmmFreeUserAddressSpace k.vm proc.pml4Phys else k.vm
      pcbs := update k.pcbs p none }

def processDestroy (fuel : ℕ) (k : Kernel) (p : Ptr) : Option Kernel := do
  let k ← unlinkFromParent fuel k p
  let k ← unlinkProcess fuel k p
  let k ← closeFds p (List.finRange 256) k
  freeProcess k p

structure CreateBlocks where
  pcb : Option Ptr
  stack : Option Ptr
  stdin : Option Ptr
  stdout : Option Ptr
  stderr : Option Ptr

def openStdio (k : Kernel) (p : Ptr) (i : Fin 256) (block : Option Ptr) : Option Kernel :=
  match ttyOpen k block with
  | (file, k) => k.modify p (setFd i file)

def linkToParent (k : Kernel) (parent : Option Ptr) (p : Ptr) : Option Kernel :=
  match parent with
  | none => some k
  | some parent => linkChild k parent p

/-- `process_create`, called when `current` is the current process. -/
def processCreate (k : Kernel) (current : Option Ptr) (blocks : CreateBlocks) :
    Option (Option Ptr × Kernel) :=
  match blocks.pcb with
  | none => some (none, k)
  | some p =>
    let pid := k.nextPid
    let k := { k with
      nextPid := pid + 1#64
      initProcess := if pid = 1#64 then some p else k.initProcess }
    match blocks.stack with
    | none => some (none, k)
    | some _ =>
      match vmmCreateAddressSpace k.vm with
      | (pml4Phys, vm) =>
        if pml4Phys = 0#64 then some (none, { k with vm := vm })
        else do
          let proc : Pcb := ⟨pid, .embryo, pml4Phys, fun _ ↦ none, current, none, none, 0#32,
            -1#32, none, false⟩
          let k := { k with vm := vm, pcbs := update k.pcbs p (some proc) }
          let k ← openStdio k p 0 blocks.stdin
          let k ← openStdio k p 1 blocks.stdout
          let k ← openStdio k p 2 blocks.stderr
          let k ← linkToParent k current p
          let k ← processAdd k p
          some (some p, k)

structure ForkBlocks where
  pcb : Option Ptr
  stack : Option Ptr
  kthread : Bool

/-- The child's block once `sys_fork` has copied the parent's and set its own fields. -/
def childPcb (proc : Pcb) (parent : Ptr) (pid pml4Phys : Word) : Pcb :=
  { proc with
    pid := pid
    state := .runnable
    pml4Phys := pml4Phys
    parent := some parent
    children := none
    exitCode := 0#32
    waitPid := -1#32
    fresh := true }

def sysFork (fuel : ℕ) (k : Kernel) (p : Ptr) (blocks : ForkBlocks) : Option (Word × Kernel) := do
  let proc ← k.pcbs p
  match blocks.pcb, blocks.stack with
  | none, _ | _, none => some (enomem, k)
  | some child, some _ =>
    match vmmCopyAddressSpaceCow k.vm proc.pml4Phys with
    | (pml4Phys, vm) =>
      if pml4Phys = 0#64 then some (enomem, { k with vm := vm })
      else
        let pid := k.nextPid
        let k := { k with
          vm := vm
          nextPid := pid + 1#64
          pcbs := update k.pcbs child (some (childPcb proc p pid pml4Phys)) }
        let k ← refFds proc.fdTable (List.finRange 256) k
        let k ← linkChild k p child
        let k ← processAdd k child
        if blocks.kthread then some (pid, k)
        else
          let k ← processDestroy fuel k child
          some (enomem, k)

/-- `fork_child_user_return`, up to the return to user mode; `canonical` says whether
the child's saved `user_rip` and `user_rsp` are. -/
def forkChildUserReturn (fuel : ℕ) (k : Kernel) (p : Ptr) (canonical : Bool) : Option Kernel :=
  if canonical then k.modify p fun proc ↦ { proc with fresh := false }
  else processDestroy fuel k p

/-- One round of the loop of `process_exit` that gives the children to init. -/
def reparent (k : Kernel) (p init child : Ptr) : Option Kernel := do
  let c ← k.pcbs child
  let k ← k.modify p fun proc ↦ { proc with children := c.sibling }
  let i ← k.pcbs init
  let k ← k.modify child fun proc ↦ { proc with parent := some init, sibling := i.children }
  k.modify init fun proc ↦ { proc with children := some child }

def reparentAll (p init : Ptr) : ℕ → Kernel → Option Kernel
  | 0, _ => none
  | fuel + 1, k => do
    let proc ← k.pcbs p
    match proc.children with
    | none => some k
    | some child =>
      let k ← reparent k p init child
      reparentAll p init fuel k

/-- The end of `process_exit`: a parent that waits for this child wakes up. -/
def wakeParent (k : Kernel) (proc : Pcb) : Option Kernel :=
  match proc.parent with
  | none => some k
  | some parent => do
    let q ← k.pcbs parent
    if q.state = .sleeping ∧ (q.waitPid = -1#32 ∨ q.waitPid = proc.pid.setWidth 32) then
      k.modify parent fun q ↦ { q with state := .runnable }
    else some k

def reparentChildren (fuel : ℕ) (k : Kernel) (p : Ptr) : Option Kernel :=
  match k.initProcess with
  | none => some k
  | some init => if p = init then some k else reparentAll p init fuel k

def processExit (fuel : ℕ) (k : Kernel) (p : Ptr) (status : BitVec 32) : Option Kernel := do
  let k ← k.modify p fun proc ↦ { proc with exitCode := status }
  let k ← reparentChildren fuel k p
  let k ← k.modify p fun proc ↦ { proc with state := .zombie }
  let proc ← k.pcbs p
  wakeParent k proc

def isZombieChild (k : Kernel) (pid : Word) (child : Ptr) : Bool :=
  match k.pcbs child with
  | none => false
  | some c => !(0 < pid.toInt && c.pid ≠ pid) && c.state = .zombie

def isMatchingChild (k : Kernel) (pid : Word) (child : Ptr) : Bool :=
  match k.pcbs child with
  | none => false
  | some c => pid = -1#64 || 0 < pid.toInt && c.pid = pid

/-- One round of the loop of `sys_wait4` by process `p`: the return value, or `none`
where the process goes to sleep. -/
def sysWait4 (fuel : ℕ) (k : Kernel) (p : Ptr) (pid : Word) (wnohang : Bool) :
    Option (Option Word × Kernel) := do
  let proc ← k.pcbs p
  match ← findNode k.siblingOf (isZombieChild k pid) fuel proc.children with
  | some child =>
    let c ← k.pcbs child
    let k ← processDestroy fuel k child
    some (some c.pid, k)
  | none =>
    match ← findNode k.siblingOf (isMatchingChild k pid) fuel proc.children with
    | none => some (some echild, k)
    | some _ =>
      if wnohang then some (some 0#64, k)
      else
        let k ← k.modify p fun proc ↦ { proc with waitPid := pid.setWidth 32, state := .sleeping }
        some (none, k)

end Lifecycle

/-- What happens to the processes. `memory` stands for all that changes memory and
no process block: page faults, `sys_brk`, the growth of the kernel heap. -/
inductive KernelAct
  | memory (vm : Vm)
  | create (current : Option Ptr) (blocks : CreateBlocks)
  | open (p : Ptr) (early : Option Word) (blocks : OpenBlocks)
  | close (p : Ptr) (fd : Word)
  | fork (p : Ptr) (blocks : ForkBlocks)
  | forkReturn (p : Ptr) (canonical : Bool)
  | exit (p : Ptr) (status : BitVec 32)
  | wait4 (p : Ptr) (pid : Word) (wnohang : Bool)
  | destroy (p : Ptr)

/-- The loops get `fuel` rounds. -/
def Kernel.exec (fuel : ℕ) (k : Kernel) : KernelAct → Option Kernel
  | .memory vm => some { k with vm := vm }
  | .create current blocks => (processCreate k current blocks).map (·.2)
  | .open p early blocks => (sysOpen k p early blocks).map (·.2)
  | .close p fd => (sysClose k p fd).map (·.2)
  | .fork p blocks => (sysFork fuel k p blocks).map (·.2)
  | .forkReturn p canonical => forkChildUserReturn fuel k p canonical
  | .exit p status => processExit fuel k p status
  | .wait4 p pid wnohang => (sysWait4 fuel k p pid wnohang).map (·.2)
  | .destroy p => processDestroy fuel k p

/-- The states that the processes reach, where each action is done when it is enabled
and gets as many rounds for its loops as it needs. -/
abbrev KernelRuns (enabled : Kernel → KernelAct → Prop) : Kernel → Kernel → Prop :=
  PartialRuns (fun k (a : ℕ × KernelAct) ↦ k.exec a.1 a.2) fun k a ↦ enabled k a.2

structure Kernel.Boot (k : Kernel) : Prop where
  pcbs : ∀ p, k.pcbs p = none
  files : ∀ f, k.files f = none
  processList : k.processList = none
  nextPid : k.nextPid = 1#64

def emptyKernel : Kernel := ⟨fun _ ↦ none, fun _ ↦ none, none, none, 1#64, bootVm, []⟩

theorem emptyKernel_boot : emptyKernel.Boot := ⟨fun _ ↦ rfl, fun _ ↦ rfl, rfl, rfl⟩

def initBlocks : CreateBlocks where
  pcb := some 0xFFFFFFFF00001000#64
  stack := some 0xFFFFFFFF00003000#64
  stdin := some 0xFFFFFFFF00008000#64
  stdout := some 0xFFFFFFFF00008040#64
  stderr := some 0xFFFFFFFF00008080#64

def initKernel : Kernel := (emptyKernel.exec 0 (.create none initBlocks)).getD emptyKernel

theorem initKernel_eq : emptyKernel.exec 0 (.create none initBlocks) = some initKernel := by
  have hsome : (emptyKernel.exec 0 (.create none initBlocks)).isSome := by decide +kernel
  obtain ⟨k, hk⟩ := Option.isSome_iff_exists.mp hsome
  rw [initKernel, hk, Option.getD_some]

def initPtr : Ptr := 0xFFFFFFFF00001000#64
def childPtr : Ptr := 0xFFFFFFFF0000A000#64

def forkBlocks : ForkBlocks := ⟨some childPtr, some 0xFFFFFFFF0000C000#64, true⟩

def forkedKernel : Kernel := (initKernel.exec 0 (.fork initPtr forkBlocks)).getD initKernel

def filePtr : Ptr := 0xFFFFFFFF00009000#64

def fileBlocksOf : OpenBlocks := ⟨some filePtr, some 0xFFFFFFFF00009040#64⟩

end SeedOS.System
