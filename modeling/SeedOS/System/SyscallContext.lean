import SeedOS.System.ForkRegisters
import SeedOS.System.Kernel

namespace SeedOS.System

open Foundation Memory Process Function

/-- A process inside a system call: the registers with which it entered, and the top of the
kernel stack that it is on. -/
structure SyscallCall where
  entry : UserRegs
  stackTop : Word

/-- The percpu slots, `TSS.rsp0`, the nine words at the top of each kernel stack, the processes
that are inside a system call, and the process that last came from user mode. -/
structure SyscallSys where
  kernelRsp : Word
  userRsp : Word
  rsp0 : Word
  stack : Word → SyscallStack
  calls : Ptr → Option SyscallCall
  last : Option Ptr

/-- Processes enter system calls and leave them, `fork_child_user_return` installs a process
with its kernel stack, and interrupts come while a process is in user mode. -/
inductive SyscallAct
  | enter (p : Ptr) (regs : UserRegs)
  | leave (p : Ptr)
  | install (kernelStackTop : Word)
  | interrupt (p : Ptr) (frame : SyscallStack)

namespace SyscallSys

def exec (s : SyscallSys) : SyscallAct → SyscallSys
  | .enter p regs =>
    { s with
      userRsp := regs.rsp
      stack := update s.stack s.kernelRsp regs.push
      calls := update s.calls p (some ⟨regs, s.kernelRsp⟩)
      last := some p }
  | .leave p => { s with calls := update s.calls p none }
  | .install kernelStackTop => { s with kernelRsp := kernelStackTop, rsp0 := kernelStackTop }
  -- the processor pushes its frame at the top of the stack to which `TSS.rsp0` points
  | .interrupt p frame => { s with stack := update s.stack s.rsp0 frame, last := some p }

/-- Any process may go on at any time: one that is inside a system call leaves it, one that is
in user mode enters one or is interrupted. -/
def Enabled (s : SyscallSys) : SyscallAct → Prop
  | .enter p _ | .interrupt p _ => s.calls p = none
  | .leave p => (s.calls p).isSome
  | .install _ => True

def sysret (s : SyscallSys) (call : SyscallCall) (ret : Word) (saved : CalleeSaved) : UserContext :=
  sysretq ((s.stack call.stackTop).pop ret s.userRsp) saved

end SyscallSys

/-- A system call that was entered with `entry` has come back to the same code on the same
stack. -/
structure ReturnsTo (entry : UserRegs) (user : UserContext) : Prop where
  rip : user.rip = entry.rcx
  rsp : user.regs.rsp = entry.rsp
  rflags : user.rflags = sanitizeUserRflags entry.r11

theorem sysretq_sanitize (rflags : Word) :
    sanitizeUserRflags rflags &&& 0x3C7FD7#64 ||| 0x2#64 = sanitizeUserRflags rflags := by
  have hallowed : userRflagsAllowed &&& 0x3C7FD7#64 = userRflagsAllowed := by decide
  have hrequired : userRflagsRequired &&& 0x3C7FD7#64 ||| 0x2#64 = userRflagsRequired := by decide
  rw [sanitizeUserRflags, BitVec.and_or_distrib_right, BitVec.and_assoc, hallowed,
    BitVec.or_assoc, hrequired]

namespace SyscallSys

variable {s s₀ : SyscallSys} {p : Ptr} {call : SyscallCall}

/-- The process that last came from user mode finds what it left. -/
def Kept (s : SyscallSys) : Prop :=
  ∀ p call, s.calls p = some call → s.last = some p →
    s.userRsp = call.entry.rsp ∧ s.stack call.stackTop = call.entry.push

theorem Kept.exec (h : s.Kept) {a : SyscallAct} (ha : s.Enabled a) : (s.exec a).Kept := by
  intro q call hcall hlast
  cases a with
  | enter p regs =>
    obtain rfl := Option.some.inj hlast
    have hnew : (s.exec (.enter p regs)).calls p = some ⟨regs, s.kernelRsp⟩ := update_self _ _ _
    obtain rfl := Option.some.inj (hnew.symm.trans hcall)
    exact ⟨rfl, update_self _ _ _⟩
  | leave p =>
    have hq : q ≠ p := by
      rintro rfl
      simp [SyscallSys.exec] at hcall
    have hsame : (s.exec (.leave p)).calls q = s.calls q := update_of_ne hq _ _
    exact h q call (hsame.symm.trans hcall) hlast
  | install kernelStackTop => exact h q call hcall hlast
  | interrupt p frame =>
    obtain rfl := Option.some.inj hlast
    exact absurd (ha.symm.trans hcall) (Option.some_ne_none call).symm

theorem sysret_of_stack (hstack : s.stack call.stackTop = call.entry.push) (ret : Word)
    (saved : CalleeSaved) :
    s.sysret call ret saved = sysretq (syscallEntry call.entry ret s.userRsp) saved := by
  rw [sysret, hstack]
  rfl

/-- Whatever the processes do, one that leaves a system call comes back to the code, the stack
and the flags with which it entered, if no other process has come from user mode since. -/
theorem syscall_returns_context (hstart : ∀ p, s₀.calls p = none)
    (hrun : Runs SyscallSys.exec SyscallSys.Enabled s₀ s) (hcall : s.calls p = some call)
    (hlast : s.last = some p) (ret : Word) (saved : CalleeSaved) :
    ReturnsTo call.entry (s.sysret call ret saved) := by
  have hkept : s.Kept := by
    refine Runs.invariant hrun ?_ fun s a hs ha ↦ hs.exec ha
    intro q call hq
    simp [hstart q] at hq
  obtain ⟨hrsp, hstack⟩ := hkept p call hcall hlast
  rw [sysret_of_stack hstack]
  exact ⟨rfl, hrsp, sysretq_sanitize call.entry.r11⟩

end SyscallSys

section Small

def callRegs (nr rip rsp : Word) : UserRegs :=
  ⟨nr, 0#64, 0#64, 0#64, 0#64, 0#64, 0#64, rip, 0x202#64, rsp⟩

def initInstalled : SyscallSys where
  kernelRsp := 0xFFFFFFFF00007000#64
  userRsp := 0#64
  rsp0 := 0xFFFFFFFF00007000#64
  stack _ := ⟨0#64, 0#64, 0#64, 0#64, 0#64, 0#64, 0#64, 0#64, 0#64⟩
  calls _ := none
  last := none

def initForks : SyscallSys :=
  initInstalled.exec (.enter initPtr (callRegs 57#64 0x400002#64 0x7FFFFFF00#64))

theorem initForks_run : Runs SyscallSys.exec SyscallSys.Enabled initInstalled initForks := by
  have hrun : Runs SyscallSys.exec SyscallSys.Enabled initInstalled initInstalled := .refl
  exact hrun.step (a := .enter initPtr (callRegs 57#64 0x400002#64 0x7FFFFFF00#64)) rfl

theorem initForks_call : initForks.calls initPtr =
    some ⟨callRegs 57#64 0x400002#64 0x7FFFFFF00#64, 0xFFFFFFFF00007000#64⟩ := by
  simp [initForks, SyscallSys.exec, initInstalled]

theorem syscall_returns_context_init : ∃ call, initForks.calls initPtr = some call ∧
    ∀ ret saved, ReturnsTo call.entry (initForks.sysret call ret saved) :=
  ⟨_, initForks_call, fun ret saved ↦ SyscallSys.syscall_returns_context (fun _ ↦ rfl)
    initForks_run initForks_call rfl ret saved⟩

/-- The child has been installed, has pushed a word and is in `sys_getpid`. -/
def childCalls : SyscallSys :=
  (initForks.exec (.install 0xFFFFFFFF00010000#64)).exec
    (.enter childPtr (callRegs 39#64 0x400012#64 0x7FFFFFEF8#64))

/-- Init goes on while the child is in its system call, and comes back on the stack of the
child. -/
theorem syscall_returns_on_other_stack :
    Runs SyscallSys.exec SyscallSys.Enabled initInstalled childCalls ∧
    ∃ call, childCalls.calls initPtr = some call ∧ call.entry.rsp = 0x7FFFFFF00#64 ∧
      (∀ ret saved, (childCalls.sysret call ret saved).regs.rsp = 0x7FFFFFEF8#64) ∧
      ∀ ret saved, ¬ ReturnsTo call.entry (childCalls.sysret call ret saved) := by
  have hrun : Runs SyscallSys.exec SyscallSys.Enabled initInstalled
      (initForks.exec (.install 0xFFFFFFFF00010000#64)) :=
    initForks_run.step (a := .install _) trivial
  have hne : childPtr ≠ initPtr := by decide
  have hcall : childCalls.calls initPtr = initForks.calls initPtr := by
    simp [childCalls, SyscallSys.exec, hne.symm]
  have hchild : initForks.calls childPtr = none := by
    simp [initForks, SyscallSys.exec, initInstalled, hne]
  refine ⟨hrun.step (a := .enter childPtr _) hchild, _, hcall.trans initForks_call, rfl,
    fun _ _ ↦ rfl, fun ret saved h ↦ ?_⟩
  have hrsp : 0x7FFFFFEF8#64 = 0x7FFFFFF00#64 := h.rsp
  exact absurd hrsp (by decide)

end Small

end SeedOS.System
