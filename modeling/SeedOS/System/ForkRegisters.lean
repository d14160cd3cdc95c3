import SeedOS.System.SyscallReturn

namespace SeedOS.System

open Foundation Memory Process

structure CalleeSaved where
  rbx : Word
  rbp : Word
  r12 : Word
  r13 : Word
  r14 : Word
  r15 : Word

structure UserContext where
  regs : UserRegs
  saved : CalleeSaved
  rip : Word
  rflags : Word

def sysretq (regs : UserRegs) (saved : CalleeSaved) : UserContext where
  regs := regs
  saved := saved
  rip := regs.rcx
  rflags := regs.r11 &&& 0x3C7FD7#64 ||| 0x2#64

/-- The registers on entry to the kernel, when the instruction at `rip` is a `syscall`. -/
def UserContext.entry (user : UserContext) : UserRegs :=
  syscallInstruction user.regs user.rip user.rflags

/-- The parent after its `fork`; `userRsp` is what the percpu slot holds at the end. -/
def parentReturn (user : UserContext) (pid userRsp : Word) : UserContext :=
  sysretq (syscallEntry user.entry pid userRsp) user.saved

/-- The child when it first runs in user mode, if it does; `userRsp` is what the percpu slot
held when `syscall_dispatch` read it. -/
def childReturn (user : UserContext) (userRsp : Word) : Option UserContext :=
  (forkChildSysret (syscallSnapshot user.entry.push userRsp)).map fun regs ↦
    sysretq regs ⟨0#64, 0#64, 0#64, 0#64, 0#64, 0#64⟩

/-- Parent and child have the same registers, but for `rax`. -/
structure Duplicates (parent child : UserContext) (pid : Word) : Prop where
  parentRax : parent.regs.rax = pid
  childRax : child.regs.rax = 0#64
  others : child = { parent with regs := { parent.regs with rax := child.regs.rax } }

/-- The registers that `fork_child_user_return` sets to zero, other than `rax`. -/
def UserContext.ZeroedRegs (user : UserContext) : Prop :=
  user.regs.rdi = 0#64 ∧ user.regs.rsi = 0#64 ∧ user.regs.rdx = 0#64 ∧ user.regs.r10 = 0#64 ∧
    user.regs.r8 = 0#64 ∧ user.regs.r9 = 0#64 ∧
    user.saved = ⟨0#64, 0#64, 0#64, 0#64, 0#64, 0#64⟩

section Fork

variable {user child : UserContext} {pid userRsp userRsp' : Word}

theorem childReturn_some : childReturn user userRsp = some child ↔
    canonicalAddr (user.rip + 2#64) = true ∧ canonicalAddr userRsp = true ∧
      child = sysretq ⟨0#64, 0#64, 0#64, 0#64, 0#64, 0#64, 0#64, user.rip + 2#64,
        sanitizeUserRflags user.rflags, userRsp⟩ ⟨0#64, 0#64, 0#64, 0#64, 0#64, 0#64⟩ := by
  have hrip : (syscallSnapshot user.entry.push userRsp).userRip = user.rip + 2#64 := rfl
  have hrsp : (syscallSnapshot user.entry.push userRsp).userRsp = userRsp := rfl
  rw [childReturn, forkChildSysret, hrip, hrsp]
  cases hcr : canonicalAddr (user.rip + 2#64) with
  | false => simp
  | true =>
    cases hcs : canonicalAddr userRsp with
    | false => simp
    | true =>
      simp only [Bool.not_true, Bool.or_self, Bool.false_eq_true, if_false, Option.map_some,
        Option.some.injEq, true_and]
      exact eq_comm

/-- A fork duplicates the registers exactly if those that the child gets as zero are zero,
and the percpu slot has not changed; or the child is killed before it runs. -/
theorem fork_duplicates_registers (user : UserContext) (pid userRsp userRsp' : Word) :
    (∀ child, childReturn user userRsp = some child →
      Duplicates (parentReturn user pid userRsp') child pid) ↔
    (canonicalAddr (user.rip + 2#64) = true → canonicalAddr userRsp = true →
      user.ZeroedRegs ∧ userRsp' = userRsp) := by
  constructor
  · intro h hrip hrsp
    have hothers := (h _ (childReturn_some.mpr ⟨hrip, hrsp, rfl⟩)).others
    rw [sysretq, parentReturn, sysretq, UserContext.mk.injEq, UserRegs.mk.injEq] at hothers
    obtain ⟨⟨-, hdi, hsi, hdx, h10, h8, h9, -, -, hsp⟩, hsaved, -, -⟩ := hothers
    exact ⟨⟨hdi.symm, hsi.symm, hdx.symm, h10.symm, h8.symm, h9.symm, hsaved.symm⟩, hsp.symm⟩
  · intro h child hchild
    obtain ⟨hrip, hrsp, rfl⟩ := childReturn_some.mp hchild
    obtain ⟨⟨hdi, hsi, hdx, h10, h8, h9, hsaved⟩, hsp⟩ := h hrip hrsp
    refine ⟨rfl, rfl, ?_⟩
    rw [sysretq, parentReturn, sysretq, UserContext.mk.injEq, UserRegs.mk.injEq]
    exact ⟨⟨rfl, hdi.symm, hsi.symm, hdx.symm, h10.symm, h8.symm, h9.symm, rfl, rfl, hsp.symm⟩,
      hsaved.symm, rfl, rfl⟩

end Fork

/-- User code that forks with a value in `rbx`, as compiled code may. -/
def usesRbx : UserContext where
  regs := ⟨57#64, 0#64, 0#64, 0#64, 0#64, 0#64, 0#64, 0#64, 0#64, 0x7FFFFFF00#64⟩
  saved := ⟨1#64, 0#64, 0#64, 0#64, 0#64, 0#64⟩
  rip := 0x400000#64
  rflags := 0x202#64

theorem fork_child_loses_rbx : ∃ child, childReturn usesRbx usesRbx.regs.rsp = some child ∧
    child.saved.rbx = 0#64 ∧ (parentReturn usesRbx 2#64 usesRbx.regs.rsp).saved.rbx = 1#64 :=
  ⟨_, childReturn_some.mpr ⟨by decide, by decide, rfl⟩, rfl, rfl⟩

end SeedOS.System
