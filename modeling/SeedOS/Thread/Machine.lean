import SeedOS.Foundation.Machine
import SeedOS.Thread.Schedule

namespace SeedOS.Thread

open Foundation Function

/-- What threads, interrupts and processes do to the thread list. Of `fork_child_user_return`
and `process_destroy` it is what they do to a kernel thread: the first marks itself exited
and goes on, to user mode or to its abort loop, the second marks the thread of a process. -/
inductive ThreadAct
  | create (p : ThreadPtr)
  | sleep (ms : BitVec 64)
  | yield
  | block
  | unblock (p : ThreadPtr)
  | schedule
  | exit
  | reap
  | preemptDisable
  | preemptEnable
  | forkChildReturn (canonical : Bool)
  | destroy (p : ThreadPtr)
  | tick
  | interrupt

def Threads.exec (s : Threads) : ThreadAct → Option Threads
  | .create p => some (kthreadCreate s p)
  | .sleep ms => kthreadSleep s ms
  | .yield => kthreadYield s
  | .block => kthreadBlock s
  | .unblock p => some (kthreadUnblock s p)
  | .schedule => kthreadSchedule s
  | .exit => some (kthreadExit s)
  | .reap => some (kthreadReap s)
  | .preemptDisable => some { s with preemptCount := s.preemptCount + 1 }
  | .preemptEnable => some { s with preemptCount := s.preemptCount - 1 }
  | .forkChildReturn _ => some (s.setState s.current .exited)
  | .destroy p => some (s.setState p .exited)
  | .tick => apicTimerHandler s
  | .interrupt => some (otherInterrupt s)

def ThreadAct.IsInterrupt : ThreadAct → Prop
  | .tick | .interrupt => True
  | _ => False

instance (a : ThreadAct) : Decidable a.IsInterrupt := by
  cases a <;> unfold ThreadAct.IsInterrupt <;> infer_instance

/-- Calls are made by a thread that executes. `kmalloc` returns blocks that are not in use,
and `genesis` is neither a thread with a trampoline nor the thread of a process. -/
def Threads.Enabled (s : Threads) : ThreadAct → Prop
  | .create p => s.loops s.current = 0 ∧ p ∉ s.list
  | .exit | .forkChildReturn _ => s.loops s.current = 0 ∧ s.current ≠ genesis
  | .destroy p => s.loops s.current = 0 ∧ p ≠ genesis
  | .tick | .interrupt => True
  | _ => s.loops s.current = 0

instance Threads.decidableEnabled (s : Threads) (a : ThreadAct) : Decidable (s.Enabled a) := by
  cases a <;> unfold Threads.Enabled <;> infer_instance

/-- `kthread_init`, before it creates the reaper. -/
structure Threads.Start (s : Threads) : Prop where
  others : s.others = []
  current : s.current = genesis
  running : s.state genesis = .running
  loops : s.loops genesis = 0
  enabled : s.preemptCount = 0

def bootThreads : Threads := ⟨[], fun _ ↦ .running, fun _ ↦ 0#64, fun _ ↦ 0, genesis, 0, 0⟩

theorem bootThreads_start : bootThreads.Start := ⟨rfl, rfl, rfl, rfl, rfl⟩

end SeedOS.Thread
