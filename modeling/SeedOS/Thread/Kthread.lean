import SeedOS.Foundation.Cyclic
import SeedOS.Foundation.Words
import Mathlib.Logic.Function.Basic

namespace SeedOS.Thread

open Foundation Function

abbrev ThreadPtr := BitVec 64

scoped instance ptrLawful : LawfulBEq ThreadPtr := inferInstance

inductive ThreadState
  | ready | running | blocked | exited
  deriving DecidableEq

/-- The address of `genesis_kthread`. It is a static object, so `kmalloc` never returns it. -/
def genesis : ThreadPtr := 0xFFFFFFFF80100000#64

/-- The thread list, without its first member `genesis`, and the fields of its members.
`ticks` counts the timer interrupts, and `loops` the halting loops of `kthread_schedule`
that are active on the stack of a thread. -/
structure Threads where
  others : List ThreadPtr
  state : ThreadPtr → ThreadState
  wakeTick : ThreadPtr → BitVec 64
  loops : ThreadPtr → ℕ
  current : ThreadPtr
  preemptCount : ℤ
  ticks : ℕ

namespace Threads

def list (s : Threads) : List ThreadPtr := genesis :: s.others

def isReady (s : Threads) (p : ThreadPtr) : Bool := s.state p = .ready

def setState (s : Threads) (p : ThreadPtr) (x : ThreadState) : Threads :=
  { s with state := update s.state p x }

def Executes (s : Threads) (p : ThreadPtr) : Prop := s.current = p ∧ s.loops p = 0

instance (s : Threads) (p : ThreadPtr) : Decidable (s.Executes p) :=
  inferInstanceAs (Decidable (_ ∧ _))

end Threads

def apicGetTicks (s : Threads) : BitVec 64 := BitVec.ofNat 64 s.ticks

def isDue (s : Threads) (p : ThreadPtr) : Bool :=
  s.state p = .blocked && s.wakeTick p ≠ 0#64 && s.wakeTick p ≤ apicGetTicks s

/-- `kthread_wake_sleepers`, and the same loop in `kthread_schedule`. -/
def kthreadWakeSleepers (s : Threads) : Threads :=
  { s with
    state := fun p ↦ if p ∈ s.list ∧ isDue s p = true then .ready else s.state p
    wakeTick := fun p ↦ if p ∈ s.list ∧ isDue s p = true then 0#64 else s.wakeTick p }

/-- The thread that `kthread_schedule` finds in its two scans, the one from the current
thread to the end of the list and the one from the start of the list. -/
def nextThread (s : Threads) : Option ThreadPtr :=
  if s.current ∈ s.list then
    match (following s.list s.current).find? s.isReady with
    | some p => some p
    | none => s.list.find? fun p ↦ p = s.current || s.isReady p
  else none

/-- The current thread goes on after a `kthread_switch` to its stack, or after an
interrupt. In a halting loop it looks for work and halts again if there is none. -/
def resume (s : Threads) : Threads :=
  if s.loops s.current = 0 then s
  else
    let s := kthreadWakeSleepers s
    if s.state s.current = .blocked then
      match s.list.find? s.isReady with
      | some t =>
        { s with
          state := update s.state t .running
          loops := update (update s.loops s.current (s.loops s.current - 1)) t 0
          current := t }
      | none => s
    else
      { s with
        state := update s.state s.current .running
        loops := update s.loops s.current 0 }

def switchTo (s : Threads) (next : ThreadPtr) : Threads :=
  let old := s.current
  let state := if s.state old = .running then update s.state old .ready else s.state
  resume { s with state := update state next .running, current := next }

/-- `kthread_schedule`. There is no result where it would follow a `NULL` pointer; where
no thread can run, the current thread begins to halt. -/
def kthreadSchedule (s : Threads) : Option Threads :=
  if 0 < s.preemptCount then some s
  else
    let s := kthreadWakeSleepers s
    match nextThread s with
    | none => none
    | some next =>
      if next ≠ s.current then some (switchTo s next)
      else if s.state s.current = .blocked then
        some { s with loops := update s.loops s.current (s.loops s.current + 1) }
      else some s

def kthreadYield (s : Threads) : Option Threads :=
  kthreadSchedule (s.setState s.current .ready)

def kthreadSleep (s : Threads) (ms : BitVec 64) : Option Threads :=
  let ticks := (ms + 9#64) / 10#64
  let s := { s with wakeTick := update s.wakeTick s.current (apicGetTicks s + ticks) }
  kthreadSchedule (s.setState s.current .blocked)

def kthreadBlock (s : Threads) : Option Threads :=
  let s := s.setState s.current .blocked
  kthreadSchedule { s with wakeTick := update s.wakeTick s.current 0#64 }

def kthreadUnblock (s : Threads) (p : ThreadPtr) : Threads :=
  if s.state p = .blocked then s.setState p .ready else s

/-- `kthread_exit` goes on with `genesis` whatever its state is. -/
def kthreadExit (s : Threads) : Threads :=
  resume { s.setState s.current .exited with current := genesis }

def kthreadCreate (s : Threads) (p : ThreadPtr) : Threads :=
  { s.setState p .ready with
    others := s.others ++ [p]
    wakeTick := update s.wakeTick p 0#64
    loops := update s.loops p 0 }

def kthreadReap (s : Threads) : Threads :=
  { s with others := s.others.filter fun p ↦ s.state p ≠ .exited }

/-- `apic_timer_handler`, and what the interrupted thread does next. -/
def apicTimerHandler (s : Threads) : Option Threads :=
  let s := kthreadWakeSleepers { s with ticks := s.ticks + 1 }
  match kthreadSchedule s with
  | none => none
  | some s' =>
    -- the interrupt returns, unless it was left in a switch or halts itself
    if s'.current = s.current ∧ s'.loops s.current = s.loops s.current then some (resume s')
    else some s'

/-- Another interrupt ends the `hlt` of a thread that halts. -/
def otherInterrupt (s : Threads) : Threads := resume s

end SeedOS.Thread
