import SeedOS.System.TreeRuns

namespace SeedOS.System

open Foundation Memory Process Function

/-- The next statement of a process: in its own code, in the loop of `sys_wait4` or in
`process_exit`. -/
inductive Point
  | user
  | scan (pid : Word) (wnohang : Bool)
  | check (pid : Word) (wnohang : Bool)
  | record (pid : Word)
  | sleep (pid : Word)
  | asleep (pid : Word)
  | reparent
  | becomeZombie
  | wakeParent
  | halted
  deriving DecidableEq

namespace Point

/-- The process has looked for a zombie and found none, and is not asleep yet. -/
def afterScan : Point → Option Word
  | .check pid _ | .record pid | .sleep pid => some pid
  | _ => none

/-- What the process waits for, if it is past its scan and has not been woken. -/
def waitsFor (point : Point) (state : ProcState) : Option Word :=
  match point with
  | .asleep pid => if state = .sleeping then some pid else none
  | point => point.afterScan

def Final : Point → Prop
  | .becomeZombie | .wakeParent | .halted => True
  | _ => False

end Point

structure WaitSys where
  kernel : Kernel
  point : Ptr → Point

inductive WaitAct
  | fork (p : Ptr) (blocks : ForkBlocks)
  | forkReturn (p : Ptr) (canonical : Bool)
  | wait4 (p : Ptr) (pid : Word) (wnohang : Bool)
  | exit (p : Ptr) (status : BitVec 32)
  | step (p : Ptr)

namespace WaitSys

def goto (s : WaitSys) (p : Ptr) (point : Point) : WaitSys :=
  { s with point := update s.point p point }

/-- The next statement of a process that stands in `sys_wait4` or in `process_exit`. -/
def step (fuel : ℕ) (s : WaitSys) (p : Ptr) : Option WaitSys := do
  let k := s.kernel
  let proc ← k.pcbs p
  match s.point p with
  | .user | .halted => none
  | .scan pid wnohang =>
    match ← findNode k.siblingOf (isZombieChild k pid) fuel proc.children with
    | some child =>
      let k ← processDestroy fuel k child
      some { kernel := k, point := update s.point p .user }
    | none => some (s.goto p (.check pid wnohang))
  | .check pid wnohang =>
    match ← findNode k.siblingOf (isMatchingChild k pid) fuel proc.children with
    | none => some (s.goto p .user)
    | some _ => some (s.goto p (if wnohang then .user else .record pid))
  | .record pid =>
    let k ← k.modify p fun proc ↦ { proc with waitPid := pid.setWidth 32 }
    some { kernel := k, point := update s.point p (.sleep pid) }
  | .sleep pid =>
    let k ← k.modify p fun proc ↦ { proc with state := .sleeping }
    some { kernel := k, point := update s.point p (.asleep pid) }
  | .asleep pid => some (if proc.state = .sleeping then s else s.goto p (.scan pid false))
  | .reparent =>
    match k.initProcess, proc.children with
    | some init, some child =>
      if p = init then some (s.goto p .becomeZombie)
      else do
        let k ← System.reparent k p init child
        some { s with kernel := k }
    | _, _ => some (s.goto p .becomeZombie)
  | .becomeZombie =>
    let k ← k.modify p fun proc ↦ { proc with state := .zombie }
    some { kernel := k, point := update s.point p .wakeParent }
  | .wakeParent =>
    let k ← System.wakeParent k proc
    some { kernel := k, point := update s.point p .halted }

def exec (fuel : ℕ) (s : WaitSys) : WaitAct → Option WaitSys
  | .fork p blocks => (sysFork fuel s.kernel p blocks).map fun r ↦
    { kernel := r.2
      point := match blocks.pcb with
        | none => s.point
        | some child => update s.point child .user }
  | .forkReturn p canonical => (forkChildUserReturn fuel s.kernel p canonical).map fun k ↦
    { s with kernel := k }
  | .wait4 p pid wnohang => some (s.goto p (.scan pid wnohang))
  | .exit p status =>
    (s.kernel.modify p fun proc ↦ { proc with exitCode := status }).map fun k ↦
      { kernel := k, point := update s.point p .reparent }
  | .step p => s.step fuel p

/-- A process that has started calls `sys_fork`, `sys_wait4` and `process_exit` from its own
code. The block for a child is not in use. -/
def Enabled (s : WaitSys) : WaitAct → Prop
  | .fork p blocks => s.point p = .user ∧ (s.kernel.view p).any (!·.fresh) ∧
    blocks.pcb.all fun c ↦ (s.kernel.pcbs c).isNone
  | .forkReturn p _ => (s.kernel.view p).any (·.fresh)
  | .wait4 p _ _ | .exit p _ => s.point p = .user ∧ (s.kernel.view p).any (!·.fresh)
  | .step _ => True

instance decidableEnabled (s : WaitSys) (a : WaitAct) : Decidable (s.Enabled a) := by
  cases a <;> unfold Enabled <;> infer_instance

def awaited (s : WaitSys) (waits : Option Word) (child : Ptr) : Bool :=
  waits.any fun pid ↦ isMatchingChild s.kernel pid child

/-- The parent is not between its scan and its sleep, waiting for this child. -/
def wakesInTime (s : WaitSys) (p : Ptr) : Bool :=
  (s.kernel.pcbs p).all fun P ↦ P.parent.all fun q ↦ !s.awaited (s.point q).afterScan p

/-- Init has not looked for this child already, or the child has not exited. -/
def adoptsInTime (s : WaitSys) (init child : Ptr) : Bool :=
  (s.kernel.view child).all fun C ↦ (s.kernel.view init).all fun I ↦
    C.state ≠ .zombie || s.point child = .wakeParent ||
      !s.awaited ((s.point init).waitsFor I.state) child

/-- `process_exit` does not test the state of a parent that has looked for this child and is
about to sleep, and gives no child that has exited to an init that has looked for it. -/
def inTime (s : WaitSys) : WaitAct → Bool
  | .step p =>
    match s.point p with
    | .wakeParent => s.wakesInTime p
    | .reparent => (s.kernel.pcbs p).all fun P ↦ s.kernel.initProcess.all fun init ↦
      P.children.all (s.adoptsInTime init)
    | _ => true
  | _ => true

/-- The states that the processes reach, where each statement gets as many rounds for its loops
as it needs. -/
abbrev RunsTo (enabled : WaitSys → WaitAct → Prop) : WaitSys → WaitSys → Prop :=
  PartialRuns (fun s (a : ℕ × WaitAct) ↦ s.exec a.1 a.2) fun s a ↦ enabled s a.2

end WaitSys

end SeedOS.System
