import SeedOS.Thread.Settled

namespace SeedOS.Thread

open Foundation Function

abbrev MutexPtr := BitVec 64
abbrev CondPtr := BitVec 64

/-- The `wait_head` and `wait_tail` of a mutex or condition. -/
structure WaitQueue where
  head : Option ThreadPtr
  tail : Option ThreadPtr
  deriving DecidableEq

abbrev WaitLinks := ThreadPtr → Option ThreadPtr

def waitqAdd (next : WaitLinks) (q : WaitQueue) (thread : ThreadPtr) : WaitLinks × WaitQueue :=
  let next := update next thread none
  match q.tail with
  | none => (next, ⟨some thread, some thread⟩)
  | some tail => (update next tail (some thread), ⟨q.head, some thread⟩)

def waitqRemove (next : WaitLinks) (q : WaitQueue) :
    Option ThreadPtr × WaitLinks × WaitQueue :=
  match q.head with
  | none => (none, next, q)
  | some thread =>
    (some thread, update next thread none,
      ⟨next thread, if next thread = none then none else q.tail⟩)

structure Mutex where
  locked : Bool
  owner : Option ThreadPtr

inductive QueueId
  | mutex (m : MutexPtr)
  | cond (c : CondPtr)
  deriving DecidableEq

/-- Where a thread is: in code of its own, or in `mutex_lock` or `cond_wait` with
preemption enabled, before or after a call of `kthread_block`. -/
inductive Pc
  | run
  | lockBlock (m : MutexPtr)
  | lockRetry (m : MutexPtr)
  | waitBlock (c : CondPtr) (m : MutexPtr)
  | waitRetry (c : CondPtr) (m : MutexPtr)
  | relockBlock (m : MutexPtr)
  | relockRetry (m : MutexPtr)
  deriving DecidableEq

/-- Threads that use mutexes and conditions. `holds` says which threads have acquired a
mutex and not released it since. -/
structure SyncSys where
  threads : Threads
  pc : ThreadPtr → Pc
  next : WaitLinks
  queue : QueueId → WaitQueue
  mutex : MutexPtr → Mutex
  holds : MutexPtr → ThreadPtr → Bool

namespace SyncSys

def self (s : SyncSys) : ThreadPtr := s.threads.current

def goto (s : SyncSys) (pc : Pc) : SyncSys := { s with pc := update s.pc s.self pc }

@[simp] theorem goto_pc_self (s : SyncSys) (pc : Pc) : (s.goto pc).pc s.self = pc :=
  update_self _ _ _

theorem goto_pc_of_ne (s : SyncSys) (pc : Pc) {p : ThreadPtr} (hp : p ≠ s.self) :
    (s.goto pc).pc p = s.pc p :=
  update_of_ne hp _ _

def enqueue (s : SyncSys) (q : QueueId) : SyncSys :=
  match waitqAdd s.next (s.queue q) s.self with
  | (next, queue) => { s with next := next, queue := update s.queue q queue }

def wakeOne (s : SyncSys) (q : QueueId) : SyncSys :=
  match waitqRemove s.next (s.queue q) with
  | (none, _, _) => s
  | (some waiter, next, queue) =>
    { s with
      next := next
      queue := update s.queue q queue
      threads := kthreadUnblock s.threads waiter }

def acquire (s : SyncSys) (m : MutexPtr) : SyncSys :=
  { s with
    mutex := update s.mutex m ⟨true, some s.self⟩
    holds := update s.holds m (update (s.holds m) s.self true) }

def release (s : SyncSys) (m : MutexPtr) : SyncSys :=
  { s with
    mutex := update s.mutex m ⟨false, none⟩
    holds := update s.holds m (update (s.holds m) s.self false) }

/-- One round of the loops of `mutex_lock` and `cond_wait`, with preemption disabled: take
the mutex, or join its queue and go on to block. -/
def attempt (s : SyncSys) (m : MutexPtr) (block : Pc) : SyncSys :=
  if (s.mutex m).locked then (s.enqueue (.mutex m)).goto block else (s.acquire m).goto .run

/-- `kthread_block`, after which the caller goes on at `retry`. -/
def block (s : SyncSys) (retry : Pc) : Option SyncSys :=
  (kthreadBlock s.threads).map fun t ↦ { s.goto retry with threads := t }

def mutexLock (s : SyncSys) (m : MutexPtr) : SyncSys := s.attempt m (.lockBlock m)

def mutexTrylock (s : SyncSys) (m : MutexPtr) : SyncSys :=
  if (s.mutex m).locked then s else s.acquire m

def mutexUnlock (s : SyncSys) (m : MutexPtr) : SyncSys := (s.release m).wakeOne (.mutex m)

def condWait (s : SyncSys) (c : CondPtr) (m : MutexPtr) : SyncSys :=
  (((s.enqueue (.cond c)).release m).wakeOne (.mutex m)).goto (.waitBlock c m)

def condSignal (s : SyncSys) (c : CondPtr) : SyncSys := s.wakeOne (.cond c)

def condBroadcast : ℕ → SyncSys → CondPtr → Option SyncSys
  | 0, _, _ => none
  | fuel + 1, s, c =>
    if (s.queue (.cond c)).head = none then some s
    else condBroadcast fuel (s.wakeOne (.cond c)) c

/-- The current thread goes on in `mutex_lock` or `cond_wait`. -/
def proceed (s : SyncSys) : Option SyncSys :=
  match s.pc s.self with
  | .run => none
  | .lockBlock m => s.block (.lockRetry m)
  | .lockRetry m => some (s.attempt m (.lockBlock m))
  | .waitBlock c m => s.block (.waitRetry c m)
  | .waitRetry _ m => some (s.attempt m (.relockBlock m))
  | .relockBlock m => s.block (.relockRetry m)
  | .relockRetry m => some (s.attempt m (.relockBlock m))

end SyncSys

/-- The parts of the functions during which preemption is disabled, and everything that
happens between them. -/
inductive SyncAct
  | thread (a : ThreadAct)
  | lock (m : MutexPtr)
  | trylock (m : MutexPtr)
  | unlock (m : MutexPtr)
  | wait (c : CondPtr) (m : MutexPtr)
  | signal (c : CondPtr)
  | broadcast (c : CondPtr) (fuel : ℕ)
  | proceed

/-- `kthread_create` clears `wait_next`. -/
def SyncSys.thread (s : SyncSys) (a : ThreadAct) (t : Threads) : SyncSys :=
  match a with
  | .create p =>
    { s with
      threads := t
      pc := update s.pc p .run
      next := update s.next p none }
  | _ => { s with threads := t }

def SyncSys.exec (s : SyncSys) : SyncAct → Option SyncSys
  | .thread a => (s.threads.exec a).map (s.thread a)
  | .lock m => some (s.mutexLock m)
  | .trylock m => some (s.mutexTrylock m)
  | .unlock m => some (s.mutexUnlock m)
  | .wait c m => some (s.condWait c m)
  | .signal c => some (s.condSignal c)
  | .broadcast c fuel => s.condBroadcast fuel c
  | .proceed => s.proceed

/-- Calls are made by a thread that executes and is in no other call. -/
def SyncSys.Enabled (s : SyncSys) : SyncAct → Prop
  | .thread a => s.threads.Enabled a ∧ a.IsOwn ∧ (a.IsInterrupt ∨ s.pc s.self = .run)
  | .proceed => s.threads.loops s.self = 0
  | _ => s.threads.loops s.self = 0 ∧ s.pc s.self = .run

instance SyncSys.decidableEnabled (s : SyncSys) (a : SyncAct) : Decidable (s.Enabled a) := by
  cases a <;> unfold SyncSys.Enabled <;> infer_instance

/-- No mutex is locked, and nobody waits. -/
structure SyncSys.Start (s : SyncSys) : Prop extends s.threads.Start where
  pc : s.pc genesis = .run
  queue : ∀ q, s.queue q = ⟨none, none⟩
  mutex : ∀ m, s.mutex m = ⟨false, none⟩
  holds : ∀ m p, s.holds m p = false

end SeedOS.Thread
