import SeedOS.Foundation.Chain
import SeedOS.Foundation.Machine
import SeedOS.Thread.Kthread
import Mathlib.Data.Fintype.EquivFin
import Mathlib.Data.List.Perm.Basic

namespace SeedOS.Thread

open Foundation Function

structure Tcb where
  id : BitVec 64
  state : ThreadState
  stackBase : Option ThreadPtr
  next : Option ThreadPtr
  deriving DecidableEq

/-- The control blocks that exist, linked from `genesis`, and the blocks that the threads have on
the heap. `given` and `freed` record the ids that were given out and the calls of `kfree`. -/
structure ThreadList where
  tcb : ThreadPtr → Option Tcb
  current : Option ThreadPtr
  nextThreadId : BitVec 64
  heap : List ThreadPtr
  given : List (BitVec 64)
  freed : List ThreadPtr

/-- More rounds than a loop over a list of distinct pointers can make. -/
def loopFuel : ℕ := 2 ^ 64 + 1

namespace ThreadList

variable (s : ThreadList)

def nextOf (p : ThreadPtr) : Option (Option ThreadPtr) := (s.tcb p).map Tcb.next

def setNext (p : ThreadPtr) (next : Option ThreadPtr) : Option ThreadList :=
  (s.tcb p).map fun t ↦ { s with tcb := update s.tcb p (some { t with next := next }) }

def kfree (p : ThreadPtr) : ThreadList :=
  { s with tcb := update s.tcb p none, heap := s.heap.erase p, freed := s.freed ++ [p] }

def kthreadInit : ThreadList where
  tcb p := if p = genesis then some ⟨0#64, .running, none, none⟩ else none
  current := some genesis
  nextThreadId := 1#64
  heap := []
  given := []
  freed := []

def lastThread : ℕ → ThreadPtr → Option ThreadPtr
  | 0, _ => none
  | n + 1, iter =>
    (s.tcb iter).bind fun t ↦
      match t.next with
      | none => some iter
      | some q => lastThread n q

/-- `kthread_create`, with what `kmalloc` returns for the control block and for the stack. -/
def kthreadCreate (tcb stack : Option ThreadPtr) : Option (BitVec 64 × ThreadList) :=
  match tcb with
  | none => some (0#64, s)
  | some p =>
    let id := s.nextThreadId
    let s :=
      { s with nextThreadId := id + 1#64, heap := p :: s.heap, given := s.given ++ [id] }
    match stack with
    | none => some (0#64, s.kfree p)
    | some b =>
      let s :=
        { s with
          heap := b :: s.heap
          tcb := update s.tcb p (some ⟨id, .ready, some b, none⟩) }
      match s.current with
      -- the kernel panics
      | none => none
      | some _ =>
        (s.lastThread loopFuel genesis).bind fun iter ↦ (s.setNext iter (some p)).map (id, ·)

def reapLoop : ℕ → ThreadPtr → Option ThreadPtr → ThreadList → Option ThreadList
  | 0, _, _, _ => none
  | _ + 1, _, none, s => some s
  | n + 1, prev, some iter, s =>
    (s.tcb iter).bind fun t ↦
      if t.state = .exited then
        (s.setNext prev t.next).bind fun s ↦
          let s := t.stackBase.elim s s.kfree
          reapLoop n prev t.next (s.kfree iter)
      else reapLoop n iter t.next s

def kthreadReap : Option ThreadList :=
  (s.tcb genesis).bind fun t ↦ reapLoop loopFuel genesis t.next s

/-- A null pointer is the result `some none`. -/
def kthreadGetKthread (id : BitVec 64) : Option (Option ThreadPtr) :=
  findNode s.nextOf (fun p ↦ (s.tcb p).map Tcb.id = some id) loopFuel (some genesis)

end ThreadList

inductive ListAct
  | create (tcb stack : Option ThreadPtr)
  | setState (p : ThreadPtr) (x : ThreadState)
  | setCurrent (p : ThreadPtr)
  | reap

namespace ThreadList

def Fresh (s : ThreadList) (p : ThreadPtr) : Prop := p ≠ genesis ∧ p ∉ s.heap

def Enabled (s : ThreadList) : ListAct → Prop
  | .create tcb stack =>
    (∀ p ∈ tcb, s.Fresh p) ∧ (∀ b ∈ stack, s.Fresh b) ∧ ∀ p ∈ tcb, p ∉ stack
  | _ => True

def exec (s : ThreadList) : ListAct → Option ThreadList
  | .create tcb stack => (s.kthreadCreate tcb stack).map Prod.snd
  | .setState p x =>
    (s.tcb p).map fun t ↦ { s with tcb := update s.tcb p (some { t with state := x }) }
  | .setCurrent p => some { s with current := some p }
  | .reap => s.kthreadReap

def idOf (s : ThreadList) (p : ThreadPtr) : BitVec 64 := ((s.tcb p).map Tcb.id).getD 0#64

def isExited (s : ThreadList) (p : ThreadPtr) : Bool := (s.tcb p).map Tcb.state = some .exited

/-- The heap blocks of a thread, in the order in which they are freed. -/
def blocks (s : ThreadList) (p : ThreadPtr) : List ThreadPtr :=
  if p = genesis then [] else ((s.tcb p).bind Tcb.stackBase).toList ++ [p]

def coreOf (s : ThreadList) (p : ThreadPtr) : Option (BitVec 64 × ThreadState × Option ThreadPtr) :=
  (s.tcb p).map fun t ↦ (t.id, t.state, t.stackBase)

/-- The invariant: `l` are the threads in the order of the list. The ids increase until they wrap
around. -/
structure Inv (s : ThreadList) (l : List ThreadPtr) : Prop where
  chain : Chain s.nextOf (some genesis) l
  alive : ∀ p, (s.tcb p).isSome ↔ p ∈ l
  heap : s.heap.Perm (l.flatMap s.blocks)
  distinct : (l.flatMap s.blocks).Nodup
  outside : genesis ∉ s.heap
  current : s.current.isSome
  ids : s.given.length < 2 ^ 64 → (l.map fun p ↦ (s.idOf p).toNat).Pairwise (· < ·)
  bound : ∀ p ∈ l, (s.idOf p).toNat ≤ s.given.length
  nextId : s.nextThreadId = BitVec.ofNat 64 (s.given.length + 1)
  given : s.given = (List.range s.given.length).map fun i ↦ BitVec.ofNat 64 (i + 1)

section Fields

variable {s s' : ThreadList} {p : ThreadPtr}

theorem idOf_congr (h : s'.coreOf p = s.coreOf p) : s'.idOf p = s.idOf p := by
  have heq (s : ThreadList) : s.idOf p = ((s.coreOf p).map Prod.fst).getD 0#64 := by
    rw [idOf, coreOf, Option.map_map]
    rfl
  rw [heq, heq, h]

theorem isExited_congr (h : s'.coreOf p = s.coreOf p) : s'.isExited p = s.isExited p := by
  have heq (s : ThreadList) :
      s.isExited p = decide ((s.coreOf p).map (fun c ↦ c.2.1) = some .exited) := by
    rw [isExited, coreOf, Option.map_map]
    rfl
  rw [heq, heq, h]

theorem blocks_congr (h : s'.coreOf p = s.coreOf p) : s'.blocks p = s.blocks p := by
  have heq (s : ThreadList) : (s.tcb p).bind Tcb.stackBase = (s.coreOf p).bind fun c ↦ c.2.2 := by
    rw [coreOf, Option.bind_map]
    rfl
  rw [blocks, blocks, heq, heq, h]

theorem isSome_congr (h : s'.coreOf p = s.coreOf p) : (s'.tcb p).isSome = (s.tcb p).isSome := by
  have heq (s : ThreadList) : (s.tcb p).isSome = (s.coreOf p).isSome := Option.isSome_map.symm
  rw [heq, heq, h]

theorem mem_blocks_self (hp : p ≠ genesis) : p ∈ s.blocks p := by
  rw [blocks, if_neg hp]
  exact List.mem_append_right _ List.mem_cons_self

theorem coreOf_setNext {n : Option ThreadPtr} (h : s.setNext p n = some s') (q : ThreadPtr) :
    s'.coreOf q = s.coreOf q := by
  obtain ⟨t, ht, rfl⟩ := Option.map_eq_some_iff.mp h
  unfold coreOf
  by_cases hq : q = p
  · subst hq
    simp only [update_self, ht, Option.map_some]
  · simp only [update_of_ne hq]

theorem setNext_frame {n : Option ThreadPtr} (h : s.setNext p n = some s') :
    s'.heap = s.heap ∧ s'.freed = s.freed ∧ s'.current = s.current ∧ s'.given = s.given ∧
      s'.nextThreadId = s.nextThreadId := by
  obtain ⟨t, ht, rfl⟩ := Option.map_eq_some_iff.mp h
  exact ⟨rfl, rfl, rfl, rfl, rfl⟩

end Fields

section FreeAll

variable {s : ThreadList} {bs X : List ThreadPtr} {q : ThreadPtr}

theorem foldl_kfree_heap (h : s.heap.Perm (bs ++ X)) : (bs.foldl kfree s).heap.Perm X := by
  induction bs generalizing s with
  | nil => exact h
  | cons b bs ih =>
    refine ih ?_
    have herase := h.erase b
    rwa [List.cons_append, List.erase_cons_head] at herase

theorem foldl_kfree_freed : (bs.foldl kfree s).freed = s.freed ++ bs := by
  induction bs generalizing s with
  | nil => exact (List.append_nil _).symm
  | cons b bs ih =>
    rw [List.foldl_cons, ih]
    exact List.append_assoc _ _ _

theorem foldl_kfree_tcb : (bs.foldl kfree s).tcb q = if q ∈ bs then none else s.tcb q := by
  induction bs generalizing s with
  | nil => rw [if_neg List.not_mem_nil, List.foldl_nil]
  | cons b bs ih =>
    rw [List.foldl_cons, ih]
    simp only [kfree, update_apply, List.mem_cons]
    split_ifs <;> tauto

theorem foldl_kfree_frame : (bs.foldl kfree s).current = s.current ∧
    (bs.foldl kfree s).given = s.given ∧ (bs.foldl kfree s).nextThreadId = s.nextThreadId := by
  induction bs generalizing s with
  | nil => exact ⟨rfl, rfl, rfl⟩
  | cons b bs ih => exact ih

end FreeAll

end ThreadList

end SeedOS.Thread
