import SeedOS.System.KernelCases
import SeedOS.System.KernelFrames
import SeedOS.System.ProcessTree

namespace SeedOS.System

open Foundation Memory Process Function

def Pcb.kin (proc : Pcb) : Kin Ptr := ⟨proc.parent, proc.children, proc.sibling⟩

def Pcb.mark (proc : Pcb) : Mark := ⟨proc.state, proc.fresh⟩

def Pcb.view (proc : Pcb) : View :=
  ⟨proc.state, proc.parent, proc.pid, proc.waitPid, proc.fresh⟩

def Kernel.view (k : Kernel) (p : Ptr) : Option View := (k.pcbs p).map Pcb.view

def Kernel.tree (k : Kernel) : Tree where
  next := k.nextOf
  list := k.processList
  kin p := (k.pcbs p).map Pcb.kin
  view p := (k.pcbs p).map Pcb.view
  init := k.initProcess

section Blocks

variable {k k' : Kernel} {p : Ptr} {proc x : Pcb} {f : Pcb → Pcb}

theorem siblings_kin (k : Kernel) : siblings k.tree.kin = k.siblingOf := by
  funext q
  simp [siblings, Kernel.tree, Kernel.siblingOf, Function.comp_def, Pcb.kin]

theorem pcb_of_kin {P : Kin Ptr} (hp : k.tree.kin p = some P) :
    ∃ proc, k.pcbs p = some proc ∧ proc.kin = P :=
  Option.map_eq_some_iff.mp hp

theorem pcb_of_view {V : View} (hp : k.tree.view p = some V) :
    ∃ proc, k.pcbs p = some proc ∧ proc.view = V :=
  Option.map_eq_some_iff.mp hp

theorem tree_update (k : Kernel) (p : Ptr) (x : Option Pcb) :
    ({ k with pcbs := update k.pcbs p x } : Kernel).tree = { k.tree with
      next := update k.tree.next p (x.map (·.next))
      kin := update k.tree.kin p (x.map Pcb.kin)
      view := update k.tree.view p (x.map Pcb.view) } := by
  simp only [Kernel.tree, Tree.mk.injEq, true_and, and_true]
  exact ⟨comp_update (Option.map _) .., comp_update (Option.map _) .., comp_update (Option.map _) ..⟩

theorem modify_other {q : Ptr} (heq : k.modify p f = some k') (hq : q ≠ p) :
    k'.pcbs q = k.pcbs q := by
  obtain ⟨proc, _, rfl⟩ := Option.map_eq_some_iff.mp heq
  exact update_of_ne hq _ _

section

variable (hp : k.pcbs p = some proc)
include hp

theorem tree_kin : k.tree.kin p = some proc.kin := by
  simp [Kernel.tree, hp]

theorem view_eq : k.tree.view p = some proc.view := by
  simp [Kernel.tree, hp]

theorem tree_next : k.tree.next p = some proc.next := by
  simp [Kernel.tree, Kernel.nextOf, hp]

theorem modify_tree (heq : k.modify p f = some k') :
    k'.tree = { k.tree with
      next := update k.tree.next p (some (f proc).next)
      kin := update k.tree.kin p (some (f proc).kin)
      view := update k.tree.view p (some (f proc).view) } := by
  rw [modify_eq hp, Option.some.injEq] at heq
  rw [← heq, tree_update]
  rfl

theorem tree_same (hnext : x.next = proc.next)
    (hkin : x.kin = proc.kin) (hview : x.view = proc.view) :
    ({ k with pcbs := update k.pcbs p (some x) } : Kernel).tree = k.tree := by
  rw [tree_update, Option.map_some, hnext, Option.map_some, hkin, Option.map_some, hview,
    ← tree_next hp, ← tree_kin hp, ← view_eq hp, update_eq_self, update_eq_self, update_eq_self]

theorem modify_kin (heq : k.modify p f = some k')
    (hf : ∀ proc : Pcb, (f proc).next = proc.next ∧ (f proc).view = proc.view) :
    k'.tree = { k.tree with kin := update k.tree.kin p (some (f proc).kin) } := by
  rw [modify_tree hp heq, (hf proc).1, (hf proc).2, ← tree_next hp, ← view_eq hp,
    update_eq_self, update_eq_self]

theorem modify_next (heq : k.modify p f = some k')
    (hf : ∀ proc : Pcb, (f proc).kin = proc.kin ∧ (f proc).view = proc.view) :
    k'.tree = { k.tree with next := update k.tree.next p (some (f proc).next) } := by
  rw [modify_tree hp heq, (hf proc).1, (hf proc).2, ← tree_kin hp, ← view_eq hp,
    update_eq_self, update_eq_self]

theorem modify_view (heq : k.modify p f = some k')
    (hf : ∀ proc : Pcb, (f proc).next = proc.next ∧ (f proc).kin = proc.kin) :
    k'.tree = { k.tree with view := update k.tree.view p (some (f proc).view) } := by
  rw [modify_tree hp heq, (hf proc).1, (hf proc).2, ← tree_next hp, ← tree_kin hp,
    update_eq_self, update_eq_self]

end

end Blocks

section Files

variable {k k' : Kernel} {p file : Ptr} {proc : Pcb} {block : Option Ptr} {r : Word}

theorem setFd_sameTree {i : Fin 256} {f : Option Ptr} (heq : k.modify p (setFd i f) = some k') :
    k'.tree = k.tree := by
  obtain ⟨proc, hp, rfl⟩ := Option.map_eq_some_iff.mp heq
  exact tree_same hp rfl rfl rfl

theorem closeFds_sameTree {fds : List (Fin 256)} (hp : k.pcbs p = some proc)
    (heq : closeFds p fds k = some k') : k'.tree = k.tree := by
  obtain ⟨row, files, log, rfl⟩ := closeFds_eq hp heq
  have htree := tree_same (x := { proc with fdTable := row }) hp rfl rfl rfl
  exact htree

theorem refFds_sameTree {table : Fin 256 → Option Ptr} {fds : List (Fin 256)}
    (heq : refFds table fds k = some k') : k'.tree = k.tree := by
  obtain ⟨files, rfl⟩ := refFds_eq heq
  rfl

theorem openStdio_sameTree {i : Fin 256} (heq : openStdio k p i block = some k') :
    k'.tree = k.tree := by
  unfold openStdio ttyOpen at heq
  cases block with
  | none => exact setFd_sameTree heq
  | some file => exact (setFd_sameTree (k := { k with files := _ }) heq).trans rfl

theorem sysOpen_sameTree {early : Option Word} {blocks : OpenBlocks}
    (heq : sysOpen k p early blocks = some (r, k')) : k'.tree = k.tree := by
  obtain rfl | ⟨f, -, rfl | ⟨proc, fd, hp, -, rfl⟩⟩ := sysOpen_cases heq
  · rfl
  · rfl
  · have htree := setFd_sameTree (modify_eq hp (setFd fd (some f)))
    exact htree

theorem sysClose_sameTree {fd : Word} (heq : sysClose k p fd = some (r, k')) :
    k'.tree = k.tree := by
  simp only [sysClose, Option.bind_eq_bind, Option.bind_eq_some_iff] at heq
  obtain ⟨proc, hp, heq⟩ := heq
  split at heq
  · split at heq
    · cases heq
      rfl
    · simp only [Option.bind_eq_some_iff] at heq
      obtain ⟨k₁, h₁, k₂, h₂, heq⟩ := heq
      cases heq
      obtain ⟨files, log, rfl⟩ := vfsClose_eq h₁
      have htree := setFd_sameTree h₂
      exact htree
  · cases heq
    rfl

end Files

section Lists

variable {k k' : Kernel} {p q c : Ptr} {proc : Pcb}

theorem setChildSlot_tree {slot : Slot Ptr} {link : Option Ptr}
    (heq : setChildSlot k q slot link = some k') :
    k'.tree = { k.tree with kin := setSlot k.tree.kin q slot link } := by
  cases slot with
  | head =>
    obtain ⟨proc, hp, _⟩ := Option.map_eq_some_iff.mp heq
    rw [modify_kin hp heq fun _ ↦ ⟨rfl, rfl⟩, setSlot, tree_kin hp]
    rfl
  | link a =>
    obtain ⟨proc, hp, _⟩ := Option.map_eq_some_iff.mp heq
    rw [modify_kin hp heq fun _ ↦ ⟨rfl, rfl⟩, setSlot, tree_kin hp]
    rfl

theorem setProcessSlot_tree {slot : Slot Ptr} {link : Option Ptr}
    (heq : setProcessSlot k slot link = some k') :
    k'.tree = { k.tree with
      list := if slot = .head then link else k.tree.list
      next := fun a ↦ if slot = .link a then some link else k.tree.next a } := by
  cases slot with
  | head =>
    rw [← Option.some.inj heq]
    rfl
  | link a =>
    obtain ⟨proc, hp, _⟩ := Option.map_eq_some_iff.mp heq
    rw [modify_next hp heq fun _ ↦ ⟨rfl, rfl⟩]
    simp only [reduceCtorEq, if_false, Tree.mk.injEq, and_true]
    funext b
    by_cases hb : b = a
    · subst hb; simp
    · simp [hb, Ne.symm hb]

end Lists

end SeedOS.System
