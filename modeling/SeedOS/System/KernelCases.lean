import SeedOS.System.Kernel

namespace SeedOS.System

open Foundation Memory Process Function

variable {k k' : Kernel} {p : Ptr} {fuel : ℕ}

theorem modify_clear {proc : Pcb} (hp : k.pcbs p = some proc) {i : Fin 256}
    (hi : proc.fdTable i = none) : k.modify p (setFd i none) = some k := by
  have hproc : setFd i none proc = proc := by rw [setFd, ← hi, update_eq_self]
  rw [modify_eq hp, hproc, ← hp, update_eq_self]

theorem sysOpen_cases {early : Option Word} {blocks : OpenBlocks} {ret : Word}
    (heq : sysOpen k p early blocks = some (ret, k')) : k' = k ∨
    ∃ f, blocks.file = some f ∧
      (k' = { k with files := update k.files f none, log := k.log ++ [.kfree f] } ∨
      ∃ proc fd, k.pcbs p = some proc ∧ proc.fdTable fd = none ∧ k' = { k with
        files := update k.files f (some ⟨1#32, some .ext2⟩)
        pcbs := update k.pcbs p (some (setFd fd (some f) proc)) }) := by
  simp only [sysOpen, Option.bind_eq_bind, Option.bind_eq_some_iff] at heq
  obtain ⟨proc, hp, heq⟩ := heq
  split at heq
  · exact .inl (by cases heq; rfl)
  split at heq
  · exact .inl (by cases heq; rfl)
  rename_i fd hfd
  have hfree : proc.fdTable fd = none := by
    have htest := List.find?_some hfd
    simpa using htest
  split at heq
  · rw [modify_clear hp hfree] at heq
    exact .inl (by cases heq; rfl)
  rename_i f hf
  refine .inr ⟨f, hf, ?_⟩
  split at heq
  · have hclose : vfsClose (vfsFileAlloc k f) f =
        some { k with files := update k.files f none, log := k.log ++ [.kfree f] } := by
      simp [vfsClose, vfsFileUnref, vfsFileAlloc]
    rw [hclose, Option.bind_some, modify_clear
      (k := { k with files := update k.files f none, log := k.log ++ [.kfree f] }) hp hfree] at heq
    exact .inl (by cases heq; rfl)
  · simp only [vfsFileAlloc, update_idem] at heq
    rw [modify_eq (k := { k with files := update k.files f (some ⟨1#32, some .ext2⟩) }) hp] at heq
    exact .inr ⟨proc, fd, hp, hfree, by cases heq; rfl⟩

theorem sysFork_cases {blocks : ForkBlocks} {ret : Word}
    (heq : sysFork fuel k p blocks = some (ret, k')) : ∃ proc, k.pcbs p = some proc ∧
    ((ret = enomem ∧ k' = k ∧ (blocks.pcb = none ∨ blocks.stack = none)) ∨
    ∃ c dst vm, blocks.pcb = some c ∧ blocks.stack ≠ none ∧
      vmmCopyAddressSpaceCow k.vm proc.pml4Phys = (dst, vm) ∧
      ((dst = 0#64 ∧ ret = enomem ∧ k' = { k with vm := vm }) ∨
      ∃ k₀ k₁ k₂ k₃, dst ≠ 0#64 ∧ k₀ = { k with
          vm := vm
          nextPid := k.nextPid + 1#64
          pcbs := update k.pcbs c (some (childPcb proc p k.nextPid dst)) } ∧
        refFds proc.fdTable (List.finRange 256) k₀ = some k₁ ∧ linkChild k₁ p c = some k₂ ∧
        processAdd k₂ c = some k₃ ∧
        ((blocks.kthread = true ∧ k' = k₃) ∨
          blocks.kthread = false ∧ ret = enomem ∧ processDestroy fuel k₃ c = some k'))) := by
  simp only [sysFork, Option.bind_eq_bind, Option.bind_eq_some_iff] at heq
  obtain ⟨proc, hp, heq⟩ := heq
  refine ⟨proc, hp, ?_⟩
  split at heq
  · rename_i hb
    cases heq
    exact .inl ⟨rfl, rfl, .inl hb⟩
  · rename_i hs _
    cases heq
    exact .inl ⟨rfl, rfl, .inr hs⟩
  rename_i c stack hb hs
  cases hvm : vmmCopyAddressSpaceCow k.vm proc.pml4Phys with
  | mk dst vm =>
    refine .inr ⟨c, dst, vm, hb, by simp [hs], rfl, ?_⟩
    simp only [hvm] at heq
    split at heq
    · rename_i hz
      cases heq
      exact .inl ⟨hz, rfl, rfl⟩
    rename_i hz
    simp only [Option.bind_eq_some_iff] at heq
    obtain ⟨k₁, h₁, k₂, h₂, k₃, h₃, heq⟩ := heq
    refine .inr ⟨_, k₁, k₂, k₃, hz, rfl, h₁, h₂, h₃, ?_⟩
    split at heq
    · rename_i hthread
      cases heq
      exact .inl ⟨hthread, rfl⟩
    · rename_i hthread
      simp only [Option.bind_eq_some_iff, Option.some.injEq,
        Prod.mk.injEq] at heq
      obtain ⟨k₄, h₄, hret, rfl⟩ := heq
      exact .inr ⟨Bool.eq_false_of_not_eq_true hthread, hret.symm, h₄⟩

theorem processCreate_cases {current : Option Ptr} {blocks : CreateBlocks} {ret : Option Ptr}
    (heq : processCreate k current blocks = some (ret, k')) :
    (ret = none ∧ ∃ vm pid init, k' = { k with vm := vm, nextPid := pid, initProcess := init } ∧
      (k.nextPid ≠ 1#64 → init = k.initProcess)) ∨
    ∃ c pml4Phys vm k₀ k₁ k₂ k₃ k₄, ret = some c ∧ blocks.pcb = some c ∧ k₀ = { k with
        nextPid := k.nextPid + 1#64
        initProcess := if k.nextPid = 1#64 then some c else k.initProcess
        vm := vm
        pcbs := update k.pcbs c (some ⟨k.nextPid, .embryo, pml4Phys, fun _ ↦ none, current, none,
          none, 0#32, -1#32, none, false⟩) } ∧
      openStdio k₀ c 0 blocks.stdin = some k₁ ∧ openStdio k₁ c 1 blocks.stdout = some k₂ ∧
      openStdio k₂ c 2 blocks.stderr = some k₃ ∧ linkToParent k₃ current c = some k₄ ∧
      processAdd k₄ c = some k' := by
  unfold processCreate at heq
  split at heq
  · cases heq
    exact .inl ⟨rfl, k.vm, k.nextPid, k.initProcess, rfl, fun _ ↦ rfl⟩
  rename_i c hb
  dsimp only at heq
  split at heq
  · cases heq
    exact .inl ⟨rfl, _, _, _, rfl, fun hpid ↦ if_neg hpid⟩
  split at heq
  · cases heq
    exact .inl ⟨rfl, _, _, _, rfl, fun hpid ↦ if_neg hpid⟩
  simp only [Option.bind_eq_bind, Option.bind_eq_some_iff, Option.some.injEq,
    Prod.mk.injEq] at heq
  obtain ⟨k₁, h₁, k₂, h₂, k₃, h₃, k₄, h₄, k₅, h₅, rfl, rfl⟩ := heq
  exact .inr ⟨c, _, _, _, k₁, k₂, k₃, k₄, rfl, hb, rfl, h₁, h₂, h₃, h₄, h₅⟩

theorem wakeParent_cases {P : Pcb} (heq : wakeParent k P = some k') :
    (k' = k ∧ ∀ q Q, P.parent = some q → k.pcbs q = some Q →
      Q.state ≠ .sleeping ∨ Q.waitPid ≠ -1#32 ∧ Q.waitPid ≠ P.pid.setWidth 32) ∨
    ∃ q Q, P.parent = some q ∧ k.pcbs q = some Q ∧ Q.state = .sleeping ∧
      k.modify q (fun q ↦ { q with state := .runnable }) = some k' := by
  unfold wakeParent at heq
  split at heq
  · rename_i hnone
    refine .inl ⟨(Option.some.inj heq).symm, fun q Q hq ↦ ?_⟩
    simp [hnone] at hq
  · rename_i q hparent
    simp only [Option.bind_eq_bind, Option.bind_eq_some_iff] at heq
    obtain ⟨Q, hQ, heq⟩ := heq
    split_ifs at heq with hwake
    · exact .inr ⟨q, Q, hparent, hQ, hwake.1, heq⟩
    · refine .inl ⟨(Option.some.inj heq).symm, fun q' Q' hq' hQ' ↦ ?_⟩
      rw [hparent, Option.some.injEq] at hq'
      rw [← hq', hQ, Option.some.injEq] at hQ'
      rw [← hQ', or_iff_not_imp_left, not_not]
      intro hsleeps
      rw [not_and_or, not_or] at hwake
      exact hwake.resolve_left fun hne ↦ hne hsleeps

theorem sysWait4_cases {pid : Word} {wnohang : Bool} {ret : Option Word}
    (heq : sysWait4 fuel k p pid wnohang = some (ret, k')) : ∃ proc, k.pcbs p = some proc ∧
    ((∃ c C, findNode k.siblingOf (isZombieChild k pid) fuel proc.children = some (some c) ∧
        k.pcbs c = some C ∧ processDestroy fuel k c = some k') ∨
      k' = k ∨ k.modify p (fun proc ↦
        { proc with waitPid := pid.setWidth 32, state := .sleeping }) = some k') := by
  simp only [sysWait4, Option.bind_eq_bind, Option.bind_eq_some_iff] at heq
  obtain ⟨proc, hp, found, hfound, heq⟩ := heq
  refine ⟨proc, hp, ?_⟩
  split at heq
  · simp only [Option.bind_eq_some_iff, Option.some.injEq,
    Prod.mk.injEq] at heq
    obtain ⟨C, hC, k₁, h₁, -, rfl⟩ := heq
    exact .inl ⟨_, C, hfound, hC, h₁⟩
  simp only [Option.bind_eq_some_iff] at heq
  obtain ⟨found', -, heq⟩ := heq
  split at heq
  · exact .inr (.inl (by cases heq; rfl))
  split at heq
  · exact .inr (.inl (by cases heq; rfl))
  simp only [Option.bind_eq_some_iff, Option.some.injEq, Prod.mk.injEq] at heq
  obtain ⟨k₁, h₁, -, rfl⟩ := heq
  exact .inr (.inr h₁)

end SeedOS.System
