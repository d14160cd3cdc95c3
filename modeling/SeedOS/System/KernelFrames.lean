import SeedOS.System.Kernel

namespace SeedOS.System

open Foundation Memory Process Function

variable {k k' : Kernel} {p c : Ptr} {C P : Pcb} {fuel : ℕ}

theorem vfsClose_eq {file : Ptr} (heq : vfsClose k file = some k') :
    ∃ files log, k' = { k with files := files, log := log } := by
  obtain ⟨f, hf, hk⟩ := Option.map_eq_some_iff.mp heq
  dsimp only at hk
  split at hk
  · exact ⟨_, _, hk.symm⟩
  · exact ⟨_, k.log, hk.symm⟩

theorem refFds_eq {table : Fin 256 → Option Ptr} {fds : List (Fin 256)}
    (heq : refFds table fds k = some k') : ∃ files, k' = { k with files := files } := by
  induction fds generalizing k with
  | nil => exact ⟨k.files, (Option.some.inj heq).symm⟩
  | cons i fds ih =>
    rw [refFds] at heq
    split at heq
    · exact ih heq
    · simp only [Option.bind_eq_bind, Option.bind_eq_some_iff] at heq
      obtain ⟨k₁, h₁, heq⟩ := heq
      obtain ⟨f, hf, rfl⟩ := Option.map_eq_some_iff.mp h₁
      obtain ⟨files, rfl⟩ := ih heq
      exact ⟨files, rfl⟩

theorem closeFds_eq {fds : List (Fin 256)} (hc : k.pcbs c = some C)
    (heq : closeFds c fds k = some k') : ∃ row files log, k' = { k with
      pcbs := update k.pcbs c (some { C with fdTable := row })
      files := files
      log := log } := by
  induction fds generalizing k C with
  | nil =>
    refine ⟨C.fdTable, k.files, k.log, ?_⟩
    rw [← hc, update_eq_self]
    exact (Option.some.inj heq).symm
  | cons i fds ih =>
    simp only [closeFds, Option.bind_eq_bind, Option.bind_eq_some_iff] at heq
    obtain ⟨proc, hp, heq⟩ := heq
    split at heq
    · exact ih hc heq
    · simp only [Option.bind_eq_some_iff] at heq
      obtain ⟨k₁, h₁, k₂, h₂, heq⟩ := heq
      obtain ⟨files, log, rfl⟩ := vfsClose_eq h₁
      rw [modify_eq (k := { k with files := files, log := log }) hc] at h₂
      obtain rfl := Option.some.inj h₂
      obtain ⟨row, files', log', rfl⟩ := ih (update_self ..) heq
      exact ⟨row, files', log', by simp only [update_idem, setFd]⟩

theorem linkChild_eq (hp : k.pcbs p = some P) (hc : k.pcbs c = some C) (hne : p ≠ c)
    (heq : linkChild k p c = some k') : k' = { k with
      pcbs := update (update k.pcbs c (some { C with sibling := P.children })) p
        (some { P with children := some c }) } := by
  simp only [linkChild, hp, modify_eq hc, Option.bind_eq_bind, Option.bind_some] at heq
  rw [modify_eq ((update_of_ne hne _ _).trans hp)] at heq
  exact (Option.some.inj heq).symm

theorem processAdd_eq (hc : k.pcbs c = some C) (heq : processAdd k c = some k') : k' = { k with
    pcbs := update k.pcbs c (some { C with next := k.processList })
    processList := some c } := by
  simp only [processAdd, modify_eq hc, Option.bind_eq_bind, Option.bind_some] at heq
  exact (Option.some.inj heq).symm

theorem unlinkFromParent_eq (hc : k.pcbs c = some C) (hparent : C.parent = some p)
    (hp : k.pcbs p = some P) (hfirst : P.children = some c)
    (heq : unlinkFromParent fuel k c = some k') :
    k' = { k with pcbs := update k.pcbs p (some { P with children := C.sibling }) } := by
  simp only [unlinkFromParent, unlinkChild, hc, hparent, hp, hfirst, Option.bind_eq_bind,
    Option.bind_some, Option.bind_eq_some_iff] at heq
  obtain ⟨slot, hslot, heq⟩ := heq
  cases fuel with
  | zero => cases hslot
  | succ fuel =>
    rw [findSlot, if_pos rfl, Option.some.injEq] at hslot
    subst hslot
    dsimp only [setChildSlot] at heq
    rw [modify_eq hp] at heq
    exact (Option.some.inj heq).symm

theorem unlinkProcess_eq (hc : k.pcbs c = some C) (hfirst : k.processList = some c)
    (heq : unlinkProcess fuel k c = some k') : k' = { k with processList := C.next } := by
  simp only [unlinkProcess, hc, hfirst, Option.bind_eq_bind, Option.bind_some,
    Option.bind_eq_some_iff] at heq
  obtain ⟨slot, hslot, heq⟩ := heq
  cases fuel with
  | zero => cases hslot
  | succ fuel =>
    rw [findSlot, if_pos rfl, Option.some.injEq] at hslot
    subst hslot
    exact (Option.some.inj heq).symm

theorem destroy_linked {k₁ k₂ : Kernel} (hc : k.pcbs c = some C) (hp : k.pcbs p = some P)
    (hne : p ≠ c) (hparent : C.parent = some p) (hlink : linkChild k p c = some k₁)
    (hadd : processAdd k₁ c = some k₂) (hdestroy : processDestroy fuel k₂ c = some k') :
    k'.pcbs = update k.pcbs c none ∧ k'.processList = k.processList ∧
      k'.vm = if C.pml4Phys ≠ 0#64 then vmmFreeUserAddressSpace k.vm C.pml4Phys else k.vm := by
  simp only [processDestroy, Option.bind_eq_bind, Option.bind_eq_some_iff] at hdestroy
  obtain ⟨k₃, h₃, k₄, h₄, k₅, h₅, h₆⟩ := hdestroy
  obtain rfl := linkChild_eq hp hc hne hlink
  obtain rfl := processAdd_eq (C := { C with sibling := P.children }) (by simp [hne.symm]) hadd
  obtain rfl := unlinkFromParent_eq
    (C := { C with sibling := P.children, next := k.processList })
    (P := { P with children := some c }) (by simp) hparent (by simp [hne]) rfl h₃
  obtain rfl := unlinkProcess_eq
    (C := { C with sibling := P.children, next := k.processList }) (by simp [hne.symm]) rfl h₄
  obtain ⟨row, files, log, rfl⟩ := closeFds_eq
    (C := { C with sibling := P.children, next := k.processList }) (by simp [hne.symm]) h₅
  simp only [freeProcess, update_self, Option.map_some, Option.some.injEq] at h₆
  rw [← h₆]
  refine ⟨funext fun q ↦ ?_, rfl, rfl⟩
  by_cases hqc : q = c
  · simp [hqc]
  · by_cases hqp : q = p
    · simp [hqp, hne, hp]
    · simp [hqc, hqp]

theorem childDestroyed_frame {proc : Pcb} {pid dst : Word} {k₀ k₁ k₂ k₃ : Kernel}
    (hp : k.pcbs p = some proc) (hc : k.pcbs c = none)
    (href : refFds proc.fdTable (List.finRange 256) k₀ = some k₁)
    (hpcbs₀ : k₀.pcbs = update k.pcbs c (some (childPcb proc p pid dst)))
    (hlist₀ : k₀.processList = k.processList)
    (hlink : linkChild k₁ p c = some k₂) (hadd : processAdd k₂ c = some k₃)
    (hdestroy : processDestroy fuel k₃ c = some k') :
    k'.pcbs = k.pcbs ∧ k'.processList = k.processList ∧
      k'.vm = if dst ≠ 0#64 then vmmFreeUserAddressSpace k₀.vm dst else k₀.vm := by
  have hne : p ≠ c := by
    rintro rfl
    simp [hc] at hp
  obtain ⟨files, rfl⟩ := refFds_eq href
  have hc₁ : k₀.pcbs c = some (childPcb proc p pid dst) := by rw [hpcbs₀, update_self]
  have hp₁ : k₀.pcbs p = some proc := by rw [hpcbs₀, update_of_ne hne, hp]
  obtain ⟨hpcbs, hlist, hvm⟩ := destroy_linked (k := { k₀ with files := files }) hc₁ hp₁ hne rfl
    hlink hadd hdestroy
  refine ⟨?_, hlist.trans hlist₀, hvm⟩
  rw [hpcbs, hpcbs₀, update_idem, ← hc, update_eq_self]

end SeedOS.System
