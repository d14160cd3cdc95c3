import SeedOS.System.FileRuns

namespace SeedOS.System

open Foundation Memory Process Function

variable {k k' k'' : Kernel} {p : Ptr} {fuel : ℕ}

def SameOps (k k' : Kernel) : Prop :=
  ∀ f v', k'.files f = some v' → ∃ v, k.files f = some v ∧ v.ops = v'.ops

theorem SameOps.refl (k : Kernel) : SameOps k k := fun _ v' hv' ↦ ⟨v', hv', rfl⟩

theorem SameOps.trans (h : SameOps k k') (h' : SameOps k' k'') : SameOps k k'' := by
  intro f v'' hv''
  obtain ⟨v', hv', hops'⟩ := h' f v'' hv''
  obtain ⟨v, hv, hops⟩ := h f v' hv'
  exact ⟨v, hv, hops.trans hops'⟩

theorem SameOps.of_files (h : k'.files = k.files) : SameOps k k' :=
  fun _ v' hv' ↦ ⟨v', h ▸ hv', rfl⟩

theorem vfsFileRef_ops {file : Ptr} (heq : vfsFileRef k file = some k') : SameOps k k' := by
  obtain ⟨v, hv, rfl⟩ := Option.map_eq_some_iff.mp heq
  intro f v' hv'
  dsimp only at hv'
  by_cases hf : f = file
  · subst hf
    rw [update_self, Option.some.injEq] at hv'
    exact ⟨v, hv, by rw [← hv']⟩
  · exact ⟨v', (update_of_ne hf _ _).symm.trans hv', rfl⟩

theorem vfsClose_ops {file : Ptr} (heq : vfsClose k file = some k') : SameOps k k' := by
  obtain ⟨v, hv, rfl⟩ := Option.map_eq_some_iff.mp heq
  intro f v' hv'
  dsimp only at hv'
  by_cases hf : f = file
  · subst hf
    split at hv'
    · simp at hv'
    · simp only [update_self, Option.some.injEq] at hv'
      exact ⟨v, hv, by rw [← hv']⟩
  · refine ⟨v', ?_, rfl⟩
    split at hv' <;> exact (update_of_ne hf _ _).symm.trans hv'

theorem refFds_ops {table : Fin 256 → Option Ptr} {fds : List (Fin 256)}
    (heq : refFds table fds k = some k') : SameOps k k' := by
  induction fds generalizing k with
  | nil => exact Option.some.inj heq ▸ .refl k
  | cons i fds ih =>
    rw [refFds] at heq
    cases hi : table i with
    | none => exact ih (by simpa only [hi] using heq)
    | some file =>
      simp only [hi, Option.bind_eq_bind, Option.bind_eq_some_iff] at heq
      obtain ⟨k₁, h₁, heq⟩ := heq
      exact (vfsFileRef_ops h₁).trans (ih heq)

theorem closeFds_ops {fds : List (Fin 256)} (heq : closeFds p fds k = some k') : SameOps k k' := by
  induction fds generalizing k with
  | nil => exact Option.some.inj heq ▸ .refl k
  | cons i fds ih =>
    simp only [closeFds, Option.bind_eq_bind, Option.bind_eq_some_iff] at heq
    obtain ⟨proc, _, heq⟩ := heq
    cases hi : proc.fdTable i with
    | none => exact ih (by simpa only [hi] using heq)
    | some file =>
      simp only [hi, Option.bind_eq_some_iff] at heq
      obtain ⟨k₁, h₁, k₂, h₂, heq⟩ := heq
      obtain ⟨proc', _, hk₂⟩ := Option.map_eq_some_iff.mp h₂
      have hfiles : k₂.files = k₁.files := by rw [← hk₂]
      exact ((vfsClose_ops h₁).trans (.of_files hfiles)).trans (ih heq)

theorem processDestroy_ops (heq : processDestroy fuel k p = some k') : SameOps k k' := by
  simp only [processDestroy, Option.bind_eq_bind, Option.bind_eq_some_iff] at heq
  obtain ⟨k₁, h₁, k₂, h₂, k₃, h₃, heq⟩ := heq
  obtain ⟨proc, _, rfl⟩ := Option.map_eq_some_iff.mp heq
  have hs := (unlinkFromParent_same h₁).trans (unlinkProcess_same h₂)
  exact ((SameOps.of_files hs.files).trans (closeFds_ops h₃)).trans (.of_files rfl)

theorem sysFork_ops {blocks : ForkBlocks} {ret : Word}
    (heq : sysFork fuel k p blocks = some (ret, k')) : SameOps k k' := by
  obtain ⟨proc, -, ⟨-, rfl, -⟩ | ⟨c, dst, vm, -, -, -, ⟨-, -, rfl⟩ | ⟨k₀, k₁, k₂, k₃, -, hk₀, h₁, h₂,
    h₃, hend⟩⟩⟩ := sysFork_cases heq
  · exact .refl k'
  · exact .of_files rfl
  have hs := (linkChild_same h₂).trans (processAdd_same h₃)
  have hnew : SameOps k k₀ := .of_files (by rw [hk₀])
  have hops : SameOps k k₃ := (hnew.trans (refFds_ops h₁)).trans (.of_files hs.files)
  obtain ⟨-, rfl⟩ | ⟨-, -, h₄⟩ := hend
  · exact hops
  · exact hops.trans (processDestroy_ops h₄)

theorem sysOpen_ops {file : Ptr} {blocks : OpenBlocks} {ret : Word}
    (hblock : blocks.file = some file) (hnew : k.files file = none)
    (heq : sysOpen k p none blocks = some (ret, k')) {v : VfsFile} (hv : k'.files file = some v) :
    v.ops = some .ext2 := by
  obtain rfl | ⟨f, hf, hk'⟩ := sysOpen_cases heq
  · simp [hnew] at hv
  obtain rfl := Option.some.inj (hf.symm.trans hblock)
  obtain rfl | ⟨proc, fd, -, -, rfl⟩ := hk'
  · simp at hv
  · simp only [update_self, Option.some.injEq] at hv
    rw [← hv]

theorem sysOpen_pcbs {q : Ptr} (hq : q ≠ p) {early : Option Word} {blocks : OpenBlocks}
    {ret : Word} (heq : sysOpen k p early blocks = some (ret, k')) : k'.pcbs q = k.pcbs q := by
  obtain rfl | ⟨f, -, rfl | ⟨proc, fd, -, -, rfl⟩⟩ := sysOpen_cases heq
  · rfl
  · rfl
  · exact update_of_ne hq _ _

end SeedOS.System
