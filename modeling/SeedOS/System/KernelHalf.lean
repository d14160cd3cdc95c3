import SeedOS.System.FrameLifetime

namespace SeedOS.System

open Foundation Memory Process Function

/-- The system calls with which a process changes its own address space. -/
def Act.IsMemoryCall : Act → Prop
  | .brk _ _ | .mmap _ _ _ _ _ _ | .munmap _ _ _ => True
  | _ => False

def userAccessible (s : Vm) (pml4Phys va : Word) : Bool :=
  (translate s pml4Phys va).any (·.user)

/-- The roots of the address spaces, the kernel's own among them. -/
def Sys.IsSpace (s : Sys) (pml4Phys : Word) : Prop :=
  pageOf pml4Phys ∈ s.roots ∨ pml4Phys = s.vm.kernelPml4Phys

/-- In every address space of `s` the kernel half is in `s'` what it was. -/
structure KernelHalfKept (s s' : Sys) : Prop where
  translation : ∀ pml4Phys, s.IsSpace pml4Phys → ∀ va, 256 ≤ (pml4Index va).val →
    translate s'.vm pml4Phys va = translate s.vm pml4Phys va
  accessible : ∀ pml4Phys, s.IsSpace pml4Phys → ∀ va, 256 ≤ (pml4Index va).val →
    userAccessible s.vm pml4Phys va = false → userAccessible s'.vm pml4Phys va = false
  pml4 : ∀ p ∈ s'.procs, ∀ i : Fin 512, 256 ≤ i.val →
    s'.vm.mem (pageOf p.pml4Phys) i = s'.vm.mem (pageOf s'.vm.kernelPml4Phys) i

structure KernelKept (s s' : Sys) : Prop where
  inv : SysInv s'
  roots : s'.roots = s.roots
  kernel : s'.kernel = s.kernel
  pml4 : s'.vm.kernelPml4Phys = s.vm.kernelPml4Phys
  mem : ∀ f ∈ s.kernel, s'.vm.mem f = s.vm.mem f

namespace KernelKept

variable {s s₁ s₂ : Sys}

theorem refl (h : SysInv s) : KernelKept s s := ⟨h, rfl, rfl, rfl, fun _ _ ↦ rfl⟩

theorem trans (h : KernelKept s s₁) (h' : KernelKept s₁ s₂) : KernelKept s s₂ where
  inv := h'.inv
  roots := h'.roots.trans h.roots
  kernel := h'.kernel.trans h.kernel
  pml4 := h'.pml4.trans h.pml4
  mem f hf := (h'.mem f (h.kernel ▸ hf)).trans (h.mem f hf)

theorem of_local (h : SysInv s) (hl : LocalStep s s₁) : KernelKept s s₁ := by
  obtain ⟨role, hinv, hker⟩ := h.frames
  obtain ⟨role', hprog⟩ := hl.progress role hinv
  exact ⟨hl.inv h, hl.roots, hl.kernel, hprog.kernel, fun f hf ↦ hprog.mem ((hker f).mpr hf)⟩

theorem kernelHalfKept (h : SysInv s) (hk : KernelKept s s₁) : KernelHalfKept s s₁ := by
  obtain ⟨role, hinv, hker⟩ := h.frames
  obtain ⟨role₁, hinv₁, _⟩ := hk.inv.frames
  have htables : ∀ p f, KernelPath p →
      tableAt kernelNext s.vm.mem (pageOf s.vm.kernelPml4Phys) p = some f →
      s₁.vm.mem f = s.vm.mem f :=
    fun p f hp hf ↦ hk.mem f ((hker f).mp (hinv.kernelTable hp hf))
  have hroot := htables [] _ ⟨by simp, by simp⟩ rfl
  have htranslate : ∀ pml4Phys, s.IsSpace pml4Phys → ∀ va, 256 ≤ (pml4Index va).val →
      translate s₁.vm pml4Phys va = translate s.vm pml4Phys va := by
    intro pml4Phys hspace va hv
    rcases hspace with hr | rfl
    · exact translate_congr_kernel hinv hinv₁ hk.pml4 (fun g hg ↦ hk.mem g ((hker g).mp hg)) hr
        (hk.roots ▸ hr) hv
    · exact translate_congr (congrFun hroot _) fun p f hp hf ↦
        htables _ f ⟨hp, by simpa using hv⟩ hf
  refine ⟨htranslate, fun pml4Phys hspace va hv ha ↦ ?_, fun p hp i hi ↦ ?_⟩
  · rw [userAccessible, htranslate pml4Phys hspace va hv]
    exact ha
  · exact hinv₁.kernelHalf _ (root_of_proc hp) i hi

end KernelKept

theorem Act.IsMemoryCall.isLocal {a : Act} (h : a.IsMemoryCall) : a.IsLocal := by
  cases a with
  | brk | mmap | munmap => trivial
  | _ => exact h.elim

/-- What keeps a step away from the kernel half: the pages it maps or unmaps are in
the user half, and it releases no frame that another page still maps. -/
def StaysInUserHalf (s : Sys) (a : Act) : Prop :=
  Enabled s a ∧ InUserHalf s a ∧ ReleasesSole s a

/-- Kernel-half integrity along every sequence of memory calls. -/
theorem kernel_half_integrity (s₀ s s' : Sys) (hboot : Boot s₀)
    (hrun : Runs exec StaysInUserHalf s₀ s)
    (hcalls : Runs exec (fun s a ↦ a.IsMemoryCall ∧ StaysInUserHalf s a) s s') :
    KernelHalfKept s s' := by
  have hinv : SysInv s := hrun.invariant (SysInv.of_boot hboot)
    fun _ a h ha ↦ exec_inv h a ha.1 ha.2.1 ha.2.2
  refine KernelKept.kernelHalfKept hinv ?_
  refine hcalls.invariant (.refl hinv) fun t a ht ha ↦ ?_
  exact ht.trans (.of_local ht.inv (exec_local a ha.1.isLocal ha.2.1 ha.2.2.1 ha.2.2.2))

theorem kernel_half_integrity_unmapped :
    Boot bootSys ∧ Runs exec StaysInUserHalf bootSys mapped ∧
    Runs exec (fun s a ↦ a.IsMemoryCall ∧ StaysInUserHalf s a) mapped
      (exec mapped (.munmap 1#64 userMmapStart 4096#64)) ∧
    KernelHalfKept mapped (exec mapped (.munmap 1#64 userMmapStart 4096#64)) := by
  have hcreated : Runs exec StaysInUserHalf bootSys created :=
    Runs.step .refl ⟨trivial, trivial, trivial⟩
  have hmapped : Runs exec StaysInUserHalf bootSys mapped :=
    hcreated.step ⟨created_alive, mapped_userHalf, trivial⟩
  have hcall : Runs exec (fun s a ↦ a.IsMemoryCall ∧ StaysInUserHalf s a) mapped
      (exec mapped (.munmap 1#64 userMmapStart 4096#64)) :=
    Runs.step .refl ⟨trivial, mapped_alive, munmap_userHalf _ _, mapped_sole⟩
  exact ⟨bootSys_boot, hmapped, hcall,
    kernel_half_integrity _ _ _ bootSys_boot hmapped hcall⟩

def kernelHalfBase : Word := 0xFFFF800000000000#64

/-- `sys_mmap` with `MAP_FIXED` takes an address of the kernel half: the page becomes
accessible to user code, and the PML4 slot differs from the kernel's. -/
theorem kernel_half_mapped :
    Boot bootSys ∧ Runs exec Enabled bootSys created ∧
    Runs exec (fun s a ↦ a.IsMemoryCall ∧ Enabled s a) created
      (exec created (.mmap 1#64 kernelHalfBase 4096#64 protWrite (mapFixed ||| mapAnonymous)
        (-1#64))) ∧
    ¬ KernelHalfKept created (exec created (.mmap 1#64 kernelHalfBase 4096#64 protWrite
      (mapFixed ||| mapAnonymous) (-1#64))) := by
  refine ⟨bootSys_boot, Runs.step .refl trivial, Runs.step .refl ⟨trivial, created_alive⟩,
    fun hc ↦ ?_⟩
  have hspace : created.IsSpace 0x3000#64 :=
    .inl (show pageOf 0x3000#64 ∈ created.spaces by decide +kernel)
  have haccess := hc.accessible 0x3000#64 hspace kernelHalfBase (by decide) (by decide +kernel)
  exact absurd haccess (by decide +kernel)

end SeedOS.System
