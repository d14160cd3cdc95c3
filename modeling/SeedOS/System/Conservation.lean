import SeedOS.Process.Accounting
import SeedOS.Process.PageLoops
import SeedOS.System.Processes

namespace SeedOS.System

open Foundation Memory Process Function

/-- A process that never forks, as far as its memory goes. -/
structure Space where
  vm : Vm
  pml4Phys : Word
  brkStart : Word
  brk : Word
  mmapNext : Word

/-- What happens to the memory of a process while it lives. `page` is the block with
which `elf_load` and `elf_setup_stack` add a page, and `poke` a byte that they or the
program itself store. -/
inductive SpaceCall
  | page (vaddr flags : Word)
  | poke (va : Word) (b : BitVec 8)
  | brk (addr : Word)
  | mmap (addr len prot flags fd : Word)
  | munmap (addr len : Word)

def Space.call (s : Space) : SpaceCall → Space
  | .page vaddr flags => { s with vm := (mapFreshPage s.vm s.pml4Phys vaddr flags).2 }
  | .poke va b => { s with vm := (pokeByte s.pml4Phys va b s.vm).2 }
  | .brk addr =>
    match sysBrk s.vm s.pml4Phys s.brkStart s.brk addr with
    | (_, brk, vm) => { s with vm := vm, brk := brk }
  | .mmap addr len prot flags fd =>
    match sysMmap s.vm s.pml4Phys s.mmapNext addr len prot flags fd with
    | (_, mmapNext, vm) => { s with vm := vm, mmapNext := mmapNext }
  | .munmap addr len => { s with vm := (sysMunmap s.vm s.pml4Phys addr len).2 }

def Space.Maps (s : Space) : SpaceCall → Word → Prop
  | .page vaddr _, v => v = vaddr
  | .poke _ _, _ => False
  | .brk addr, v => brkMaps s.brkStart s.brk addr v
  | .mmap addr len _ flags fd, v => mmapMaps s.mmapNext addr len flags fd v
  | .munmap _ _, _ => False

def Space.Visits (s : Space) : SpaceCall → Word → Prop
  | .poke va _, v => v = va
  | .brk addr, v => brkReleases s.brkStart s.brk addr v
  | .munmap addr len, v => munmapReleases addr len v
  | _, _ => False

structure Space.Enabled (s : Space) (c : SpaceCall) : Prop where
  user : ∀ v, s.Maps c v ∨ s.Visits c v → UserAddress v
  flags : ∀ vaddr flags, c = .page vaddr flags → IsFlags flags ∧ hasFlag flags ptePresent = true

def Space.MapsNew (s : Space) (c : SpaceCall) : Prop :=
  ∀ v, s.Maps c v → vmmGetPhysical s.vm s.pml4Phys v = 0#64

theorem Space.call_keeps {s : Space} {c : SpaceCall} {J : Set Word → Vm → Prop}
    (h : LoopKeeps s.pml4Phys (s.Maps c) (s.Visits c) J)
    (hpoke : ∀ v b, s.Visits c v → ∃ M, J M (pokeByte s.pml4Phys v b s.vm).2) (hc : s.Enabled c)
    (hJ : J ∅ s.vm) : ∃ M, J M (s.call c).vm := by
  cases c with
  | page vaddr flags =>
    have hfl := hc.flags vaddr flags rfl
    obtain ⟨hmapped, hfailed⟩ := h.map hJ rfl (Set.notMem_empty _) hfl Prod.mk.eta.symm
    by_cases hres : (mapFreshPage s.vm s.pml4Phys vaddr flags).1 = .mapped
    · exact ⟨_, hmapped hres⟩
    · exact (hfailed hres).imp fun _ ↦ And.right
  | poke va b => exact hpoke va b rfl
  | brk addr => exact LoopKeeps.sysBrk h hJ
  | mmap addr len prot flags fd => exact LoopKeeps.sysMmap prot h hJ
  | munmap addr len => exact LoopKeeps.sysMunmap h hJ

theorem Space.Maps.inj {s : Space} {c : SpaceCall} (hv : ∀ v, s.Maps c v → UserAddress v)
    {v w : Word} (hmv : s.Maps c v) (hmw : s.Maps c w) (h : pageOf v = pageOf w) : v = w := by
  cases c with
  | page vaddr flags => exact Eq.trans hmv (Eq.symm hmw)
  | poke va b => exact hmv.elim
  | brk addr =>
    obtain ⟨-, -, j, -, hj, rfl⟩ := hmv
    obtain ⟨-, -, k, -, hk, rfl⟩ := hmw
    have hle := pagesUpTo_le addr
    rw [pageOf_pageAddr (by omega), pageOf_pageAddr (by omega)] at h
    rw [h]
  | mmap addr len prot flags fd =>
    obtain ⟨hrej, j, hj, rfl⟩ := hmv
    obtain ⟨-, k, hk, rfl⟩ := hmw
    have hrange : ∀ k < (pagesUpTo len).toNat,
        UserAddress (rangePage (mmapAddr s.mmapNext addr flags) k) := fun k hk ↦
      hv _ ⟨hrej, k, hk, rfl⟩
    rw [rangePage_page hrange hj, rangePage_page hrange hk, Nat.add_left_cancel_iff] at h
    rw [h]
  | munmap addr len => exact hmv.elim

section Run

/-- The accounts of the process whose address space came out of `p₀`. -/
structure Space.Balanced (p₀ : Pmm) (roots : Set ℕ) (s : Space) : Prop where
  account : Account p₀ roots (pageOf s.pml4Phys) s.vm
  root : pageOf s.pml4Phys ∈ roots
  aligned : s.pml4Phys = pageAddr (pageOf s.pml4Phys)

variable {p₀ : Pmm} {roots : Set ℕ} {s : Space}

theorem Account.loopKeeps {c : SpaceCall} (hr : pageOf s.pml4Phys ∈ roots) (hc : s.Enabled c) :
    LoopKeeps s.pml4Phys (s.Maps c) (s.Visits c) fun M vm ↦
      Account p₀ roots (pageOf s.pml4Phys) vm ∧
        ∀ v, s.Maps c v → v ∉ M → Unmapped vm s.pml4Phys v where
  map := by
    rintro M vm vm' v flags res ⟨hacc, hnone⟩ hv hin hfl hm
    have hvu := hc.user v (.inl hv)
    have hacc' := mapFreshPage_account hacc hr hvu.pml4Index_lt hfl (hnone v hv hin) hm
    refine ⟨fun _ ↦ ⟨hacc', fun w hw hwM ↦ ?_⟩, fun _ ↦
      ⟨Set.univ, Set.subset_univ M, hacc', fun w _ hw ↦ (hw trivial).elim⟩⟩
    rw [Set.mem_insert_iff, not_or] at hwM
    have hwu := hc.user w (.inl hw)
    refine mapFreshPage_unmapped hacc hr hvu.pml4Index_lt hfl hm hwu.pml4Index_lt ?_
      (hnone w hw hwM.2)
    rw [Ne, siteOf_inj hwu hvu]
    exact fun h ↦ hwM.1 (Space.Maps.inj (fun v hv ↦ hc.user v (.inl hv)) hw hv h.2)
  undo := by
    rintro M vm v ⟨hacc, -⟩ hv -
    exact ⟨Set.univ, Set.subset_univ M,
      mmapUndoPage_account hacc hr (hc.user v (.inl hv)).pml4Index_lt,
      fun w _ hw ↦ (hw trivial).elim⟩
  release := by
    rintro M vm v ⟨hacc, -⟩ hv
    exact ⟨Set.univ, releasePage_account hacc hr (hc.user v (.inr hv)).pml4Index_lt,
      fun w _ hw ↦ (hw trivial).elim⟩

theorem Space.Balanced.call (h : s.Balanced p₀ roots) {c : SpaceCall} (hc : s.Enabled c)
    (hnew : s.MapsNew c) : (s.call c).Balanced p₀ roots := by
  obtain ⟨hacc, hr, haligned⟩ := h
  obtain ⟨role, hinv⟩ := hacc.inv
  have hnone : ∀ v, s.Maps c v → Unmapped s.vm s.pml4Phys v := fun v hv ↦
    vmmGetPhysical_zero hinv hr (hc.user v (.inl hv)).pml4Index_lt (hnew v hv)
  have hphys : (s.call c).pml4Phys = s.pml4Phys := by cases c <;> rfl
  suffices hcall : Account p₀ roots (pageOf s.pml4Phys) (s.call c).vm from
    ⟨hphys ▸ hcall, hphys ▸ hr, hphys ▸ haligned⟩
  obtain ⟨M, hM, -⟩ := Space.call_keeps (Account.loopKeeps hr hc)
    (fun v b hv ↦ ⟨Set.univ, pokeByte_account hacc hr (alignDown_user (hc.user v (.inr hv))) b,
      fun w _ hw ↦ (hw trivial).elim⟩) hc ⟨hacc, fun v hv _ ↦ hnone v hv⟩
  exact hM

/-- Frame conservation: however the process used its memory, its end returns the
allocator to the state in which its address space was made, provided that no call
maps a page that is mapped already. -/
theorem frames_conserved {vm₀ : Vm} {role : Roles} (hinv : Inv vm₀ roots role) {phys : Word}
    {vm₁ : Vm} (hcreate : vmmCreateAddressSpace vm₀ = (phys, vm₁)) (hne : phys ≠ 0#64)
    {brkStart brk mmapNext : Word} {s : Space}
    (hrun : Runs Space.call (fun s c ↦ s.Enabled c ∧ s.MapsNew c)
      ⟨vm₁, phys, brkStart, brk, mmapNext⟩ s) :
    (vmmFreeUserAddressSpace s.vm s.pml4Phys).pmm = vm₀.pmm := by
  obtain ⟨hacc, hphys⟩ := account_create hinv hcreate hne
  have h₀ : Space.Balanced vm₀.pmm (insert (pageOf phys) roots)
      ⟨vm₁, phys, brkStart, brk, mmapNext⟩ := ⟨hacc, Set.mem_insert _ _, hphys⟩
  have h := Runs.invariant hrun h₀ fun s c hs hc ↦ hs.call hc.1 hc.2
  exact h.account.destroy h.aligned h.root

def firstSpace : Space :=
  ⟨(vmmCreateAddressSpace bootVm).2, (vmmCreateAddressSpace bootVm).1, 0x1000#64, 0x1000#64,
    userMmapStart⟩

def fixedPage : SpaceCall :=
  .mmap 0x400000#64 0x1000#64 protWrite (mapFixed ||| mapAnonymous) (-1#64)

theorem fixedPage_maps (s : Space) (v : Word) : s.Maps fixedPage v ↔ v = 0x400000#64 := by
  have haddr : mmapAddr s.mmapNext 0x400000#64 (mapFixed ||| mapAnonymous) = 0x400000#64 :=
    if_pos (by decide)
  simp only [Space.Maps, fixedPage, mmapMaps, haddr,
    show mmapReject 0x400000#64 0x1000#64 (mapFixed ||| mapAnonymous) (-1#64) = none by decide,
    show (pagesUpTo 0x1000#64).toNat = 1 by decide, true_and, Nat.lt_one_iff, exists_eq_left]
  simp [rangePage]

theorem fixedPage_enabled (s : Space) : s.Enabled fixedPage := by
  refine ⟨?_, fun _ _ hc ↦ by simp [fixedPage] at hc⟩
  rintro v (hv | hv)
  · rw [(fixedPage_maps s v).mp hv]
    show (0x400000#64).toNat < _
    decide
  · exact absurd hv (by simp [Space.Visits, fixedPage])

theorem bootVm_inv : ∃ role, Inv bootVm ∅ role :=
  ⟨_, Inv.of_empty fun p f hp hf ↦ bootSys_boot.tables p f hp hf⟩

theorem firstSpace_created : firstSpace.pml4Phys ≠ 0#64 := by decide +kernel

/-- Mapping a fixed page twice loses the first frame: frame 4 stays in use. -/
theorem fixed_page_twice_leaks :
    (∃ role, Inv bootVm ∅ role) ∧
    vmmCreateAddressSpace bootVm = (firstSpace.pml4Phys, firstSpace.vm) ∧
    firstSpace.pml4Phys ≠ 0#64 ∧
    ∃ s, Runs Space.call Space.Enabled firstSpace s ∧
      bitmapIsUsed (vmmFreeUserAddressSpace s.vm s.pml4Phys).pmm.bitmap 4 = true ∧
      bitmapIsUsed bootVm.pmm.bitmap 4 = false ∧
      (vmmFreeUserAddressSpace s.vm s.pml4Phys).pmm.freePages ≠ bootVm.pmm.freePages := by
  refine ⟨bootVm_inv, rfl, firstSpace_created, (firstSpace.call fixedPage).call fixedPage, ?_, ?_⟩
  · exact Runs.step (Runs.step .refl (fixedPage_enabled _)) (fixedPage_enabled _)
  · decide +kernel

theorem frames_conserved_fixedPage :
    (vmmFreeUserAddressSpace (firstSpace.call fixedPage).vm
      (firstSpace.call fixedPage).pml4Phys).pmm = bootVm.pmm := by
  obtain ⟨role, hinv⟩ := bootVm_inv
  refine frames_conserved hinv
    (show vmmCreateAddressSpace bootVm = (firstSpace.pml4Phys, firstSpace.vm) from rfl)
    firstSpace_created (Runs.step .refl ⟨fixedPage_enabled _, fun v hv ↦ ?_⟩)
  rw [(fixedPage_maps firstSpace v).mp hv]
  decide +kernel

end Run

end SeedOS.System
