import SeedOS.Process.MmapUndo
import SeedOS.System.KernelHalf

namespace SeedOS.System

open Foundation Memory Process Function

def InRange (a len v : Word) : Prop := ∃ i < len.toNat, v = a + BitVec.ofNat 64 i

structure FlagsMatch (prot flags : Word) : Prop where
  user : hasFlag flags pteUser = true
  write : hasFlag flags pteWritable = hasFlag prot protWrite
  exec : hasFlag flags pteNx = !hasFlag prot protExec

/-- What `sys_mmap` owes to the caller when it returns the address `a`. -/
structure Delivered (roots : Set ℕ) (s s' : Vm) (pml4Phys a len prot : Word) (fixed : Prop) :
    Prop where
  user : ∀ v, InRange a len v → UserAddress v
  mapped : ∀ v, InRange a len v → ∃ f fl, pageMapping s' pml4Phys v = some (f, fl) ∧
    s.pmm.Available f ∧ s'.mem f = (fun _ ↦ 0#64) ∧ FlagsMatch prot fl
  distinct : ∀ v w f fl fl', InRange a len v → InRange a len w →
    pageMapping s' pml4Phys v = some (f, fl) → pageMapping s' pml4Phys w = some (f, fl') →
    pageOf v = pageOf w
  outside : ∀ other v, pageOf other ∈ roots → UserAddress v →
    ¬ (pageOf other = pageOf pml4Phys ∧ ∃ w, InRange a len w ∧ pageOf w = pageOf v) →
    pageMapping s' other v = pageMapping s other v
  kernel : ∀ other v, pageOf other ∈ roots → 256 ≤ (pml4Index v).val →
    translate s' other v = translate s other v
  unmapped : ¬ fixed → ∀ v, InRange a len v → pageMapping s pml4Phys v = none

section Vm

variable {s s' : Vm} {roots : Set ℕ} {role : Roles} {pml4Phys a len prot v : Word}

theorem mmapPageFlags_match (prot : Word) : FlagsMatch prot (mmapPageFlags prot) := by
  unfold mmapPageFlags
  cases hw : hasFlag prot protWrite <;> cases hx : hasFlag prot protExec
  all_goals
    refine ⟨by decide, ?_, ?_⟩
    · rw [hw]
      decide
    · rw [hx]
      decide

theorem inRange_iff (h : a.toNat + len.toNat ≤ userSpaceTop) :
    InRange a len v ↔ a.toNat ≤ v.toNat ∧ v.toNat < a.toNat + len.toNat := by
  unfold userSpaceTop at h
  constructor
  · rintro ⟨i, hi, rfl⟩
    rw [BitVec.toNat_add, BitVec.toNat_ofNat]
    omega
  · rintro ⟨hle, hlt⟩
    refine ⟨v.toNat - a.toNat, by omega, ?_⟩
    apply BitVec.eq_of_toNat_eq
    rw [BitVec.toNat_add, BitVec.toNat_ofNat]
    omega

theorem range_user_iff (hlen : len ≠ 0#64) :
    (∀ v, InRange a len v → UserAddress v) ↔ a.toNat + len.toNat ≤ userSpaceTop := by
  have hpos : 0 < len.toNat := by
    rw [Nat.pos_iff_ne_zero]
    intro hc
    exact hlen (BitVec.eq_of_toNat_eq hc)
  constructor
  · intro h
    by_contra hgt
    -- the first address of the range at or above the end
    have hv := h (a + BitVec.ofNat 64 (userSpaceTop - a.toNat))
      ⟨userSpaceTop - a.toNat, by omega, rfl⟩
    rw [UserAddress, BitVec.toNat_add, BitVec.toNat_ofNat] at hv
    unfold userSpaceTop at hv hgt
    omega
  · intro h v hv
    have := (inRange_iff h).mp hv
    unfold UserAddress
    omega

theorem page_mem_range (halign : a.toNat % 4096 = 0) (h : a.toNat + len.toNat ≤ userSpaceTop) :
    (∃ w, InRange a len w ∧ pageOf w = pageOf v) ↔
      pageOf a ≤ pageOf v ∧ pageOf v < pageOf a + roundedUp len := by
  constructor
  · rintro ⟨w, hw, hpage⟩
    obtain ⟨hle, hlt⟩ := (inRange_iff h).mp hw
    rw [← hpage]
    unfold pageOf roundedUp
    omega
  · rintro ⟨hle, hlt⟩
    obtain ⟨k, hk⟩ : ∃ k, pageOf v = pageOf a + k := ⟨pageOf v - pageOf a, by omega⟩
    have hkl : k < roundedUp len := by omega
    refine ⟨rangePage a k, (inRange_iff h).mpr (rangePage_mem h hkl), ?_⟩
    unfold userSpaceTop at h
    unfold roundedUp at hkl
    rw [hk, pageOf, rangePage_toNat (by omega), pageOf]
    omega

theorem Delivered.of_run (h : Inv s roots role) (hr : pageOf pml4Phys ∈ roots)
    (halign : a.toNat % 4096 = 0) (huser : a.toNat + len.toNat ≤ userSpaceTop)
    (hrun : MapsFresh pml4Phys (mmapPageFlags prot)
      (addresses (rangePage a) (roundedUp len) 0) s s') {fixed : Prop}
    (hnone : ¬ fixed → ∀ v, InRange a len v → pageMapping s pml4Phys v = none) :
    Delivered roots s s' pml4Phys a len prot fixed := by
  have hfl := mmapPageFlags_spec prot
  have hpages : ∀ k < roundedUp len, UserAddress (rangePage a k) := by
    intro k hk
    have := rangePage_mem huser hk
    unfold UserAddress
    omega
  obtain ⟨role', hfresh⟩ := hrun.spec h hr hfl fun v hv ↦ by
    obtain ⟨k, hk, rfl⟩ := mem_addresses.mp hv
    rw [Nat.zero_add]
    exact (hpages k hk).pml4Index_lt
  have husr : ∀ v, InRange a len v → UserAddress v := by
    intro v hv
    have := (inRange_iff huser).mp hv
    unfold UserAddress
    omega
  have hsite : ∀ v, InRange a len v → siteOf (pageOf pml4Phys) v ∈
      sitesOf pml4Phys (addresses (rangePage a) (roundedUp len) 0) := by
    intro v hv
    rw [mem_sitesOf_range hpages (husr v hv)]
    exact ⟨rfl, (page_mem_range halign huser).mp ⟨v, hv, rfl⟩⟩
  refine ⟨husr, fun v hv ↦ ?_, fun v w f fl fl' hv hw hf hf' ↦ ?_, fun other v ho hv hne ↦ ?_,
    fun other v ho hv ↦ ?_, hnone⟩
  · obtain ⟨f, hav, hmap, hzero⟩ := hfresh.mapping hfl (hsite v hv)
    exact ⟨f, _, hmap, hav, hzero, mmapPageFlags_match prot⟩
  · rw [pageMapping_eq, Option.map_eq_some_iff] at hf hf'
    obtain ⟨g, hg, hpair⟩ := hf
    obtain ⟨g', hg', hpair'⟩ := hf'
    obtain ⟨rfl, -⟩ := Prod.mk.inj hpair
    obtain ⟨rfl, -⟩ := Prod.mk.inj hpair'
    have heq := hfresh.sole _ (hsite v hv) _ (siteOf_valid hr (husr w hw).pml4Index_lt) _ hg hg'
    exact ((siteOf_inj (husr w hw) (husr v hv) _ _).mp heq).2.symm
  · apply pageMapping_congr
    refine hfresh.outside _ (siteOf_valid ho hv.pml4Index_lt) fun hc ↦ hne ?_
    rw [mem_sitesOf_range hpages hv] at hc
    exact ⟨hc.1, (page_mem_range halign huser).mpr hc.2⟩
  · exact translate_congr_kernel h hfresh.inv hfresh.holds.kernel
      (fun g hg ↦ hfresh.holds.mem hg) ho ho hv

end Vm

section Bump

def Sys.BumpAligned (s : Sys) : Prop := s.mmapNext.toNat % 4096 = 0

theorem sysMmap_aligned {s : Vm} {pml4Phys mmapNext addr len prot flags fd : Word}
    (h : mmapNext.toNat % 4096 = 0) :
    (sysMmap s pml4Phys mmapNext addr len prot flags fd).2.1.toNat % 4096 = 0 := by
  unfold sysMmap
  cases mmapReject addr len flags fd with
  | some err => exact h
  | none =>
    have hnext : (if mmapFixed addr flags then mmapNext
        else mmapNext + pagesUpTo len * 4096#64).toNat % 4096 = 0 := by
      split_ifs
      · exact h
      · rw [BitVec.toNat_add, BitVec.toNat_mul, show (4096#64).toNat = 4096 from rfl]
        omega
    dsimp only
    rcases mmapPages pml4Phys (mmapAddr mmapNext addr flags) (mmapPageFlags prot)
      (pagesUpTo len).toNat 0 s with ⟨_ | _, s'⟩
    all_goals exact hnext

theorem exec_bumpAligned {s : Sys} (h : s.BumpAligned) (a : Act) : (exec s a).BumpAligned := by
  cases a with
  | kernelHeap vm taken => exact h
  | create =>
    simp only [exec]
    split_ifs <;> exact h
  | elfLoad pid data size =>
    refine on_cases _ h fun p _ ↦ ?_
    dsimp only
    split_ifs <;> exact h
  | fork pid =>
    refine on_cases _ h fun p _ ↦ ?_
    simp only [Sys.fork]
    split_ifs <;> exact h
  | forkUndo dst =>
    simp only [exec]
    split_ifs <;> exact h
  | mmap pid addr len prot flags fd => exact on_cases _ h fun p _ ↦ sysMmap_aligned h
  | setupStack | start | write | cowFault | brk | munmap | exit | destroy =>
    exact on_cases _ h fun p _ ↦ h

theorem bump_aligned {s₀ s : Sys} (hboot : Boot s₀) {enabled : Sys → Act → Prop}
    (hrun : Runs exec enabled s₀ s) : s.BumpAligned := by
  refine hrun.invariant ?_ fun _ a h _ ↦ exec_bumpAligned h a
  rw [Sys.BumpAligned, hboot.mmapNext]
  decide

end Bump

/-- `sys_mmap` delivers what was asked, in every state of the system, exactly if the range that
it returns lies in the user half and, without `MAP_FIXED`, was not mapped: it checks neither. -/
theorem mmap_delivers (s₀ s : Sys) (hboot : Boot s₀) (hrun : Runs exec StaysInUserHalf s₀ s)
    {p : Proc} (hp : p ∈ s.procs) (addr len prot flags fd : Word)
    (hret : ¬ IsErrno (sysMmap s.vm p.pml4Phys s.mmapNext addr len prot flags fd).1) :
    Delivered s.roots s.vm (sysMmap s.vm p.pml4Phys s.mmapNext addr len prot flags fd).2.2
        p.pml4Phys (sysMmap s.vm p.pml4Phys s.mmapNext addr len prot flags fd).1 len prot
        (mmapFixed addr flags) ↔
      (mmapAddr s.mmapNext addr flags).toNat + len.toNat ≤ userSpaceTop ∧
      (¬ mmapFixed addr flags → ∀ v, InRange s.mmapNext len v →
        pageMapping s.vm p.pml4Phys v = none) := by
  obtain ⟨⟨a, next, vm⟩, hmap⟩ :
    ∃ x, sysMmap s.vm p.pml4Phys s.mmapNext addr len prot flags fd = x := ⟨_, rfl⟩
  rw [hmap] at hret ⊢
  obtain ⟨hrej, rfl, hmaps⟩ := sysMmap_mapped hmap hret
  dsimp only
  have hinv : SysInv s := hrun.invariant (SysInv.of_boot hboot) fun _ a h ha ↦
    exec_inv h a ha.1 ha.2.1 ha.2.2
  obtain ⟨role, hrole, -⟩ := hinv.frames
  have hlen : len ≠ 0#64 := by
    rintro rfl
    simp [mmapReject] at hrej
  have hbump : ¬ mmapFixed addr flags → mmapAddr s.mmapNext addr flags = s.mmapNext :=
    fun hfixed ↦ if_neg hfixed
  constructor
  · intro h
    refine ⟨(range_user_iff hlen).mp h.user, fun hfixed v hv ↦ h.unmapped hfixed v ?_⟩
    rwa [hbump hfixed]
  · rintro ⟨huser, hnone⟩
    rw [pagesUpTo_toNat (by omega)] at hmaps
    refine Delivered.of_run hrole (root_of_proc hp)
      (mmapAddr_aligned hrej (bump_aligned hboot hrun)) huser hmaps fun hfixed v hv ↦ ?_
    rw [hbump hfixed] at hv
    exact hnone hfixed v hv

section Example

theorem created_runs : Runs exec StaysInUserHalf bootSys created :=
  Runs.step .refl ⟨trivial, trivial, trivial⟩

def firstProc : Proc := ⟨1#64, 0x3000#64, 0#64, 0#64, .embryo⟩

theorem created_procs : firstProc ∈ created.procs := by
  have h : created.procs = [firstProc] := by decide +kernel
  rw [h]
  exact List.mem_singleton_self _

theorem firstPage_range {v : Word} (h : InRange userMmapStart 4096#64 v) :
    UserAddress v ∧ pageOf v = pageOf userMmapStart := by
  obtain ⟨hle, hlt⟩ := (inRange_iff (by decide)).mp h
  rw [show userMmapStart.toNat = 0x100000000 from rfl] at hle hlt
  rw [show (4096#64).toNat = 4096 from rfl] at hlt
  unfold UserAddress userSpaceTop pageOf
  rw [show userMmapStart.toNat = 0x100000000 from rfl]
  omega

/-- The first page of the first process. -/
theorem mmap_delivers_created :
    Boot bootSys ∧ Runs exec StaysInUserHalf bootSys created ∧ firstProc ∈ created.procs ∧
    Delivered created.roots created.vm
      (sysMmap created.vm 0x3000#64 created.mmapNext 0#64 4096#64 protWrite mapAnonymous
        (-1#64)).2.2 0x3000#64
      (sysMmap created.vm 0x3000#64 created.mmapNext 0#64 4096#64 protWrite mapAnonymous
        (-1#64)).1 4096#64 protWrite (mmapFixed 0#64 mapAnonymous) := by
  have hnext : created.mmapNext = userMmapStart := by decide +kernel
  refine ⟨bootSys_boot, created_runs, created_procs, ?_⟩
  refine (mmap_delivers _ _ bootSys_boot created_runs created_procs 0#64 4096#64 protWrite
    mapAnonymous (-1#64) (by decide +kernel)).mpr ⟨by decide +kernel, fun _ v hv ↦ ?_⟩
  rw [hnext] at hv
  obtain ⟨huser, hpage⟩ := firstPage_range hv
  rw [pageMapping_page _ _ huser (by decide) hpage]
  decide +kernel

/-- The first process has mapped a page with `MAP_FIXED` where the bump allocator stands. -/
def fixedMapped : Sys :=
  exec created (.mmap 1#64 userMmapStart 4096#64 protWrite (mapFixed ||| mapAnonymous) (-1#64))

theorem fixedMapped_runs : Runs exec StaysInUserHalf bootSys fixedMapped := by
  refine created_runs.step ⟨created_alive, ?_, trivial⟩
  rintro v ⟨-, k, hk, rfl⟩
  have hone : (pagesUpTo 4096#64).toNat = 1 := by decide
  obtain rfl : k = 0 := by omega
  decide

/-- The next page without `MAP_FIXED` replaces the page that is mapped there. -/
theorem mmap_replaces_page :
    Boot bootSys ∧ Runs exec StaysInUserHalf bootSys fixedMapped ∧ firstProc ∈ fixedMapped.procs ∧
    (sysMmap fixedMapped.vm 0x3000#64 fixedMapped.mmapNext 0#64 4096#64 protWrite mapAnonymous
      (-1#64)).1 = userMmapStart ∧
    pageMapping fixedMapped.vm 0x3000#64 userMmapStart ≠ none ∧
    ¬ Delivered fixedMapped.roots fixedMapped.vm
      (sysMmap fixedMapped.vm 0x3000#64 fixedMapped.mmapNext 0#64 4096#64 protWrite mapAnonymous
        (-1#64)).2.2 0x3000#64
      (sysMmap fixedMapped.vm 0x3000#64 fixedMapped.mmapNext 0#64 4096#64 protWrite mapAnonymous
        (-1#64)).1 4096#64 protWrite (mmapFixed 0#64 mapAnonymous) := by
  have hprocs : fixedMapped.procs = [firstProc] := by decide +kernel
  have hret : (sysMmap fixedMapped.vm 0x3000#64 fixedMapped.mmapNext 0#64 4096#64 protWrite
      mapAnonymous (-1#64)).1 = userMmapStart := by decide +kernel
  have hbefore : pageMapping fixedMapped.vm 0x3000#64 userMmapStart ≠ none := by decide +kernel
  refine ⟨bootSys_boot, fixedMapped_runs, by rw [hprocs]; exact List.mem_singleton_self _, hret,
    hbefore, fun h ↦ hbefore (h.unmapped (by decide) _ ?_)⟩
  rw [hret]
  exact ⟨0, by decide, by decide⟩

end Example

end SeedOS.System
