import SeedOS.Memory.CopySpec
import SeedOS.Memory.TableChain
import SeedOS.Process.PageLoops

namespace SeedOS.Process

open Foundation Memory Function

/-- A page that user code can write, at once or after a COW fault. -/
def HeapPage (s : Vm) (pml4Phys v : Word) : Prop :=
  ∃ f fl, pageMapping s pml4Phys v = some (f, fl) ∧ hasFlag fl pteUser = true ∧
    (hasFlag fl pteWritable = true ∨ hasFlag fl pteCow = true)

/-- Every page of `[brkStart, brk)` is a heap page of the user half. -/
def HeapMapped (s : Vm) (pml4Phys brkStart brk : Word) : Prop :=
  ∀ v, brkStart.toNat ≤ v.toNat → v.toNat < brk.toNat → UserAddress v ∧ HeapPage s pml4Phys v

def roundedUp (addr : Word) : ℕ := (addr.toNat + 4095) / 4096

/-- A process and its heap. The loader rounds `brk_start` up to a page. -/
structure HasHeap (roots : Set ℕ) (role : Roles) (s : Vm) (pml4Phys brkStart brk : Word) :
    Prop where
  inv : Inv s roots role
  root : pageOf pml4Phys ∈ roots
  aligned : brkStart.toNat % 4096 = 0
  start_le : brkStart.toNat ≤ brk.toNat
  heap : HeapMapped s pml4Phys brkStart brk

/-- What `sys_brk` owes to the process, when it turns `s` into `s'` and the break from
`oldBrk` into `brk`. -/
structure HeapOnly (roots : Set ℕ) (s s' : Vm) (pml4Phys brkStart oldBrk brk ret : Word) :
    Prop where
  returns : ret = brk
  above : brkStart.toNat ≤ brk.toNat
  -- pages that do not lie between the rounded breaks, in this and in every other address space
  outside : ∀ other v, pageOf other ∈ roots → UserAddress v →
    ¬ (pageOf other = pageOf pml4Phys ∧ min (roundedUp oldBrk) (roundedUp brk) ≤ pageOf v ∧
      pageOf v < max (roundedUp oldBrk) (roundedUp brk)) →
    pageMapping s' other v = pageMapping s other v
  kernel : ∀ other v, pageOf other ∈ roots → 256 ≤ (pml4Index v).val →
    translate s' other v = translate s other v
  -- pages that are mapped, but are not pages of the heap
  others : ∀ v, UserAddress v → ¬ (pageOf brkStart ≤ pageOf v ∧ pageOf v < roundedUp oldBrk) →
    pageMapping s pml4Phys v ≠ none → pageMapping s' pml4Phys v = pageMapping s pml4Phys v
  heap : HeapMapped s' pml4Phys brkStart brk

/-- The growth that the request asks for does not run out of memory. -/
def BrkFits (s : Vm) (pml4Phys oldBrk brk : Word) : Prop :=
  (brkGrow pml4Phys ((pagesUpTo brk).toNat - (pagesUpTo oldBrk).toNat)
    (pagesUpTo oldBrk).toNat s).1 = true

instance BrkFits.decidable (s : Vm) (pml4Phys oldBrk brk : Word) :
    Decidable (BrkFits s pml4Phys oldBrk brk) :=
  inferInstanceAs (Decidable (_ = _))

section Pages

variable {s s' : Vm} {pml4Phys v w : Word}

theorem pagesUpTo_toNat {addr : Word} (h : addr.toNat ≤ userSpaceTop) :
    (pagesUpTo addr).toNat = roundedUp addr := by
  unfold userSpaceTop at h
  rw [pagesUpTo, roundedUp, BitVec.toNat_udiv, BitVec.toNat_sub, BitVec.toNat_add,
    show (4096#64).toNat = 4096 from rfl, show (1#64).toNat = 1 from rfl]
  omega

theorem roundedUp_le {addr : Word} (h : addr.toNat ≤ userSpaceTop) : roundedUp addr ≤ 2 ^ 35 := by
  unfold userSpaceTop at h
  unfold roundedUp
  omega

theorem userAddress_page {p : ℕ} (h : p < 2 ^ 35) : UserAddress (pageAddr p) := by
  rw [UserAddress, userSpaceTop, pageAddr_toNat (by omega)]
  omega

theorem pageMapping_page (s : Vm) (pml4Phys : Word) (hv : UserAddress v) (hw : UserAddress w)
    (h : pageOf v = pageOf w) : pageMapping s pml4Phys v = pageMapping s pml4Phys w := by
  rw [pageMapping_eq, pageMapping_eq, (siteOf_inj hv hw (pageOf pml4Phys) _).mpr ⟨rfl, h⟩]

theorem pageMapping_congr {other : Word}
    (h : leafEntry s'.mem (siteOf (pageOf other) v) = leafEntry s.mem (siteOf (pageOf other) v)) :
    pageMapping s' other v = pageMapping s other v := by
  rw [pageMapping_eq, pageMapping_eq, h]

theorem mem_sitesOf_pages {n page : ℕ} (hn : page + n ≤ 2 ^ 35) (hv : UserAddress v) {r : ℕ} :
    siteOf r v ∈ sitesOf pml4Phys (addresses pageAddr n page) ↔
      r = pageOf pml4Phys ∧ page ≤ pageOf v ∧ pageOf v < page + n := by
  refine mem_sitesOf_addresses (fun k hk ↦ ⟨userAddress_page (by omega), ?_⟩) hv
  exact pageOf_pageAddr (by omega)

theorem HeapMapped.user {brkStart brk : Word} (h : HeapMapped s pml4Phys brkStart brk)
    (hstart : brkStart.toNat < brk.toNat) : brk.toNat ≤ userSpaceTop := by
  have hlast : (brk - 1#64).toNat = brk.toNat - 1 := by
    rw [BitVec.toNat_sub_of_le (by rw [BitVec.le_def, show (1#64).toNat = 1 from rfl]; omega)]
    rfl
  obtain ⟨huser, -⟩ := h (brk - 1#64) (by omega) (by omega)
  unfold UserAddress at huser
  omega

theorem HasHeap.user {roots : Set ℕ} {role : Roles} {brkStart brk : Word}
    (h : HasHeap roots role s pml4Phys brkStart brk) (hstart : brkStart.toNat ≤ userSpaceTop) :
    brk.toNat ≤ userSpaceTop := by
  by_cases hlt : brkStart.toNat < brk.toNat
  · exact h.heap.user hlt
  · omega

theorem HasHeap.page {roots : Set ℕ} {role : Roles} {brkStart brk : Word}
    (h : HasHeap roots role s pml4Phys brkStart brk) (huser : brk.toNat ≤ userSpaceTop)
    (hle : brkStart.toNat ≤ v.toNat) (hlt : pageOf v < roundedUp brk) :
    UserAddress v ∧ HeapPage s pml4Phys v := by
  have haligned := h.aligned
  have htop := roundedUp_le huser
  unfold roundedUp at hlt htop
  have hv : UserAddress v := by
    unfold UserAddress userSpaceTop
    unfold pageOf at hlt
    omega
  have hstart : (pageAddr (pageOf v)).toNat = v.toNat / 4096 * 4096 := by
    rw [pageAddr_toNat (by unfold pageOf; omega), pageOf]
  obtain ⟨hu, f, fl, hmap, hrest⟩ := h.heap (pageAddr (pageOf v)) (by omega) (by
    unfold pageOf at hlt
    omega)
  refine ⟨hv, f, fl, ?_, hrest⟩
  rw [← hmap]
  apply pageMapping_page s pml4Phys hv hu
  rw [pageOf_pageAddr (by unfold pageOf; omega)]

end Pages

section Grow

variable {s s' : Vm} {roots : Set ℕ} {role role' : Roles} {pml4Phys brkStart oldBrk brk v : Word}

theorem FreshPages.mapping {flags : Word} {S : Set Site}
    (h : FreshPages roots s s' role role' flags S) (hfl : MapFlags flags)
    (hv : siteOf (pageOf pml4Phys) v ∈ S) :
    ∃ f, s.pmm.Available f ∧ pageMapping s' pml4Phys v = some (f, flags) ∧
      s'.mem f = fun _ ↦ 0#64 := by
  obtain ⟨f, hav, -, hzero, hleaf⟩ := h.inside _ hv
  refine ⟨f, hav, ?_, hzero⟩
  rw [pageMapping_eq, hleaf, entryNext_entry hav.lt hfl, Option.map_some, rest_entry hav.lt hfl.1]

theorem HasHeap.grown (h : HasHeap roots role s pml4Phys brkStart oldBrk)
    (hbrk : brk.toNat ≤ userSpaceTop) (hle : roundedUp oldBrk ≤ roundedUp brk)
    (hrun : MapsFresh pml4Phys (ptePresent ||| pteWritable ||| pteUser)
      (addresses pageAddr (roundedUp brk - roundedUp oldBrk) (roundedUp oldBrk)) s s') :
    ∃ role', FreshPages roots s s' role role' (ptePresent ||| pteWritable ||| pteUser)
      (sitesOf pml4Phys (addresses pageAddr (roundedUp brk - roundedUp oldBrk)
        (roundedUp oldBrk))) := by
  have htop := roundedUp_le hbrk
  refine hrun.spec h.inv h.root (by decide) fun v hv ↦ ?_
  obtain ⟨k, hk, rfl⟩ := mem_addresses.mp hv
  exact (userAddress_page (by omega)).pml4Index_lt

theorem HeapOnly.grow (h : HasHeap roots role s pml4Phys brkStart oldBrk)
    (hold : oldBrk.toNat ≤ userSpaceTop) (hbrk : brk.toNat ≤ userSpaceTop)
    (hstart : brkStart.toNat ≤ brk.toNat) (hle : roundedUp oldBrk ≤ roundedUp brk)
    (hrun : MapsFresh pml4Phys (ptePresent ||| pteWritable ||| pteUser)
      (addresses pageAddr (roundedUp brk - roundedUp oldBrk) (roundedUp oldBrk)) s s')
    (hnone : ∀ page, roundedUp oldBrk ≤ page → page < roundedUp brk →
      pageMapping s pml4Phys (pageAddr page) = none) :
    HeapOnly roots s s' pml4Phys brkStart oldBrk brk brk := by
  have htop := roundedUp_le hbrk
  obtain ⟨role', hfresh⟩ := h.grown hbrk hle hrun
  have hsites : ∀ {v : Word} {r : ℕ}, UserAddress v → (siteOf r v ∈ sitesOf pml4Phys
      (addresses pageAddr (roundedUp brk - roundedUp oldBrk) (roundedUp oldBrk)) ↔
      r = pageOf pml4Phys ∧ roundedUp oldBrk ≤ pageOf v ∧ pageOf v < roundedUp brk) := by
    intro v r hv
    rw [mem_sitesOf_pages (by omega) hv, Nat.add_sub_cancel' hle]
  -- a page outside the range keeps its entry
  have houtside : ∀ other v, pageOf other ∈ roots → UserAddress v →
      ¬ (pageOf other = pageOf pml4Phys ∧ roundedUp oldBrk ≤ pageOf v ∧
        pageOf v < roundedUp brk) → pageMapping s' other v = pageMapping s other v := by
    intro other v ho hv hne
    apply pageMapping_congr
    exact hfresh.outside _ (siteOf_valid ho hv.pml4Index_lt) (mt (hsites hv).mp hne)
  refine ⟨rfl, hstart, fun other v ho hv hne ↦ houtside other v ho hv ?_, fun other v ho hv ↦ ?_,
    fun v hv hheap hmapped ↦ houtside pml4Phys v h.root hv fun hc ↦ hmapped ?_, fun v hv hlt ↦ ?_⟩
  · rwa [min_eq_left hle, max_eq_right hle] at hne
  · exact translate_congr_kernel h.inv hfresh.inv hfresh.holds.kernel (fun g hg ↦ hfresh.holds.mem hg)
      ho ho hv
  · rw [← hnone _ hc.2.1 hc.2.2]
    apply pageMapping_page s pml4Phys hv (userAddress_page (by omega))
    rw [pageOf_pageAddr (by omega)]
  · have huser : UserAddress v := by
      unfold UserAddress
      omega
    refine ⟨huser, ?_⟩
    by_cases hin : pageOf v < roundedUp oldBrk
    · obtain ⟨-, f, fl, hmap, hrest⟩ := h.page hold hv hin
      refine ⟨f, fl, ?_, hrest⟩
      rw [houtside pml4Phys v h.root huser (by omega), hmap]
    · have hnew : pageOf v < roundedUp brk := by
        unfold pageOf roundedUp
        omega
      obtain ⟨f, -, hmap, -⟩ := hfresh.mapping (by decide)
        ((hsites huser).mpr ⟨rfl, by omega, hnew⟩)
      exact ⟨f, _, hmap, by decide, by decide⟩

end Grow

section Shrink

variable {s t s' : Vm} {roots : Set ℕ} {role : Roles} {pml4Phys brkStart oldBrk brk v : Word}

theorem translate_mem (hmem : t.mem = s.mem) (pml4Phys v : Word) :
    translate t pml4Phys v = translate s pml4Phys v :=
  translate_congr (by rw [hmem]) fun _ _ _ _ ↦ by rw [hmem]

theorem HeapOnly.shrink (h : HasHeap roots role s pml4Phys brkStart oldBrk)
    (hold : oldBrk.toNat ≤ userSpaceTop) (hstart : brkStart.toNat ≤ brk.toNat)
    (hlt : roundedUp brk < roundedUp oldBrk)
    (hs : s' = brkShrink pml4Phys (roundedUp oldBrk - roundedUp brk) (roundedUp brk) s) :
    HeapOnly roots s s' pml4Phys brkStart oldBrk brk brk := by
  have htop := roundedUp_le hold
  have haligned := h.aligned
  obtain ⟨t, ht⟩ := releaseLoop_released (releasePage_unmaps h.root) h.root pageAddr
    (roundedUp oldBrk - roundedUp brk) (roundedUp brk) rfl h.inv fun v hv ↦ by
      obtain ⟨k, hk, rfl⟩ := mem_addresses.mp hv
      exact (userAddress_page (by omega)).pml4Index_lt
  have hmem : t.mem = s'.mem := hs ▸ ht.mem
  have houtside : ∀ other v, pageOf other ∈ roots → UserAddress v →
      ¬ (pageOf other = pageOf pml4Phys ∧ roundedUp brk ≤ pageOf v ∧
        pageOf v < roundedUp oldBrk) → pageMapping s' other v = pageMapping s other v := by
    intro other v ho hv hne
    apply pageMapping_congr
    rw [← hmem]
    refine ht.outside _ (siteOf_valid ho hv.pml4Index_lt) (mt (fun hc ↦ ?_) hne)
    rwa [mem_sitesOf_pages (by omega) hv, Nat.add_sub_cancel' hlt.le] at hc
  have hpage : pageOf brkStart ≤ roundedUp brk := by
    unfold pageOf roundedUp
    omega
  refine ⟨rfl, hstart, fun other v ho hv hne ↦ houtside other v ho hv ?_, fun other v ho hv ↦ ?_,
    fun v hv hheap _ ↦ houtside pml4Phys v h.root hv ?_, fun v hv hltv ↦ ?_⟩
  · rwa [min_eq_right hlt.le, max_eq_left hlt.le] at hne
  · rw [← translate_mem hmem]
    exact translate_congr_kernel h.inv ht.inv ht.keeps.kernel (fun g hg ↦ ht.keeps.mem (.inr hg))
      ho ho hv
  · omega
  · have hnew : pageOf v < roundedUp brk := by
      unfold pageOf roundedUp
      omega
    obtain ⟨huser, f, fl, hmap, hrest⟩ := h.page hold hv (by omega)
    refine ⟨huser, f, fl, ?_, hrest⟩
    rw [houtside pml4Phys v h.root huser (by omega), hmap]

theorem HeapOnly.same (h : HasHeap roots role s pml4Phys brkStart oldBrk) :
    HeapOnly roots s s pml4Phys brkStart oldBrk oldBrk oldBrk :=
  ⟨rfl, h.start_le, fun _ _ _ _ _ ↦ rfl, fun _ _ _ _ ↦ rfl, fun _ _ _ _ ↦ rfl, h.heap⟩

end Shrink

/-- The requests that `sys_brk` can honour: those that change nothing, and those that stay
in the user half and grow into pages that are not mapped. -/
def HeapRequest (s : Vm) (pml4Phys brkStart oldBrk brk : Word) : Prop :=
  brk = 0#64 ∨ brk.toNat < brkStart.toNat ∨ brk = oldBrk ∨
    (brk.toNat ≤ userSpaceTop ∧ ∀ page, roundedUp oldBrk ≤ page → page < roundedUp brk →
      pageMapping s pml4Phys (pageAddr page) = none)

section Brk

variable {s s' : Vm} {roots : Set ℕ} {role : Roles} {pml4Phys brkStart oldBrk brk : Word}

theorem sysBrk_rejected (h : brk = 0#64 ∨ brk < brkStart) :
    sysBrk s pml4Phys brkStart oldBrk brk = (oldBrk, oldBrk, s) := by
  unfold sysBrk
  split_ifs with h₀ h₁
  · rfl
  · rfl
  · exact absurd h (not_or.mpr ⟨h₀, h₁⟩)

theorem sysBrk_accepted (h : ¬ (brk = 0#64 ∨ brk < brkStart))
    (hfits : BrkFits s pml4Phys oldBrk brk) : ∃ s', sysBrk s pml4Phys brkStart oldBrk brk =
      (brk, brk, s') ∧
    ((pagesUpTo oldBrk).toNat ≤ (pagesUpTo brk).toNat →
      MapsFresh pml4Phys (ptePresent ||| pteWritable ||| pteUser)
        (addresses pageAddr ((pagesUpTo brk).toNat - (pagesUpTo oldBrk).toNat)
          (pagesUpTo oldBrk).toNat) s s') ∧
    ((pagesUpTo brk).toNat < (pagesUpTo oldBrk).toNat →
      s' = brkShrink pml4Phys ((pagesUpTo oldBrk).toNat - (pagesUpTo brk).toNat)
        (pagesUpTo brk).toNat s) := by
  obtain ⟨h₀, h₁⟩ := not_or.mp h
  simp only [sysBrk, if_neg h₀, if_neg h₁]
  split_ifs with hgrow hshrink
  · unfold BrkFits at hfits
    cases hg : brkGrow pml4Phys ((pagesUpTo brk).toNat - (pagesUpTo oldBrk).toNat)
        (pagesUpTo oldBrk).toNat s with
    | mk ok s' =>
      rw [hg] at hfits
      dsimp only at hfits
      subst hfits
      exact ⟨s', rfl, fun _ ↦ (mapLoop_iff _ _).mp hg, fun hlt ↦ by omega⟩
  · exact ⟨_, rfl, fun hle ↦ by omega, fun _ ↦ rfl⟩
  · refine ⟨s, rfl, fun _ ↦ ?_, fun hlt ↦ by omega⟩
    rw [Nat.sub_eq_zero_of_le (by omega)]
    exact .nil s

theorem unmapped_of_heapOnly (h : HasHeap roots role s pml4Phys brkStart oldBrk)
    (hbrk : brk.toNat ≤ userSpaceTop) (hle : roundedUp oldBrk ≤ roundedUp brk)
    (hrun : MapsFresh pml4Phys (ptePresent ||| pteWritable ||| pteUser)
      (addresses pageAddr (roundedUp brk - roundedUp oldBrk) (roundedUp oldBrk)) s s')
    (honly : HeapOnly roots s s' pml4Phys brkStart oldBrk brk brk) {page : ℕ}
    (hpage : roundedUp oldBrk ≤ page) (hlt : page < roundedUp brk) :
    pageMapping s pml4Phys (pageAddr page) = none := by
  by_contra hmapped
  have htop := roundedUp_le hbrk
  have huser := userAddress_page (show page < 2 ^ 35 by omega)
  have hnum : pageOf (pageAddr page) = page := pageOf_pageAddr (by omega)
  obtain ⟨role', hfresh⟩ := h.grown hbrk hle hrun
  have hsame := honly.others _ huser (by omega) hmapped
  obtain ⟨f, hav, hmap, -⟩ := hfresh.mapping (by decide)
    ((mem_sitesOf_pages (by omega) huser).mpr ⟨rfl, by omega, by omega⟩)
  rw [hmap, pageMapping_eq, eq_comm, Option.map_eq_some_iff] at hsame
  obtain ⟨g, hg, hpair⟩ := hsame
  obtain ⟨rfl, -⟩ := Prod.mk.inj hpair
  have hdata := h.inv.leafEntry_data (siteOf_valid h.root huser.pml4Index_lt) hg
  simp [h.inv.free_of_available hav] at hdata

end Brk

/-- `sys_brk` touches only the heap exactly for the requests that it can honour: it checks
neither the end of the user half nor what is mapped above the break. -/
theorem brk_heap_only {s : Vm} {roots : Set ℕ} {role : Roles} {pml4Phys brkStart oldBrk : Word}
    (brk : Word) (h : HasHeap roots role s pml4Phys brkStart oldBrk)
    (hfits : BrkFits s pml4Phys oldBrk brk) :
    HeapOnly roots s (sysBrk s pml4Phys brkStart oldBrk brk).2.2 pml4Phys brkStart oldBrk
        (sysBrk s pml4Phys brkStart oldBrk brk).2.1 (sysBrk s pml4Phys brkStart oldBrk brk).1 ↔
      HeapRequest s pml4Phys brkStart oldBrk brk := by
  by_cases hrej : brk = 0#64 ∨ brk < brkStart
  · rw [sysBrk_rejected hrej]
    refine iff_of_true (HeapOnly.same h) ?_
    rw [BitVec.lt_def] at hrej
    exact hrej.imp_right .inl
  obtain ⟨s', heq, hgrow, hshrink⟩ := sysBrk_accepted hrej hfits
  rw [heq]
  dsimp only
  rw [BitVec.lt_def, not_or, not_lt] at hrej
  by_cases hsame : brk = oldBrk
  · subst hsame
    have hnil := hgrow le_rfl
    rw [Nat.sub_self] at hnil
    cases hnil
    exact iff_of_true (HeapOnly.same h) (.inr (.inr (.inl rfl)))
  have hstart := h.start_le
  have hne : brk.toNat ≠ oldBrk.toNat := fun hc ↦ hsame (BitVec.eq_of_toNat_eq hc)
  constructor
  · intro honly
    have hbrk : brk.toNat ≤ userSpaceTop := by
      by_cases hlt : brkStart.toNat < brk.toNat
      · exact honly.heap.user hlt
      · have := h.heap.user (by omega)
        omega
    have hold := h.user (hrej.2.trans hbrk)
    rw [pagesUpTo_toNat hbrk, pagesUpTo_toNat hold] at hgrow
    refine .inr (.inr (.inr ⟨hbrk, fun page hpage hlt ↦ ?_⟩))
    exact unmapped_of_heapOnly h hbrk (by omega) (hgrow (by omega)) honly hpage hlt
  · rintro (hz | hlt | hc | ⟨hbrk, hnone⟩)
    · exact absurd hz hrej.1
    · omega
    · exact absurd hc hsame
    · have hold := h.user (hrej.2.trans hbrk)
      rw [pagesUpTo_toNat hbrk, pagesUpTo_toNat hold] at hgrow hshrink
      by_cases hle : roundedUp oldBrk ≤ roundedUp brk
      · exact HeapOnly.grow h hold hbrk hrej.2 hle (hgrow hle) hnone
      · exact HeapOnly.shrink h hold hrej.2 (by omega) (hshrink (by omega))

theorem onePageVm_heap : HasHeap {3} tableRole onePageVm 0x3000#64 0x400000#64 0x401000#64 := by
  refine ⟨onePageVm_inv, by decide, by decide, by decide, fun v hv hlt ↦ ?_⟩
  have huser : UserAddress v := by
    rw [UserAddress, userSpaceTop]
    exact hlt.trans (by decide)
  refine ⟨huser, 7, 0x7#64, ?_, by decide, by decide⟩
  rw [show (0x400000#64).toNat = 0x400000 from rfl] at hv
  rw [show (0x401000#64).toNat = 0x401000 from rfl] at hlt
  rw [pageMapping_page _ _ huser (show UserAddress 0x400000#64 by decide)]
  · decide +kernel
  · rw [show pageOf 0x400000#64 = 0x400 by decide, pageOf]
    omega

theorem brk_heap_only_onePageVm :
    HeapOnly {3} onePageVm (sysBrk onePageVm 0x3000#64 0x400000#64 0x401000#64 0x401800#64).2.2
      0x3000#64 0x400000#64 0x401000#64 0x401800#64 0x401800#64 := by
  have hnone : HeapRequest onePageVm 0x3000#64 0x400000#64 0x401000#64 0x401800#64 := by
    refine .inr (.inr (.inr ⟨by decide, fun page hle hlt ↦ ?_⟩))
    rw [show roundedUp 0x401000#64 = 0x401 by decide] at hle
    rw [show roundedUp 0x401800#64 = 0x402 by decide] at hlt
    obtain rfl : page = 0x401 := by omega
    decide +kernel
  have honly := (brk_heap_only 0x401800#64 onePageVm_heap (by decide +kernel)).mpr hnone
  have hbrk : (sysBrk onePageVm 0x3000#64 0x400000#64 0x401000#64 0x401800#64).1 = 0x401800#64 ∧
      (sysBrk onePageVm 0x3000#64 0x400000#64 0x401000#64 0x401800#64).2.1 = 0x401800#64 := by
    decide +kernel
  rwa [hbrk.1, hbrk.2] at honly

/-- The page was mapped at the break, with `MAP_FIXED`: growing the heap replaces it. -/
theorem brk_replaces_page :
    HasHeap {3} tableRole onePageVm 0x3000#64 0x400000#64 0x400000#64 ∧
    BrkFits onePageVm 0x3000#64 0x400000#64 0x401000#64 ∧
    pageMapping onePageVm 0x3000#64 0x400000#64 = some (7, 0x7#64) ∧
    pageMapping (sysBrk onePageVm 0x3000#64 0x400000#64 0x400000#64 0x401000#64).2.2 0x3000#64
      0x400000#64 = some (8, 0x7#64) ∧
    ¬ HeapOnly {3} onePageVm
      (sysBrk onePageVm 0x3000#64 0x400000#64 0x400000#64 0x401000#64).2.2 0x3000#64
      0x400000#64 0x400000#64
      (sysBrk onePageVm 0x3000#64 0x400000#64 0x400000#64 0x401000#64).2.1
      (sysBrk onePageVm 0x3000#64 0x400000#64 0x400000#64 0x401000#64).1 := by
  have hbefore : pageMapping onePageVm 0x3000#64 0x400000#64 = some (7, 0x7#64) := by
    decide +kernel
  have hafter : pageMapping (sysBrk onePageVm 0x3000#64 0x400000#64 0x400000#64 0x401000#64).2.2
      0x3000#64 0x400000#64 = some (8, 0x7#64) := by decide +kernel
  refine ⟨⟨onePageVm_inv, by decide, by decide, by decide, fun v hv hlt ↦ by omega⟩,
    by decide +kernel, hbefore, hafter, fun h ↦ ?_⟩
  have hsame := h.others 0x400000#64 (by decide) (by decide) (by rw [hbefore]; simp)
  rw [hbefore, hafter] at hsame
  exact absurd hsame (by decide)

end SeedOS.Process
