import SeedOS.Memory.Translate
import SeedOS.Process.Progress

namespace SeedOS.Process

open Foundation Memory Function

def resolvedFlags (pteFlags : Word) : Word := pteFlags &&& ~~~pteCow ||| pteWritable

def handleCowFault (s : Vm) (pml4Phys faultAddr : Word) : ℤ × Vm :=
  let page := faultAddr &&& ~~~0xFFF#64
  let pteFlags := vmmGetPteFlags s pml4Phys page
  let physAddr := vmmGetPhysical s pml4Phys page
  if hasFlag pteFlags pteCow = false then (-1, s)
  else if pageGetRefcount s physAddr = 1#8 then
    (0, (vmmSetPteFlags s pml4Phys page (resolvedFlags pteFlags)).2)
  else
    match pmmAlloc s.pmm with
    | (newPhys, pmm) =>
      if newPhys = 0#64 then (-1, { s with pmm := pmm })
      else
        let s := { s with pmm := pmm }.fill (pageOf newPhys) (s.mem (pageOf physAddr))
        let s := (vmmUnmapPage s pml4Phys page).2
        let s := (vmmMapPage s pml4Phys page newPhys (resolvedFlags pteFlags)).2
        let s := pageSetRefcount s newPhys 1#8
        (0, pageUnref s physAddr)

/-- A user write. A write to a present page that does not allow it enters
`handle_page_fault`; after a resolved COW fault the access is tried again, and
any other fault is fatal. -/
def userWrite (s : Vm) (pml4Phys va : Word) (b : BitVec 8) : Vm :=
  match userStore s pml4Phys va b with
  | some s => s
  | none =>
    match translate s pml4Phys va with
    | none => s
    | some _ =>
      match handleCowFault s pml4Phys va with
      | (res, s) =>
        if res = 0 then (userStore s pml4Phys va b).getD s else s

section Info

def SameInfo (s s' : Vm) : Prop := s'.pageInfo = s.pageInfo ∧ s'.maxPages = s.maxPages

theorem SameInfo.trans {s₁ s₂ s₃ : Vm} (h : SameInfo s₁ s₂) (h' : SameInfo s₂ s₃) :
    SameInfo s₁ s₃ := ⟨h'.1.trans h.1, h'.2.trans h.2⟩

theorem SameInfo.count {s s' : Vm} (h : SameInfo s s') (f : ℕ) : s'.count f = s.count f := by
  simp only [Vm.count, h.1, h.2]

theorem SameInfo.tracked {s s' : Vm} (h : SameInfo s s') (f : ℕ) : s'.Tracked f ↔ s.Tracked f := by
  simp only [Vm.Tracked, h.1, h.2]

theorem descend_info {s s' : Vm} {t : ℕ} {i : Fin 512} {flags phys : Word} {t' : ℕ}
    (hd : descend s t i flags = some (t', phys, s')) : SameInfo s s' := by
  cases descend_cases hd with
  | follow _ hs => rcases hs with rfl | rfl <;> exact ⟨rfl, rfl⟩
  | fresh _ _ _ _ _ hs => rw [hs]; exact ⟨rfl, rfl⟩

theorem unlink_info (s : Vm) (t : ℕ) (i : Fin 512) (phys : Word) :
    SameInfo s (unlink s t i phys) := by
  unfold unlink
  split_ifs <;> exact ⟨rfl, rfl⟩

theorem vmmMapPage_info (s : Vm) (pml4Phys virt phys flags : Word) :
    SameInfo s (vmmMapPage s pml4Phys virt phys flags).2 := by
  unfold vmmMapPage
  dsimp only
  cases hd₄ : descend s (pageOf pml4Phys) (pml4Index virt) flags with
  | none => exact ⟨rfl, rfl⟩
  | some x₄ =>
    obtain ⟨pdpt, newPdpt, s₁⟩ := x₄
    have h₁ := descend_info hd₄
    dsimp only
    cases hd₃ : descend s₁ pdpt (pdptIndex virt) flags with
    | none => exact h₁.trans (unlink_info _ _ _ _)
    | some x₃ =>
      obtain ⟨pd, newPd, s₂⟩ := x₃
      have h₂ := h₁.trans (descend_info hd₃)
      dsimp only
      cases hd₂ : descend s₂ pd (pdIndex virt) flags with
      | none => exact (h₂.trans (unlink_info _ _ _ _)).trans (unlink_info _ _ _ _)
      | some x₂ =>
        obtain ⟨pt, newPt, s₃⟩ := x₂
        have h₃ := h₂.trans (descend_info hd₂)
        exact ⟨h₃.1, h₃.2⟩

theorem vmmUnmapPage_info (s : Vm) (pml4Phys virt : Word) :
    SameInfo s (vmmUnmapPage s pml4Phys virt).2 := by
  unfold vmmUnmapPage
  dsimp only
  split_ifs <;> exact ⟨rfl, rfl⟩

theorem vmmSetPteFlags_info (s : Vm) (pml4Phys virt flags : Word) :
    SameInfo s (vmmSetPteFlags s pml4Phys virt flags).2 := by
  unfold vmmSetPteFlags
  cases walk s pml4Phys virt with
  | none => exact ⟨rfl, rfl⟩
  | some x => dsimp only; split_ifs <;> exact ⟨rfl, rfl⟩

end Info

section Page

theorem tableIndex_page {k : ℕ} (va : Word) (hk : ~~~0xFFF#64 >>> k &&& 0x1FF#64 = 0x1FF#64) :
    tableIndex k (va &&& ~~~0xFFF#64) = tableIndex k va := by
  have h : (va &&& ~~~0xFFF#64) >>> k &&& 0x1FF#64 = va >>> k &&& 0x1FF#64 := by
    rw [BitVec.ushiftRight_and_distrib, BitVec.and_assoc, hk]
  simp only [tableIndex, h]

theorem siteOf_page (r : ℕ) (va : Word) : siteOf r (va &&& ~~~0xFFF#64) = siteOf r va := by
  simp only [siteOf, pml4Index, pdptIndex, pdIndex, ptIndex,
    tableIndex_page va (show ~~~0xFFF#64 >>> 39 &&& 0x1FF#64 = 0x1FF#64 by decide),
    tableIndex_page va (show ~~~0xFFF#64 >>> 30 &&& 0x1FF#64 = 0x1FF#64 by decide),
    tableIndex_page va (show ~~~0xFFF#64 >>> 21 &&& 0x1FF#64 = 0x1FF#64 by decide),
    tableIndex_page va (show ~~~0xFFF#64 >>> 12 &&& 0x1FF#64 = 0x1FF#64 by decide)]

theorem pml4Index_page (va : Word) : pml4Index (va &&& ~~~0xFFF#64) = pml4Index va :=
  tableIndex_page va (by decide)

end Page

section Spec

variable {s s' : Vm} {roots : Set ℕ} {role : Roles} {pml4Phys va : Word}

theorem resolvedFlags_spec (e : Word) (hp : hasFlag e ptePresent = true) :
    MapFlags (resolvedFlags (e &&& ~~~pteAddrMask)) := by
  unfold resolvedFlags
  refine ⟨((isFlags_rest e).and _).or (by decide), ?_⟩
  rw [hasFlag_or, hasFlag_and_of_subset _ _ _ (by decide), hasFlag_rest _ _ (by decide), hp,
    Bool.true_or]

/-- The page was shared and is now private, without a copy: its count is 1. -/
structure Reclaimed (roots : Set ℕ) (s s' : Vm) (role : Roles) (σ : Site) (f : ℕ) : Prop where
  one : s.count f = 1
  inv : Inv s' roots role
  keeps : Keeps s s' role role
  apart : ∀ k r p, role k = .table r p → r ≠ σ.root → s'.mem k = s.mem k
  info : SameInfo s s'
  leaf : ∃ fl, MapFlags fl ∧ ∀ τ : Site, τ.Valid roots →
    leafEntry s'.mem τ = if τ = σ then pageAddr f ||| fl else leafEntry s.mem τ

theorem Reclaimed.next_eq {σ τ : Site} {f : ℕ} (hrec : Reclaimed roots s s' role σ f)
    (h : Inv s roots role) (hσ : σ.Valid roots) (hf : entryNext (leafEntry s.mem σ) = some f)
    (hτ : τ.Valid roots) :
    entryNext (leafEntry s'.mem τ) = entryNext (leafEntry s.mem τ) := by
  obtain ⟨fl, hfl, hleaf⟩ := hrec.leaf
  rw [hleaf τ hτ]
  split_ifs with hc
  · rw [entryNext_entry (h.owned (.inl (h.leafEntry_data hσ hf))).lt hfl, hc, hf]
  · rfl

/-- The page now has a copy `g` of its frame `f` to itself. -/
structure Duplicated (roots : Set ℕ) (s s' : Vm) (role role' : Roles) (σ : Site) (f g : ℕ) :
    Prop where
  ne_one : s.count f ≠ 1
  fresh : role g = .free
  inv : Inv s' roots role'
  mem : ∀ {k}, role k = .data ∨ role k = .reserved → s'.mem k = s.mem k
  apart : ∀ k r p, role k = .table r p → r ≠ σ.root → s'.mem k = s.mem k
  copy : s'.mem g = s.mem f
  data : ∀ {k}, role' k = .data ↔ k = g ∨ role k = .data
  reserved : ∀ {k}, role' k = .reserved ↔ role k = .reserved
  kernel : s'.kernelPml4Phys = s.kernelPml4Phys
  tracked : ∀ k, s'.Tracked k ↔ s.Tracked k
  count : ∀ k, k ≠ g → s'.count k = if k = f ∧ s.count k ≠ 255 then s.count k - 1 else s.count k
  count_new : s.Tracked g → s'.count g = 1
  leaf : ∃ fl, MapFlags fl ∧ ∀ τ : Site, τ.Valid roots →
    leafEntry s'.mem τ = if τ = σ then pageAddr g ||| fl else leafEntry s.mem τ

/-- A page moves from frame `f` to frame `g`: what happens to the counts. -/
theorem unref_moved {f g : ℕ} (hf : f < 2 ^ 52) (hg : g < 2 ^ 52) (hfg : f ≠ g)
    (hinfo : SameInfo s s') (hone : s.count f ≠ 1) {s'' : Vm}
    (hs'' : s'' = pageUnref (pageSetRefcount s' (pageAddr g) 1#8) (pageAddr f)) :
    s''.mem = s'.mem ∧ s''.pmm = s'.pmm ∧ s''.kernelPml4Phys = s'.kernelPml4Phys ∧
      (∀ k, s''.Tracked k ↔ s.Tracked k) ∧
      (∀ k, k ≠ g →
        s''.count k = if k = f ∧ s.count k ≠ 255 then s.count k - 1 else s.count k) ∧
      (s.Tracked g → s''.count g = 1) := by
  have hfaddr := pageOf_pageAddr hf
  have hgaddr := pageOf_pageAddr hg
  have hset : ∀ k, k ≠ g → (pageSetRefcount s' (pageAddr g) 1#8).count k = s.count k := by
    intro k hk
    rw [pageSetRefcount_count, hgaddr, if_neg (fun hc ↦ hk hc.1), hinfo.count]
  have hnone : (pageSetRefcount s' (pageAddr g) 1#8).count (pageOf (pageAddr f)) ≠ 1 := by
    rw [hfaddr, hset f hfg]
    exact hone
  obtain ⟨hum, hup, huk, hut, huc⟩ := pageUnref_of_ne_one _ _ hnone
  rw [hfaddr] at huc
  rw [hs'']
  refine ⟨hum.trans (pageSetRefcount_mem ..), hup.trans (pageSetRefcount_pmm ..),
    huk.trans (pageSetRefcount_kernel ..), fun k ↦ ?_, fun k hk ↦ ?_, fun htr ↦ ?_⟩
  · rw [hut, pageSetRefcount_tracked, hinfo.tracked]
  · rw [huc, hset k hk]
  · rw [huc, if_neg (fun hc ↦ hfg hc.1.symm), pageSetRefcount_count, hgaddr,
      if_pos ⟨rfl, (hinfo.tracked g).mpr htr⟩]
    rfl

section

variable (h : Inv s roots role) (hr : pageOf pml4Phys ∈ roots)
include h hr

theorem duplicate_spec {page fl : Word} (hv : (pml4Index page).val < 256) {f g : ℕ} {pmm : Pmm}
    (hf : entryNext (leafEntry s.mem (siteOf (pageOf pml4Phys) page)) = some f)
    (hone : s.count f ≠ 1) (hav : s.pmm.Available g) (htk : s.pmm.Takes pmm g)
    (hfl : MapFlags fl) {s₁ s₂ s₃ : Vm}
    (hs₁ : s₁ = { s with pmm := pmm }.fill g (s.mem f))
    (hs₂ : s₂ = (vmmUnmapPage s₁ pml4Phys page).2)
    (hs₃ : s₃ = (vmmMapPage s₂ pml4Phys page (pageAddr g) fl).2)
    (hs' : s' = pageUnref (pageSetRefcount s₃ (pageAddr g) 1#8) (pageAddr f)) :
    ∃ role', Duplicated roots s s' role role' (siteOf (pageOf pml4Phys) page) f g ∧
      Relinked roots s s' (siteOf (pageOf pml4Phys) page) (pageAddr g ||| fl) := by
  have hσ := siteOf_valid hr hv
  have hdata := h.leafEntry_data hσ hf
  have hfree := h.free_of_available hav
  have hfg : f ≠ g := by rintro rfl; simp [hdata] at hfree
  -- the copy
  have hm₁ : ∀ k ≠ g, s₁.mem k = s.mem k := fun k hk ↦ by rw [hs₁, Vm.fill_mem, if_neg hk]
  have hk₁ : s₁.kernelPml4Phys = s.kernelPml4Phys := by rw [hs₁]; rfl
  have h₁ : Inv s₁ roots (update role g .data) := h.take hk₁ hav (by rw [hs₁]; exact htk) hm₁
  have hsame₁ : SameLeaves s s₁ roots := h.take_sameLeaves hfree h₁ hm₁
  obtain ⟨t, ht, _⟩ := h.leafEntry_present hσ hf
  have htg : t ≠ g := by rintro rfl; simp [ht] at hfree
  -- the old entry goes, the new one comes
  obtain ⟨h₂, hk₂, _, hleaf₂⟩ := vmmUnmapPage_spec h₁ hr hv Prod.mk.eta.symm
  rw [← hs₂] at h₂ hk₂ hleaf₂
  obtain ⟨hmapped, hapart⟩ := vmmMapPage_of_table h₂ (pageAddr g) fl hr
    (by rw [update_of_ne htg]; exact ht)
  rw [← hs₃] at hapart
  obtain ⟨role₃, h₃, hk₃, hres⟩ := vmmMapPage_spec h₂ hr hv (update_self _ _ _) hfl
    Prod.mk.eta.symm
  rw [← hs₃] at h₃ hk₃ hres
  obtain ⟨_, hleaf₃⟩ : _ ∧ _ := hres.resolve_right fun hc ↦ by rw [hmapped] at hc; simp at hc
  have hinfo : SameInfo s s₃ := by
    have hi₁ : SameInfo s s₁ := by rw [hs₁]; exact ⟨rfl, rfl⟩
    have hi₂ : SameInfo s₁ s₂ := hs₂ ▸ vmmUnmapPage_info s₁ pml4Phys page
    exact (hi₁.trans hi₂).trans (hs₃ ▸ vmmMapPage_info s₂ pml4Phys page (pageAddr g) fl)
  have hflt := (h.owned (.inl hdata)).lt
  have hglt := hav.lt
  obtain ⟨hmem', hpmm', hkernel', htracked, hcount, hnew⟩ :=
    unref_moved (by omega) (by omega) hfg hinfo hone hs'
  have hk := hk₂.trans hk₃
  have hleaf : Relinked roots s s' (siteOf (pageOf pml4Phys) page) (pageAddr g ||| fl) := by
    intro τ hτ
    rw [hmem', hleaf₃ τ hτ, hleaf₂ τ hτ, hsame₁ τ hτ]
    split_ifs <;> rfl
  refine ⟨role₃, ⟨hone, hfree, h₃.congr hmem' hpmm' hkernel', ?_, ?_, ?_, ?_, ?_, ?_, htracked,
    hcount, hnew, fl, hfl, hleaf⟩, hleaf⟩
  · intro k hkr
    have hkg : k ≠ g := by rintro rfl; simp [hfree] at hkr
    rw [hmem', hk.mem (by rw [update_of_ne hkg]; exact hkr), hm₁ k hkg]
  · intro k r p hkr hne
    have hkg : k ≠ g := by rintro rfl; simp [hfree] at hkr
    have hkr' : update role g .data k = .table r p := by rwa [update_of_ne hkg]
    rw [hmem', hapart k r p hkr' hne, hs₂,
      vmmUnmapPage_mem _ _ _ (h₁.tableAt_ne hr hσ.user hσ.length.le hkr' hne), hm₁ k hkg]
  · rw [hmem', hk.mem (.inl (update_self _ _ _)), hs₁, Vm.fill_mem, if_pos rfl]
  · intro k
    rw [hk.data]
    by_cases hkg : k = g
    · subst hkg; simp
    · rw [update_of_ne hkg]; simp [hkg]
  · intro k
    rw [hk.reserved]
    exact update_eq_iff (by simp [hfree]) (by simp)
  · rw [hkernel', hk.kernel, hk₁]

section

variable (hv : (pml4Index va).val < 256)
include hv

theorem handleCowFault_exact {res : ℤ} (heq : handleCowFault s pml4Phys va = (res, s'))
    {σ : Site} {e : Word} (hσe : σ = siteOf (pageOf pml4Phys) va) (he : e = leafEntry s.mem σ) :
    (res = -1 ∧ s' = s) ∨
    (res = 0 ∧ ∃ f, entryNext e = some f ∧ hasFlag e pteCow = true ∧
      ((Reclaimed roots s s' role σ f ∧
        Relinked roots s s' σ (pageAddr f ||| resolvedFlags (e &&& ~~~pteAddrMask))) ∨
      ∃ g role', s.pmm.Available g ∧ Duplicated roots s s' role role' σ f g ∧
        Relinked roots s s' σ (pageAddr g ||| resolvedFlags (e &&& ~~~pteAddrMask)))) := by
  subst hσe he
  have hv' : (pml4Index (va &&& ~~~0xFFF#64)).val < 256 := by rwa [pml4Index_page]
  unfold handleCowFault at heq
  dsimp only at heq
  by_cases hcow : hasFlag (vmmGetPteFlags s pml4Phys (va &&& ~~~0xFFF#64)) pteCow = false
  · simp only [hcow, if_true, Prod.mk.injEq] at heq
    exact .inl ⟨heq.1.symm, heq.2.symm⟩
  rw [if_neg hcow] at heq
  rw [vmmGetPteFlags_eq, siteOf_page] at hcow heq
  cases hpres : hasFlag (leafEntry s.mem (siteOf (pageOf pml4Phys) va)) ptePresent with
  | false => simp [hpres, hasFlag_zero] at hcow
  | true =>
    obtain ⟨f, hf⟩ : ∃ f, entryNext (leafEntry s.mem (siteOf (pageOf pml4Phys) va)) = some f :=
      ⟨_, entryNext_some.mpr ⟨hpres, rfl⟩⟩
    have hphys : vmmGetPhysical s pml4Phys (va &&& ~~~0xFFF#64) = pageAddr f := by
      rw [vmmGetPhysical_eq, siteOf_page, hpres, if_pos rfl, ← pageAddr_frameOf,
        (entryNext_some.mp hf).2]
    have hlt := (h.owned (.inl (h.leafEntry_data (siteOf_valid hr hv) hf))).lt
    have hfaddr : pageOf (pageAddr f) = f := pageOf_pageAddr (by omega)
    have hcnt : (pageGetRefcount s (pageAddr f)).toNat = s.count f := by rw [count_eq, hfaddr]
    have hfl := resolvedFlags_spec _ hpres
    rw [hpres, if_pos rfl, hasFlag_rest _ _ (by decide)] at hcow
    simp only [hpres, if_true, hphys, hfaddr] at heq
    by_cases hone : pageGetRefcount s (pageAddr f) = 1#8
    · simp only [hone, if_true, Prod.mk.injEq] at heq
      obtain ⟨rfl, rfl⟩ := heq
      have hf' := hf
      rw [← siteOf_page] at hf'
      obtain ⟨hinv, hk, hleaf⟩ := vmmSetPteFlags_spec h hr hv' hfl hf'
      rw [siteOf_page] at hleaf
      have hσ := siteOf_valid hr hv'
      refine .inr ⟨rfl, f, hf, by simpa using hcow, .inl ⟨?_, hleaf⟩⟩
      exact ⟨by rw [← hcnt, hone]; rfl, hinv, hk, fun k r p hkr hne ↦
        vmmSetPteFlags_mem _ _ _ _ (h.tableAt_ne hr hσ.user hσ.length.le hkr hne),
        vmmSetPteFlags_info _ _ _ _, _, hfl, hleaf⟩
    · rw [if_neg hone] at heq
      rcases pmmAlloc_takes s.pmm with ha | ⟨g, pmm, ha, hav, htk⟩
      · simp only [ha, if_true, Prod.mk.injEq] at heq
        exact .inl ⟨heq.1.symm, heq.2.symm⟩
      · have hglt := hav.lt
        have hne := pageAddr_ne_zero hav.1 (show g < 2 ^ 52 by omega)
        simp only [ha, if_neg hne, Prod.mk.injEq, pageOf_pageAddr (show g < 2 ^ 52 by omega)] at heq
        obtain ⟨rfl, hs'⟩ := heq
        have hone' : s.count f ≠ 1 := by
          rw [← hcnt]
          intro hc
          exact hone (BitVec.eq_of_toNat_eq hc)
        have hf' := hf
        rw [← siteOf_page] at hf'
        obtain ⟨role', hd⟩ := duplicate_spec h hr hv' hf' hone' hav htk hfl rfl rfl rfl hs'.symm
        rw [siteOf_page] at hd
        exact .inr ⟨rfl, f, hf, by simpa using hcow, .inr ⟨g, role', hav, hd⟩⟩

theorem handleCowFault_spec {res : ℤ} (heq : handleCowFault s pml4Phys va = (res, s')) :
    (res = -1 ∧ s' = s) ∨
    (res = 0 ∧ ∃ f, entryNext (leafEntry s.mem (siteOf (pageOf pml4Phys) va)) = some f ∧
      hasFlag (leafEntry s.mem (siteOf (pageOf pml4Phys) va)) pteCow = true ∧
      (Reclaimed roots s s' role (siteOf (pageOf pml4Phys) va) f ∨
        ∃ g role', Duplicated roots s s' role role' (siteOf (pageOf pml4Phys) va) f g)) := by
  rcases handleCowFault_exact h hr hv heq rfl rfl with
    hsame | ⟨hres, f, hf, hcow, ⟨hrec, -⟩ | ⟨g, role', -, hdup, -⟩⟩
  · exact .inl hsame
  · exact .inr ⟨hres, f, hf, hcow, .inl hrec⟩
  · exact .inr ⟨hres, f, hf, hcow, .inr ⟨g, role', hdup⟩⟩

theorem handleCowFault_progress :
    ∃ role', Progress roots s (handleCowFault s pml4Phys va).2 role role' := by
  rcases handleCowFault_spec h hr hv Prod.mk.eta.symm with
    ⟨_, hs⟩ | ⟨_, f, hf, _, hrec | ⟨g, role', hdup⟩⟩
  · rw [hs]
    exact ⟨role, .refl h⟩
  · exact ⟨role, .of_keeps hrec.keeps, hrec.inv, fun σ hσ hs ↦
      hs.of_next hσ fun _ ↦ hrec.next_eq h (siteOf_valid hr hv) hf⟩
  · obtain ⟨fl, hfl, hleaf⟩ := hdup.leaf
    have hlt := (hdup.inv.owned (.inl (hdup.data.mpr (.inl rfl)))).lt
    refine ⟨role', ⟨fun hk ↦ hdup.mem (.inr hk), hdup.reserved, hdup.kernel⟩, hdup.inv,
      (sole_of_fresh (siteOf_valid hr hv) (entryNext_entry hlt hfl) ?_ hleaf).2⟩
    intro σ hσ hn
    have := h.leafEntry_data hσ hn
    simp [hdup.fresh] at this

theorem userStore_cases {b : BitVec 8} (hs : userStore s pml4Phys va b = some s') :
    ∃ f off, entryNext (leafEntry s.mem (siteOf (pageOf pml4Phys) va)) = some f ∧
      hasFlag (leafEntry s.mem (siteOf (pageOf pml4Phys) va)) pteWritable = true ∧
      s' = s.writeByte f off b := by
  unfold userStore at hs
  cases ht : translate s pml4Phys va with
  | none => simp [ht] at hs
  | some t =>
    simp only [ht] at hs
    split_ifs at hs with hw
    obtain ⟨f, hf, hpage, _, hwritable⟩ := translate_user h hr hv ht
    refine ⟨f, t.phys.toNat % 4096, hf, hwritable (Bool.and_eq_true_iff.mp hw).2, ?_⟩
    rw [← hpage]
    exact (Option.some.inj hs).symm

theorem userStore_progress {b : BitVec 8} (hs : userStore s pml4Phys va b = some s') :
    Progress roots s s' role role := by
  obtain ⟨f, off, hf, _, rfl⟩ := userStore_cases h hr hv hs
  exact writeByte_progress h (h.leafEntry_data (siteOf_valid hr hv) hf) off b

theorem userWrite_progress (b : BitVec 8) :
    ∃ role', Progress roots s (userWrite s pml4Phys va b) role role' := by
  unfold userWrite
  cases hs : userStore s pml4Phys va b with
  | some s' => exact ⟨role, userStore_progress h hr hv hs⟩
  | none =>
    cases ht : translate s pml4Phys va with
    | none => exact ⟨role, .refl h⟩
    | some t =>
      obtain ⟨role₁, hp₁⟩ := handleCowFault_progress h hr hv
      dsimp only
      split_ifs
      · cases hs' : userStore (handleCowFault s pml4Phys va).2 pml4Phys va b with
        | none => exact ⟨role₁, hp₁⟩
        | some s' => exact ⟨role₁, hp₁.trans (userStore_progress hp₁.inv hr hv hs')⟩
      · exact ⟨role₁, hp₁⟩

end

end

end Spec

end SeedOS.Process
