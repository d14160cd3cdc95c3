import SeedOS.Foundation.Machine
import SeedOS.Memory.Tables

namespace SeedOS.Memory

open Foundation Function

abbrev PageMap := ℕ → Option (ℕ × Word)

def PageMap.physical (m : PageMap) (page : ℕ) : Word :=
  match m page with
  | none => 0#64
  | some (f, _) => pageAddr f

def PageMap.pteFlags (m : PageMap) (page : ℕ) : Word :=
  match m page with
  | none => 0#64
  | some (_, flags) => flags

abbrev Spaces := Word → Option PageMap

def Spaces.modify (maps : Spaces) (pml4Phys : Word) (f : PageMap → PageMap) : Spaces :=
  update maps pml4Phys ((maps pml4Phys).map f)

inductive VmmCall
  | create
  | map (pml4Phys virt phys flags : Word)
  | unmap (pml4Phys virt : Word)
  | setFlags (pml4Phys virt flags : Word)

/-- Memory together with the abstract map of each address space. -/
structure VmmSys where
  vm : Vm
  maps : Spaces

/-- The code runs on `vm`; the maps follow the calls that report success. -/
def VmmSys.call (s : VmmSys) : VmmCall → VmmSys
  | .create =>
    match vmmCreateAddressSpace s.vm with
    | (phys, vm) => ⟨vm, if phys = 0#64 then s.maps else update s.maps phys (some fun _ ↦ none)⟩
  | .map pml4Phys virt phys flags =>
    match vmmMapPage s.vm pml4Phys virt phys flags with
    | (ret, vm) => ⟨vm, if ret = 0 then
        s.maps.modify pml4Phys fun m ↦ update m (pageOf virt) (some (frameOf phys, flags))
      else s.maps⟩
  | .unmap pml4Phys virt =>
    match vmmUnmapPage s.vm pml4Phys virt with
    | (ret, vm) => ⟨vm, if ret = 0 then
        s.maps.modify pml4Phys fun m ↦ update m (pageOf virt) none
      else s.maps⟩
  | .setFlags pml4Phys virt flags =>
    match vmmSetPteFlags s.vm pml4Phys virt flags with
    | (ret, vm) => ⟨vm, if ret = 0 then
        s.maps.modify pml4Phys fun m ↦
          update m (pageOf virt) ((m (pageOf virt)).map fun e ↦ (e.1, flags))
      else s.maps⟩

def userSpaceTop : ℕ := 0x800000000000

def UserAddress (va : Word) : Prop := va.toNat < userSpaceTop

instance UserAddress.decidable (va : Word) : Decidable (UserAddress va) :=
  inferInstanceAs (Decidable (_ < _))

/-- Calls go to existing address spaces and user-half addresses, with flags that
contain `PTE_PRESENT` and no address bits. -/
def VmmSys.Enabled (s : VmmSys) : VmmCall → Prop
  | .create => True
  | .map pml4Phys virt _ flags | .setFlags pml4Phys virt flags =>
    (s.maps pml4Phys).isSome ∧ UserAddress virt ∧ IsFlags flags ∧ hasFlag flags ptePresent = true
  | .unmap pml4Phys virt => (s.maps pml4Phys).isSome ∧ UserAddress virt

def VmmCall.Touches (c : VmmCall) (pml4Phys virt : Word) : Prop :=
  match c with
  | .create => False
  | .map p v _ _ | .unmap p v | .setFlags p v _ => p = pml4Phys ∧ pageOf v = pageOf virt

/-- Before the first address space is made, and with the kernel's own tables in
frames that the allocator does not hand out. -/
structure VmmSys.Boot (s : VmmSys) : Prop where
  maps : s.maps = fun _ ↦ none
  kernel : ∀ p f, KernelPath p →
    tableAt kernelNext s.vm.mem (pageOf s.vm.kernelPml4Phys) p = some f → ¬ s.vm.pmm.Available f

def VmmSys.Refines (s : VmmSys) : Prop :=
  ∀ pml4Phys m, s.maps pml4Phys = some m → ∀ va, UserAddress va →
    vmmGetPhysical s.vm pml4Phys va = m.physical (pageOf va) ∧
    vmmGetPteFlags s.vm pml4Phys va = m.pteFlags (pageOf va)

section Index

theorem tableIndex_val (k : ℕ) (va : Word) : (tableIndex k va).val = va.toNat / 2 ^ k % 512 := by
  simp only [tableIndex, BitVec.toNat_and, BitVec.toNat_ushiftRight,
    show (0x1FF#64).toNat = 2 ^ 9 - 1 from rfl, Nat.and_two_pow_sub_one_eq_mod,
    Nat.shiftRight_eq_div_pow]

theorem UserAddress.pml4Index_lt {va : Word} (h : UserAddress va) : (pml4Index va).val < 256 := by
  unfold UserAddress userSpaceTop at h
  rw [pml4Index, tableIndex_val]
  omega

theorem siteOf_inj {va va' : Word} (h : UserAddress va) (h' : UserAddress va') (r r' : ℕ) :
    siteOf r va = siteOf r' va' ↔ r = r' ∧ pageOf va = pageOf va' := by
  unfold UserAddress userSpaceTop at h h'
  simp only [siteOf, Site.mk.injEq, List.cons.injEq, and_true, Fin.ext_iff, pml4Index, pdptIndex,
    pdIndex, ptIndex, tableIndex_val, pageOf]
  constructor
  · rintro ⟨hr, ⟨h₄, h₃, h₂⟩, h₁⟩
    exact ⟨hr, by omega⟩
  · rintro ⟨hr, hp⟩
    exact ⟨hr, ⟨by omega, by omega, by omega⟩, by omega⟩

end Index

def Encodes (e : Word) : Option (ℕ × Word) → Prop
  | none => hasFlag e ptePresent = false
  | some (f, flags) =>
    e = pageAddr f ||| flags ∧ f < 2 ^ 40 ∧ IsFlags flags ∧ hasFlag flags ptePresent = true

theorem Encodes.reads {e : Word} {m : PageMap} {page : ℕ} (h : Encodes e (m page)) :
    (if hasFlag e ptePresent then e &&& pteAddrMask else 0#64) = m.physical page ∧
      (if hasFlag e ptePresent then e &&& ~~~pteAddrMask else 0#64) = m.pteFlags page := by
  unfold PageMap.physical PageMap.pteFlags
  cases hm : m page with
  | none =>
    rw [hm] at h
    simp [show hasFlag e ptePresent = false from h]
  | some x =>
    rw [hm] at h
    obtain ⟨rfl, hf, hfl, hp⟩ := h
    rw [hasFlag_entry hf _ isFlags_present, hp]
    exact ⟨field_of_or _ _ _ (pageAddr_and_mask hf) hfl, rest_entry hf hfl⟩

namespace VmmSys

def roots (s : VmmSys) : Set ℕ := {r | ∃ phys, (s.maps phys).isSome ∧ pageOf phys = r}

/-- The simulation relation: the tables are in order and each entry encodes its page. -/
structure Sim (s : VmmSys) : Prop where
  tables : ∃ role, Tabled s.vm s.roots role
  addr : ∀ phys, (s.maps phys).isSome → phys = pageAddr (pageOf phys)
  entries : ∀ phys m, s.maps phys = some m → ∀ va, UserAddress va →
    Encodes (leafEntry s.vm.mem (siteOf (pageOf phys) va)) (m (pageOf va))

theorem mem_roots {s : VmmSys} {phys : Word} {m : PageMap} (h : s.maps phys = some m) :
    pageOf phys ∈ s.roots := ⟨phys, by simp [h], rfl⟩

variable {s : VmmSys}

theorem Sim.of_boot (h : s.Boot) : s.Sim := by
  have hroots : s.roots = ∅ := by simp [roots, h.maps]
  refine ⟨⟨_, hroots ▸ (Inv.of_empty h.kernel).tabled⟩, ?_, ?_⟩
  · intro phys hs
    simp [h.maps] at hs
  · intro phys m hs
    simp [h.maps] at hs

theorem Sim.refines (h : s.Sim) : s.Refines := by
  intro pml4Phys m hm va hva
  have he := h.entries pml4Phys m hm va hva
  rw [vmmGetPhysical_eq, vmmGetPteFlags_eq]
  exact he.reads

theorem Sim.same (h : s.Sim) {vm : Vm} (htab : ∃ role, Tabled vm s.roots role)
    (hsame : SameLeaves s.vm vm s.roots) : Sim ⟨vm, s.maps⟩ where
  tables := htab
  addr := h.addr
  entries phys m hm va hva := by
    rw [hsame _ (siteOf_valid (mem_roots hm) hva.pml4Index_lt)]
    exact h.entries phys m hm va hva

theorem Sim.set (h : s.Sim) {vm : Vm} {pml4Phys virt : Word} {m : PageMap} {g : PageMap → PageMap}
    {w : Word} {e : Option (ℕ × Word)} (hm : s.maps pml4Phys = some m) (hv : UserAddress virt)
    (htab : ∃ role, Tabled vm s.roots role)
    (hleaf : Relinked s.roots s.vm vm (siteOf (pageOf pml4Phys) virt) w)
    (hg : g m = update m (pageOf virt) e) (hw : Encodes w e) :
    Sim ⟨vm, s.maps.modify pml4Phys g⟩ := by
  have hsome : ∀ phys, (s.maps.modify pml4Phys g phys).isSome ↔ (s.maps phys).isSome := by
    intro phys
    by_cases hp : phys = pml4Phys
    · subst hp; simp [Spaces.modify]
    · simp [Spaces.modify, hp]
  have hroots : roots ⟨vm, s.maps.modify pml4Phys g⟩ = s.roots := by
    simp [roots, hsome]
  refine ⟨hroots.symm ▸ htab, fun phys hs ↦ h.addr phys ((hsome phys).mp hs), ?_⟩
  intro phys m' hm' va hva
  have hinj := siteOf_inj hva hv (pageOf phys) (pageOf pml4Phys)
  by_cases hp : phys = pml4Phys
  · subst hp
    simp only [Spaces.modify, update_self, hm, Option.map_some, Option.some.injEq, hg] at hm'
    subst hm'
    rw [hleaf _ (siteOf_valid (mem_roots hm) hva.pml4Index_lt)]
    by_cases hpage : pageOf va = pageOf virt
    · rw [if_pos (hinj.mpr ⟨rfl, hpage⟩), hpage, update_self]
      exact hw
    · rw [if_neg fun hc ↦ hpage (hinj.mp hc).2, update_of_ne hpage]
      exact h.entries phys m hm va hva
  · simp only [Spaces.modify, update_of_ne hp] at hm'
    rw [hleaf _ (siteOf_valid (mem_roots hm') hva.pml4Index_lt), if_neg]
    · exact h.entries phys m' hm' va hva
    · intro hc
      apply hp
      rw [h.addr phys (by simp [hm']), h.addr pml4Phys (by simp [hm]), (hinj.mp hc).1]

theorem Sim.create (h : s.Sim) : (s.call .create).Sim := by
  simp only [VmmSys.call]
  cases hc : vmmCreateAddressSpace s.vm with
  | mk phys vm =>
    obtain ⟨role, htab⟩ := h.tables
    dsimp only
    by_cases h0 : phys = 0#64
    · subst h0
      rw [vmmCreateAddressSpace_zero hc, if_pos rfl]
      exact h
    · rw [if_neg h0]
      obtain ⟨haddr, hnew, htab', hsame, hempty⟩ := htab.create hc h0
      have hfresh : s.maps phys = none := by
        cases hm : s.maps phys with
        | none => rfl
        | some m => exact absurd (mem_roots hm) hnew
      have hroots : roots ⟨vm, update s.maps phys (some fun _ ↦ none)⟩ =
          insert (pageOf phys) s.roots := by
        ext r
        constructor
        · rintro ⟨p, hp, rfl⟩
          by_cases hpp : p = phys
          · exact .inl (by rw [hpp])
          · simp only [update_of_ne hpp] at hp
            exact .inr ⟨p, hp, rfl⟩
        · rintro (rfl | ⟨p, hp, rfl⟩)
          · exact ⟨phys, by simp, rfl⟩
          · have hpp : p ≠ phys := by
              rintro rfl
              simp [hfresh] at hp
            exact ⟨p, by simpa [hpp] using hp, rfl⟩
      refine ⟨hroots ▸ htab', fun p hp ↦ ?_, fun p m hm va hva ↦ ?_⟩
      · by_cases hpp : p = phys
        · exact hpp ▸ haddr
        · exact h.addr p (by simpa [hpp] using hp)
      · by_cases hpp : p = phys
        · subst hpp
          simp only [update_self, Option.some.injEq] at hm
          subst hm
          rw [hempty _ (siteOf_valid (Set.mem_insert _ _) hva.pml4Index_lt) rfl]
          exact hasFlag_zero _
        · simp only [update_of_ne hpp] at hm
          rw [hsame _ (siteOf_valid (mem_roots hm) hva.pml4Index_lt)]
          exact h.entries p m hm va hva

theorem Sim.map (h : s.Sim) {pml4Phys virt phys flags : Word}
    (he : s.Enabled (.map pml4Phys virt phys flags)) :
    (s.call (.map pml4Phys virt phys flags)).Sim := by
  obtain ⟨hspace, hv, hfl, hp⟩ := he
  obtain ⟨m, hm⟩ := Option.isSome_iff_exists.mp hspace
  obtain ⟨role, htab⟩ := h.tables
  simp only [VmmSys.call]
  cases hc : vmmMapPage s.vm pml4Phys virt phys flags with
  | mk ret vm =>
    obtain ⟨htab', ⟨rfl, hleaf⟩ | ⟨rfl, hsame⟩⟩ := htab.mapPage (mem_roots hm) hv.pml4Index_lt hc
    · refine h.set hm hv htab' hleaf rfl ⟨?_, frameOf_lt phys, hfl, hp⟩
      rw [pageAddr_frameOf]
    · exact h.same htab' hsame

theorem Sim.unmap (h : s.Sim) {pml4Phys virt : Word} (he : s.Enabled (.unmap pml4Phys virt)) :
    (s.call (.unmap pml4Phys virt)).Sim := by
  obtain ⟨hspace, hv⟩ := he
  obtain ⟨m, hm⟩ := Option.isSome_iff_exists.mp hspace
  obtain ⟨role, htab⟩ := h.tables
  have hσ := siteOf_valid (mem_roots hm) hv.pml4Index_lt
  simp only [VmmSys.call, vmmUnmapPage_plain (htab.plainWay (mem_roots hm) hv.pml4Index_lt),
    walk_eq]
  cases ht : tableAt entryNext s.vm.mem (pageOf pml4Phys)
      [pml4Index virt, pdptIndex virt, pdIndex virt] with
  | none => exact h
  | some t =>
    obtain ⟨htab', hleaf⟩ := htab.writeLast hσ
      ((htab.tableAt_iff hσ.root hσ.user hσ.length.le).mp ht) 0#64
    exact h.set hm hv ⟨role, htab'⟩ hleaf rfl (hasFlag_zero _)

theorem Sim.setFlags (h : s.Sim) {pml4Phys virt flags : Word}
    (he : s.Enabled (.setFlags pml4Phys virt flags)) :
    (s.call (.setFlags pml4Phys virt flags)).Sim := by
  obtain ⟨hspace, hv, hfl, hp⟩ := he
  obtain ⟨m, hm⟩ := Option.isSome_iff_exists.mp hspace
  obtain ⟨role, htab⟩ := h.tables
  have hσ := siteOf_valid (mem_roots hm) hv.pml4Index_lt
  simp only [VmmSys.call, vmmSetPteFlags, walk_eq]
  cases ht : tableAt entryNext s.vm.mem (pageOf pml4Phys)
      [pml4Index virt, pdptIndex virt, pdIndex virt] with
  | none => exact h
  | some t =>
    have htable := (htab.tableAt_iff hσ.root hσ.user hσ.length.le).mp ht
    have hentry := h.entries pml4Phys m hm virt hv
    rw [htab.leafEntry_of_table hσ htable] at hentry
    simp only [Option.map_some]
    by_cases hpres : hasFlag (s.vm.mem t (ptIndex virt)) ptePresent = true
    · simp only [hpres, if_true]
      obtain ⟨htab', hleaf⟩ := htab.writeLast hσ htable
        (s.vm.mem t (ptIndex virt) &&& pteAddrMask ||| flags)
      refine h.set hm hv ⟨role, htab'⟩ hleaf rfl ?_
      cases hmp : m (pageOf virt) with
      | none =>
        rw [hmp] at hentry
        exact absurd hpres
          (by simp [show hasFlag (s.vm.mem t (ptIndex virt)) ptePresent = false from hentry])
      | some x =>
        rw [hmp] at hentry
        obtain ⟨he, hf, hxfl, _⟩ := hentry
        refine ⟨?_, hf, hfl, hp⟩
        rw [show s.vm.mem t (ptIndex virt) = _ from he,
          field_of_or _ _ _ (pageAddr_and_mask hf) hxfl]
    · simp only [hpres, if_false, Bool.false_eq_true]
      exact h

theorem Sim.call (h : s.Sim) {c : VmmCall} (he : s.Enabled c) : (s.call c).Sim := by
  cases c with
  | create => exact h.create
  | map => exact h.map he
  | unmap => exact h.unmap he
  | setFlags => exact h.setFlags he

theorem call_maps (h : s.Sim) {c : VmmCall} (he : s.Enabled c) {pml4Phys virt : Word} {m : PageMap}
    (hm : s.maps pml4Phys = some m) (hc : ¬ c.Touches pml4Phys virt) :
    ∃ m', (s.call c).maps pml4Phys = some m' ∧ m' (pageOf virt) = m (pageOf virt) := by
  have hmod : ∀ (p v : Word) (g : PageMap → PageMap), ¬ (p = pml4Phys ∧ pageOf v = pageOf virt) →
      (∀ m page, page ≠ pageOf v → g m page = m page) →
      ∃ m', s.maps.modify p g pml4Phys = some m' ∧ m' (pageOf virt) = m (pageOf virt) := by
    intro p v g hne hg
    by_cases hp : pml4Phys = p
    · subst hp
      refine ⟨g m, by simp [Spaces.modify, hm], hg m _ fun hc ↦ hne ⟨rfl, hc.symm⟩⟩
    · exact ⟨m, by simp [Spaces.modify, hp, hm], rfl⟩
  cases c with
  | create =>
    simp only [VmmSys.call]
    cases hcr : vmmCreateAddressSpace s.vm with
    | mk phys vm =>
      obtain ⟨role, htab⟩ := h.tables
      dsimp only
      by_cases h0 : phys = 0#64
      · exact ⟨m, by rw [if_pos h0, hm], rfl⟩
      · have hne : pml4Phys ≠ phys := by
          rintro rfl
          exact (htab.create hcr h0).2.1 (mem_roots hm)
        exact ⟨m, by rw [if_neg h0, update_of_ne hne, hm], rfl⟩
  | map p v phys flags =>
    simp only [VmmSys.call]
    split_ifs
    · exact hmod p v _ hc fun m page hp ↦ update_of_ne hp _ _
    · exact ⟨m, hm, rfl⟩
  | unmap p v =>
    simp only [VmmSys.call]
    split_ifs
    · exact hmod p v _ hc fun m page hp ↦ update_of_ne hp _ _
    · exact ⟨m, hm, rfl⟩
  | setFlags p v flags =>
    simp only [VmmSys.call]
    split_ifs
    · exact hmod p v _ hc fun m page hp ↦ update_of_ne hp _ _
    · exact ⟨m, hm, rfl⟩

end VmmSys

/-- In every state that the calls reach, the walks return what the maps say, and a
further call changes no page but its own. -/
theorem page_tables_refine {s₀ s : VmmSys} (hboot : s₀.Boot)
    (hrun : Runs VmmSys.call VmmSys.Enabled s₀ s) :
    s.Refines ∧ ∀ c, s.Enabled c → ∀ pml4Phys, (s.maps pml4Phys).isSome → ∀ va, UserAddress va →
      ¬ c.Touches pml4Phys va →
      vmmGetPhysical (s.call c).vm pml4Phys va = vmmGetPhysical s.vm pml4Phys va ∧
      vmmGetPteFlags (s.call c).vm pml4Phys va = vmmGetPteFlags s.vm pml4Phys va := by
  have hsim : s.Sim := hrun.invariant (.of_boot hboot) fun _ _ h he ↦ h.call he
  refine ⟨hsim.refines, fun c he pml4Phys hspace va hva hc ↦ ?_⟩
  obtain ⟨m, hm⟩ := Option.isSome_iff_exists.mp hspace
  obtain ⟨m', hm', hpage⟩ := VmmSys.call_maps hsim he hm hc
  obtain ⟨h₁, h₂⟩ := hsim.refines pml4Phys m hm va hva
  obtain ⟨h₁', h₂'⟩ := (hsim.call he).refines pml4Phys m' hm' va hva
  rw [h₁, h₂, h₁', h₂', PageMap.physical, PageMap.physical, PageMap.pteFlags, PageMap.pteFlags,
    hpage]
  exact ⟨rfl, rfl⟩

def bareSys : VmmSys where
  vm :=
    { mem := fun _ _ ↦ 0#64
      pmm := ⟨fun i ↦ if i = 0 then 0x07#8 else 0#8, 32, 29#64, Pmm.small_le⟩
      pageInfo := none
      maxPages := 0
      kernelPml4Phys := 0x1000#64 }
  maps _ := none

def bareCreated : VmmSys := bareSys.call .create

def bareMapped : VmmSys := bareCreated.call (.map 0x3000#64 0x400000#64 0x5000#64 0x7#64)

theorem bareSys_boot : bareSys.Boot := by
  refine ⟨rfl, fun p f _ hf ↦ ?_⟩
  cases p with
  | nil =>
    obtain rfl := Option.some.inj hf
    rintro ⟨_, _, hu⟩
    exact absurd hu (by decide)
  | cons i p => simp [tableAt, bareSys, kernelNext, hasFlag_zero] at hf

theorem page_tables_refine_bareMapped :
    bareSys.Boot ∧ Runs VmmSys.call VmmSys.Enabled bareSys bareMapped ∧ bareMapped.Refines ∧
      vmmGetPhysical bareMapped.vm 0x3000#64 0x400123#64 = 0x5000#64 := by
  have hrun : Runs VmmSys.call VmmSys.Enabled bareSys bareMapped := by
    refine Runs.step (Runs.step .refl (a := VmmCall.create) trivial)
      (a := VmmCall.map 0x3000#64 0x400000#64 0x5000#64 0x7#64) ⟨?_, ?_, ?_, ?_⟩
    · decide +kernel
    · exact show (0x400000 : ℕ) < userSpaceTop by decide
    · decide
    · decide
  exact ⟨bareSys_boot, hrun, (page_tables_refine bareSys_boot hrun).1, by decide +kernel⟩

end SeedOS.Memory
