import SeedOS.Process.Progress
import SeedOS.Process.StackLayout

namespace SeedOS.Process

open Foundation Memory Function

variable {s s' : Vm} {roots : Set ℕ} {role : Roles} {pml4Phys : Word}

theorem pml4Index_of_lt {v : Word} (hv : v.toNat < 2 ^ 47) : (pml4Index v).val < 256 := by
  have h : (v >>> 39).toNat < 256 := by
    rw [BitVec.toNat_ushiftRight, Nat.shiftRight_eq_div_pow]
    omega
  exact Nat.lt_of_le_of_lt (by
    simp only [pml4Index, tableIndex, BitVec.toNat_and]
    exact Nat.and_le_left) h

section Write

theorem writeBytes_progress (h : Inv s roots role) {f : ℕ} (hf : role f = .data)
    (off : ℕ → ℕ) (b : ℕ → BitVec 8) (l : List ℕ) :
    Progress roots s (l.foldl (fun s i ↦ s.writeByte f (off i) (b i)) s) role role := by
  induction l generalizing s with
  | nil => exact .refl h
  | cons i l ih =>
    have hp := writeByte_progress h hf (off i) (b i)
    exact hp.trans (ih hp.inv)

theorem frame_data (h : Inv s roots role) (hr : pageOf pml4Phys ∈ roots) {v : Word}
    (hv : (pml4Index v).val < 256) (hne : vmmGetPhysical s pml4Phys v ≠ 0#64) :
    role (pageOf (vmmGetPhysical s pml4Phys v)) = .data := by
  obtain ⟨f, hf, hphys, _⟩ := vmmGetPhysical_data h hr hv hne
  have hlt := (h.owned (.inl hf)).lt
  rwa [hphys, pageOf_pageAddr (by omega)]

end Write

section Load

/-- A property of states that the loader keeps while it touches addresses in `U` only. The
property may depend on a set that has the numbers of all mapped pages of `U`. -/
structure LoaderKeeps (pml4Phys : Word) (U : Word → Prop) (J : Set ℕ → Vm → Prop) : Prop where
  mono : ∀ {T T' : Set ℕ} {s : Vm}, T ⊆ T' → J T s → J T' s
  map : ∀ {T : Set ℕ} {s s' : Vm} {v flags : Word} {res : FreshPage}, J T s → U v →
    pageOf v ∈ T → MapFlags flags →
    mapFreshPage s pml4Phys v flags = (res, s') → J T s'
  mapped : ∀ {T : Set ℕ} {s : Vm} {v : Word}, J T s → U v →
    vmmGetPhysical s pml4Phys v ≠ 0#64 → pageOf v ∈ T
  copy : ∀ {T : Set ℕ} {s : Vm} {v : Word}, J T s → U v →
    vmmGetPhysical s pml4Phys v ≠ 0#64 → ∀ off data src n,
    J T (elfMemcpy s (pageOf (vmmGetPhysical s pml4Phys v)) off data src n)

variable {U : Word → Prop} {J : Set ℕ → Vm → Prop} {T : Set ℕ} (hJ : LoaderKeeps pml4Phys U J)

include hJ

theorem loadPages_keeps {segStart flags : Word} (hfl : MapFlags flags) (n i : ℕ) (h : J T s)
    (hv : ∀ k < n, U (rangePage segStart (i + k)) ∧ pageOf (rangePage segStart (i + k)) ∈ T)
    {ret : ℤ} (heq : loadPages pml4Phys segStart flags n i s = (ret, s')) : J T s' := by
  induction n generalizing i s with
  | zero =>
    simp only [loadPages, Prod.mk.injEq] at heq
    exact heq.2 ▸ h
  | succ n ih =>
    have hv' : ∀ k < n, U (rangePage segStart (i + 1 + k)) ∧
        pageOf (rangePage segStart (i + 1 + k)) ∈ T := fun k hk ↦ by
      rw [show i + 1 + k = i + (k + 1) by omega]
      exact hv (k + 1) (by omega)
    rw [loadPages] at heq
    split at heq
    · exact ih (i + 1) h hv' heq
    · cases hm : mapFreshPage s pml4Phys (rangePage segStart i) flags with
      | mk res s₁ =>
        obtain ⟨hU, hT⟩ := hv 0 (by omega)
        have h₁ := hJ.map h hU hT hfl hm
        cases res with
        | mapped =>
          simp only [hm] at heq
          exact ih (i + 1) h₁ hv' heq
        | noMemory =>
          simp only [hm, Prod.mk.injEq] at heq
          exact heq.2 ▸ h₁
        | mapFailed code =>
          simp only [hm, Prod.mk.injEq] at heq
          exact heq.2 ▸ h₁

theorem copySegment_keeps {data : File} (fuel : ℕ) {src dst remaining : Word}
    (hfuel : remaining.toNat ≤ fuel) (h : J T s)
    (hv : ∀ k < remaining.toNat, (∀ l < k, pageOf (dst + BitVec.ofNat 64 l) ∈ T) →
      U (alignDown (dst + BitVec.ofNat 64 k)))
    {ret : ℤ} (heq : copySegment pml4Phys data fuel src dst remaining s = (ret, s')) :
    J T s' ∧ (ret = 0 → ∀ k < remaining.toNat, pageOf (dst + BitVec.ofNat 64 k) ∈ T) := by
  induction fuel generalizing s src dst remaining with
  | zero =>
    simp only [copySegment, Prod.mk.injEq] at heq
    exact ⟨heq.2 ▸ h, fun _ k hk ↦ by omega⟩
  | succ fuel ih =>
    rw [copySegment] at heq
    by_cases h₀ : remaining = 0#64
    · simp only [h₀, if_true, Prod.mk.injEq] at heq
      exact ⟨heq.2 ▸ h, fun _ k hk ↦ by simp [h₀] at hk⟩
    have hpos : 0 < remaining.toNat := by
      by_contra hc
      exact h₀ (BitVec.eq_of_toNat_eq (by simpa using hc))
    have hU : U (alignDown dst) := by simpa using hv 0 hpos (fun l hl ↦ by omega)
    rw [if_neg h₀] at heq
    dsimp only at heq
    by_cases hz : vmmGetPhysical s pml4Phys (alignDown dst) = 0#64
    · simp only [hz, if_true, Prod.mk.injEq] at heq
      exact ⟨heq.2 ▸ h, fun hret ↦ absurd (heq.1.trans hret) (by decide)⟩
    rw [if_neg hz] at heq
    have hcopy := toCopy_toNat dst remaining
    generalize (if 4096#64 - (dst - alignDown dst) > remaining then remaining
      else 4096#64 - (dst - alignDown dst)) = toCopy at heq hcopy
    have hsub : (remaining - toCopy).toNat = remaining.toNat - toCopy.toNat :=
      BitVec.toNat_sub_of_le (BitVec.le_def.mpr (by omega))
    have hadd : ∀ k, dst + toCopy + BitVec.ofNat 64 k =
        dst + BitVec.ofNat 64 (toCopy.toNat + k) := fun k ↦ by
      rw [BitVec.ofNat_add, BitVec.ofNat_toNat, BitVec.setWidth_eq, BitVec.add_assoc]
    -- the bytes of this round are on one page, which is mapped
    have hround : ∀ l < toCopy.toNat, pageOf (dst + BitVec.ofNat 64 l) ∈ T := fun l hl ↦ by
      have hpage : pageOf (dst + BitVec.ofNat 64 l) = pageOf (alignDown dst) := by
        rw [pageOf, pageOf, BitVec.toNat_add, BitVec.toNat_ofNat, alignDown_toNat]
        omega
      exact hpage ▸ hJ.mapped h hU hz
    have hrest : ∀ l, (∀ j < l - toCopy.toNat, pageOf (dst + toCopy + BitVec.ofNat 64 j) ∈ T) →
        ∀ j < l, pageOf (dst + BitVec.ofNat 64 j) ∈ T := fun l hl j hj ↦ by
      by_cases hjc : j < toCopy.toNat
      · exact hround j hjc
      · have := hl (j - toCopy.toNat) (by omega)
        rwa [hadd, Nat.add_sub_cancel' (by omega)] at this
    obtain ⟨hs', hall⟩ := ih (by omega) (hJ.copy h hU hz _ _ _ _) (fun k hk hbefore ↦ by
      rw [hadd]
      exact hv _ (by omega) (hrest _ (by simpa using hbefore))) heq
    exact ⟨hs', fun hret ↦ hrest _ (hsub ▸ hall hret)⟩

omit hJ in
theorem pteFlags_spec (ph : Phdr) : MapFlags ph.pteFlags := by
  unfold Phdr.pteFlags
  dsimp only
  split_ifs <;> decide

/-- If `elf_load` does not refuse the segment, then every address that it maps or copies to is
in `U`. The copy goes on as long as it finds pages, those of `T`. -/
def Phdr.StaysIn (U : Word → Prop) (size : Word) (T : Set ℕ) (ph : Phdr) : Prop :=
  ph.vaddr < 0x800000000000#64 →
    (∀ k < ph.numPages.toNat, U (rangePage ph.segStart k)) ∧
      (ph.offset + ph.filesz ≤ size → ∀ k < ph.filesz.toNat,
        (∀ l < k, pageOf (ph.vaddr + BitVec.ofNat 64 l) ∈ T) →
        U (alignDown (ph.vaddr + BitVec.ofNat 64 k)))

/-- `elf_load` goes on behind the segment, if there is memory: the segment passes the checks and
the copy finds all pages that it needs. -/
def Phdr.Admitted (size : Word) (T : Set ℕ) (ph : Phdr) : Prop :=
  ph.vaddr < 0x800000000000#64 ∧ (ph.filesz = 0#64 ∨ ph.offset + ph.filesz ≤ size ∧
    ∀ k < ph.filesz.toNat, pageOf (ph.vaddr + BitVec.ofNat 64 k) ∈ T)

def Phdr.Maps (ph : Phdr) (page : ℕ) : Prop :=
  ∃ k < ph.numPages.toNat, pageOf (rangePage ph.segStart k) = page

theorem loadSegment_keeps {data : File} {size : Word} {ph : Phdr}
    (hT : ∀ page, ph.Maps page → page ∈ T) (hv : ph.StaysIn U size T) (h : J T s) {ret : ℤ}
    (heq : loadSegment s pml4Phys data size ph = (ret, s')) :
    J T s' ∧ (ret = 0 → ph.Admitted size T) := by
  unfold loadSegment at heq
  by_cases hk : ph.vaddr ≥ 0x800000000000#64
  · simp only [hk, if_true, Prod.mk.injEq] at heq
    exact ⟨heq.2 ▸ h, fun hret ↦ absurd (heq.1.trans hret) (by decide)⟩
  rw [if_neg hk] at heq
  have hlow := BitVec.not_le.mp hk
  obtain ⟨hpages, hcopy⟩ := hv hlow
  cases hl : loadPages pml4Phys ph.segStart ph.pteFlags ph.numPages.toNat 0 s with
  | mk ret₁ s₁ =>
    have h₁ := loadPages_keeps hJ (pteFlags_spec ph) _ 0 h
      (fun k hk ↦ by rw [Nat.zero_add]; exact ⟨hpages k hk, hT _ ⟨k, hk, rfl⟩⟩) hl
    simp only [hl] at heq
    split_ifs at heq with hret hempty hsize
    · obtain ⟨rfl, rfl⟩ := Prod.mk.inj heq
      exact ⟨h₁, fun hc ↦ absurd hc hret⟩
    · exact ⟨(Prod.mk.inj heq).2 ▸ h₁, fun _ ↦ ⟨hlow, .inl hempty⟩⟩
    · exact ⟨(Prod.mk.inj heq).2 ▸ h₁, fun hc ↦ absurd ((Prod.mk.inj heq).1.trans hc) (by decide)⟩
    · have hfits := BitVec.not_lt.mp hsize
      obtain ⟨hs', hall⟩ := copySegment_keeps hJ _ (Nat.le_refl _) h₁ (hcopy hfits) heq
      exact ⟨hs', fun hret ↦ ⟨hlow, .inr ⟨hfits, hall hret⟩⟩⟩

theorem loadSegments_keeps {data : File} {size : Word} {T : ℕ → Set ℕ}
    (hmono : ∀ i, T i ⊆ T (i + 1))
    (hT : ∀ i, (nthPhdr data i).IsLoad → ∀ page, (nthPhdr data i).Maps page → page ∈ T (i + 1))
    (n i : ℕ) {info info' : ElfInfo} (h : J (T i) s)
    (hv : ∀ k < n, (∀ j < k, (nthPhdr data (i + j)).IsLoad →
        (nthPhdr data (i + j)).Admitted size (T (i + j + 1))) →
      (nthPhdr data (i + k)).IsLoad → (nthPhdr data (i + k)).StaysIn U size (T (i + k + 1)))
    {ret : ℤ} (heq : loadSegments pml4Phys data size n i info s = (ret, info', s')) :
    ∃ k, J (T k) s' := by
  induction n generalizing i info s with
  | zero =>
    simp only [loadSegments, Prod.mk.injEq] at heq
    exact ⟨i, heq.2.2 ▸ h⟩
  | succ n ih =>
    have hv' : ((nthPhdr data i).IsLoad → (nthPhdr data i).Admitted size (T (i + 1))) →
        ∀ k < n, (∀ j < k, (nthPhdr data (i + 1 + j)).IsLoad →
          (nthPhdr data (i + 1 + j)).Admitted size (T (i + 1 + j + 1))) →
        (nthPhdr data (i + 1 + k)).IsLoad →
        (nthPhdr data (i + 1 + k)).StaysIn U size (T (i + 1 + k + 1)) := by
      intro hi k hk hbefore
      rw [show i + 1 + k = i + (k + 1) by omega]
      refine hv (k + 1) (by omega) fun j hj ↦ ?_
      cases j with
      | zero => exact hi
      | succ j => rw [show i + (j + 1) = i + 1 + j by omega]; exact hbefore j (by omega)
    rw [loadSegments] at heq
    by_cases hload : (nthPhdr data i).IsLoad
    · simp only [hload, if_true] at heq
      cases hs : loadSegment s pml4Phys data size (nthPhdr data i) with
      | mk ret₁ s₁ =>
        obtain ⟨h₁, hadm⟩ := loadSegment_keeps hJ (hT i hload)
          (hv 0 (by omega) (fun j hj ↦ by omega) hload) (hJ.mono (hmono i) h) hs
        simp only [hs] at heq
        split_ifs at heq with hret
        · simp only [Prod.mk.injEq] at heq
          exact ⟨i + 1, heq.2.2 ▸ h₁⟩
        · exact ih (i + 1) h₁ (hv' fun _ ↦ hadm (not_not.mp hret)) heq
    · simp only [hload, if_false] at heq
      exact ih (i + 1) (hJ.mono (hmono i) h) (hv' fun hc ↦ absurd hc hload) heq

theorem elfLoad_keeps {T : ℕ → Set ℕ} (hmono : ∀ i, T i ⊆ T (i + 1)) {data : File}
    (hT : ∀ i, (nthPhdr data i).IsLoad → ∀ page, (nthPhdr data i).Maps page → page ∈ T (i + 1))
    (h : J (T 0) s) (size : Word) (info : ElfInfo)
    (hv : ¬ elfValidate data size < 0 → ∀ i < (readEhdr data).phnum.toNat,
      (∀ j < i, (nthPhdr data j).IsLoad → (nthPhdr data j).Admitted size (T (j + 1))) →
      (nthPhdr data i).IsLoad → (nthPhdr data i).StaysIn U size (T (i + 1))) :
    ∃ k, J (T k) (elfLoad s pml4Phys data size info).2.2 := by
  unfold elfLoad
  dsimp only
  by_cases hval : elfValidate data size < 0
  · rw [if_pos hval]
    exact ⟨0, h⟩
  · rw [if_neg hval]
    cases hl : loadSegments pml4Phys data size (readEhdr data).phnum.toNat 0
        { entry := (readEhdr data).entry, phdrAddr := 0#64, phnum := (readEhdr data).phnum,
          brkStart := 0#64 } s with
    | mk ret rest =>
      have h' := loadSegments_keeps hJ hmono hT _ 0 h (by simpa only [Nat.zero_add] using hv hval) hl
      dsimp only
      split_ifs <;> exact h'

omit hJ

theorem loaderKeeps_progress (hr : pageOf pml4Phys ∈ roots) :
    LoaderKeeps pml4Phys (fun v ↦ (pml4Index v).val < 256) fun T s' ↦
      T = Set.univ ∧ ∃ role', Progress roots s s' role role' where
  mono hT h := ⟨Set.univ_subset_iff.mp (h.1 ▸ hT), h.2⟩
  map h hv _ hfl heq := by
    obtain ⟨rfl, role₁, h₁⟩ := h
    obtain ⟨role₂, h₂, _⟩ := mapFreshPage_progress h₁.inv hr hv hfl heq
    exact ⟨rfl, role₂, h₁.trans h₂⟩
  mapped h _ _ := h.1 ▸ Set.mem_univ _
  copy h hv hne off data src n := by
    obtain ⟨rfl, role₁, h₁⟩ := h
    exact ⟨rfl, role₁, h₁.trans (writeBytes_progress h₁.inv (frame_data h₁.inv hr hv hne) _ _ _)⟩

/-- Every address that the loader touches for this segment is in the user half. -/
def Phdr.InUserHalf (ph : Phdr) : Prop :=
  (∀ k < ph.numPages.toNat, (pml4Index (rangePage ph.segStart k)).val < 256) ∧
    ∀ k < ph.filesz.toNat, (pml4Index (alignDown (ph.vaddr + BitVec.ofNat 64 k))).val < 256

theorem elfLoad_progress (h : Inv s roots role) (hr : pageOf pml4Phys ∈ roots) (data : File)
    (size : Word) (info : ElfInfo)
    (hv : ∀ k < (readEhdr data).phnum.toNat, (nthPhdr data k).IsLoad →
      (nthPhdr data k).InUserHalf) :
    ∃ role', Progress roots s (elfLoad s pml4Phys data size info).2.2 role role' := by
  obtain ⟨-, -, h'⟩ := elfLoad_keeps (loaderKeeps_progress hr) (T := fun _ ↦ Set.univ)
    (fun _ ↦ subset_rfl) (fun _ _ _ _ ↦ Set.mem_univ _) ⟨rfl, role, .refl h⟩ size info
    fun _ k hk _ hload _ ↦ ⟨(hv k hk hload).1, fun _ k' hk' _ ↦ (hv k hk hload).2 k' hk'⟩
  exact h'

end Load

section Stack

theorem stackPage_user {i : ℕ} (hi : i < 512) : (pml4Index (stackPage i)).val < 256 := by
  apply pml4Index_of_lt
  have hmul : (BitVec.ofNat 64 (i + 1) * 4096#64).toNat = (i + 1) * 4096 := by
    rw [BitVec.toNat_mul, BitVec.toNat_ofNat, BitVec.toNat_ofNat]
    omega
  rw [stackPage, BitVec.toNat_sub, hmul, show userStackTop.toNat = 0x800000000 from rfl]
  omega

theorem stackPages_progress (h : Inv s roots role) (hr : pageOf pml4Phys ∈ roots) :
    ∃ role', Progress roots s (stackPages pml4Phys userStackPages 0 s).2 role role' := by
  refine mapLoop_keeps (P := fun _ s' ↦ ∃ role', Progress roots s s' role role')
    (Q := fun s' ↦ ∃ role', Progress roots s s' role role') _ 0 ?_ (fun _ ↦ id) ⟨role, .refl h⟩
  rintro k res s₁ s₂ - hk ⟨role₁, hp₁⟩ hm
  obtain ⟨role₂, hp₂, -⟩ := mapFreshPage_progress hp₁.inv hr
    (stackPage_user (by simpa [userStackPages] using hk)) (by decide) hm
  exact ⟨fun _ ↦ ⟨role₂, hp₁.trans hp₂⟩, fun _ ↦ ⟨role₂, hp₁.trans hp₂⟩⟩

theorem alignDown_le (v : Word) : (alignDown v).toNat ≤ v.toNat := by
  rw [alignDown_toNat]
  exact Nat.sub_le _ _

theorem alignDown_user {v : Word} (hv : v.toNat < 2 ^ 47) :
    (pml4Index (alignDown v)).val < 256 :=
  pml4Index_of_lt (Nat.lt_of_le_of_lt (alignDown_le v) hv)

theorem pokeBytes_progress (hr : pageOf pml4Phys ∈ roots) (bs : List (BitVec 8)) {va : Word}
    (h : Inv s roots role) (hv : va.toNat + bs.length < 2 ^ 47) {ok : Bool}
    (heq : pokeBytes pml4Phys bs va s = (ok, s')) : Progress roots s s' role role := by
  induction bs generalizing va s with
  | nil =>
    simp only [pokeBytes, Prod.mk.injEq] at heq
    exact heq.2 ▸ .refl h
  | cons b bs ih =>
    rw [List.length_cons] at hv
    rw [pokeBytes, pokeByte] at heq
    by_cases hz : vmmGetPhysical s pml4Phys (alignDown va) = 0#64
    · simp only [hz, if_true, Prod.mk.injEq] at heq
      exact heq.2 ▸ .refl h
    · simp only [hz, if_false] at heq
      have hw := writeByte_progress h (frame_data h hr (alignDown_user (by omega)) hz)
        (va &&& 0xFFF#64).toNat b
      refine hw.trans (ih hw.inv ?_ heq)
      rw [BitVec.toNat_add, show (1#64).toNat = 1 from rfl]
      omega

theorem pokeRandom_progress (hr : pageOf pml4Phys ∈ roots) {a : Word} (h : Inv s roots role)
    (hv : a.toNat < 2 ^ 47) : Progress roots s (pokeRandom pml4Phys a s) role role := by
  unfold pokeRandom
  by_cases hz : vmmGetPhysical s pml4Phys (alignDown a) = 0#64
  · simp only [hz, if_true]
    exact .refl h
  · simp only [hz, if_false]
    exact writeBytes_progress h (frame_data h hr (alignDown_user hv) hz) _ _ _

theorem pushWords_progress (hr : pageOf pml4Phys ∈ roots) (ws : List Word) {sp : Word}
    {sp' : Option Word} (h : Inv s roots role) (hlow : 8 * ws.length ≤ sp.toNat)
    (hv : sp.toNat < 2 ^ 47) (heq : pushWords pml4Phys ws sp s = (sp', s')) :
    Progress roots s s' role role := by
  induction ws generalizing sp s with
  | nil =>
    simp only [pushWords, Prod.mk.injEq] at heq
    exact heq.2 ▸ .refl h
  | cons w ws ih =>
    rw [List.length_cons] at hlow
    have hsub : (sp - 8#64).toNat = sp.toNat - 8 := by
      rw [BitVec.toNat_sub, show (8#64).toNat = 8 from rfl]
      omega
    rw [pushWords] at heq
    by_cases hz : vmmGetPhysical s pml4Phys (alignDown (sp - 8#64)) = 0#64
    · simp only [hz, if_true, Prod.mk.injEq] at heq
      exact heq.2 ▸ .refl h
    · rw [if_neg hz] at heq
      have hw := write_progress h (frame_data h hr (alignDown_user (by omega)) hz)
        (wordIndex ((sp - 8#64) &&& 0xFFF#64).toNat) w
      exact hw.trans (ih hw.inv (by omega) (by omega) heq)

theorem elfSetupStack_progress (h : Inv s roots role) (hr : pageOf pml4Phys ∈ roots)
    {argv envp : List (List (BitVec 8))} {info : ElfInfo} (hfits : StackFits argv envp) :
    ∃ role', Progress roots s (elfSetupStack s pml4Phys argv envp info).2 role role' := by
  have htop : userStackTop.toNat = 0x800000000 := rfl
  obtain ⟨hstrings, -, hlow, -, -, hwords⟩ := stack_layout hfits
  obtain ⟨-, hlen⟩ := length_initialWords argv envp info
  obtain ⟨role₁, hp₁⟩ := stackPages_progress h hr
  rw [elfSetupStack_eq]
  cases hs : stackPages pml4Phys userStackPages 0 s with
  | mk ok s₁ =>
    rw [hs] at hp₁
    cases ok with
    | false => exact ⟨role₁, hp₁⟩
    | true =>
      dsimp only
      cases hb : pokeBytes pml4Phys (packStrings (argv ++ envp)) (stringsBase argv envp) s₁ with
      | mk ok s₂ =>
        have hp₂ := pokeBytes_progress hr _ hp₁.inv (by omega) hb
        cases ok with
        | false => exact ⟨role₁, hp₁.trans hp₂⟩
        | true =>
          dsimp only
          have hp₃ := pokeRandom_progress hr hp₂.inv
            (show (randomAddr argv envp).toNat < 2 ^ 47 by omega)
          cases hw : pushWords pml4Phys (initialWords argv envp info).reverse
              (randomAddr argv envp) (pokeRandom pml4Phys (randomAddr argv envp) s₂) with
          | mk sp s₃ =>
            have hp₄ := pushWords_progress hr _ hp₃.inv (by rw [List.length_reverse]; omega)
              (by omega) hw
            cases sp <;> exact ⟨role₁, (hp₁.trans hp₂).trans (hp₃.trans hp₄)⟩

end Stack

end SeedOS.Process
