import SeedOS.Process.UserImage

namespace SeedOS.Process

open Foundation Memory Function

section Segment

/-- A segment whose pages and whose copied bytes lie in the user half. -/
structure Phdr.Placed (ph : Phdr) : Prop where
  user : ph.vaddr.toNat + ph.memsz.toNat ≤ userSpaceTop
  copied : ph.vaddr.toNat + ph.filesz.toNat ≤ userSpaceTop

/-- A segment that lies in the user half and has no more bytes in the file than in memory. -/
structure Phdr.Proper (ph : Phdr) : Prop where
  user : ph.vaddr.toNat + ph.memsz.toNat ≤ userSpaceTop
  file : ph.filesz.toNat ≤ ph.memsz.toNat

theorem Phdr.Proper.placed {ph : Phdr} (h : ph.Proper) : ph.Placed :=
  ⟨h.user, (Nat.add_le_add_left h.file _).trans h.user⟩

def Phdr.Touches (ph : Phdr) (page : ℕ) : Prop :=
  pageOf ph.vaddr ≤ page ∧ page * 4096 < ph.vaddr.toNat + ph.memsz.toNat

instance Phdr.decidableTouches (ph : Phdr) (page : ℕ) : Decidable (ph.Touches page) :=
  inferInstanceAs (Decidable (_ ∧ _))

variable {ph : Phdr}

theorem Phdr.Placed.numPages (h : ph.Placed) : ph.numPages.toNat =
    (ph.vaddr.toNat + ph.memsz.toNat + 4095) / 4096 - pageOf ph.vaddr := by
  have huser := h.user
  rw [userSpaceTop] at huser
  have hend : (ph.vaddr + ph.memsz).toNat = ph.vaddr.toNat + ph.memsz.toNat := by
    rw [BitVec.toNat_add, Nat.mod_eq_of_lt (by omega)]
  have hup := alignUp_toNat (v := ph.vaddr + ph.memsz) (by omega)
  have hdown := alignDown_toNat ph.vaddr
  have h4096 : (4096#64).toNat = 4096 := rfl
  rw [hend] at hup
  rw [Phdr.numPages, Phdr.segStart, BitVec.toNat_udiv,
    BitVec.toNat_sub_of_le (BitVec.le_def.mpr (by omega)), hup, hdown, pageOf, h4096]
  omega

theorem Phdr.Placed.touches_iff (h : ph.Placed) (page : ℕ) : ph.Touches page ↔
    pageOf ph.vaddr ≤ page ∧ page < pageOf ph.vaddr + ph.numPages.toNat := by
  rw [h.numPages, Phdr.Touches]
  omega

theorem Phdr.Placed.rangePage (h : ph.Placed) {k : ℕ} (hk : k < ph.numPages.toNat) :
    UserAddress (rangePage ph.segStart k) ∧
      pageOf (rangePage ph.segStart k) = pageOf ph.vaddr + k := by
  have huser := h.user
  have hdown := alignDown_toNat ph.vaddr
  have hpages := h.numPages
  have hval : (Process.rangePage ph.segStart k).toNat = (pageOf ph.vaddr + k) * 4096 := by
    have h4096 : (4096#64).toNat = 4096 := rfl
    rw [Process.rangePage, Phdr.segStart, BitVec.toNat_add, BitVec.toNat_mul, BitVec.toNat_ofNat,
      hdown, h4096]
    rw [userSpaceTop] at huser
    rw [pageOf] at hpages ⊢
    omega
  rw [UserAddress, pageOf, hval]
  rw [userSpaceTop] at huser ⊢
  rw [pageOf] at hpages ⊢
  omega

end Segment

namespace UserImage

/-- With zeroed pages where `n` pages from `page` on are not mapped yet. -/
def addPages (flags : Word) : ℕ → ℕ → UserImage → UserImage
  | _, 0, m => m
  | page, n + 1, m =>
    addPages flags (page + 1) n (if m.flags page = none then m.mapPage page flags else m)

theorem flags_addPages (flags : Word) (page n : ℕ) (m : UserImage) (p : ℕ) :
    (m.addPages flags page n).flags p =
      (m.flags p).or (if page ≤ p ∧ p < page + n then some flags else none) := by
  induction n generalizing page m with
  | zero =>
    rw [addPages, if_neg (by omega), Option.or_none]
  | succ n ih =>
    rw [addPages, ih]
    by_cases hp : p = page
    · subst hp
      have hout : ¬ (p + 1 ≤ p ∧ p < p + 1 + n) := by omega
      have hin : p ≤ p ∧ p < p + (n + 1) := by omega
      rw [if_neg hout, if_pos hin, Option.or_none]
      cases hflags : m.flags p with
      | none => simp [flags_mapPage]
      | some fl => simp [hflags]
    · have hsame : (if m.flags page = none then m.mapPage page flags else m).flags p = m.flags p := by
        split
        · rw [flags_mapPage, if_neg hp]
        · rfl
      rw [hsame]
      congr 1
      exact if_congr (by omega) rfl rfl

theorem byte_addPages (flags : Word) (page n : ℕ) (m : UserImage) (a : ℕ) :
    (m.addPages flags page n).byte a =
      if page ≤ a / 4096 ∧ a / 4096 < page + n ∧ m.flags (a / 4096) = none then 0#8
      else m.byte a := by
  induction n generalizing page m with
  | zero => rw [addPages, if_neg (by omega)]
  | succ n ih =>
    rw [addPages, ih]
    by_cases hp : a / 4096 = page
    · subst hp
      rw [if_neg (by omega)]
      by_cases hflags : m.flags (a / 4096) = none
      · rw [if_pos hflags, if_pos ⟨by omega, by omega, hflags⟩, byte_mapPage, if_pos rfl]
      · rw [if_neg hflags, if_neg fun hc ↦ hflags hc.2.2]
    · have hflags : (if m.flags page = none then m.mapPage page flags else m).flags (a / 4096) =
          m.flags (a / 4096) := by
        split
        · rw [flags_mapPage, if_neg hp]
        · rfl
      have hbyte : (if m.flags page = none then m.mapPage page flags else m).byte a = m.byte a := by
        split
        · rw [byte_mapPage, if_neg hp]
        · rfl
      rw [hflags, hbyte]
      exact if_congr ⟨fun h ↦ ⟨by omega, by omega, h.2.2⟩, fun h ↦ ⟨by omega, by omega, h.2.2⟩⟩ rfl rfl

end UserImage

/-- What a segment adds to an image: its pages where they are missing, then the bytes of the
file. -/
def Phdr.load (data : File) (ph : Phdr) (m : UserImage) : UserImage :=
  (m.addPages ph.pteFlags (pageOf ph.vaddr) ph.numPages.toNat).store ph.vaddr.toNat
    (ph.vaddr.toNat + ph.filesz.toNat) fun a ↦ data (ph.offset + BitVec.ofNat 64 (a - ph.vaddr.toNat))

def segmentsFrom (data : File) (i n : ℕ) : List Phdr :=
  ((List.range' i n).map (nthPhdr data)).filter fun ph ↦ ph.IsLoad

def segments (data : File) : List Phdr := segmentsFrom data 0 (readEhdr data).phnum.toNat

def loadAll (data : File) (segs : List Phdr) (m : UserImage) : UserImage :=
  segs.foldl (fun m ph ↦ ph.load data m) m

section Copy

variable (s : Vm) (f off : ℕ) (b : ℕ → BitVec 8)

def writeBytes (n : ℕ) : Vm := (List.range n).foldl (fun s i ↦ s.writeByte f (off + i) (b i)) s

theorem writeBytes_succ (n : ℕ) :
    writeBytes s f off b (n + 1) = (writeBytes s f off b n).writeByte f (off + n) (b n) := by
  rw [writeBytes, List.range_succ, List.foldl_concat, writeBytes]

theorem writeBytes_frame (n : ℕ) : (writeBytes s f off b n).pmm = s.pmm ∧
    (writeBytes s f off b n).kernelPml4Phys = s.kernelPml4Phys ∧
    ∀ g ≠ f, (writeBytes s f off b n).mem g = s.mem g := by
  induction n with
  | zero => exact ⟨rfl, rfl, fun _ _ ↦ rfl⟩
  | succ n ih =>
    obtain ⟨hp, hk, hm⟩ := ih
    rw [writeBytes_succ]
    exact ⟨hp, hk, fun g hg ↦ (writeByte_mem _ _ _ hg).trans (hm g hg)⟩

theorem readByte_writeBytes {n j : ℕ} (hn : off + n ≤ 4096) (hj : j < 4096) :
    (writeBytes s f off b n).readByte f j =
      if off ≤ j ∧ j < off + n then b (j - off) else s.readByte f j := by
  induction n with
  | zero => rw [if_neg (by omega)]; rfl
  | succ n ih =>
    rw [writeBytes_succ, readByte_writeByte _ (by omega) hj, ih (by omega)]
    by_cases hjn : j = off + n
    · rw [if_pos hjn, if_pos (by omega), hjn, Nat.add_sub_cancel_left]
    · rw [if_neg hjn]
      exact if_congr (by omega) rfl rfl

end Copy

section Loader

variable {roots : Set ℕ} {pml4Phys va : Word} {s s' : Vm} {role : Roles} {m : UserImage}

theorem Shows.writeBytes (h : Shows roots pml4Phys s role m) (hva : UserAddress va)
    (hne : vmmGetPhysical s pml4Phys va ≠ 0#64) {off n : ℕ} (hn : off + n ≤ 4096)
    (b c : ℕ → BitVec 8) (hb : ∀ k < n, b (pageOf va * 4096 + off + k) = c k) :
    Shows roots pml4Phys
      (Process.writeBytes s (pageOf (vmmGetPhysical s pml4Phys va)) off c n) role
      (m.store (pageOf va * 4096 + off) (pageOf va * 4096 + off + n) b) := by
  obtain ⟨flags, -, hpage⟩ := h.frame hva hne
  obtain ⟨hp, hk, hm⟩ := writeBytes_frame s (pageOf (vmmGetPhysical s pml4Phys va)) off c n
  refine h.change _ _ hva hpage hp hk hm rfl (fun j hj ↦ ?_) fun a ha ↦ if_neg (by omega)
  rw [readByte_writeBytes _ _ _ _ hn hj, UserImage.byte_store]
  by_cases hin : off ≤ j ∧ j < off + n
  · have hbyte := hb (j - off) (by omega)
    rw [show pageOf va * 4096 + off + (j - off) = pageOf va * 4096 + j by omega] at hbyte
    rw [if_pos hin, if_pos (by omega), hbyte]
  · rw [if_neg hin, if_neg (by omega), hpage.bytes j hj]

theorem mapFreshPage_code {flags : Word} {code : ℤ}
    (h : mapFreshPage s pml4Phys va flags = (.mapFailed code, s')) : code ≠ 0 := by
  rcases mapFreshPage_cases h with ⟨hc, -⟩ | ⟨-, -, c, -, -, -, ⟨hneg, hc, -⟩ | ⟨-, hc, -⟩⟩
  · cases hc
  · cases hc
    omega
  · cases hc

theorem loadPages_shows {segStart flags : Word} (hfl : MapFlags flags) {page : ℕ} (n i : ℕ)
    (h : Shows roots pml4Phys s role m)
    (hpages : ∀ k < n, UserAddress (rangePage segStart (i + k)) ∧
      pageOf (rangePage segStart (i + k)) = page + k)
    (heq : loadPages pml4Phys segStart flags n i s = (0, s')) :
    ∃ role', Shows roots pml4Phys s' role' (m.addPages flags page n) := by
  induction n generalizing s role m i page with
  | zero =>
    obtain rfl := (Prod.mk.inj heq).2
    exact ⟨role, h⟩
  | succ n ih =>
    obtain ⟨hva, hpage⟩ := hpages 0 (by omega)
    have hrest : ∀ k < n, UserAddress (rangePage segStart (i + 1 + k)) ∧
        pageOf (rangePage segStart (i + 1 + k)) = page + 1 + k := fun k hk ↦ by
      have := hpages (k + 1) (by omega)
      rwa [show i + (k + 1) = i + 1 + k by omega, show page + (k + 1) = page + 1 + k by omega] at this
    rw [Nat.add_zero] at hva
    rw [Nat.add_zero, Nat.add_zero] at hpage
    have hzero := h.physical_eq_zero hva
    rw [hpage] at hzero
    rw [loadPages] at heq
    rw [UserImage.addPages]
    by_cases hne : vmmGetPhysical s pml4Phys (rangePage segStart i) = 0#64
    · rw [if_neg (not_not_intro hne)] at heq
      rw [if_pos (hzero.mp hne)]
      cases hmap : mapFreshPage s pml4Phys (rangePage segStart i) flags with
      | mk res s₁ =>
        rw [hmap] at heq
        cases res with
        | mapped =>
          obtain ⟨role₁, h₁, -⟩ := h.mapFresh hva hfl hmap
          rw [hpage] at h₁
          exact ih (i + 1) h₁ hrest heq
        | noMemory => exact absurd (Prod.mk.inj heq).1 (by decide)
        | mapFailed code => exact absurd (Prod.mk.inj heq).1 (mapFreshPage_code hmap)
    · rw [if_pos hne] at heq
      rw [if_neg fun hc ↦ hne (hzero.mpr hc)]
      exact ih (i + 1) h hrest heq

theorem copySegment_shows {data : File} {b : ℕ → BitVec 8} (fuel : ℕ) {src dst remaining : Word}
    (hfuel : remaining.toNat ≤ fuel) (h : Shows roots pml4Phys s role m)
    (hend : dst.toNat + remaining.toNat ≤ userSpaceTop)
    (hb : ∀ k < remaining.toNat, b (dst.toNat + k) = data (src + BitVec.ofNat 64 k))
    (heq : copySegment pml4Phys data fuel src dst remaining s = (0, s')) :
    Shows roots pml4Phys s' role (m.store dst.toNat (dst.toNat + remaining.toNat) b) := by
  induction fuel generalizing s m src dst remaining with
  | zero =>
    obtain rfl := (Prod.mk.inj heq).2
    rw [Nat.le_zero.mp hfuel, Nat.add_zero, UserImage.store_empty]
    exact h
  | succ fuel ih =>
    rw [copySegment] at heq
    by_cases h₀ : remaining = 0#64
    · rw [if_pos h₀] at heq
      obtain rfl := (Prod.mk.inj heq).2
      rw [h₀, BitVec.toNat_zero, Nat.add_zero, UserImage.store_empty]
      exact h
    have hpos : remaining.toNat ≠ 0 := fun hc ↦ h₀ (BitVec.eq_of_toNat_eq hc)
    have hcopy := toCopy_toNat dst remaining
    have hoff := pageOffset_toNat dst
    have hdown := alignDown_toNat dst
    rw [if_neg h₀] at heq
    dsimp only at heq
    generalize (if 4096#64 - (dst - alignDown dst) > remaining then remaining
      else 4096#64 - (dst - alignDown dst)) = n at heq hcopy
    by_cases hz : vmmGetPhysical s pml4Phys (alignDown dst) = 0#64
    · rw [if_pos hz] at heq
      exact absurd (Prod.mk.inj heq).1 (by decide)
    rw [if_neg hz, hoff] at heq
    have hva : UserAddress (alignDown dst) := by
      rw [UserAddress]
      omega
    have hat : pageOf (alignDown dst) * 4096 + dst.toNat % 4096 = dst.toNat := by
      rw [pageOf]
      omega
    have hroom : dst.toNat % 4096 + n.toNat ≤ 4096 := by omega
    have hchunk := h.writeBytes hva hz hroom b (fun i ↦ data (src + BitVec.ofNat 64 i))
      fun k hk ↦ by rw [hat, hb k (by omega)]
    rw [hat] at hchunk
    rw [userSpaceTop] at hend
    have hdst : (dst + n).toNat = dst.toNat + n.toNat := by
      rw [BitVec.toNat_add, Nat.mod_eq_of_lt (by omega)]
    have hsub : (remaining - n).toNat = remaining.toNat - n.toNat :=
      BitVec.toNat_sub_of_le (BitVec.le_def.mpr (by omega))
    have hend' : (dst + n).toNat + (remaining - n).toNat ≤ userSpaceTop := by
      rw [userSpaceTop]
      omega
    have hb' : ∀ k < (remaining - n).toNat, b ((dst + n).toNat + k) =
        data (src + n + BitVec.ofNat 64 k) := fun k hk ↦ by
      rw [hdst, Nat.add_assoc, hb _ (by omega), BitVec.ofNat_add, BitVec.ofNat_toNat,
        BitVec.setWidth_eq, BitVec.add_assoc]
    have hrest := ih (by omega) hchunk hend' hb' heq
    rw [hdst, hsub, (UserImage.store_store _ (by omega) (by omega) _).1] at hrest
    rwa [show dst.toNat + n.toNat + (remaining.toNat - n.toNat) =
      dst.toNat + remaining.toNat by omega] at hrest

theorem loadSegment_shows {data : File} {size : Word} {ph : Phdr} (hplaced : ph.Placed)
    (h : Shows roots pml4Phys s role m)
    (heq : loadSegment s pml4Phys data size ph = (0, s')) :
    ∃ role', Shows roots pml4Phys s' role' (ph.load data m) := by
  have hfl := pteFlags_spec ph
  rw [loadSegment] at heq
  split at heq
  · exact absurd (Prod.mk.inj heq).1 (by decide)
  cases hload : loadPages pml4Phys ph.segStart ph.pteFlags ph.numPages.toNat 0 s with
  | mk ret s₁ =>
    simp only [hload] at heq
    by_cases hret : ret = 0
    · subst hret
      have hpages : ∀ k < ph.numPages.toNat, UserAddress (rangePage ph.segStart (0 + k)) ∧
          pageOf (rangePage ph.segStart (0 + k)) = pageOf ph.vaddr + k := fun k hk ↦ by
        rw [Nat.zero_add]
        exact hplaced.rangePage hk
      obtain ⟨role₁, h₁⟩ := loadPages_shows hfl _ 0 h hpages hload
      refine ⟨role₁, ?_⟩
      rw [if_neg (not_not_intro rfl)] at heq
      rw [Phdr.load]
      split at heq
      · rename_i hz
        obtain rfl := (Prod.mk.inj heq).2
        rw [hz, BitVec.toNat_zero, Nat.add_zero, UserImage.store_empty]
        exact h₁
      · split at heq
        · exact absurd (Prod.mk.inj heq).1 (by decide)
        · refine copySegment_shows _ (Nat.le_refl _) h₁ hplaced.copied (fun k _ ↦ ?_) heq
          rw [Nat.add_sub_cancel_left]
    · rw [if_pos hret] at heq
      exact absurd (Prod.mk.inj heq).1 hret

theorem segmentsFrom_succ (data : File) (i n : ℕ) : segmentsFrom data i (n + 1) =
    if (nthPhdr data i).IsLoad then nthPhdr data i :: segmentsFrom data (i + 1) n
    else segmentsFrom data (i + 1) n := by
  rw [segmentsFrom, List.range'_succ, List.map_cons, List.filter_cons]
  simp only [decide_eq_true_eq]
  rfl

def brkAfter (segs : List Phdr) (brk : Word) : Word :=
  segs.foldl (fun brk ph ↦ if ph.vaddr + ph.memsz > brk then ph.vaddr + ph.memsz else brk) brk

theorem loadSegments_shows {data : File} {size : Word} (n i : ℕ) {info info' : ElfInfo}
    (hplaced : ∀ ph ∈ segmentsFrom data i n, ph.Placed) (h : Shows roots pml4Phys s role m)
    (heq : loadSegments pml4Phys data size n i info s = (0, info', s')) :
    (∃ role', Shows roots pml4Phys s' role' (loadAll data (segmentsFrom data i n) m)) ∧
      info'.brkStart = brkAfter (segmentsFrom data i n) info.brkStart := by
  induction n generalizing s role m i info with
  | zero =>
    obtain ⟨-, rfl, rfl⟩ : (0 : ℤ) = 0 ∧ info = info' ∧ s = s' := by
      simpa [loadSegments] using heq
    exact ⟨⟨role, h⟩, rfl⟩
  | succ n ih =>
    rw [loadSegments] at heq
    dsimp only at heq
    rw [segmentsFrom_succ] at hplaced ⊢
    by_cases hload : (nthPhdr data i).IsLoad
    · rw [if_pos hload] at heq hplaced
      rw [if_pos hload]
      cases hseg : loadSegment s pml4Phys data size (nthPhdr data i) with
      | mk ret s₁ =>
        simp only [hseg] at heq
        by_cases hret : ret = 0
        · subst hret
          rw [if_neg (not_not_intro rfl)] at heq
          obtain ⟨role₁, h₁⟩ := loadSegment_shows (hplaced _ List.mem_cons_self) h hseg
          exact ih (i + 1) (fun ph hph ↦ hplaced ph (List.mem_cons_of_mem _ hph)) h₁ heq
        · rw [if_pos hret] at heq
          exact absurd (Prod.mk.inj heq).1 hret
    · rw [if_neg hload] at heq hplaced
      rw [if_neg hload]
      exact ih (i + 1) hplaced h heq

theorem elfLoad_shows {data : File} {size : Word} {info info' : ElfInfo}
    (hplaced : ∀ ph ∈ segments data, ph.Placed) (h : Shows roots pml4Phys s role m)
    (heq : elfLoad s pml4Phys data size info = (0, info', s')) :
    (∃ role', Shows roots pml4Phys s' role' (loadAll data (segments data) m)) ∧
      info'.brkStart = alignUp (brkAfter (segments data) 0#64) := by
  rw [elfLoad] at heq
  dsimp only at heq
  split at heq
  · rename_i hneg
    exact absurd (Prod.mk.inj heq).1 hneg.ne
  · cases hload : loadSegments pml4Phys data size (readEhdr data).phnum.toNat 0
        ⟨(readEhdr data).entry, 0#64, (readEhdr data).phnum, 0#64⟩ s with
    | mk ret rest =>
      obtain ⟨info₁, s₁⟩ := rest
      simp only [hload] at heq
      by_cases hret : ret = 0
      · subst hret
        obtain ⟨hshows, hbrk⟩ := loadSegments_shows _ _ hplaced h hload
        simp only [ne_eq, not_true_eq_false, if_false, Prod.mk.injEq, true_and] at heq
        obtain ⟨rfl, rfl⟩ := heq
        exact ⟨hshows, by rw [hbrk, segments]⟩
      · rw [if_pos hret] at heq
        exact absurd (Prod.mk.inj heq).1 hret

end Loader

end SeedOS.Process
