import SeedOS.Process.ElfReads

namespace SeedOS.Process

open Foundation Memory Function

section Headers

def Phdr.Fits (ph : Phdr) (size : Word) : Prop :=
  ph.offset.toNat + ph.filesz.toNat ≤ size.toNat

def Phdr.Passes (ph : Phdr) (size : Word) : Prop :=
  ph.IsLoad → ph.vaddr < 0x800000000000#64 ∧ (ph.filesz = 0#64 ∨ ph.Fits size)

/-- The end of the data, as an exact sum, is beyond 64 bits and wraps to an offset
inside the file. -/
def Phdr.Wraps (ph : Phdr) (size : Word) : Prop :=
  ph.IsLoad ∧ ph.vaddr < 0x800000000000#64 ∧ 2 ^ 64 ≤ ph.offset.toNat + ph.filesz.toNat ∧
    ph.offset.toNat + ph.filesz.toNat ≤ 2 ^ 64 + size.toNat

def EhdrOk (data : File) (size : Word) : Prop :=
  64 ≤ size.toNat ∧ (readEhdr data).ident 0 = 0x7f#8 ∧ (readEhdr data).ident 1 = 0x45#8 ∧
    (readEhdr data).ident 2 = 0x4c#8 ∧ (readEhdr data).ident 3 = 0x46#8 ∧
    (readEhdr data).ident 4 = 2#8 ∧ (readEhdr data).ident 5 = 1#8 ∧
    ((readEhdr data).type = 2#16 ∨ (readEhdr data).type = 3#16) ∧
    (readEhdr data).machine = 62#16 ∧ (readEhdr data).phentsize = 56#16

def tableEnd (data : File) : ℕ :=
  (readEhdr data).phoff.toNat + (readEhdr data).phnum.toNat * 56

/-- No sum that the loader compares with the size of the file wraps to a value that
passes the comparison: neither that of the program header table nor that of a segment
which the headers before it let the loader reach. -/
def NoWrap (data : File) (size : Word) : Prop :=
  EhdrOk data size →
    (tableEnd data < 2 ^ 64 ∨ 2 ^ 64 + size.toNat < tableEnd data) ∧
    (tableEnd data ≤ size.toNat → ∀ i < (readEhdr data).phnum.toNat,
      (∀ j < i, (nthPhdr data j).Passes size) → ¬ (nthPhdr data i).Wraps size)

variable {data : File} {size : Word} {ph : Phdr}

theorem phdrsEnd_toNat (data : File) :
    (phdrsEnd (readEhdr data)).toNat = tableEnd data % 2 ^ 64 := by
  have := (readEhdr data).phnum.isLt
  rw [phdrsEnd, BitVec.toNat_add, BitVec.toNat_mul, BitVec.toNat_setWidth_of_le (by omega),
    show sizeofPhdr.toNat = 56 from rfl, Nat.mod_eq_of_lt (a := _ * 56) (by omega), tableEnd]

theorem elfValidate_accepts :
    ¬ elfValidate data size < 0 ↔ EhdrOk data size ∧ tableEnd data % 2 ^ 64 ≤ size.toNat := by
  have hsize : size < sizeofEhdr ↔ ¬ 64 ≤ size.toNat := by
    rw [BitVec.lt_def, show sizeofEhdr.toNat = 64 from rfl, Nat.not_le]
  have hend : phdrsEnd (readEhdr data) > size ↔ ¬ tableEnd data % 2 ^ 64 ≤ size.toNat := by
    rw [gt_iff_lt, BitVec.lt_def, phdrsEnd_toNat, Nat.not_le]
  unfold elfValidate
  by_cases hs : size < sizeofEhdr
  · rw [if_pos hs]
    exact iff_of_false (by decide) fun h ↦ hsize.mp hs h.1.1
  rw [if_neg hs]
  by_cases hmagic : (readEhdr data).ident 0 ≠ 0x7f#8 ∨ (readEhdr data).ident 1 ≠ 0x45#8 ∨
      (readEhdr data).ident 2 ≠ 0x4c#8 ∨ (readEhdr data).ident 3 ≠ 0x46#8
  · rw [if_pos hmagic]
    refine iff_of_false (by decide) ?_
    rintro ⟨⟨_, h₀, h₁, h₂, h₃, _⟩, _⟩
    exact hmagic.elim (· h₀) (·.elim (· h₁) (·.elim (· h₂) (· h₃)))
  rw [if_neg hmagic]
  by_cases hclass : (readEhdr data).ident 4 ≠ 2#8
  · rw [if_pos hclass]
    exact iff_of_false (by decide) fun ⟨⟨_, _, _, _, _, h₄, _⟩, _⟩ ↦ hclass h₄
  rw [if_neg hclass]
  by_cases hendian : (readEhdr data).ident 5 ≠ 1#8
  · rw [if_pos hendian]
    exact iff_of_false (by decide) fun ⟨⟨_, _, _, _, _, _, h₅, _⟩, _⟩ ↦ hendian h₅
  rw [if_neg hendian]
  by_cases htype : (readEhdr data).type ≠ 2#16 ∧ (readEhdr data).type ≠ 3#16
  · rw [if_pos htype]
    exact iff_of_false (by decide) fun ⟨⟨_, _, _, _, _, _, _, ht, _⟩, _⟩ ↦ ht.elim htype.1 htype.2
  rw [if_neg htype]
  by_cases hmachine : (readEhdr data).machine ≠ 62#16
  · rw [if_pos hmachine]
    exact iff_of_false (by decide) fun ⟨⟨_, _, _, _, _, _, _, _, hm, _⟩, _⟩ ↦ hmachine hm
  rw [if_neg hmachine]
  by_cases hentry : (readEhdr data).phentsize ≠ 56#16
  · rw [if_pos hentry]
    exact iff_of_false (by decide) fun ⟨⟨_, _, _, _, _, _, _, _, _, he⟩, _⟩ ↦ hentry he
  rw [if_neg hentry]
  simp only [not_or, not_and_or, not_not] at hmagic hclass hendian htype hmachine hentry
  obtain ⟨h₀, h₁, h₂, h₃⟩ := hmagic
  have hok : EhdrOk data size :=
    ⟨not_not.mp fun h ↦ hs (hsize.mpr h), h₀, h₁, h₂, h₃, hclass, hendian, htype, hmachine, hentry⟩
  by_cases hsum : phdrsEnd (readEhdr data) > size
  · rw [if_pos hsum]
    exact iff_of_false (by decide) fun h ↦ hend.mp hsum h.2
  · rw [if_neg hsum]
    exact iff_of_true (by decide) ⟨hok, not_not.mp fun h ↦ hsum (hend.mpr h)⟩

theorem wrapped_sum (ph : Phdr) (size : Word) : ph.offset + ph.filesz > size ↔
    size.toNat < (ph.offset.toNat + ph.filesz.toNat) % 2 ^ 64 := by
  rw [gt_iff_lt, BitVec.lt_def, BitVec.toNat_add]

theorem fits_of_not_wraps (hload : ph.IsLoad) (hwrap : ¬ ph.Wraps size)
    (hv : ¬ ph.vaddr ≥ 0x800000000000#64) (hsum : ¬ ph.offset + ph.filesz > size) :
    ph.Fits size := by
  rw [wrapped_sum] at hsum
  have := ph.offset.isLt
  have := ph.filesz.isLt
  by_contra hfit
  refine hwrap ⟨hload, BitVec.not_le.mp hv, ?_⟩
  unfold Phdr.Fits at hfit
  omega

theorem loadSegmentT_inside {s : Vm} {pml4Phys : Word} (hload : ph.IsLoad)
    (hwrap : ¬ ph.Wraps size) : (loadSegmentT s pml4Phys data size ph).All (Inside size) := by
  unfold loadSegmentT
  dsimp only
  split_ifs with hv hret hz hsum
  · exact Traced.all_pure _
  · exact Traced.all_pure _
  · exact Traced.all_pure _
  · exact Traced.all_pure _
  · exact copySegmentT_inside _ _ (fits_of_not_wraps hload hwrap hv hsum)

theorem passes_of_loadSegment {s : Vm} {pml4Phys : Word} (hload : ph.IsLoad)
    (hwrap : ¬ ph.Wraps size) (heq : (loadSegment s pml4Phys data size ph).1 = 0) :
    ph.Passes size := by
  unfold loadSegment at heq
  dsimp only at heq
  intro _
  split_ifs at heq with hv hret hz hsum
  · simp [elfEnoexec] at heq
  · exact absurd heq hret
  · exact ⟨BitVec.not_le.mp hv, .inl hz⟩
  · simp [elfEnoexec] at heq
  · exact ⟨BitVec.not_le.mp hv, .inr (fits_of_not_wraps hload hwrap hv hsum)⟩

theorem nthPhdr_toNat {i : ℕ} (hend : tableEnd data ≤ size.toNat)
    (hi : i < (readEhdr data).phnum.toNat) :
    ((readEhdr data).phoff + BitVec.ofNat 64 i * sizeofPhdr).toNat + 56 ≤ size.toNat := by
  have := size.isLt
  have := (readEhdr data).phnum.isLt
  unfold tableEnd at hend
  rw [BitVec.toNat_add, BitVec.toNat_mul, BitVec.toNat_ofNat, show sizeofPhdr.toNat = 56 from rfl,
    Nat.mod_eq_of_lt (a := i) (by omega), Nat.mod_eq_of_lt (a := i * 56) (by omega),
    Nat.mod_eq_of_lt (by omega)]
  omega

theorem loadSegmentsT_inside (pml4Phys : Word) (hend : tableEnd data ≤ size.toNat)
    (hwrap : ∀ i < (readEhdr data).phnum.toNat, (∀ j < i, (nthPhdr data j).Passes size) →
      ¬ (nthPhdr data i).Wraps size) (n : ℕ) {i : ℕ} {info : ElfInfo} {s : Vm}
    (hn : i + n ≤ (readEhdr data).phnum.toNat) (hpass : ∀ j < i, (nthPhdr data j).Passes size) :
    (loadSegmentsT pml4Phys data size n i info s).All (Inside size) := by
  induction n generalizing i info s with
  | zero => exact Traced.all_pure _
  | succ n ih =>
    have hnext : (nthPhdr data i).Passes size → ∀ j < i + 1, (nthPhdr data j).Passes size := by
      intro hi j hj
      rcases Nat.lt_succ_iff_lt_or_eq.mp hj with hj | rfl
      · exact hpass j hj
      · exact hi
    refine (Traced.all_bind _ _).mpr ⟨fetchPhdr_inside (nthPhdr_toNat hend (by omega)), ?_⟩
    rw [fetchPhdr_val, ← nthPhdr]
    by_cases hload : (nthPhdr data i).IsLoad
    · rw [if_pos hload]
      have hwrapi := hwrap i (by omega) hpass
      refine (Traced.all_bind _ _).mpr ⟨loadSegmentT_inside hload hwrapi, ?_⟩
      rw [loadSegmentT_val]
      dsimp only
      split_ifs with hret
      · exact Traced.all_pure _
      · exact ih (by omega) (hnext (passes_of_loadSegment hload hwrapi (not_not.mp hret)))
    · rw [if_neg hload]
      exact ih (by omega) (hnext fun hl ↦ absurd hl hload)

theorem elfLoadT_inside (h : NoWrap data size) (s : Vm) (pml4Phys : Word) (info : ElfInfo) :
    (elfLoadT s pml4Phys data size info).All (Inside size) := by
  refine (Traced.all_bind _ _).mpr ⟨elfValidateT_inside, ?_⟩
  rw [elfValidateT_val]
  split_ifs with hret
  · exact Traced.all_pure _
  obtain ⟨hok, hsum⟩ := elfValidate_accepts.mp hret
  obtain ⟨htable, hseg⟩ := h hok
  have hend : tableEnd data ≤ size.toNat := by
    have hlt := (readEhdr data).phnum.isLt
    have hlt' := (readEhdr data).phoff.isLt
    have : tableEnd data < 2 ^ 65 := by
      unfold tableEnd
      omega
    omega
  have hsize := hok.1
  refine (Traced.all_bind _ _).mpr ⟨fetch64_inside (by simp; omega), ?_⟩
  refine (Traced.all_bind _ _).mpr ⟨fetch64_inside (by simp; omega), ?_⟩
  refine (Traced.all_bind _ _).mpr ⟨fetch16_inside (by simp; omega), ?_⟩
  refine (Traced.all_bind _ _).mpr ⟨?_, ?_⟩
  · rw [val_fetch16]
    exact loadSegmentsT_inside pml4Phys hend (hseg hend) _ (Nat.le_of_eq (Nat.zero_add _))
      fun j hj ↦ absurd hj (Nat.not_lt_zero j)
  · dsimp only
    split_ifs <;> exact Traced.all_pure _

end Headers

section Aliased

def Aliased (s : Vm) : Prop :=
  ∀ f i, 1 ≤ f → f ≤ 4 → s.mem f i = pageAddr (f + 1) ||| 7#64

def aliasedVm : Vm where
  mem f _ := if 1 ≤ f ∧ f ≤ 4 then pageAddr (f + 1) ||| 7#64 else 0#64
  pmm := ⟨fun _ ↦ 0xFF#8, 8, 0#64, by decide⟩
  pageInfo := none
  maxPages := 0
  kernelPml4Phys := 0#64

theorem aliasedVm_aliased : Aliased aliasedVm := by
  intro f i h₁ h₄
  exact if_pos ⟨h₁, h₄⟩

variable {data : File} {size : Word} {s : Vm}

theorem Aliased.physical (h : Aliased s) (v : Word) :
    vmmGetPhysical s 0x1000#64 v = 0x5000#64 := by
  have h₁ : s.mem 1 (pml4Index v) = 0x2007#64 := h 1 _ (by omega) (by omega)
  have h₂ : s.mem 2 (pdptIndex v) = 0x3007#64 := h 2 _ (by omega) (by omega)
  have h₃ : s.mem 3 (pdIndex v) = 0x4007#64 := h 3 _ (by omega) (by omega)
  have h₄ : s.mem 4 (ptIndex v) = 0x5007#64 := h 4 _ (by omega) (by omega)
  have hw : walk s 0x1000#64 v = some (4, ptIndex v) := by
    rw [walk, show pageOf 0x1000#64 = 1 from rfl, h₁, if_neg (by decide),
      show frameOf 0x2007#64 = 2 from rfl, h₂, if_neg (by decide),
      show frameOf 0x3007#64 = 3 from rfl, h₃, if_neg (by decide),
      show frameOf 0x4007#64 = 4 from rfl]
  rw [vmmGetPhysical, hw]
  dsimp only
  rw [h₄]
  decide

theorem Aliased.memcpy (h : Aliased s) (data : File) (off : ℕ) (src : Word) (n : ℕ) :
    Aliased (elfMemcpy s 5 off data src n) := by
  unfold elfMemcpy
  generalize List.range n = l
  induction l generalizing s with
  | nil => exact h
  | cons i l ih =>
    refine ih fun f j h₁ h₄ ↦ ?_
    rw [writeByte_mem _ _ _ (by omega)]
    exact h f j h₁ h₄

theorem Aliased.loadPages (h : Aliased s) (segStart flags : Word) (n i : ℕ) :
    loadPages 0x1000#64 segStart flags n i s = (0, s) := by
  induction n generalizing i with
  | zero => rfl
  | succ n ih =>
    rw [Process.loadPages, h.physical, if_pos (by decide)]
    exact ih (i + 1)

theorem Aliased.copySegment (h : Aliased s) (data : File) (src dst : Word) {remaining : Word}
    (fuel : ℕ) (hfuel : remaining.toNat ≤ fuel) :
    ∃ s', (copySegmentT 0x1000#64 data fuel src dst remaining s).val = (0, s') ∧ Aliased s' ∧
      ∀ k < remaining.toNat, src + BitVec.ofNat 64 k ∈
        (copySegmentT 0x1000#64 data fuel src dst remaining s).log := by
  induction fuel generalizing src dst remaining s with
  | zero => exact ⟨s, rfl, h, fun k hk ↦ by omega⟩
  | succ fuel ih =>
    have hcopy := toCopy_toNat dst remaining
    rw [copySegmentT]
    by_cases hz : remaining = 0#64
    · rw [if_pos hz]
      exact ⟨s, rfl, h, fun k hk ↦ by simp [hz] at hk⟩
    rw [if_neg hz]
    dsimp only
    obtain ⟨n, hn⟩ : ∃ n, n = if 4096#64 - (dst - alignDown dst) > remaining then remaining
      else 4096#64 - (dst - alignDown dst) := ⟨_, rfl⟩
    rw [← hn] at hcopy ⊢
    have hrem : remaining.toNat ≠ 0 := fun h0 ↦ hz (BitVec.eq_of_toNat_eq h0)
    have hle : n.toNat ≤ remaining.toNat := by omega
    have hpos : 0 < n.toNat := by omega
    rw [h.physical, if_neg (by decide), show pageOf 0x5000#64 = 5 from rfl]
    have hsub : (remaining - n).toNat = remaining.toNat - n.toNat :=
      BitVec.toNat_sub_of_le (BitVec.le_def.mpr hle)
    obtain ⟨s', hval, hs', hlog⟩ := ih
      (h.memcpy data (dst - alignDown dst).toNat src n.toNat) (src + n) (dst + n)
      (show (remaining - n).toNat ≤ fuel by omega)
    refine ⟨s', hval, hs', fun k hk ↦ ?_⟩
    rw [Traced.log_bind, List.mem_append]
    by_cases hkn : k < n.toNat
    · exact .inl (List.mem_map.mpr ⟨k, List.mem_range.mpr hkn, rfl⟩)
    · refine .inr ?_
      have hk' := hlog (k - n.toNat) (by omega)
      have hadd : src + n + BitVec.ofNat 64 (k - n.toNat) = src + BitVec.ofNat 64 k := by
        rw [BitVec.add_assoc]
        congr 1
        apply BitVec.eq_of_toNat_eq
        simp only [BitVec.toNat_add, BitVec.toNat_ofNat]
        omega
      rw [← hadd]
      exact hk'

theorem Aliased.passes (h : Aliased s) {ph : Phdr} (hload : ph.IsLoad) (hpass : ph.Passes size) :
    ∃ s', loadSegment s 0x1000#64 data size ph = (0, s') ∧ Aliased s' := by
  obtain ⟨hv, hfit⟩ := hpass hload
  rw [loadSegment, if_neg (BitVec.not_le.mpr hv), h.loadPages]
  dsimp only
  rw [if_neg (by decide)]
  by_cases hz : ph.filesz = 0#64
  · rw [if_pos hz]
    exact ⟨s, rfl, h⟩
  · have hsum : ¬ ph.offset + ph.filesz > size := by
      have hfit : ph.offset.toNat + ph.filesz.toNat ≤ size.toNat := hfit.resolve_left hz
      have := size.isLt
      rw [wrapped_sum, Nat.mod_eq_of_lt (by omega)]
      omega
    rw [if_neg hz, if_neg hsum]
    obtain ⟨s', hval, hs', _⟩ := h.copySegment data ph.offset ph.vaddr ph.filesz.toNat le_rfl
    rw [copySegmentT_val] at hval
    exact ⟨s', hval, hs'⟩

theorem Aliased.wraps (h : Aliased s) {ph : Phdr} (hwrap : ph.Wraps size) :
    -1#64 ∈ (loadSegmentT s 0x1000#64 data size ph).log := by
  obtain ⟨_, hv, hge, hle⟩ := hwrap
  have hlt := ph.offset.isLt
  have hlt' := ph.filesz.isLt
  have hz : ph.filesz ≠ 0#64 := by
    intro hz
    rw [hz] at hge
    simp at hge
    omega
  have hsum : ¬ ph.offset + ph.filesz > size := by
    rw [wrapped_sum]
    omega
  rw [loadSegmentT, if_neg (BitVec.not_le.mpr hv), h.loadPages]
  dsimp only
  rw [if_neg (by decide), if_neg hz, if_neg hsum]
  obtain ⟨_, _, _, hlog⟩ := h.copySegment data ph.offset ph.vaddr ph.filesz.toNat le_rfl
  have hlast := hlog (2 ^ 64 - 1 - ph.offset.toNat) (by omega)
  have hadd : ph.offset + BitVec.ofNat 64 (2 ^ 64 - 1 - ph.offset.toNat) = -1#64 := by
    apply BitVec.eq_of_toNat_eq
    rw [BitVec.toNat_add, BitVec.toNat_ofNat, show (-1#64 : Word).toNat = 2 ^ 64 - 1 from rfl]
    omega
  rw [← hadd]
  exact hlast

theorem Aliased.reaches (h : Aliased s) {n i m : ℕ} {info : ElfInfo} (hm : m < n)
    (hpass : ∀ j < m, (nthPhdr data (i + j)).Passes size) {a : Word}
    (hread : ∀ s, Aliased s → ∀ info n,
      a ∈ (loadSegmentsT 0x1000#64 data size (n + 1) (i + m) info s).log) :
    a ∈ (loadSegmentsT 0x1000#64 data size n i info s).log := by
  induction m generalizing n i info s with
  | zero =>
    obtain ⟨n, rfl⟩ := Nat.exists_eq_add_of_lt hm
    rw [Nat.zero_add]
    exact hread s h info n
  | succ m ih =>
    obtain ⟨n, rfl⟩ : ∃ n', n = n' + 1 := ⟨n - 1, by omega⟩
    have hnext : ∀ s, Aliased s → ∀ info,
        a ∈ (loadSegmentsT 0x1000#64 data size n (i + 1) info s).log := by
      refine fun s hs info ↦ ih hs (by omega) (fun j hj ↦ ?_) fun s hs info n ↦ ?_
      · rw [Nat.add_assoc, Nat.add_comm 1 j]
        exact hpass (j + 1) (by omega)
      · rw [Nat.add_assoc, Nat.add_comm 1 m]
        exact hread s hs info n
    rw [loadSegmentsT, Traced.log_bind, List.mem_append, fetchPhdr_val, ← nthPhdr]
    refine .inr ?_
    by_cases hload : (nthPhdr data i).IsLoad
    · obtain ⟨s', hseg, hs'⟩ : ∃ s', loadSegment s 0x1000#64 data size (nthPhdr data i) = (0, s') ∧
          Aliased s' := h.passes hload (hpass 0 (by omega))
      rw [if_pos hload]
      dsimp only
      rw [Traced.log_bind, List.mem_append, loadSegmentT_val, hseg]
      exact .inr (hnext s' hs' _)
    · rw [if_neg hload]
      exact hnext s h info

end Aliased

section Reads

variable {data : File} {size : Word}

/-- All that the ELF loader reads of a file lies in it, for every process. -/
def ReadsInside (data : File) (size : Word) : Prop :=
  (elfValidateT data size).All (Inside size) ∧
    ∀ s pml4Phys info, (elfLoadT s pml4Phys data size info).All (Inside size)

theorem mem_fetchPhdr (data : File) (off : Word) : off ∈ (fetchPhdr data off).log := by
  rw [fetchPhdr, Traced.log_bind, fetch32, Traced.log_bind, fetch16, Traced.log_bind, fetch,
    Traced.log_touch]
  exact List.mem_append_left _ (List.mem_append_left _ (List.mem_append_left _ (List.mem_singleton_self _)))

theorem loads_of_aliased (hret : ¬ elfValidate data size < 0) (info : ElfInfo) {a : Word}
    (ha : ∀ info, a ∈ (loadSegmentsT 0x1000#64 data size (readEhdr data).phnum.toNat 0 info
      aliasedVm).log) : a ∈ (elfLoadT aliasedVm 0x1000#64 data size info).log := by
  rw [elfLoadT, Traced.log_bind, List.mem_append, elfValidateT_val, if_neg hret]
  refine .inr ?_
  simp only [Traced.log_bind, List.mem_append, val_fetch16]
  exact .inr (.inr (.inr (.inl (ha _))))

theorem noWrap_of_inside (hsize : size.toNat < 2 ^ 63) (h : ReadsInside data size) :
    NoWrap data size := by
  intro hok
  have hlt := (readEhdr data).phnum.isLt
  refine ⟨?_, fun hend i hi hpass hwrap ↦ ?_⟩
  · by_contra hwrap
    have hsum : tableEnd data % 2 ^ 64 ≤ size.toNat := by
      have := (readEhdr data).phoff.isLt
      have : tableEnd data < 2 ^ 65 := by
        unfold tableEnd
        omega
      omega
    have hret := elfValidate_accepts.mpr ⟨hok, hsum⟩
    -- the first header is read below the file
    have hfirst : (readEhdr data).phoff ∈ (elfLoadT aliasedVm 0x1000#64 data size
        ⟨0#64, 0#64, 0#16, 0#64⟩).log := by
      refine loads_of_aliased hret _ fun info ↦ ?_
      obtain ⟨n, hn⟩ : ∃ n, (readEhdr data).phnum.toNat = n + 1 := by
        refine ⟨(readEhdr data).phnum.toNat - 1, ?_⟩
        have := (readEhdr data).phoff.isLt
        unfold tableEnd at hwrap
        omega
      have hoff : (readEhdr data).phoff + BitVec.ofNat 64 0 * sizeofPhdr = (readEhdr data).phoff := by
        rw [show BitVec.ofNat 64 0 * sizeofPhdr = 0#64 from by decide, BitVec.add_zero]
      rw [hn, loadSegmentsT, Traced.log_bind, List.mem_append, hoff]
      exact .inl (mem_fetchPhdr data _)
    have hin : (readEhdr data).phoff.toNat < size.toNat := h.2 _ _ _ _ hfirst
    unfold tableEnd at hwrap
    omega
  · have hret := elfValidate_accepts.mpr ⟨hok, by
      have := size.isLt
      rw [Nat.mod_eq_of_lt (by omega)]
      exact hend⟩
    have hlast : -1#64 ∈ (elfLoadT aliasedVm 0x1000#64 data size ⟨0#64, 0#64, 0#16, 0#64⟩).log := by
      refine loads_of_aliased hret _ fun info ↦ ?_
      refine aliasedVm_aliased.reaches hi (fun j hj ↦ by rw [Nat.zero_add]; exact hpass j hj) ?_
      intro s hs info n
      rw [Nat.zero_add, loadSegmentsT, Traced.log_bind, List.mem_append, fetchPhdr_val, ← nthPhdr,
        if_pos hwrap.1]
      dsimp only
      rw [Traced.log_bind, List.mem_append]
      exact .inr (.inl (hs.wraps hwrap))
    have hin : (-1#64 : Word).toNat < size.toNat := h.2 _ _ _ _ hlast
    rw [show (-1#64 : Word).toNat = 2 ^ 64 - 1 from rfl] at hin
    omega

/-- The ELF loader reads only the file exactly when no sum that it compares with the
file's size wraps past the comparison. No object has more than `2 ^ 63` bytes. -/
theorem elf_reads_inside (hsize : size.toNat < 2 ^ 63) :
    ReadsInside data size ↔ NoWrap data size :=
  ⟨noWrap_of_inside hsize, fun h ↦ ⟨elfValidateT_inside, elfLoadT_inside h⟩⟩

def fileOfBytes (bytes : List (BitVec 8)) : File := fun off ↦ bytes.getD off.toNat 0#8

/-- The ELF header of an executable with one program header at `phoff`. -/
def ehdrBytes (phoff : List (BitVec 8)) : List (BitVec 8) :=
  [0x7f#8, 0x45#8, 0x4c#8, 0x46#8, 2#8, 1#8, 1#8] ++ List.replicate 9 0#8 ++
    [2#8, 0#8, 62#8, 0#8, 1#8, 0#8, 0#8, 0#8] ++ List.replicate 8 0#8 ++ phoff ++
    List.replicate 8 0#8 ++ [0#8, 0#8, 0#8, 0#8, 64#8, 0#8, 56#8, 0#8, 1#8, 0#8] ++
    List.replicate 6 0#8

/-- `e_phoff` is `2 ^ 64 - 56`, so that the end of the table wraps to `0`. -/
def wrapFile : File := fileOfBytes (ehdrBytes ([0xc8#8] ++ List.replicate 7 0xff#8))

theorem elf_reads_before_file : ¬ ReadsInside wrapFile 64#64 := by
  intro h
  have hread : -56#64 ∈ (elfLoadT aliasedVm 0x1000#64 wrapFile 64#64 ⟨0#64, 0#64, 0#16, 0#64⟩).log := by
    decide +kernel
  exact absurd (h.2 _ _ _ _ hread) (by decide)

def smallFile : File :=
  fileOfBytes (ehdrBytes ([64#8] ++ List.replicate 7 0#8) ++ [1#8, 0#8, 0#8, 0#8, 4#8, 0#8, 0#8, 0#8] ++
    [120#8, 0#8, 0#8, 0#8, 0#8, 0#8, 0#8, 0#8] ++ [0#8, 0x10#8, 0#8, 0#8, 0#8, 0#8, 0#8, 0#8] ++
    List.replicate 8 0#8 ++ [1#8, 0#8, 0#8, 0#8, 0#8, 0#8, 0#8, 0#8] ++
    [1#8, 0#8, 0#8, 0#8, 0#8, 0#8, 0#8, 0#8] ++ List.replicate 8 0#8 ++ [0x90#8])

theorem elf_reads_inside_small : (nthPhdr smallFile 0).IsLoad ∧ ReadsInside smallFile 121#64 := by
  refine ⟨by decide +kernel, (elf_reads_inside (by decide)).mpr fun _ ↦ ⟨?_, fun _ i hi _ hw ↦ ?_⟩⟩
  · exact .inl (by decide +kernel)
  · obtain rfl : i = 0 := by
      have : (readEhdr smallFile).phnum.toNat = 1 := by decide +kernel
      omega
    exact absurd hw.2.2.1 (by decide +kernel)

end Reads

end SeedOS.Process
