import SeedOS.Process.Segments
import SeedOS.System.Conservation

namespace SeedOS.System

open Foundation Memory Process Function

def fileOf (bytes : List (ℕ × BitVec 8)) : File := fun a ↦ (bytes.lookup a.toNat).getD 0#8

/-- The program header at `off` of a segment of 16 bytes at address `0x4000xx`. -/
def phdrBytes (off : ℕ) (flags low : BitVec 8) : List (ℕ × BitVec 8) :=
  [(off, 1#8), (off + 4, flags), (off + 16, low), (off + 18, 0x40#8), (off + 32, 0x10#8),
    (off + 40, 0x10#8)]

/-- An executable with two segments on one page, with these flags. -/
def twoSegments (first second : BitVec 8) : File :=
  fileOf ([(0, 0x7f#8), (1, 0x45#8), (2, 0x4c#8), (3, 0x46#8), (4, 2#8), (5, 1#8), (16, 2#8),
    (18, 0x3e#8), (24, 0#8), (26, 0x40#8), (32, 64#8), (54, 56#8), (56, 2#8)] ++
    phdrBytes 64 first 0x00#8 ++ phdrBytes 120 second 0x10#8)

theorem twoSegments_segments (first second : BitVec 8) : segments (twoSegments first second) =
    [nthPhdr (twoSegments first second) 0, nthPhdr (twoSegments first second) 1] := by
  have hn : (readEhdr (twoSegments first second)).phnum.toNat = 2 := by
    simp [readEhdr, le16, twoSegments, fileOf, phdrBytes, List.lookup_cons]
  have hoff : (readEhdr (twoSegments first second)).phoff = 64#64 := by
    simp [readEhdr, le64, le32, le16, twoSegments, fileOf, phdrBytes, List.lookup_cons]
  have hload : ∀ i < 2, (nthPhdr (twoSegments first second) i).IsLoad := by
    intro i hi
    rw [nthPhdr, hoff]
    obtain rfl | rfl : i = 0 ∨ i = 1 := by omega
    all_goals
      simp [Phdr.IsLoad, readPhdr, sizeofPhdr, le64, le32, le16, twoSegments, fileOf, phdrBytes,
        List.lookup_cons]
  rw [segments, hn, segmentsFrom_succ, if_pos (hload 0 (by decide)), segmentsFrom_succ,
    if_pos (hload 1 (by decide))]
  rfl

theorem twoSegments_forall {first second : BitVec 8} {P : Phdr → Prop}
    (h₀ : P (nthPhdr (twoSegments first second) 0))
    (h₁ : P (nthPhdr (twoSegments first second) 1)) :
    ∀ ph ∈ segments (twoSegments first second), P ph := by
  intro ph hph
  rw [twoSegments_segments] at hph
  obtain rfl | hph := List.mem_cons.mp hph
  · exact h₀
  · exact List.mem_singleton.mp hph ▸ h₁

theorem firstSpace_fresh : FreshSpace firstSpace.vm firstSpace.pml4Phys ∧
    ∃ role, Inv firstSpace.vm (insert (pageOf firstSpace.pml4Phys) ∅) role := by
  obtain ⟨role, hinv⟩ := bootVm_inv
  exact FreshSpace.of_create hinv rfl firstSpace_created

section Load

variable {s s' : Vm} {roots : Set ℕ} {role : Roles} {pml4Phys size : Word} {data : File}
  {info info' : ElfInfo}

/-- A successful load puts the segments of the file into memory. -/
theorem elf_load_image (hinv : Inv s roots role) (hr : pageOf pml4Phys ∈ roots)
    (hfresh : FreshSpace s pml4Phys) (hproper : ∀ ph ∈ segments data, ph.Proper)
    (hapart : (segments data).Pairwise Phdr.Apart)
    (heq : elfLoad s pml4Phys data size info = (0, info', s')) :
    ImageLoaded data s' pml4Phys info'.brkStart := by
  have hplaced := fun ph hph ↦ (hproper ph hph).placed
  obtain ⟨⟨role', hshows⟩, hbrk⟩ := elfLoad_shows hplaced (hfresh.shows hinv hr) heq
  have hflags : ∀ page, (loadAll data (segments data) .empty).flags page =
      ((segments data).find? (·.Touches page)).map Phdr.pteFlags := fun page ↦ by
    rw [flags_loadAll hplaced]
    rfl
  have hmapped : ∀ ph ∈ segments data, ∀ page, ph.Touches page →
      ∃ flags, (loadAll data (segments data) .empty).flags page = some flags := by
    intro ph hph page ht
    cases hfind : (segments data).find? (·.Touches page) with
    | none => exact absurd ht (by simpa using List.find?_eq_none.mp hfind ph hph)
    | some first => exact ⟨_, by rw [hflags, hfind, Option.map_some]⟩
  have hend : ∀ ph ∈ segments data, ∀ k < ph.filesz.toNat,
      (ph.vaddr + BitVec.ofNat 64 k).toNat = ph.vaddr.toNat + k ∧
        UserAddress (ph.vaddr + BitVec.ofNat 64 k) := by
    intro ph hph k hk
    have huser := (hproper ph hph).user
    have hfile := (hproper ph hph).file
    rw [userSpaceTop] at huser
    have hval : (ph.vaddr + BitVec.ofNat 64 k).toNat = ph.vaddr.toNat + k := by
      rw [BitVec.toNat_add, BitVec.toNat_ofNat]
      omega
    refine ⟨hval, ?_⟩
    rw [UserAddress, hval, userSpaceTop]
    omega
  have hlow : (0#64).toNat ≤ userSpaceTop := by decide
  obtain ⟨-, htop, habove⟩ := brkAfter_spec hproper hlow
  rw [userSpaceTop] at htop
  have hup := alignUp_toNat (v := brkAfter (segments data) 0#64) (by omega)
  refine ⟨fun ph hph va hva ht ↦ ?_, fun ph hph k hk ↦ ?_, fun va b hva hb hnone ↦ ?_, ?_,
    fun ph hph ↦ ?_⟩
  · obtain ⟨flags, hsome⟩ := hmapped ph hph _ ht
    obtain ⟨f, hmap, -⟩ := hshows.pageMapping_some hva hsome
    rw [hmap]
    simp
  · obtain ⟨hval, hva⟩ := hend ph hph k hk
    have hfile : ph.FileHolds (ph.vaddr.toNat + k) := ⟨by omega, by omega⟩
    obtain ⟨flags, hsome⟩ := hmapped ph hph _ (hfile.touches (hproper ph hph))
    rw [← hval, ← pageOf] at hsome
    rw [hshows.pageByte hva hsome, hval, byte_loadAll_file hproper hapart hph hk]
  · cases hsome : (loadAll data (segments data) .empty).flags (pageOf va) with
    | none => simp [pageByte, hshows.pageMapping_none hva hsome] at hb
    | some flags =>
      rw [hshows.pageByte hva hsome, byte_loadAll_zero hproper rfl hnone] at hb
      exact (Option.some.inj hb).symm
  · rw [hbrk, hup]
    exact Nat.mul_mod_left _ _
  · have := habove ph hph
    rw [hbrk, hup]
    omega

/-- The two segments of `twoSegments` as they are in memory. -/
theorem elf_load_image_twoSegments : ImageLoaded (twoSegments 5#8 6#8)
    (elfLoad firstSpace.vm firstSpace.pml4Phys (twoSegments 5#8 6#8) 176#64 noInfo).2.2
    firstSpace.pml4Phys
    (elfLoad firstSpace.vm firstSpace.pml4Phys (twoSegments 5#8 6#8) 176#64 noInfo).2.1.brkStart := by
  obtain ⟨hfresh, role, hinv⟩ := firstSpace_fresh
  refine elf_load_image hinv (Set.mem_insert _ _) hfresh ?_ ?_ (Prod.ext (by decide +kernel) rfl)
  · exact twoSegments_forall ⟨by decide +kernel, by decide +kernel⟩
      ⟨by decide +kernel, by decide +kernel⟩
  · rw [twoSegments_segments, List.pairwise_pair]
    rintro a ⟨⟨-, hlow⟩, hhigh, -⟩
    have hend : (nthPhdr (twoSegments 5#8 6#8) 0).vaddr.toNat +
        (nthPhdr (twoSegments 5#8 6#8) 0).memsz.toNat = 0x400010 := by decide +kernel
    have hstart : (nthPhdr (twoSegments 5#8 6#8) 1).vaddr.toNat = 0x400010 := by decide +kernel
    omega

/-- The permissions of all segments survive exactly if all segments end in user space and on every
page the first segment in header order asks for all that the others ask for. A file with more bytes
than the segment has in memory must not make the copy run over the end of user space. -/
theorem segment_permissions_kept (hinv : Inv s roots role) (hr : pageOf pml4Phys ∈ roots)
    (hfresh : FreshSpace s pml4Phys)
    (hcopy : ∀ ph ∈ segments data, ph.filesz.toNat ≤ ph.memsz.toNat ∨
      ph.vaddr.toNat + ph.filesz.toNat ≤ userSpaceTop)
    (heq : elfLoad s pml4Phys data size info = (0, info', s')) :
    PermissionsKept data s' pml4Phys ↔
      (∀ ph ∈ segments data, ph.vaddr.toNat + ph.memsz.toNat ≤ userSpaceTop) ∧
        FirstPermits (segments data) := by
  have hends : PermissionsKept data s' pml4Phys → ∀ ph ∈ segments data,
      ph.vaddr.toNat + ph.memsz.toNat ≤ userSpaceTop := fun hkept ph hph ↦ hkept.user hph
  rw [← and_iff_right_of_imp hends]
  refine and_congr_right fun huser ↦ ?_
  have hplaced : ∀ ph ∈ segments data, ph.Placed := fun ph hph ↦
    ⟨huser ph hph, (hcopy ph hph).elim
      (fun hfile ↦ (Nat.add_le_add_left hfile _).trans (huser ph hph)) id⟩
  obtain ⟨⟨role', hshows⟩, -⟩ := elfLoad_shows hplaced (hfresh.shows hinv hr) heq
  -- the flags of a page, through the segment that comes first on it
  have hpage : ∀ va, UserAddress va → ∀ first,
      (segments data).find? (·.Touches (pageOf va)) = some first →
      ∃ f, pageMapping s' pml4Phys va = some (f, first.pteFlags) := by
    intro va hva first hfind
    have hflags : (loadAll data (segments data) .empty).flags (pageOf va) = some first.pteFlags := by
      rw [flags_loadAll hplaced, hfind]
      rfl
    obtain ⟨f, hmap, -⟩ := hshows.pageMapping_some hva hflags
    exact ⟨f, hmap⟩
  constructor
  · intro hkept ph hph page ht first hfind
    obtain ⟨va, hholds, hva, rfl⟩ := ht.exists_byte (hplaced ph hph) (isLoad_of_mem hph)
    obtain ⟨-, f, flags, hmap, -, hw, hx⟩ := hkept ph hph va hholds
    obtain ⟨f', hmap'⟩ := hpage va hva first hfind
    obtain ⟨-, hflags⟩ := Prod.mk.inj (Option.some.inj (hmap.symm.trans hmap'))
    rw [hflags] at hw hx
    obtain ⟨-, hwiff, hxiff⟩ := hasFlag_pteFlags first
    exact ⟨fun h ↦ hwiff.mp (hw h), fun h ↦ hxiff.mp (hx h)⟩
  · intro hfirst ph hph va hholds
    have hva : UserAddress va := Nat.lt_of_lt_of_le hholds.2 (huser ph hph)
    have ht : ph.Touches (pageOf va) := by
      rw [Phdr.Holds] at hholds
      rw [Phdr.Touches, pageOf, pageOf]
      omega
    cases hfind : (segments data).find? (·.Touches (pageOf va)) with
    | none => exact absurd ht (by simpa using List.find?_eq_none.mp hfind ph hph)
    | some first =>
      obtain ⟨f, hmap⟩ := hpage va hva first hfind
      obtain ⟨hw, hx⟩ := hfirst ph hph _ ht first hfind
      obtain ⟨huserFlag, hwiff, hxiff⟩ := hasFlag_pteFlags first
      exact ⟨hva, f, _, hmap, huserFlag, fun h ↦ hwiff.mpr (hw h), fun h ↦ hxiff.mpr (hx h)⟩

theorem segment_permissions_kept_twoSegments : PermissionsKept (twoSegments 7#8 6#8)
    (elfLoad firstSpace.vm firstSpace.pml4Phys (twoSegments 7#8 6#8) 176#64 noInfo).2.2
    firstSpace.pml4Phys := by
  obtain ⟨hfresh, role, hinv⟩ := firstSpace_fresh
  refine (segment_permissions_kept hinv (Set.mem_insert _ _) hfresh ?_
    (Prod.ext (by decide +kernel) rfl)).mpr ⟨?_, ?_⟩
  · exact twoSegments_forall (.inl (by decide +kernel)) (.inl (by decide +kernel))
  · exact twoSegments_forall (by decide +kernel) (by decide +kernel)
  · rw [twoSegments_segments]
    intro ph hph page ht first hfind
    obtain rfl | hfirst := List.mem_cons.mp (List.mem_of_find?_eq_some hfind)
    · exact ⟨fun _ ↦ by decide +kernel, fun _ ↦ by decide +kernel⟩
    · obtain rfl | hph := List.mem_cons.mp hph
      · rw [List.find?_cons_of_pos (by simpa using ht)] at hfind
        obtain rfl := Option.some.inj hfind
        exact ⟨id, id⟩
      · obtain rfl := List.mem_singleton.mp hph
        obtain rfl := List.mem_singleton.mp hfirst
        exact ⟨id, id⟩

/-- A writable segment behind an executable one on the same page cannot be written. -/
theorem shared_page_not_writable :
    vmmCreateAddressSpace bootVm = (firstSpace.pml4Phys, firstSpace.vm) ∧
    (elfLoad firstSpace.vm firstSpace.pml4Phys (twoSegments 5#8 6#8) 176#64 noInfo).1 = 0 ∧
    ¬ PermissionsKept (twoSegments 5#8 6#8)
      (elfLoad firstSpace.vm firstSpace.pml4Phys (twoSegments 5#8 6#8) 176#64 noInfo).2.2
      firstSpace.pml4Phys := by
  refine ⟨rfl, by decide +kernel, fun hkept ↦ ?_⟩
  have hmem : nthPhdr (twoSegments 5#8 6#8) 1 ∈ segments (twoSegments 5#8 6#8) := by
    rw [twoSegments_segments]
    exact List.mem_cons_of_mem _ List.mem_cons_self
  obtain ⟨-, f, flags, hmap, -, hw, -⟩ := hkept _ hmem 0x400010#64
    ⟨by decide +kernel, by decide +kernel⟩
  have hpage : (pageMapping (elfLoad firstSpace.vm firstSpace.pml4Phys (twoSegments 5#8 6#8) 176#64
      noInfo).2.2 firstSpace.pml4Phys 0x400010#64).map (hasFlag ·.2 pteWritable) = some false := by
    decide +kernel
  rw [hmap, Option.map_some, hw (by decide +kernel)] at hpage
  exact absurd hpage (by decide)

end Load

end SeedOS.System
