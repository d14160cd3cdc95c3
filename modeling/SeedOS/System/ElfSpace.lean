import SeedOS.Process.Confined
import SeedOS.System.ElfImage

namespace SeedOS.System

open Foundation Memory Process Function

variable {s s' : Vm} {roots : Set ℕ} {role : Roles} {pml4Phys size : Word} {data : File}
  {info : ElfInfo}

theorem confined_of_create (hinv : Inv s roots role)
    (hcreate : vmmCreateAddressSpace s = (pml4Phys, s')) (hne : pml4Phys ≠ 0#64) :
    ∃ role', Confined {f | s'.pmm.Available f} s'.mem s'.kernelPml4Phys
      (insert (pageOf pml4Phys) roots) (pageOf pml4Phys) s' role' := by
  obtain ⟨r, pmm, -, hr, hav, htk, hs⟩ :=
    vmmCreateAddressSpace_fresh (hinv.held hinv.kernel_reserved) hcreate hne
  rw [hr]
  obtain ⟨hinv', -, hroot, -, hzero⟩ := newSpace_spec hinv
    (fun i ↦ if 256 ≤ i.val then s.mem (pageOf s.kernelPml4Phys) i else 0#64) hav htk
    (fun i hi ↦ if_neg (by omega)) (fun i hi ↦ if_pos hi) hs
  refine ⟨_, hinv', Set.mem_insert r roots, rfl, fun f _ _ ↦ rfl, fun f hf ↦ hf, fun f p hp ↦ ?_,
    fun σ hσ hσr f hf ↦ ?_⟩
  · by_cases hfr : f = r
    · exact .inr hfr
    · rw [update_of_ne hfr] at hp
      exact absurd (hinv.forest.live hp).1 hroot
  · rw [hzero σ hσ hσr, entryNext_zero] at hf
    cases hf

/-- The numbers of the pages that the segments of the headers before `i` map. -/
def pagesBefore (data : File) (i : ℕ) : Set ℕ :=
  {page | ∃ j < i, (nthPhdr data j).IsLoad ∧ (nthPhdr data j).Maps page}

/-- Every segment that the loader can come to stays below the limit that `elf_load` compares its
start with: the file is accepted, and the segments before are loaded in full. -/
def StaysBelow (data : File) (size : Word) : Prop :=
  ¬ elfValidate data size < 0 → ∀ i < (readEhdr data).phnum.toNat,
    (∀ j < i, (nthPhdr data j).IsLoad →
      (nthPhdr data j).Admitted size (pagesBefore data (j + 1))) →
    (nthPhdr data i).IsLoad →
    (nthPhdr data i).StaysIn UserAddress size (pagesBefore data (i + 1))

/-- An executable with one segment of two pages, the first of them the last page of user
space. -/
def tallSegment : File :=
  fileOf [(0, 0x7f#8), (1, 0x45#8), (2, 0x4c#8), (3, 0x46#8), (4, 2#8), (5, 1#8), (16, 2#8),
    (18, 0x3e#8), (32, 64#8), (54, 56#8), (56, 1#8), (64, 1#8), (68, 6#8), (81, 0xf0#8),
    (82, 0xff#8), (83, 0xff#8), (84, 0xff#8), (85, 0x7f#8), (105, 0x20#8)]

end SeedOS.System
