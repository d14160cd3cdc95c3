import SeedOS.Memory.Mapping

namespace SeedOS.Memory

open Foundation Function

/-- Tables in frames 3 to 6, one below the other, with the given allocator, last-level
entries and counts. -/
def tableVm (pmm : Pmm) (leaves : Fin 512 → Word) (info : ℕ → BitVec 8) : Vm where
  mem f i :=
    if f = 3 ∧ i = 0 then 0x4007#64 else if f = 4 ∧ i = 0 then 0x5007#64
    else if f = 5 ∧ i = 2 then 0x6007#64 else if f = 6 then leaves i else 0#64
  pmm := pmm
  pageInfo := some info
  maxPages := 32
  kernelPml4Phys := 0x1000#64

def tableRole : Roles := fun f ↦
  if f = 3 then .table 3 [] else if f = 4 then .table 3 [0] else if f = 5 then .table 3 [0, 0]
  else if f = 6 then .table 3 [0, 0, 2] else if f = 7 then .data
  else if f < 3 then .reserved else .free

theorem tableRole_table {f r : ℕ} {p : List (Fin 512)} : tableRole f = .table r p ↔
    r = 3 ∧ ((f = 3 ∧ p = []) ∨ (f = 4 ∧ p = [0]) ∨ (f = 5 ∧ p = [0, 0]) ∨
      (f = 6 ∧ p = [0, 0, 2])) := by
  unfold tableRole
  split_ifs <;> grind

variable {pmm : Pmm} {leaves : Fin 512 → Word} (info : ℕ → BitVec 8)

theorem tableVm_next {f : ℕ} {i : Fin 512} {c : ℕ} (hf : f ≠ 6) :
    entryNext ((tableVm pmm leaves info).mem f i) = some c ↔
      (f = 3 ∧ i = 0 ∧ c = 4) ∨ (f = 4 ∧ i = 0 ∧ c = 5) ∨ (f = 5 ∧ i = 2 ∧ c = 6) := by
  have h₄ : entryNext 0x4007#64 = some 4 := by decide
  have h₅ : entryNext 0x5007#64 = some 5 := by decide
  have h₆ : entryNext 0x6007#64 = some 6 := by decide
  simp only [tableVm]
  split_ifs <;> grind [entryNext_zero]

theorem tableRole_lt {f r : ℕ} {p : List (Fin 512)} (hf : tableRole f = .table r p)
    (hl : p.length < 3) : f ≠ 6 := by
  rintro rfl
  obtain ⟨-, hcase⟩ := tableRole_table.mp hf
  simp only [Nat.reduceEqDiff, false_and, false_or, true_and] at hcase
  simp [hcase] at hl

theorem tableVm_forest (h : ∀ i f, entryNext (leaves i) = some f → f = 7) :
    UserForest (tableVm pmm leaves info).mem {3} tableRole where
  root := by rintro r rfl; rfl
  base hf := by
    obtain ⟨rfl, hcase⟩ := tableRole_table.mp hf
    simpa using hcase
  live hf := by
    obtain ⟨rfl, hcase⟩ := tableRole_table.mp hf
    rcases hcase with ⟨_, rfl⟩ | ⟨_, rfl⟩ | ⟨_, rfl⟩ | ⟨_, rfl⟩ <;> simp [UserPath]
  linked {f r p i} hf := by
    obtain ⟨rfl, hcase⟩ := tableRole_table.mp hf
    have hlast : ∀ q j, p ++ [i] = q ++ [j] → p = q ∧ i = j := fun q j ↦ by simp
    rcases hcase with ⟨_, hp⟩ | ⟨rfl, hp⟩ | ⟨rfl, hp⟩ | ⟨rfl, hp⟩
    · simp at hp
    · obtain ⟨rfl, rfl⟩ := hlast [] 0 hp
      exact ⟨3, rfl, (tableVm_next info (by decide)).mpr (by simp)⟩
    · obtain ⟨rfl, rfl⟩ := hlast [0] 0 hp
      exact ⟨4, rfl, (tableVm_next info (by decide)).mpr (by simp)⟩
    · obtain ⟨rfl, rfl⟩ := hlast [0, 0] 2 hp
      exact ⟨5, rfl, (tableVm_next info (by decide)).mpr (by simp)⟩
  child {f r p i g} hf hl _ hn := by
    rw [tableVm_next info (tableRole_lt hf hl)] at hn
    obtain ⟨rfl, hcase⟩ := tableRole_table.mp hf
    apply tableRole_table.mpr
    grind
  leaf {f r p i g} hf hl hn := by
    obtain ⟨rfl, hcase⟩ := tableRole_table.mp hf
    obtain rfl : f = 6 := by grind
    rw [h i g hn]
    rfl

theorem tableVm_inv (hpmm : ∀ f, 0 < f → f ≤ 7 → pmm.Owned f)
    (h : ∀ i f, entryNext (leaves i) = some f → f = 7) :
    Inv (tableVm pmm leaves info) {3} tableRole where
  forest := tableVm_forest info h
  owned {f} hf := by
    have hcase : f = 3 ∨ f = 4 ∨ f = 5 ∨ f = 6 ∨ f = 7 := by
      rcases hf with hf | ⟨r, p, hf⟩
      · unfold tableRole at hf
        split_ifs at hf
        simp_all
      · have := tableRole_table.mp hf
        grind
    exact hpmm f (by omega) (by omega)
  held {f} hf hav := by
    have hlt : f < 3 := by
      unfold tableRole at hf
      split_ifs at hf
      simp_all
    exact (hpmm f hav.1 (by omega)).not_available hav
  plain {f r p i} hf hl _ _ := by
    simp only [tableVm, if_neg (tableRole_lt hf hl)]
    split_ifs <;> decide
  kernelHalf r hr i hi := by
    obtain rfl := hr
    have hi₀ : i ≠ 0 := by rintro rfl; simp at hi
    simp [tableVm, hi₀, show pageOf 0x1000#64 = 1 by decide]
  kernelTable {p f} _ hf := by
    rw [show pageOf (tableVm pmm leaves info).kernelPml4Phys = 1 from
      show pageOf 0x1000#64 = 1 by decide] at hf
    cases p with
    | nil =>
      obtain rfl := Option.some.inj hf
      rfl
    | cons i p =>
      have hz : (tableVm pmm leaves info).mem 1 i = 0#64 := by simp [tableVm]
      simp [tableAt, hz, kernelNext, hasFlag_zero] at hf

theorem owned_of_first {pmm : Pmm} (hfirst : pmm.bitmap 0 = 0xFF#8) (htotal : 7 < pmm.totalPages)
    (f : ℕ) (h₀ : 0 < f) (h : f ≤ 7) : pmm.Owned f := by
  refine ⟨h₀, by omega, ?_⟩
  obtain rfl | rfl | rfl | rfl | rfl | rfl | rfl :
      f = 1 ∨ f = 2 ∨ f = 3 ∨ f = 4 ∨ f = 5 ∨ f = 6 ∨ f = 7 := by omega
  all_goals
    simp only [bitmapIsUsed, Nat.reduceDiv, hfirst]
    decide

def tablePmm : Pmm := ⟨fun i ↦ if i = 0 then 0xFF#8 else 0#8, 32, 24#64, Pmm.small_le⟩

theorem tablePmm_owned (f : ℕ) (h₀ : 0 < f) (h : f ≤ 7) : tablePmm.Owned f :=
  owned_of_first rfl (by decide) f h₀ h

def onePageVm : Vm :=
  tableVm tablePmm (fun i ↦ if i = 0 then 0x7007#64 else 0#64) fun _ ↦ 0#8

theorem onePageVm_leaf {i : Fin 512} {f : ℕ}
    (h : entryNext (if i = 0 then 0x7007#64 else 0#64) = some f) : i = 0 ∧ f = 7 := by
  split_ifs at h with hi
  · exact ⟨hi, Option.some.inj (h.symm.trans (by decide))⟩
  · rw [entryNext_zero] at h
    cases h

theorem onePageVm_inv : Inv onePageVm {3} tableRole :=
  tableVm_inv _ tablePmm_owned fun _ _ h ↦ (onePageVm_leaf h).2

def lastFramePmm : Pmm := ⟨fun i ↦ if i = 1 then 0xFE#8 else 0xFF#8, 32, 1#64, by decide⟩

theorem lastFramePmm_owned (f : ℕ) (h₀ : 0 < f) (h : f ≤ 7) : lastFramePmm.Owned f :=
  owned_of_first rfl (by decide) f h₀ h

end SeedOS.Memory
