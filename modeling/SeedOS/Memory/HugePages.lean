import SeedOS.Foundation.Traced
import SeedOS.Memory.Translate

namespace SeedOS.Memory

open Foundation Function Traced

/-- An entry that a walker reads or writes: its table and index, and the entry through
which the walker came to the table. -/
structure Access where
  via : Option Word
  table : ℕ
  index : Fin 512

/-- The walker did not come to the table through a large page. -/
def Access.Plain (a : Access) : Prop := ∀ e, a.via = some e → hasFlag e pteHuge = false

section Traced

/-- `walk` with its accesses, and with the entry through which it came to the last table. -/
def walkTraced (s : Vm) (pml4Phys virt : Word) :
    Traced Access (Option (Word × ℕ × Fin 512)) := do
  let pml4 := pageOf pml4Phys
  let e₄ ← touch ⟨none, pml4, pml4Index virt⟩ (s.mem pml4 (pml4Index virt))
  if hasFlag e₄ ptePresent = false then pure none
  else
    let e₃ ← touch ⟨some e₄, frameOf e₄, pdptIndex virt⟩ (s.mem (frameOf e₄) (pdptIndex virt))
    if hasFlag e₃ ptePresent = false then pure none
    else
      let e₂ ← touch ⟨some e₃, frameOf e₃, pdIndex virt⟩ (s.mem (frameOf e₃) (pdIndex virt))
      if hasFlag e₂ ptePresent = false then pure none
      else pure (some (e₂, frameOf e₂, ptIndex virt))

def vmmSetPteFlagsTraced (s : Vm) (pml4Phys virt flags : Word) : Traced Access (ℤ × Vm) := do
  match ← walkTraced s pml4Phys virt with
  | none => pure (-1, s)
  | some (e₂, pt, i) =>
    let e ← touch ⟨some e₂, pt, i⟩ (s.mem pt i)
    if hasFlag e ptePresent then
      touch ⟨some e₂, pt, i⟩ (0, s.write pt i (e &&& pteAddrMask ||| flags))
    else pure (-1, s)

def vmmUnmapPageTraced (s : Vm) (pml4Phys virt : Word) : Traced Access (ℤ × Vm) := do
  let pml4 := pageOf pml4Phys
  let e₄ ← touch ⟨none, pml4, pml4Index virt⟩ (s.mem pml4 (pml4Index virt))
  if hasFlag e₄ ptePresent = false then pure (-1, s)
  else
    let e₃ ← touch ⟨some e₄, frameOf e₄, pdptIndex virt⟩ (s.mem (frameOf e₄) (pdptIndex virt))
    if hasFlag e₃ ptePresent = false then pure (-1, s)
    else if hasFlag e₃ pteHuge then pure (-1, s)
    else
      let e₂ ← touch ⟨some e₃, frameOf e₃, pdIndex virt⟩ (s.mem (frameOf e₃) (pdIndex virt))
      if hasFlag e₂ ptePresent = false then pure (-1, s)
      else if hasFlag e₂ pteHuge then pure (-1, s)
      else touch ⟨some e₂, frameOf e₂, ptIndex virt⟩ (0, s.write (frameOf e₂) (ptIndex virt) 0#64)

/-- `descend` from a table that was reached through `via`. The frame of a fresh table is
not reached through an entry. -/
def descendTraced (s : Vm) (via : Option Word) (table : ℕ) (i : Fin 512) (flags : Word) :
    Traced Access (Option (ℕ × Word × Vm)) := do
  let e ← touch ⟨via, table, i⟩ (s.mem table i)
  if hasFlag e ptePresent then
    if hasFlag flags pteUser && !hasFlag e pteUser then
      touch ⟨via, table, i⟩ (some (frameOf e, 0#64, s.write table i (e ||| pteUser)))
    else pure (some (frameOf e, 0#64, s))
  else
    match allocPageTable s with
    | (phys, s) =>
      if phys = 0#64 then pure none
      else
        touch ⟨via, table, i⟩
          (some (pageOf phys, phys, s.write table i (phys ||| intermediateFlags flags)))

def unlinkTraced (s : Vm) (via : Option Word) (table : ℕ) (i : Fin 512) (phys : Word) :
    Traced Access Vm :=
  if phys = 0#64 then pure s
  else
    let s := s.write table i 0#64
    touch ⟨via, table, i⟩ { s with pmm := pmmFree s.pmm phys }

def vmmMapPageTraced (s : Vm) (pml4Phys virt phys flags : Word) : Traced Access (ℤ × Vm) := do
  let pml4 := pageOf pml4Phys
  match ← descendTraced s none pml4 (pml4Index virt) flags with
  | none => pure (-1, s)
  | some (pdpt, newPdpt, s) =>
    let e₄ := s.mem pml4 (pml4Index virt)
    match ← descendTraced s (some e₄) pdpt (pdptIndex virt) flags with
    | none =>
      let s ← unlinkTraced s none pml4 (pml4Index virt) newPdpt
      pure (-1, s)
    | some (pd, newPd, s) =>
      let e₃ := s.mem pdpt (pdptIndex virt)
      match ← descendTraced s (some e₃) pd (pdIndex virt) flags with
      | none =>
        let s ← unlinkTraced s (some e₄) pdpt (pdptIndex virt) newPd
        let s ← unlinkTraced s none pml4 (pml4Index virt) newPdpt
        pure (-1, s)
      | some (pt, _, s) =>
        let e₂ := s.mem pd (pdIndex virt)
        touch ⟨some e₂, pt, ptIndex virt⟩
          (0, s.write pt (ptIndex virt) (phys &&& pteAddrMask ||| flags))

end Traced

section Values

variable (s : Vm) (pml4Phys virt flags : Word)

theorem walkTraced_val :
    (walkTraced s pml4Phys virt).val.map Prod.snd = walk s pml4Phys virt := by
  simp only [walkTraced, walk, val_touch_bind, val_ite, val_pure]
  split_ifs <;> rfl

theorem vmmSetPteFlagsTraced_val :
    (vmmSetPteFlagsTraced s pml4Phys virt flags).val = vmmSetPteFlags s pml4Phys virt flags := by
  rw [vmmSetPteFlags, ← walkTraced_val]
  simp only [vmmSetPteFlagsTraced, val_bind]
  cases (walkTraced s pml4Phys virt).val with
  | none => rfl
  | some r => simp only [val_touch_bind, val_touch, val_ite, val_pure, Option.map_some]

theorem vmmUnmapPageTraced_val :
    (vmmUnmapPageTraced s pml4Phys virt).val = vmmUnmapPage s pml4Phys virt := by
  simp only [vmmUnmapPageTraced, vmmUnmapPage, val_touch_bind, val_touch, val_ite, val_pure]

@[simp] theorem descendTraced_val (via : Option Word) (t : ℕ) (i : Fin 512) :
    (descendTraced s via t i flags).val = descend s t i flags := by
  simp only [descendTraced, descend, val_touch_bind, val_touch, val_ite, val_pure]

@[simp] theorem unlinkTraced_val (via : Option Word) (t : ℕ) (i : Fin 512) (phys : Word) :
    (unlinkTraced s via t i phys).val = unlink s t i phys := by
  simp only [unlinkTraced, unlink, val_touch, val_ite, val_pure]

theorem vmmMapPageTraced_val (phys : Word) :
    (vmmMapPageTraced s pml4Phys virt phys flags).val = vmmMapPage s pml4Phys virt phys flags := by
  simp only [vmmMapPageTraced, vmmMapPage, val_bind, descendTraced_val]
  cases descend s (pageOf pml4Phys) (pml4Index virt) flags with
  | none => rfl
  | some r₄ =>
    simp only [val_bind, descendTraced_val]
    cases descend r₄.2.2 r₄.1 (pdptIndex virt) flags with
    | none => simp only [val_bind, unlinkTraced_val, val_pure]
    | some r₃ =>
      simp only [val_bind, descendTraced_val]
      cases descend r₃.2.2 r₃.1 (pdIndex virt) flags with
      | none => simp only [val_bind, unlinkTraced_val, val_pure]
      | some r₂ => rfl

end Values

section Plain

variable {s s' : Vm} {pml4Phys virt flags : Word} {t t' : ℕ} {i : Fin 512} {way : List (Fin 512)}

theorem Access.plain_none (t : ℕ) (i : Fin 512) : (⟨none, t, i⟩ : Access).Plain := by
  intro e he
  cases he

theorem Access.plain_some {e : Word} {t : ℕ} {i : Fin 512} :
    (⟨some e, t, i⟩ : Access).Plain ↔ hasFlag e pteHuge = false := by
  constructor
  · intro h
    exact h e rfl
  · intro h e' he'
    cases he'
    exact h

theorem PlainFrom.or_user (h : PlainFrom s.mem t way) (k : ℕ) (j : Fin 512) :
    PlainFrom (s.write k j (s.mem k j ||| pteUser)).mem t way := by
  induction way generalizing t with
  | nil => trivial
  | cons i way ih =>
    intro hp
    rw [Vm.write_mem] at hp ⊢
    split_ifs at hp ⊢ with hc
    · obtain ⟨rfl, rfl⟩ := hc
      rw [hasFlag_or, show hasFlag pteUser ptePresent = false by decide, Bool.or_false] at hp
      rw [hasFlag_or, show hasFlag pteUser pteHuge = false by decide, Bool.or_false,
        frameOf_or isFlags_user]
      exact ⟨(h hp).1, ih (h hp).2⟩
    · exact ⟨(h hp).1, ih (h hp).2⟩

theorem PlainFrom.of_fresh {mem : ℕ → Fin 512 → Word}
    (h : ∀ j, hasFlag (mem t j) ptePresent = true →
      hasFlag (mem t j) pteHuge = false ∧ frameOf (mem t j) = t) : PlainFrom mem t way := by
  induction way with
  | nil => trivial
  | cons i way ih =>
    intro hp
    rw [(h i hp).2]
    exact ⟨(h i hp).1, ih⟩

theorem descend_plain {phys : Word} (h : PlainFrom s.mem t (i :: way))
    (hd : descend s t i flags = some (t', phys, s')) :
    hasFlag (s'.mem t i) pteHuge = false ∧ PlainFrom s'.mem t' way := by
  cases descend_cases hd with
  | follow hpres hs =>
    obtain ⟨hp, rfl⟩ := entryNext_some.mp hpres
    obtain ⟨hh, hway⟩ := h hp
    rcases hs with rfl | rfl
    · exact ⟨hh, hway⟩
    · refine ⟨?_, hway.or_user t i⟩
      rw [Vm.write_mem, if_pos ⟨rfl, rfl⟩, hasFlag_or, hh]
      decide
  | fresh hnone pmm hav htk hne hs =>
    have hlt : t' < 2 ^ 40 := hav.lt
    obtain ⟨hfl, hhuge⟩ := intermediateFlags_spec flags
    have hentry : hasFlag (pageAddr t' ||| intermediateFlags flags) pteHuge = false := by
      rw [hasFlag_entry hlt _ isFlags_huge, hhuge]
    subst hs
    refine ⟨by rw [Vm.write_mem, if_pos ⟨rfl, rfl⟩, hentry], .of_fresh fun j hj ↦ ?_⟩
    rw [Vm.write_mem] at hj ⊢
    split_ifs at hj ⊢ with hc
    · exact ⟨hentry, frameOf_entry hlt hfl.1⟩
    · rw [Vm.fill_mem, if_pos rfl, hasFlag_zero] at hj
      cases hj

theorem descendTraced_plain {via : Option Word} (h : (⟨via, t, i⟩ : Access).Plain) :
    (descendTraced s via t i flags).All Access.Plain := by
  rw [descendTraced, all_touch_bind]
  refine ⟨h, ?_⟩
  split_ifs
  · rwa [all_touch]
  · apply all_pure
  dsimp only
  split_ifs
  · apply all_pure
  · rwa [all_touch]

theorem unlinkTraced_plain {via : Option Word} {phys : Word} (h : (⟨via, t, i⟩ : Access).Plain) :
    (unlinkTraced s via t i phys).All Access.Plain := by
  rw [unlinkTraced]
  split_ifs
  · apply all_pure
  · rwa [all_touch]

theorem vmmMapPageTraced_plain (h : PlainWay s pml4Phys virt) (phys : Word) :
    (vmmMapPageTraced s pml4Phys virt phys flags).All Access.Plain := by
  have hroot := Access.plain_none (pageOf pml4Phys) (pml4Index virt)
  simp only [vmmMapPageTraced, all_bind, descendTraced_val]
  refine ⟨descendTraced_plain hroot, ?_⟩
  cases hd₄ : descend s (pageOf pml4Phys) (pml4Index virt) flags with
  | none => apply all_pure
  | some r₄ =>
    obtain ⟨hh₄, h₃⟩ := descend_plain h hd₄
    have hp₄ : Access.Plain ⟨_, r₄.1, pdptIndex virt⟩ := Access.plain_some.mpr hh₄
    simp only [all_bind, descendTraced_val]
    refine ⟨descendTraced_plain hp₄, ?_⟩
    cases hd₃ : descend r₄.2.2 r₄.1 (pdptIndex virt) flags with
    | none =>
      simp only [all_bind]
      exact ⟨unlinkTraced_plain hroot, all_pure _⟩
    | some r₃ =>
      obtain ⟨hh₃, h₂⟩ := descend_plain h₃ hd₃
      simp only [all_bind, descendTraced_val]
      refine ⟨descendTraced_plain (Access.plain_some.mpr hh₃), ?_⟩
      cases hd₂ : descend r₃.2.2 r₃.1 (pdIndex virt) flags with
      | none =>
        simp only [all_bind]
        exact ⟨unlinkTraced_plain hp₄, unlinkTraced_plain hroot, all_pure _⟩
      | some r₂ =>
        obtain ⟨hh₂, -⟩ := descend_plain h₂ hd₂
        rw [all_touch]
        exact Access.plain_some.mpr hh₂

theorem walkTraced_plain : PlainWay s pml4Phys virt ↔
    (walkTraced s pml4Phys virt).All Access.Plain ∧
      ∀ r, (walkTraced s pml4Phys virt).val = some r → hasFlag r.1 pteHuge = false := by
  have hroot := Access.plain_none (pageOf pml4Phys) (pml4Index virt)
  simp only [walkTraced, all_touch_bind, val_touch_bind, PlainWay, PlainFrom, hroot, true_and,
    and_true]
  by_cases h₄ : hasFlag (s.mem (pageOf pml4Phys) (pml4Index virt)) ptePresent = false
  · simp [h₄]
  simp only [if_neg h₄, all_touch_bind, val_touch_bind, Access.plain_some, and_assoc]
  rw [Bool.not_eq_false] at h₄
  simp only [h₄, true_imp_iff]
  refine and_congr_right fun _ ↦ ?_
  by_cases h₃ : hasFlag (s.mem (frameOf (s.mem (pageOf pml4Phys) (pml4Index virt)))
      (pdptIndex virt)) ptePresent = false
  · simp [h₃]
  simp only [if_neg h₃, all_touch_bind, val_touch_bind, Access.plain_some, and_assoc]
  rw [Bool.not_eq_false] at h₃
  simp only [h₃, true_imp_iff]
  refine and_congr_right fun _ ↦ ?_
  by_cases h₂ : hasFlag (s.mem (frameOf (s.mem (frameOf (s.mem (pageOf pml4Phys)
      (pml4Index virt))) (pdptIndex virt))) (pdIndex virt)) ptePresent = false
  · simp [h₂]
  simp only [if_neg h₂, val_pure, all_pure, true_and, Option.some.injEq, forall_eq']
  rw [Bool.not_eq_false] at h₂
  simp only [h₂, true_imp_iff]

theorem vmmSetPteFlagsTraced_plain :
    (vmmSetPteFlagsTraced s pml4Phys virt flags).All Access.Plain ↔ PlainWay s pml4Phys virt := by
  rw [walkTraced_plain, vmmSetPteFlagsTraced, all_bind]
  refine and_congr_right fun _ ↦ ?_
  cases (walkTraced s pml4Phys virt).val with
  | none => simp
  | some r =>
    simp only [all_touch_bind, Access.plain_some, Option.some.injEq, forall_eq']
    split_ifs
    · rw [all_touch, Access.plain_some, and_self]
    · exact and_iff_left (all_pure _)

theorem vmmUnmapPageTraced_plain (h : PlainWay s pml4Phys virt) :
    (vmmUnmapPageTraced s pml4Phys virt).All Access.Plain := by
  rw [vmmUnmapPageTraced, all_touch_bind]
  refine ⟨Access.plain_none _ _, ?_⟩
  split_ifs with h₄
  · apply all_pure
  rw [Bool.not_eq_false] at h₄
  rw [all_touch_bind, Access.plain_some]
  refine ⟨(h h₄).1, ?_⟩
  split_ifs with h₃ hh₃
  · apply all_pure
  · apply all_pure
  rw [all_touch_bind, Access.plain_some]
  refine ⟨by simpa using hh₃, ?_⟩
  split_ifs with h₂ hh₂
  · apply all_pure
  · apply all_pure
  rw [all_touch, Access.plain_some]
  simpa using hh₂

end Plain

/-- What the five walkers of `vmm.c` owe to an address: the readers return 0 or what the
hardware would find, and no walker goes through a large page. -/
structure StaysOut (s : Vm) (pml4Phys virt : Word) : Prop where
  physical : vmmGetPhysical s pml4Phys virt = 0#64 ∨ ∃ t, translate s pml4Phys virt = some t ∧
    vmmGetPhysical s pml4Phys virt = t.phys &&& ~~~0xFFF#64
  pteFlags : vmmGetPteFlags s pml4Phys virt = 0#64 ∨ ∃ e mask,
    hardwareLeaf s pml4Phys virt = some (e, mask) ∧
    vmmGetPteFlags s pml4Phys virt = e &&& ~~~mask
  map : ∀ phys flags, (vmmMapPageTraced s pml4Phys virt phys flags).All Access.Plain
  setFlags : ∀ flags, (vmmSetPteFlagsTraced s pml4Phys virt flags).All Access.Plain
  unmap : (vmmUnmapPageTraced s pml4Phys virt).All Access.Plain

section Readers

variable {s : Vm} {pml4Phys virt : Word}

theorem vmmGetPhysical_plain (h : PlainWay s pml4Phys virt) :
    vmmGetPhysical s pml4Phys virt = 0#64 ∨ ∃ t, translate s pml4Phys virt = some t ∧
      vmmGetPhysical s pml4Phys virt = t.phys &&& ~~~0xFFF#64 := by
  rw [vmmGetPhysical_eq]
  by_cases hp : hasFlag (leafEntry s.mem (siteOf (pageOf pml4Phys) virt)) ptePresent = true
  · obtain ⟨t, ht, hphys, -⟩ := translate_plain h hp
    refine .inr ⟨t, ht, ?_⟩
    rw [if_pos hp, hphys, field_of_or]
    · rw [BitVec.and_assoc, show pteAddrMask &&& ~~~0xFFF#64 = pteAddrMask by decide]
    · rw [pageOffset, BitVec.and_assoc, show 0xFFF#64 &&& ~~~0xFFF#64 = 0#64 by decide,
        BitVec.and_zero]
  · exact .inl (if_neg hp)

theorem vmmGetPteFlags_plain (h : PlainWay s pml4Phys virt) :
    vmmGetPteFlags s pml4Phys virt = 0#64 ∨ ∃ e mask,
      hardwareLeaf s pml4Phys virt = some (e, mask) ∧
      vmmGetPteFlags s pml4Phys virt = e &&& ~~~mask := by
  rw [vmmGetPteFlags_eq, hardwareLeaf_plain h]
  by_cases hp : hasFlag (leafEntry s.mem (siteOf (pageOf pml4Phys) virt)) ptePresent = true
  · exact .inr ⟨_, _, if_pos hp, if_pos hp⟩
  · exact .inl (if_neg hp)

end Readers

/-- The walkers stay out of large pages exactly if there is none on the way. -/
theorem walkers_stay_out (s : Vm) (pml4Phys virt : Word) :
    StaysOut s pml4Phys virt ↔ PlainWay s pml4Phys virt := by
  constructor
  · intro h
    exact vmmSetPteFlagsTraced_plain.mp (h.setFlags 0#64)
  · intro h
    exact ⟨vmmGetPhysical_plain h, vmmGetPteFlags_plain h,
      fun phys _ ↦ vmmMapPageTraced_plain h phys, fun _ ↦ vmmSetPteFlagsTraced_plain.mpr h,
      vmmUnmapPageTraced_plain h⟩

def largePage : Vm where
  mem f i :=
    if f = 3 ∧ i = 256 then 0x4003#64 else if f = 4 ∧ i = 0 then 0x5003#64
    else if f = 5 ∧ i = 0 then 0x200083#64 else if f = 512 ∧ i = 0 then 0xABC207#64 else 0#64
  pmm := ⟨fun i ↦ if i = 0 then 0xFF#8 else 0#8, 32, 24#64, Pmm.small_le⟩
  pageInfo := none
  maxPages := 32
  kernelPml4Phys := 0x3000#64

/-- The word at the start of the large page is taken for an entry, read and changed. -/
theorem largePage_entered :
    vmmGetPhysical largePage 0x3000#64 0xFFFF800000000000#64 = 0xABC000#64 ∧
    (translate largePage 0x3000#64 0xFFFF800000000000#64).map Translation.phys =
      some 0x200000#64 ∧
    vmmGetPteFlags largePage 0x3000#64 0xFFFF800000000000#64 = 0x207#64 ∧
    hardwareLeaf largePage 0x3000#64 0xFFFF800000000000#64 =
      some (0x200083#64, pteAddrMask2M) ∧
    (vmmSetPteFlags largePage 0x3000#64 0xFFFF800000000000#64 0x7#64).2.mem 512 0 = 0xABC007#64 ∧
    ¬ StaysOut largePage 0x3000#64 0xFFFF800000000000#64 := by
  refine ⟨by decide +kernel, by decide +kernel, by decide +kernel, by decide +kernel,
    by decide +kernel, fun h ↦ ?_⟩
  rcases h.physical with h₀ | ⟨t, ht, hphys⟩
  · exact absurd h₀ (by decide +kernel)
  · have ht' : (translate largePage 0x3000#64 0xFFFF800000000000#64).map Translation.phys =
        some 0x200000#64 := by decide +kernel
    rw [ht, Option.map_some, Option.some.injEq] at ht'
    rw [ht'] at hphys
    exact absurd hphys (by decide +kernel)

end SeedOS.Memory
