import SeedOS.Memory.MapPage

namespace SeedOS.Memory

open Foundation Function

/-- The outcome of a hardware page walk: the physical address, and whether every
entry on the way allows user access and writes. -/
structure Translation where
  phys : Word
  user : Bool
  writable : Bool
  deriving DecidableEq

/-- Both permissions of one entry, on top of those of the entries above it. -/
def Translation.under (e : Word) (t : Translation) : Translation :=
  { t with
    user := hasFlag e pteUser && t.user
    writable := hasFlag e pteWritable && t.writable }

def pageTranslation (e mask offset : Word) : Translation :=
  ⟨e &&& mask ||| offset, hasFlag e pteUser, hasFlag e pteWritable⟩

def pageOffset (va : Word) : Word := va &&& 0xFFF#64

def pteAddrMask1G : Word := 0x000FFFFFC0000000#64
def pteAddrMask2M : Word := 0x000FFFFFFFE00000#64

/-- The x86-64 page walk, with 1 GiB and 2 MiB pages. The bit that marks them is
reserved in a PML4 entry. -/
def translate (s : Vm) (pml4Phys va : Word) : Option Translation :=
  let e₄ := s.mem (pageOf pml4Phys) (pml4Index va)
  if hasFlag e₄ ptePresent = false then none
  else if hasFlag e₄ pteHuge then none
  else
    let e₃ := s.mem (frameOf e₄) (pdptIndex va)
    if hasFlag e₃ ptePresent = false then none
    else if hasFlag e₃ pteHuge then
      some ((pageTranslation e₃ pteAddrMask1G (va &&& 0x3FFFFFFF#64)).under e₄)
    else
      let e₂ := s.mem (frameOf e₃) (pdIndex va)
      if hasFlag e₂ ptePresent = false then none
      else if hasFlag e₂ pteHuge then
        some (((pageTranslation e₂ pteAddrMask2M (va &&& 0x1FFFFF#64)).under e₃).under e₄)
      else
        let e₁ := s.mem (frameOf e₂) (ptIndex va)
        if hasFlag e₁ ptePresent = false then none
        else
          some ((((pageTranslation e₁ pteAddrMask (pageOffset va)).under e₂).under e₃).under e₄)

def userRead (s : Vm) (pml4Phys va : Word) : Option (BitVec 8) :=
  match translate s pml4Phys va with
  | some t => if t.user then some (s.readByte (pageOf t.phys) (t.phys.toNat % 4096)) else none
  | none => none

def userStore (s : Vm) (pml4Phys va : Word) (b : BitVec 8) : Option Vm :=
  match translate s pml4Phys va with
  | some t =>
    if t.user && t.writable then some (s.writeByte (pageOf t.phys) (t.phys.toNat % 4096) b)
    else none
  | none => none

/-- The entry at which the x86-64 page walk for `va` ends, and the mask of the address in
an entry of that level. -/
def hardwareLeaf (s : Vm) (pml4Phys va : Word) : Option (Word × Word) :=
  let e₄ := s.mem (pageOf pml4Phys) (pml4Index va)
  if hasFlag e₄ ptePresent = false then none
  else if hasFlag e₄ pteHuge then none
  else
    let e₃ := s.mem (frameOf e₄) (pdptIndex va)
    if hasFlag e₃ ptePresent = false then none
    else if hasFlag e₃ pteHuge then some (e₃, pteAddrMask1G)
    else
      let e₂ := s.mem (frameOf e₃) (pdIndex va)
      if hasFlag e₂ ptePresent = false then none
      else if hasFlag e₂ pteHuge then some (e₂, pteAddrMask2M)
      else
        let e₁ := s.mem (frameOf e₂) (ptIndex va)
        if hasFlag e₁ ptePresent = false then none else some (e₁, pteAddrMask)

/-- Every entry that the walk for `va` goes through allows writes. -/
structure WritableWay (s : Vm) (pml4Phys va : Word) : Prop where
  pml4 : hasFlag (s.mem (pageOf pml4Phys) (pml4Index va)) pteWritable = true
  pdpt : ∀ t, tableAt entryNext s.mem (pageOf pml4Phys) [pml4Index va] = some t →
    hasFlag (s.mem t (pdptIndex va)) pteWritable = true
  pd : ∀ t, tableAt entryNext s.mem (pageOf pml4Phys) [pml4Index va, pdptIndex va] = some t →
    hasFlag (s.mem t (pdIndex va)) pteWritable = true
  leaf : hasFlag (leafEntry s.mem (siteOf (pageOf pml4Phys) va)) pteWritable = true

section Way

variable {s : Vm} {pml4Phys va : Word}

theorem hardwareLeaf_plain (h : PlainWay s pml4Phys va) : hardwareLeaf s pml4Phys va =
    if hasFlag (leafEntry s.mem (siteOf (pageOf pml4Phys) va)) ptePresent then
      some (leafEntry s.mem (siteOf (pageOf pml4Phys) va), pteAddrMask) else none := by
  unfold hardwareLeaf leafEntry siteOf
  dsimp only
  cases h₄ : hasFlag (s.mem (pageOf pml4Phys) (pml4Index va)) ptePresent with
  | false => simp [tableAt, entryNext, h₄, hasFlag_zero]
  | true =>
    obtain ⟨hh₄, hway⟩ := h h₄
    cases h₃ : hasFlag (s.mem (frameOf (s.mem (pageOf pml4Phys) (pml4Index va))) (pdptIndex va))
        ptePresent with
    | false => simp [tableAt, entryNext, h₄, hh₄, h₃, hasFlag_zero]
    | true =>
      obtain ⟨hh₃, hway⟩ := hway h₃
      cases h₂ : hasFlag (s.mem (frameOf (s.mem (frameOf (s.mem (pageOf pml4Phys) (pml4Index va)))
          (pdptIndex va))) (pdIndex va)) ptePresent with
      | false => simp [tableAt, entryNext, h₄, hh₄, h₃, hh₃, h₂, hasFlag_zero]
      | true =>
        obtain ⟨hh₂, -⟩ := hway h₂
        simp only [tableAt, entryNext, h₄, hh₄, h₃, hh₃, h₂, hh₂, if_true,
          Option.bind_some, Bool.true_eq_false, Bool.false_eq_true, if_false]
        rw [← ite_not]
        simp only [Bool.not_eq_false]

theorem translate_isSome (h : PlainWay s pml4Phys va) : (translate s pml4Phys va).isSome =
    hasFlag (leafEntry s.mem (siteOf (pageOf pml4Phys) va)) ptePresent := by
  have hleaf : (translate s pml4Phys va).isSome = (hardwareLeaf s pml4Phys va).isSome := by
    unfold translate hardwareLeaf
    dsimp only
    split_ifs <;> rfl
  rw [hleaf, hardwareLeaf_plain h]
  split_ifs with hp
  · exact hp.symm
  · simpa using hp

theorem translate_plain (h : PlainWay s pml4Phys va)
    (hp : hasFlag (leafEntry s.mem (siteOf (pageOf pml4Phys) va)) ptePresent = true) :
    ∃ t, translate s pml4Phys va = some t ∧
      t.phys = leafEntry s.mem (siteOf (pageOf pml4Phys) va) &&& pteAddrMask ||| pageOffset va ∧
      (t.writable = true ↔ WritableWay s pml4Phys va) := by
  cases ht : tableAt entryNext s.mem (pageOf pml4Phys) [pml4Index va, pdptIndex va, pdIndex va] with
  | none => simp [leafEntry, siteOf, ht, hasFlag_zero] at hp
  | some t =>
    have hleaf : leafEntry s.mem (siteOf (pageOf pml4Phys) va) = s.mem t (ptIndex va) := by
      simp [leafEntry, siteOf, ht]
    rw [hleaf] at hp ⊢
    simp only [tableAt, Option.bind_eq_some_iff, entryNext_some, Option.some.injEq] at ht
    obtain ⟨_, ⟨h₄, rfl⟩, _, ⟨h₃, rfl⟩, _, ⟨h₂, rfl⟩, rfl⟩ := ht
    obtain ⟨hh₄, hway⟩ := h h₄
    obtain ⟨hh₃, hway⟩ := hway h₃
    obtain ⟨hh₂, -⟩ := hway h₂
    simp only [Memory.translate, h₄, hh₄, h₃, hh₃, h₂, hh₂, hp, Bool.true_eq_false,
      Bool.false_eq_true, if_false]
    refine ⟨_, rfl, rfl, ?_⟩
    simp only [Translation.under, pageTranslation, Bool.and_eq_true]
    constructor
    · rintro ⟨hw₄, hw₃, hw₂, hw₁⟩
      refine ⟨hw₄, fun u hu ↦ ?_, fun u hu ↦ ?_, by rw [hleaf]; exact hw₁⟩
      · simp only [tableAt, entryNext, h₄, if_true, Option.bind_some, Option.some.injEq] at hu
        exact hu ▸ hw₃
      · simp only [tableAt, entryNext, h₄, h₃, if_true, Option.bind_some, Option.some.injEq] at hu
        exact hu ▸ hw₂
    · rintro ⟨hw₄, hw₃, hw₂, hw₁⟩
      rw [hleaf] at hw₁
      exact ⟨hw₄, hw₃ _ (by simp [tableAt, entryNext, h₄]),
        hw₂ _ (by simp [tableAt, entryNext, h₄, h₃]), hw₁⟩

end Way

section User

variable {s : Vm} {roots : Set ℕ} {role : Roles} {pml4Phys va : Word}

theorem pageOffset_lt (va : Word) : (pageOffset va).toNat < 4096 := by
  rw [pageOffset, BitVec.toNat_and]
  exact Nat.lt_of_le_of_lt Nat.and_le_right (by decide)

theorem phys_of_leaf (e va : Word) :
    pageOf (pageTranslation e pteAddrMask (pageOffset va)).phys = frameOf e ∧
      (pageTranslation e pteAddrMask (pageOffset va)).phys.toNat % 4096 =
        (pageOffset va).toNat := by
  have hdisj : (e &&& pteAddrMask) &&& pageOffset va = 0#64 := by
    rw [pageOffset, BitVec.and_comm va, ← BitVec.and_assoc, BitVec.and_assoc e,
      show pteAddrMask &&& 0xFFF#64 = 0#64 by decide, BitVec.and_zero, BitVec.zero_and]
  have hlt := frameOf_lt e
  have ho := pageOffset_lt va
  have hphys : (pageTranslation e pteAddrMask (pageOffset va)).phys.toNat =
      frameOf e * 4096 + (pageOffset va).toNat := by
    rw [pageTranslation]
    dsimp only
    rw [← BitVec.add_eq_or_of_and_eq_zero _ _ hdisj, BitVec.toNat_add, ← pageAddr_frameOf,
      pageAddr_toNat (by omega)]
    omega
  rw [pageOf, hphys]
  omega

theorem translate_user (h : Inv s roots role) (hr : pageOf pml4Phys ∈ roots)
    (hv : (pml4Index va).val < 256) {t : Translation} (ht : translate s pml4Phys va = some t) :
    ∃ f, entryNext (leafEntry s.mem (siteOf (pageOf pml4Phys) va)) = some f ∧
      pageOf t.phys = f ∧ t.phys.toNat % 4096 = (pageOffset va).toNat ∧
      (t.writable = true →
        hasFlag (leafEntry s.mem (siteOf (pageOf pml4Phys) va)) pteWritable = true) := by
  have hway := h.tabled.plainWay hr hv
  have hp := translate_isSome hway
  rw [ht, Option.isSome_some] at hp
  obtain ⟨t', ht', hphys, hw⟩ := translate_plain hway hp.symm
  obtain rfl := Option.some.inj (ht.symm.trans ht')
  obtain ⟨hpage, hoff⟩ := phys_of_leaf (leafEntry s.mem (siteOf (pageOf pml4Phys) va)) va
  refine ⟨_, entryNext_some.mpr ⟨hp.symm, rfl⟩, ?_, ?_, fun htw ↦ (hw.mp htw).leaf⟩
  · rw [hphys]
    exact hpage
  · rw [hphys]
    exact hoff

end User

section Congr

variable {s s' : Vm} {pml4Phys va : Word}

theorem kernelNext_some {e : Word} (hp : hasFlag e ptePresent = true)
    (hh : hasFlag e pteHuge = false) : kernelNext e = some (frameOf e) := by
  simp [kernelNext, hp, hh]

theorem translate_congr
    (hentry : s'.mem (pageOf pml4Phys) (pml4Index va) = s.mem (pageOf pml4Phys) (pml4Index va))
    (htables : ∀ p f, (pml4Index va :: p).length ≤ 3 →
      tableAt kernelNext s.mem (pageOf pml4Phys) (pml4Index va :: p) = some f →
      s'.mem f = s.mem f) :
    translate s' pml4Phys va = translate s pml4Phys va := by
  unfold translate
  rw [hentry]
  generalize he₄ : s.mem (pageOf pml4Phys) (pml4Index va) = e₄
  dsimp only
  cases h₄ : hasFlag e₄ ptePresent with
  | false => simp
  | true =>
    cases hh₄ : hasFlag e₄ pteHuge with
    | true => simp
    | false =>
      rw [htables [] (frameOf e₄) (by simp) (by simp [tableAt, he₄, kernelNext_some h₄ hh₄])]
      generalize he₃ : s.mem (frameOf e₄) (pdptIndex va) = e₃
      cases h₃ : hasFlag e₃ ptePresent with
      | false => simp
      | true =>
        cases hh₃ : hasFlag e₃ pteHuge with
        | true => simp
        | false =>
          rw [htables [pdptIndex va] (frameOf e₃) (by simp) (by
            simp [tableAt, he₄, he₃, kernelNext_some h₄ hh₄, kernelNext_some h₃ hh₃])]
          generalize he₂ : s.mem (frameOf e₃) (pdIndex va) = e₂
          cases h₂ : hasFlag e₂ ptePresent with
          | false => simp
          | true =>
            cases hh₂ : hasFlag e₂ pteHuge with
            | true => simp
            | false =>
              rw [htables [pdptIndex va, pdIndex va] (frameOf e₂) (by simp) (by
                simp [tableAt, he₄, he₃, he₂, kernelNext_some h₄ hh₄, kernelNext_some h₃ hh₃,
                  kernelNext_some h₂ hh₂])]

theorem tableAt_of_kernelNext {mem : ℕ → Fin 512 → Word} {p : List (Fin 512)} {r f : ℕ}
    (h : tableAt kernelNext mem r p = some f) : tableAt entryNext mem r p = some f := by
  induction p generalizing r with
  | nil => exact h
  | cons i p ih =>
    obtain ⟨t, ht, hf⟩ := Option.bind_eq_some_iff.mp h
    have hnext : entryNext (mem r i) = some t := by
      unfold kernelNext at ht
      split_ifs at ht with hp
      exact entryNext_some.mpr ⟨(Bool.and_eq_true_iff.mp hp).1, Option.some.inj ht⟩
    exact Option.bind_eq_some_iff.mpr ⟨t, hnext, ih hf⟩

theorem translate_congr_user {roots : Set ℕ} {role : Roles} (h : Inv s roots role)
    (hr : pageOf pml4Phys ∈ roots) (hv : (pml4Index va).val < 256)
    (htables : ∀ k p, role k = .table (pageOf pml4Phys) p → s'.mem k = s.mem k) :
    translate s' pml4Phys va = translate s pml4Phys va := by
  refine translate_congr (by rw [htables _ _ (h.forest.root _ hr)]) fun p f hp hf ↦ ?_
  have hu : UserPath (pml4Index va :: p) := by
    simpa [UserPath] using hv
  exact htables f _ ((h.tableAt_iff hr hu hp).mp (tableAt_of_kernelNext hf))

theorem translate_congr_kernel {roots roots' : Set ℕ} {role role' : Roles} (h : Inv s roots role)
    (h' : Inv s' roots' role') (hk : s'.kernelPml4Phys = s.kernelPml4Phys)
    (hres : ∀ g, role g = .reserved → s'.mem g = s.mem g) (hr : pageOf pml4Phys ∈ roots)
    (hr' : pageOf pml4Phys ∈ roots') (hv : 256 ≤ (pml4Index va).val) :
    translate s' pml4Phys va = translate s pml4Phys va := by
  have hentry := h.kernelHalf _ hr _ hv
  have hroot := hres _ (h.kernelTable (p := []) ⟨by simp, by simp⟩ rfl)
  refine translate_congr ?_ fun p f hp hf ↦ hres f (h.kernelTable ⟨hp, by simpa using hv⟩ ?_)
  · rw [h'.kernelHalf _ hr' _ hv, hk, hroot, hentry]
  · rwa [tableAt, hentry] at hf

theorem userRead_congr {roots : Set ℕ} {role : Roles} (h : Inv s roots role)
    (hr : pageOf pml4Phys ∈ roots) (hv : (pml4Index va).val < 256)
    (htables : ∀ k p, role k = .table (pageOf pml4Phys) p → s'.mem k = s.mem k)
    (hdata : ∀ f, entryNext (leafEntry s.mem (siteOf (pageOf pml4Phys) va)) = some f →
      s'.mem f = s.mem f) :
    userRead s' pml4Phys va = userRead s pml4Phys va := by
  unfold userRead
  rw [translate_congr_user h hr hv htables]
  cases ht : translate s pml4Phys va with
  | none => rfl
  | some t =>
    obtain ⟨f, hf, hpage, _⟩ := translate_user h hr hv ht
    simp only [Vm.readByte, hpage, hdata f hf]

end Congr

end SeedOS.Memory
