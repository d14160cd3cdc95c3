import SeedOS.Memory.Pmm

namespace SeedOS.Memory

open Foundation Function

scoped instance slotsNeZero : NeZero 512 := ⟨by decide⟩

def ptePresent : Word := 0x1#64
def pteWritable : Word := 0x2#64
def pteUser : Word := 0x4#64
def pteHuge : Word := 0x80#64
def pteCow : Word := 0x200#64
def pteNx : Word := 0x8000000000000000#64
def pteAddrMask : Word := 0x000FFFFFFFFFF000#64

/-- Index of a 512-entry table selected by the nine bits of `va` above `shift`. -/
def tableIndex (shift : ℕ) (va : Word) : Fin 512 :=
  ⟨(va >>> shift &&& 0x1FF#64).toNat, by
    rw [BitVec.toNat_and]
    exact Nat.lt_of_le_of_lt Nat.and_le_right (by decide)⟩

def pml4Index (va : Word) : Fin 512 := tableIndex 39 va
def pdptIndex (va : Word) : Fin 512 := tableIndex 30 va
def pdIndex (va : Word) : Fin 512 := tableIndex 21 va
def ptIndex (va : Word) : Fin 512 := tableIndex 12 va

/-- Memory state reached by `vmm.c`, `page.c` and their callers. Physical
memory is an array of 4 KiB frames of 512 words, as the direct map shows it. -/
structure Vm where
  mem : ℕ → Fin 512 → Word
  pmm : Pmm
  pageInfo : Option (ℕ → BitVec 8)
  maxPages : ℕ
  kernelPml4Phys : Word

def Vm.write (s : Vm) (f : ℕ) (i : Fin 512) (w : Word) : Vm :=
  { s with mem := update s.mem f (update (s.mem f) i w) }

def Vm.fill (s : Vm) (f : ℕ) (page : Fin 512 → Word) : Vm :=
  { s with mem := update s.mem f page }

theorem Vm.write_mem (s : Vm) (f : ℕ) (i : Fin 512) (w : Word) (g : ℕ) (j : Fin 512) :
    (s.write f i w).mem g j = if g = f ∧ j = i then w else s.mem g j := by
  by_cases hg : g = f
  · subst hg
    by_cases hj : j = i <;> simp [write, hj]
  · simp [write, hg]

theorem Vm.fill_mem (s : Vm) (f : ℕ) (page : Fin 512 → Word) (g : ℕ) :
    (s.fill f page).mem g = if g = f then page else s.mem g := by
  by_cases hg : g = f <;> simp [fill, hg]

@[simp] theorem Vm.write_pmm (s : Vm) (f : ℕ) (i : Fin 512) (w : Word) :
    (s.write f i w).pmm = s.pmm := rfl

@[simp] theorem Vm.fill_pmm (s : Vm) (f : ℕ) (page : Fin 512 → Word) :
    (s.fill f page).pmm = s.pmm := rfl

def wordIndex (off : ℕ) : Fin 512 := ⟨off / 8 % 512, Nat.mod_lt _ (by decide)⟩

def Vm.readByte (s : Vm) (f off : ℕ) : BitVec 8 := byteOf (s.mem f (wordIndex off)) (off % 8)

def Vm.writeByte (s : Vm) (f off : ℕ) (b : BitVec 8) : Vm :=
  s.write f (wordIndex off) (setByte (s.mem f (wordIndex off)) (off % 8) b)

theorem writeByte_mem (s : Vm) {f k : ℕ} (off : ℕ) (b : BitVec 8) (hk : k ≠ f) :
    (s.writeByte f off b).mem k = s.mem k := by
  funext j
  rw [Vm.writeByte, Vm.write_mem, if_neg fun hc ↦ hk hc.1]

def frameOf (e : Word) : ℕ := pageOf (e &&& pteAddrMask)

theorem frameOf_lt (e : Word) : frameOf e < 2 ^ 40 := by
  have h : (e &&& pteAddrMask).toNat ≤ pteAddrMask.toNat := by
    rw [BitVec.toNat_and]
    exact Nat.and_le_right
  have hm : pteAddrMask.toNat = 0x000FFFFFFFFFF000 := by decide
  unfold frameOf pageOf
  omega

theorem addr_mod (e : Word) : (e &&& pteAddrMask).toNat % 4096 = 0 := by
  have h := Nat.and_mod_two_pow (a := e.toNat) (b := pteAddrMask.toNat) (n := 12)
  rw [BitVec.toNat_and]
  simpa [show pteAddrMask.toNat % 4096 = 0 by decide] using h

theorem pageAddr_frameOf (e : Word) : pageAddr (frameOf e) = e &&& pteAddrMask := by
  apply BitVec.eq_of_toNat_eq
  rw [pageAddr_toNat (by have := frameOf_lt e; omega), frameOf, pageOf]
  have h := addr_mod e
  omega

theorem pageAddr_and_mask {f : ℕ} (hf : f < 2 ^ 40) : pageAddr f &&& pteAddrMask = pageAddr f := by
  apply BitVec.eq_of_toNat_eq
  have hs : pteAddrMask.toNat = (2 ^ 40 - 1) <<< 12 := by decide
  have hn : f * 4096 = f <<< 12 := by rw [Nat.shiftLeft_eq]
  rw [BitVec.toNat_and, pageAddr_toNat (by omega), hs, hn, ← Nat.shiftLeft_and_distrib,
    Nat.and_two_pow_sub_one_of_lt_two_pow hf]

def IsFlags (fl : Word) : Prop := fl &&& pteAddrMask = 0#64

instance (fl : Word) : Decidable (IsFlags fl) := inferInstanceAs (Decidable (_ = _))

/-- The flags of a page that is mapped. -/
def MapFlags (fl : Word) : Prop := IsFlags fl ∧ hasFlag fl ptePresent = true

instance (fl : Word) : Decidable (MapFlags fl) := inferInstanceAs (Decidable (_ ∧ _))

theorem isFlags_rest (e : Word) : IsFlags (e &&& ~~~pteAddrMask) := and_not_and e pteAddrMask

theorem IsFlags.or {a b : Word} (ha : IsFlags a) (hb : IsFlags b) : IsFlags (a ||| b) := by
  unfold IsFlags at *
  rw [BitVec.and_or_distrib_right, ha, hb, BitVec.or_zero]

theorem IsFlags.and {a : Word} (ha : IsFlags a) (b : Word) : IsFlags (a &&& b) := by
  unfold IsFlags at *
  rw [BitVec.and_assoc, BitVec.and_comm b, ← BitVec.and_assoc, ha, BitVec.zero_and]

section Entry

variable {f : ℕ} {fl : Word} (hf : f < 2 ^ 40) (hfl : IsFlags fl)

include hf hfl

theorem frameOf_entry : frameOf (pageAddr f ||| fl) = f := by
  rw [frameOf, field_of_or _ _ _ (pageAddr_and_mask hf) hfl, pageOf_pageAddr (by omega)]

theorem rest_entry : (pageAddr f ||| fl) &&& ~~~pteAddrMask = fl :=
  rest_of_or _ _ _ (pageAddr_and_mask hf) hfl

omit hfl in
theorem hasFlag_entry (bit : Word) (hb : IsFlags bit) :
    hasFlag (pageAddr f ||| fl) bit = hasFlag fl bit := by
  have h : hasFlag (pageAddr f) bit = false := by
    rw [← pageAddr_and_mask hf]
    exact hasFlag_and_of_disjoint _ _ _ (by rw [BitVec.and_comm]; exact hb)
  rw [hasFlag_or, h, Bool.false_or]

end Entry

theorem hasFlag_rest (e bit : Word) (hb : ~~~pteAddrMask &&& bit = bit) :
    hasFlag (e &&& ~~~pteAddrMask) bit = hasFlag e bit :=
  hasFlag_and_of_subset e _ bit hb

end SeedOS.Memory
