import SeedOS.Memory.CopySpec
import SeedOS.Process.UserBuffer

namespace SeedOS.Process

open Foundation Memory Function

def PlainUserHalf (s : Vm) (pml4Phys : Word) : Prop :=
  ∀ p i f, p.length < 3 → UserPath (p ++ [i]) →
    tableAt entryNext s.mem (pageOf pml4Phys) p = some f →
    hasFlag (s.mem f i) ptePresent = true → hasFlag (s.mem f i) pteHuge = false

/-- A range of user memory: it does not start at 0, is not empty, does not wrap and ends
in the user half. -/
structure RangeValid (addr len : Word) : Prop where
  pointer : addr ≠ 0#64
  nonempty : len ≠ 0#64
  unwrapped : addr.toNat + len.toNat < 2 ^ 64
  below : addr.toNat + len.toNat ≤ userTop.toNat

/-- Every byte of the range lies in a page whose entry is present and satisfies `ok`. -/
def EveryPage (s : Vm) (pml4Phys addr len : Word) (ok : Word → Prop) : Prop :=
  ∀ i < len.toNat, ∃ e,
    hardwareLeaf s pml4Phys (addr + BitVec.ofNat 64 i) = some (e, pteAddrMask) ∧ ok e

section Pages

variable {s : Vm} {pml4Phys addr len require alt va : Word}

theorem PlainUserHalf.way (h : PlainUserHalf s pml4Phys) (hv : (pml4Index va).val < 256) :
    PlainWay s pml4Phys va :=
  plainWay_of hv h

theorem rangeValid_iff : RangeValid addr len ↔ vmmValidateUserRange addr len = true := by
  have htop : userTop.toNat = 2 ^ 47 := by decide
  rw [vmmValidateUserRange_iff]
  constructor
  · rintro ⟨hp, hn, _, hb⟩
    exact ⟨hp, hn, by omega⟩
  · rintro ⟨hp, hn, hb⟩
    exact ⟨hp, hn, by omega, by omega⟩

theorem RangeValid.userHalf (h : RangeValid addr len) {i : ℕ} (hi : i < len.toNat) :
    (pml4Index (addr + BitVec.ofNat 64 i)).val < 256 := by
  have htop : userTop.toNat = 2 ^ 47 := by decide
  have hle := h.below
  apply pml4Index_of_lt
  rw [BitVec.toNat_add, BitVec.toNat_ofNat]
  omega

theorem checkPages_of {ok : Word → Bool} {last : Word} {fuel : ℕ} {va : Word}
    (hbound : last.toNat + 4096 ≤ 2 ^ 64)
    (h : ∀ j, va.toNat + 4096 * j < last.toNat → ok (va + BitVec.ofNat 64 (4096 * j)) = true) :
    checkPages ok last fuel va = true := by
  induction fuel generalizing va with
  | zero => rfl
  | succ fuel ih =>
    rw [checkPages]
    split_ifs with hlt
    · rw [BitVec.lt_def] at hlt
      have hva : (va + 4096#64).toNat = va.toNat + 4096 := by
        rw [BitVec.toNat_add, show (4096#64).toNat = 4096 from rfl]
        omega
      have hfirst : ok va = true := by simpa using h 0 (by omega)
      rw [hfirst, Bool.true_and]
      refine ih fun j hj ↦ ?_
      rw [hva] at hj
      have hnext := h (j + 1) (by omega)
      rwa [Nat.mul_succ, Nat.add_comm, BitVec.ofNat_add, ← BitVec.add_assoc] at hnext
    · rfl

theorem userRangeCheck_iff : userRangeCheck s pml4Phys addr len require alt = true ↔
    vmmValidateUserRange addr len = true ∧ ∀ i < len.toNat,
      pageAllowed s pml4Phys require alt (alignDown (addr + BitVec.ofNat 64 i)) = true := by
  constructor
  · intro h
    exact ⟨(Bool.and_eq_true_iff.mp h).1, fun i hi ↦ userRangeCheck_page h hi⟩
  · rintro ⟨hvalid, hpages⟩
    obtain ⟨-, hlen, hle⟩ := vmmValidateUserRange_iff.mp hvalid
    have hpos : len.toNat ≠ 0 := fun h ↦ hlen (BitVec.eq_of_toNat_eq h)
    have hdown (v : Word) : (alignDown v).toNat = v.toNat - v.toNat % 4096 :=
      toNat_clearLow v (k := 12) (by omega)
    have hlast : (addr + len).toNat = addr.toNat + len.toNat := by
      rw [BitVec.toNat_add]
      omega
    rw [userRangeCheck, hvalid, Bool.true_and]
    refine checkPages_of (by omega) fun j hj ↦ ?_
    rw [hdown, hlast] at hj
    -- the first byte of the range in page `j`
    have hi : addr.toNat - addr.toNat % 4096 + 4096 * j - addr.toNat < len.toNat := by omega
    have hpage := hpages _ hi
    rwa [show alignDown (addr + BitVec.ofNat 64
        (addr.toNat - addr.toNat % 4096 + 4096 * j - addr.toNat)) =
      alignDown addr + BitVec.ofNat 64 (4096 * j) by
        apply BitVec.eq_of_toNat_eq
        rw [hdown, BitVec.toNat_add, BitVec.toNat_add, BitVec.toNat_ofNat, BitVec.toNat_ofNat, hdown]
        omega] at hpage

theorem pageAllowed_iff (h : PlainWay s pml4Phys va) (hr : ~~~pteAddrMask &&& require = require)
    (ha : ~~~pteAddrMask &&& alt = alt) :
    pageAllowed s pml4Phys require alt (alignDown va) = true ↔
      ∃ e, hardwareLeaf s pml4Phys va = some (e, pteAddrMask) ∧ hasFlag e pteUser = true ∧
        (require = 0#64 ∨ hasFlag e require = true ∨ (alt ≠ 0#64 ∧ hasFlag e alt = true)) := by
  have hpage : ∀ v : Word, siteOf (pageOf pml4Phys) (alignDown v) = siteOf (pageOf pml4Phys) v :=
    siteOf_page _
  rw [hardwareLeaf_plain h, pageAllowed, vmmGetPteFlags_eq, hpage]
  cases hp : hasFlag (leafEntry s.mem (siteOf (pageOf pml4Phys) va)) ptePresent with
  | false => simp [hasFlag_zero]
  | true =>
    simp only [if_true, hasFlag_rest _ _ hr, hasFlag_rest _ _ ha,
      hasFlag_rest _ ptePresent (by decide), hasFlag_rest _ pteUser (by decide), hp,
      Bool.true_and, Bool.and_eq_true, Option.some.injEq, Prod.mk.injEq, and_true, exists_eq_left']
    refine and_congr_right fun _ ↦ ?_
    by_cases hz : require = 0#64
    · simp [hz]
    · by_cases hza : alt = 0#64
      · simp [hz, hza]
      · simp [hz, hza]

end Pages

section Exact

variable {s : Vm} {pml4Phys addr len require alt : Word}

theorem userRangeCheck_exact (h : PlainUserHalf s pml4Phys)
    (hr : ~~~pteAddrMask &&& require = require) (ha : ~~~pteAddrMask &&& alt = alt) :
    userRangeCheck s pml4Phys addr len require alt = true ↔
      RangeValid addr len ∧ EveryPage s pml4Phys addr len fun e ↦ hasFlag e pteUser = true ∧
        (require = 0#64 ∨ hasFlag e require = true ∨ (alt ≠ 0#64 ∧ hasFlag e alt = true)) := by
  rw [userRangeCheck_iff, ← rangeValid_iff]
  refine and_congr_right fun hvalid ↦ forall_congr' fun i ↦ forall_congr' fun hi ↦ ?_
  exact pageAllowed_iff (h.way (hvalid.userHalf hi)) hr ha

end Exact

/-- The two range checks are exact: they test every byte of the range. -/
theorem user_range_checks_exact (s : Vm) (pml4Phys addr len : Word)
    (h : PlainUserHalf s pml4Phys) :
    (vmmUserRangeReadable s pml4Phys addr len = true ↔
      RangeValid addr len ∧ EveryPage s pml4Phys addr len fun e ↦ hasFlag e pteUser = true) ∧
    (vmmUserRangeWritable s pml4Phys addr len = true ↔
      RangeValid addr len ∧ EveryPage s pml4Phys addr len fun e ↦ hasFlag e pteUser = true ∧
        (hasFlag e pteWritable = true ∨ hasFlag e pteCow = true)) := by
  constructor
  · rw [vmmUserRangeReadable, userRangeCheck_exact h (by decide) (by decide)]
    simp
  · rw [vmmUserRangeWritable, userRangeCheck_exact h (by decide) (by decide)]
    simp [show pteWritable ≠ 0#64 by decide, show pteCow ≠ 0#64 by decide]

theorem onePage_plainUserHalf : PlainUserHalf onePage 0x3000#64 := by
  intro p i f _ _ _ hp
  simp only [onePage] at hp ⊢
  split_ifs <;> decide

theorem user_range_checks_exact_onePage :
    vmmUserRangeWritable onePage 0x3000#64 0x400FF0#64 16#64 = true ∧
    vmmUserRangeWritable onePage 0x3000#64 0x400FF0#64 17#64 = false ∧
    ((vmmUserRangeWritable onePage 0x3000#64 0x400FF0#64 16#64 = true ↔
      RangeValid 0x400FF0#64 16#64 ∧ EveryPage onePage 0x3000#64 0x400FF0#64 16#64 fun e ↦
        hasFlag e pteUser = true ∧ (hasFlag e pteWritable = true ∨ hasFlag e pteCow = true))) :=
  ⟨by decide +kernel, by decide +kernel,
    (user_range_checks_exact onePage 0x3000#64 0x400FF0#64 16#64 onePage_plainUserHalf).2⟩

section Writes

variable {s : Vm} {pml4Phys addr len va : Word}

/-- The kernel's write to `va` ends, whatever byte it writes. -/
def WriteCompletes (s : Vm) (pml4Phys va : Word) : Prop :=
  ∀ b, (kernelStore true s pml4Phys va b).isSome

theorem writeCompletes_iff (h : PlainWay s pml4Phys va)
    (hp : hasFlag (leafEntry s.mem (siteOf (pageOf pml4Phys) va)) ptePresent = true) :
    WriteCompletes s pml4Phys va ↔ WritableWay s pml4Phys va := by
  obtain ⟨t, ht, -, hw⟩ := translate_plain h hp
  rw [← hw]
  simp only [WriteCompletes, kernelStore, ht]
  cases t.writable with
  | true => simp
  | false => simp [handlePageFault]

theorem leaf_of_writable (h : PlainUserHalf s pml4Phys)
    (hok : vmmUserRangeWritable s pml4Phys addr len = true) {i : ℕ} (hi : i < len.toNat) :
    PlainWay s pml4Phys (addr + BitVec.ofNat 64 i) ∧
      hasFlag (leafEntry s.mem (siteOf (pageOf pml4Phys) (addr + BitVec.ofNat 64 i)))
        ptePresent = true := by
  obtain ⟨hvalid, hpages⟩ := (userRangeCheck_exact h (by decide) (by decide)).mp hok
  have hway := h.way (hvalid.userHalf hi)
  refine ⟨hway, ?_⟩
  obtain ⟨e, he, -⟩ := hpages i hi
  rw [hardwareLeaf_plain hway] at he
  by_contra hc
  rw [if_neg hc] at he
  exact absurd he (by simp)

end Writes

/-- A range that is accepted as writable can be written by the kernel exactly if every
entry on the way to each of its pages allows writes: a page that is shared copy on write
is accepted, and the fault on it halts the system. -/
theorem writable_range_completes (s : Vm) (pml4Phys addr len : Word)
    (h : PlainUserHalf s pml4Phys) (hok : vmmUserRangeWritable s pml4Phys addr len = true) :
    (∀ i < len.toNat, WriteCompletes s pml4Phys (addr + BitVec.ofNat 64 i)) ↔
      ∀ i < len.toNat, WritableWay s pml4Phys (addr + BitVec.ofNat 64 i) := by
  refine forall_congr' fun i ↦ forall_congr' fun hi ↦ ?_
  obtain ⟨hway, hp⟩ := leaf_of_writable h hok hi
  exact writeCompletes_iff hway hp

theorem writable_range_completes_onePage :
    (∀ i < 16, WriteCompletes onePage 0x3000#64 (0x400FF0#64 + BitVec.ofNat 64 i)) ↔
      ∀ i < 16, WritableWay onePage 0x3000#64 (0x400FF0#64 + BitVec.ofNat 64 i) :=
  writable_range_completes onePage 0x3000#64 0x400FF0#64 16#64 onePage_plainUserHalf
    (by decide +kernel)

/-- The page of `onePage` after a fork: read-only and copy on write. -/
def sharedPage : Vm where
  mem f i := if f = 6 ∧ i = 0 then 0x7205#64 else onePage.mem f i
  pmm := onePage.pmm
  pageInfo := some fun f ↦ if f = 7 then 2#8 else 0#8
  maxPages := 32
  kernelPml4Phys := 0x1000#64

theorem sharedPage_plainUserHalf : PlainUserHalf sharedPage 0x3000#64 := by
  intro p i f _ _ _ hp
  simp only [sharedPage, onePage] at hp ⊢
  split_ifs <;> decide

/-- A page shared by a fork is accepted, frames are free, and the write halts. -/
theorem shared_page_write_halts :
    PlainUserHalf sharedPage 0x3000#64 ∧
    vmmUserRangeWritable sharedPage 0x3000#64 0x400000#64 8#64 = true ∧
    (pmmAlloc sharedPage.pmm).1 = 0x8000#64 ∧
    (kernelStore true sharedPage 0x3000#64 0x400000#64 1#8).isSome = false ∧
    (handleCowFault sharedPage 0x3000#64 0x400000#64).1 = 0 :=
  ⟨sharedPage_plainUserHalf, by decide +kernel⟩

end SeedOS.Process
