import SeedOS.Process.CowFault
import SeedOS.Process.Loading

namespace SeedOS.Process

open Foundation Memory Function

section Check

def userTop : Word := 0x800000000000#64

def vmmValidateUserRange (addr len : Word) : Bool :=
  if addr = 0#64 then false
  else if userTop ≤ addr then false
  else if len = 0#64 then false
  else !(decide (addr + len < addr) || decide (userTop < addr + len))

def pageAllowed (s : Vm) (pml4Phys require alt va : Word) : Bool :=
  let flags := vmmGetPteFlags s pml4Phys va
  hasFlag flags ptePresent && hasFlag flags pteUser &&
    !(require ≠ 0#64 && !hasFlag flags require && !(alt ≠ 0#64 && hasFlag flags alt))

def checkPages (ok : Word → Bool) (last : Word) : ℕ → Word → Bool
  | 0, _ => true
  | fuel + 1, va => if va < last then ok va && checkPages ok last fuel (va + 4096#64) else true

/-- `user_range_check`; a range has `len / 4096 + 2` pages at most. -/
def userRangeCheck (s : Vm) (pml4Phys addr len require alt : Word) : Bool :=
  vmmValidateUserRange addr len &&
    checkPages (pageAllowed s pml4Phys require alt) (addr + len) (len.toNat / 4096 + 2)
      (alignDown addr)

def vmmUserRangeReadable (s : Vm) (pml4Phys addr len : Word) : Bool :=
  userRangeCheck s pml4Phys addr len 0#64 0#64

def vmmUserRangeWritable (s : Vm) (pml4Phys addr len : Word) : Bool :=
  userRangeCheck s pml4Phys addr len pteWritable pteCow

end Check

section Store

/-- `handle_page_fault`, by the bits of the error code. A fault that it does not resolve
halts the system. -/
def handlePageFault (s : Vm) (pml4Phys faultAddr : Word) (present write user : Bool) : Option Vm :=
  if write && present && user then
    match handleCowFault s pml4Phys faultAddr with
    | (res, s) => if res = 0 then some s else none
  else none

/-- A byte that the kernel stores through a user address. A page that is not writable
is protected from the kernel when `CR0.WP`, here `wp`, is set; such a fault is not one
of user mode. -/
def kernelStore (wp : Bool) (s : Vm) (pml4Phys va : Word) (b : BitVec 8) : Option Vm :=
  match translate s pml4Phys va with
  | none => none
  | some t =>
    if t.writable || !wp then some (s.writeByte (pageOf t.phys) (t.phys.toNat % 4096) b)
    else
      match handlePageFault s pml4Phys va true true false with
      | none => none
      | some s => userStore s pml4Phys va b

def kernelStores (wp : Bool) (pml4Phys : Word) : Word → List (BitVec 8) → Vm → Option Vm
  | _, [], s => some s
  | va, b :: bytes, s => do
    let s ← kernelStore wp s pml4Phys va b
    kernelStores wp pml4Phys (va + 1#64) bytes s

end Store

section CheckSpec

variable {s : Vm} {pml4Phys addr len require alt : Word}

theorem vmmValidateUserRange_iff : vmmValidateUserRange addr len = true ↔
    addr ≠ 0#64 ∧ len ≠ 0#64 ∧ addr.toNat + len.toNat ≤ 2 ^ 47 := by
  have htop : userTop.toNat = 2 ^ 47 := by decide
  have ha := addr.isLt
  have hl := len.isLt
  have hz : len = 0#64 ↔ len.toNat = 0 := by
    rw [← BitVec.toNat_inj]
    rfl
  unfold vmmValidateUserRange
  by_cases h₀ : addr = 0#64
  · simp [h₀]
  by_cases h₁ : userTop ≤ addr
  · rw [if_neg h₀, if_pos h₁]
    rw [BitVec.le_def, htop] at h₁
    exact iff_of_false (by simp) fun h ↦ h.2.1 (hz.mpr (by omega))
  by_cases h₂ : len = 0#64
  · simp [h₂]
  rw [if_neg h₀, if_neg h₁, if_neg h₂]
  rw [BitVec.le_def, htop] at h₁
  rw [Bool.not_eq_true', Bool.or_eq_false_iff, decide_eq_false_iff_not, decide_eq_false_iff_not,
    BitVec.lt_def, BitVec.lt_def, htop, BitVec.toNat_add]
  refine ⟨fun h ↦ ⟨h₀, h₂, ?_⟩, fun h ↦ ?_⟩
  · omega
  · omega

theorem checkPages_ok {ok : Word → Bool} {last : Word} {fuel : ℕ} {va : Word}
    (h : checkPages ok last fuel va = true) {j : ℕ} (hj : j < fuel)
    (hend : va.toNat + 4096 * j < last.toNat) : ok (va + BitVec.ofNat 64 (4096 * j)) = true := by
  induction fuel generalizing va j with
  | zero => omega
  | succ fuel ih =>
    have hlast := last.isLt
    rw [checkPages, if_pos (by rw [BitVec.lt_def]; omega), Bool.and_eq_true] at h
    cases j with
    | zero => simpa using h.1
    | succ j =>
      have hva : (va + 4096#64).toNat = va.toNat + 4096 := by
        rw [BitVec.toNat_add, show (4096#64).toNat = 4096 from rfl]
        omega
      have := ih h.2 (Nat.lt_of_succ_lt_succ hj) (by omega)
      rwa [BitVec.add_assoc, show 4096#64 + BitVec.ofNat 64 (4096 * j) =
        BitVec.ofNat 64 (4096 * (j + 1)) by rw [Nat.mul_succ, Nat.add_comm, BitVec.ofNat_add]] at this

theorem userRangeCheck_page (h : userRangeCheck s pml4Phys addr len require alt = true) {i : ℕ}
    (hi : i < len.toNat) :
    pageAllowed s pml4Phys require alt (alignDown (addr + BitVec.ofNat 64 i)) = true := by
  rw [userRangeCheck, Bool.and_eq_true, vmmValidateUserRange_iff] at h
  obtain ⟨⟨_, _, hle⟩, hpages⟩ := h
  have hdown (v : Word) : (alignDown v).toNat = v.toNat - v.toNat % 4096 :=
    toNat_clearLow v (k := 12) (by omega)
  have haddr : (addr + BitVec.ofNat 64 i).toNat = addr.toNat + i := by
    rw [BitVec.toNat_add, BitVec.toNat_ofNat]
    omega
  have hlast : (addr + len).toNat = addr.toNat + len.toNat := by
    rw [BitVec.toNat_add]
    omega
  have hj := checkPages_ok hpages (j := (addr.toNat % 4096 + i) / 4096) (by omega)
    (by rw [hdown, hlast]; omega)
  rwa [show alignDown addr + BitVec.ofNat 64 (4096 * ((addr.toNat % 4096 + i) / 4096)) =
    alignDown (addr + BitVec.ofNat 64 i) by
      apply BitVec.eq_of_toNat_eq
      rw [BitVec.toNat_add, BitVec.toNat_ofNat, hdown, hdown, haddr]
      omega] at hj

end CheckSpec

section StoreSpec

variable {s : Vm} {roots : Set ℕ} {role : Roles} {pml4Phys va : Word}

theorem translate_of_present (h : Inv s roots role) (hr : pageOf pml4Phys ∈ roots)
    (hv : (pml4Index va).val < 256)
    (hp : hasFlag (vmmGetPteFlags s pml4Phys (alignDown va)) ptePresent = true) :
    (translate s pml4Phys va).isSome := by
  rw [vmmGetPteFlags_eq, alignDown, siteOf_page] at hp
  rw [translate_isSome (h.tabled.plainWay hr hv)]
  by_contra hc
  rw [if_neg hc, hasFlag_zero] at hp
  exact absurd hp (by simp)

theorem kernelStore_some (h : Inv s roots role) (hr : pageOf pml4Phys ∈ roots)
    (hv : (pml4Index va).val < 256) {wp : Bool} {t : Translation}
    (ht : translate s pml4Phys va = some t) (hw : wp = true → t.writable = true) (b : BitVec 8) :
    ∃ s', kernelStore wp s pml4Phys va b = some s' ∧ Inv s' roots role ∧
      ∀ v, (pml4Index v).val < 256 → translate s' pml4Phys v = translate s pml4Phys v := by
  obtain ⟨f, hf, hpage, _⟩ := translate_user h hr hv ht
  have hdata := h.leafEntry_data (siteOf_valid hr hv) hf
  have hcan : (t.writable || !wp) = true := by
    cases wp with
    | true => rw [hw rfl, Bool.true_or]
    | false => exact Bool.or_true _
  refine ⟨s.writeByte f (t.phys.toNat % 4096) b, ?_, (writeByte_progress h hdata _ b).inv,
    fun v hv' ↦ ?_⟩
  · rw [kernelStore, ht]
    dsimp only
    rw [if_pos hcan, hpage]
  · refine translate_congr_user h hr hv' fun k p hk ↦ writeByte_mem s _ b ?_
    rintro rfl
    exact absurd (hdata.symm.trans hk) (by simp)

theorem kernelStores_some {wp : Bool} (bytes : List (BitVec 8)) (hr : pageOf pml4Phys ∈ roots)
    (hpages : ∀ i < bytes.length, (pml4Index (va + BitVec.ofNat 64 i)).val < 256 ∧
      ∃ t, translate s pml4Phys (va + BitVec.ofNat 64 i) = some t ∧
        (wp = true → t.writable = true)) (h : Inv s roots role) :
    ∃ s', kernelStores wp pml4Phys va bytes s = some s' := by
  induction bytes generalizing va s with
  | nil => exact ⟨s, rfl⟩
  | cons b bytes ih =>
    obtain ⟨hv, t, ht, hw⟩ := hpages 0 (by simp)
    rw [BitVec.add_zero] at hv ht
    obtain ⟨s₁, hs₁, hinv, hsame⟩ := kernelStore_some h hr hv ht hw b
    have hnext (i : ℕ) : va + 1#64 + BitVec.ofNat 64 i = va + BitVec.ofNat 64 (i + 1) := by
      rw [BitVec.add_assoc, Nat.add_comm, BitVec.ofNat_add]
    have hrest : ∀ i < bytes.length, (pml4Index (va + 1#64 + BitVec.ofNat 64 i)).val < 256 ∧
        ∃ t, translate s₁ pml4Phys (va + 1#64 + BitVec.ofNat 64 i) = some t ∧
          (wp = true → t.writable = true) := by
      intro i hi
      obtain ⟨hv', t', ht', hw'⟩ := hpages (i + 1) (by simpa using hi)
      rw [hnext, hsame _ hv']
      exact ⟨hv', t', ht', hw'⟩
    obtain ⟨s', hs'⟩ := ih hrest hinv
    exact ⟨s', by rw [kernelStores, hs₁]; exact hs'⟩

end StoreSpec

end SeedOS.Process
