import SeedOS.Memory.PageTable

namespace SeedOS.Memory

open Foundation Function

def pageRef (s : Vm) (phys : Word) : Vm :=
  match s.pageInfo with
  | none => s
  | some info =>
    let n := pageOf phys
    if s.maxPages ≤ n then s
    else if info n < 255#8 then { s with pageInfo := some (update info n (info n + 1#8)) }
    else s

/-- `page_unref`. A count of 255 is pinned; a count that reaches 0 returns the
page to the physical allocator. -/
def pageUnref (s : Vm) (phys : Word) : Vm :=
  match s.pageInfo with
  | none => s
  | some info =>
    let n := pageOf phys
    if s.maxPages ≤ n then s
    else if info n = 0#8 then s
    else if info n = 255#8 then s
    else
      let s := { s with pageInfo := some (update info n (info n - 1#8)) }
      if info n - 1#8 = 0#8 then { s with pmm := pmmFree s.pmm phys } else s

def pageGetRefcount (s : Vm) (phys : Word) : BitVec 8 :=
  match s.pageInfo with
  | none => 0#8
  | some info => if s.maxPages ≤ pageOf phys then 0#8 else info (pageOf phys)

def pageSetRefcount (s : Vm) (phys : Word) (count : BitVec 8) : Vm :=
  match s.pageInfo with
  | none => s
  | some info =>
    if s.maxPages ≤ pageOf phys then s
    else { s with pageInfo := some (update info (pageOf phys) count) }

def Vm.Tracked (s : Vm) (f : ℕ) : Prop := s.pageInfo.isSome ∧ f < s.maxPages

instance (s : Vm) (f : ℕ) : Decidable (s.Tracked f) := inferInstanceAs (Decidable (_ ∧ _))

def Vm.count (s : Vm) (f : ℕ) : ℕ :=
  match s.pageInfo with
  | none => 0
  | some info => if s.maxPages ≤ f then 0 else (info f).toNat

theorem count_eq (s : Vm) (phys : Word) :
    (pageGetRefcount s phys).toNat = s.count (pageOf phys) := by
  unfold pageGetRefcount Vm.count
  cases s.pageInfo with
  | none => rfl
  | some info => dsimp only; split <;> rfl

theorem Vm.count_le (s : Vm) (f : ℕ) : s.count f ≤ 255 := by
  unfold Vm.count
  cases s.pageInfo with
  | none => exact Nat.zero_le _
  | some info =>
    have h := (info f).isLt
    dsimp only
    split <;> omega

theorem tracked_of_count {s : Vm} {f : ℕ} (h : s.count f ≠ 0) : s.Tracked f := by
  unfold Vm.count at h
  cases hi : s.pageInfo with
  | none => simp [hi] at h
  | some info =>
    simp only [hi] at h
    refine ⟨by simp [hi], ?_⟩
    by_contra hm
    exact h (if_pos (by omega))

section

variable (s : Vm) (phys : Word)

@[simp] theorem pageRef_mem : (pageRef s phys).mem = s.mem := by
  unfold pageRef
  cases s.pageInfo with
  | none => rfl
  | some info => dsimp only; split_ifs <;> rfl

@[simp] theorem pageRef_pmm : (pageRef s phys).pmm = s.pmm := by
  unfold pageRef
  cases s.pageInfo with
  | none => rfl
  | some info => dsimp only; split_ifs <;> rfl

@[simp] theorem pageRef_kernel : (pageRef s phys).kernelPml4Phys = s.kernelPml4Phys := by
  unfold pageRef
  cases s.pageInfo with
  | none => rfl
  | some info => dsimp only; split_ifs <;> rfl

theorem pageRef_tracked (f : ℕ) : (pageRef s phys).Tracked f ↔ s.Tracked f := by
  unfold pageRef Vm.Tracked
  cases h : s.pageInfo with
  | none => simp [h]
  | some info => dsimp only; split_ifs <;> simp [h]

theorem pageRef_count (f : ℕ) : (pageRef s phys).count f =
    if f = pageOf phys ∧ s.Tracked f then min 255 (s.count f + 1) else s.count f := by
  by_cases hf : f = pageOf phys ∧ s.Tracked f
  · obtain ⟨rfl, hi, hm⟩ := hf
    obtain ⟨info, hi⟩ := Option.isSome_iff_exists.mp hi
    have hle := s.count_le (pageOf phys)
    rw [if_pos ⟨rfl, by simp [hi], hm⟩]
    simp only [pageRef, Vm.count, hi, Nat.not_le.mpr hm, if_false, BitVec.lt_def,
      show (255#8).toNat = 255 from rfl] at hle ⊢
    by_cases hlt : (info (pageOf phys)).toNat < 255
    · simp only [if_pos hlt, update_self, Nat.not_le.mpr hm, if_false, BitVec.toNat_add,
        show (1#8).toNat = 1 from rfl]
      omega
    · simp only [if_neg hlt, hi, Nat.not_le.mpr hm, if_false]
      omega
  · rw [if_neg hf]
    unfold pageRef
    cases hi : s.pageInfo with
    | none => rfl
    | some info =>
      dsimp only
      split_ifs with hm hlt
      · rfl
      · have hne : f ≠ pageOf phys := by
          rintro rfl
          exact hf ⟨rfl, by simp [hi], Nat.not_le.mp hm⟩
        simp [Vm.count, hi, hne]
      · rfl

@[simp] theorem pageSetRefcount_mem (c : BitVec 8) : (pageSetRefcount s phys c).mem = s.mem := by
  unfold pageSetRefcount
  cases s.pageInfo with
  | none => rfl
  | some info => dsimp only; split_ifs <;> rfl

@[simp] theorem pageSetRefcount_pmm (c : BitVec 8) : (pageSetRefcount s phys c).pmm = s.pmm := by
  unfold pageSetRefcount
  cases s.pageInfo with
  | none => rfl
  | some info => dsimp only; split_ifs <;> rfl

@[simp] theorem pageSetRefcount_kernel (c : BitVec 8) :
    (pageSetRefcount s phys c).kernelPml4Phys = s.kernelPml4Phys := by
  unfold pageSetRefcount
  cases s.pageInfo with
  | none => rfl
  | some info => dsimp only; split_ifs <;> rfl

theorem pageSetRefcount_tracked (c : BitVec 8) (f : ℕ) :
    (pageSetRefcount s phys c).Tracked f ↔ s.Tracked f := by
  unfold pageSetRefcount Vm.Tracked
  cases h : s.pageInfo with
  | none => simp [h]
  | some info => dsimp only; split_ifs <;> simp [h]

theorem pageSetRefcount_count (c : BitVec 8) (f : ℕ) :
    (pageSetRefcount s phys c).count f =
      if f = pageOf phys ∧ s.Tracked f then c.toNat else s.count f := by
  unfold pageSetRefcount
  cases h : s.pageInfo with
  | none => simp [Vm.Tracked, h]
  | some info =>
    dsimp only
    by_cases hm : s.maxPages ≤ pageOf phys
    · simp only [if_pos hm]
      by_cases hf : f = pageOf phys
      · subst hf; simp [Vm.Tracked, Nat.not_lt.mpr hm]
      · simp [hf]
    · simp only [if_neg hm]
      by_cases hf : f = pageOf phys
      · subst hf; simp [Vm.count, Vm.Tracked, h, hm, Nat.not_le.mp hm]
      · simp [Vm.count, h, hf]

theorem pageUnref_of_ne_one (h : s.count (pageOf phys) ≠ 1) :
    (pageUnref s phys).mem = s.mem ∧ (pageUnref s phys).pmm = s.pmm ∧
    (pageUnref s phys).kernelPml4Phys = s.kernelPml4Phys ∧
    (∀ f, (pageUnref s phys).Tracked f ↔ s.Tracked f) ∧
    ∀ f, (pageUnref s phys).count f =
      if f = pageOf phys ∧ s.count f ≠ 255 then s.count f - 1 else s.count f := by
  unfold pageUnref
  cases hi : s.pageInfo with
  | none => simp [Vm.count, hi]
  | some info =>
    dsimp only
    by_cases hm : s.maxPages ≤ pageOf phys
    · simp only [if_pos hm, true_and, implies_true]
      intro f
      by_cases hf : f = pageOf phys
      · subst hf; simp [Vm.count, hi, hm]
      · simp [hf]
    · simp only [if_neg hm]
      simp only [Vm.count, hi, if_neg hm] at h
      by_cases h0 : info (pageOf phys) = 0#8
      · simp only [if_pos h0, true_and, implies_true]
        intro f
        by_cases hf : f = pageOf phys
        · subst hf; simp [Vm.count, hi, h0]
        · simp [hf]
      · simp only [if_neg h0]
        by_cases h255 : info (pageOf phys) = 255#8
        · simp only [if_pos h255, true_and, implies_true]
          intro f
          by_cases hf : f = pageOf phys
          · subst hf; simp [Vm.count, hi, h255, hm]
          · simp [hf]
        · have h0' : (info (pageOf phys)).toNat ≠ 0 := fun he ↦ h0 (BitVec.eq_of_toNat_eq he)
          have hne : (info (pageOf phys)).toNat ≠ 255 := fun he ↦ h255 (BitVec.eq_of_toNat_eq he)
          have hlt := (info (pageOf phys)).isLt
          have hsub : (info (pageOf phys) - 1#8).toNat = (info (pageOf phys)).toNat - 1 := by
            rw [BitVec.toNat_sub, show (1#8).toNat = 1 from rfl]
            omega
          have hnz : info (pageOf phys) - 1#8 ≠ 0#8 := by
            intro he
            rw [he, show (0#8).toNat = 0 from rfl] at hsub
            omega
          simp only [if_neg h255, if_neg hnz, true_and]
          refine ⟨fun f ↦ by simp [Vm.Tracked, hi], fun f ↦ ?_⟩
          by_cases hf : f = pageOf phys
          · subst hf; simp only [Vm.count, hi, update_self, if_neg hm, hsub, ne_eq, true_and, if_pos hne]
          · simp [Vm.count, hi, hf]

end

end SeedOS.Memory
