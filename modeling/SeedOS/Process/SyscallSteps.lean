import SeedOS.Process.UserMemory

namespace SeedOS.Process

open Foundation Memory Function

theorem pagesUpTo_le (addr : Word) : (pagesUpTo addr).toNat ≤ 2 ^ 52 := by
  have := (addr + 4096#64 - 1#64).isLt
  rw [pagesUpTo, BitVec.toNat_udiv, show (4096#64).toNat = 4096 from rfl]
  omega

theorem rangePage_inj {addr : Word} {j k : ℕ} (hj : j < 2 ^ 52) (hk : k < 2 ^ 52)
    (h : rangePage addr j = rangePage addr k) : j = k := by
  have hmul : (BitVec.ofNat 64 j * 4096#64).toNat = (BitVec.ofNat 64 k * 4096#64).toNat :=
    congrArg BitVec.toNat (BitVec.add_right_inj _ |>.mp h)
  simp only [BitVec.toNat_mul, BitVec.toNat_ofNat] at hmul
  omega

theorem mmapPageFlags_spec (prot : Word) : MapFlags (mmapPageFlags prot) := by
  unfold mmapPageFlags
  dsimp only
  split_ifs <;> decide

/-- A property of the memory, given the pages that a call may have mapped so far, which the steps
of the loops of `sys_brk`, `sys_mmap` and `sys_munmap` keep. -/
structure LoopKeeps (pml4Phys : Word) (maps releases : Word → Prop) (J : Set Word → Vm → Prop) :
    Prop where
  map : ∀ {M : Set Word} {s s' : Vm} {v flags : Word} {res : FreshPage}, J M s → maps v → v ∉ M →
    MapFlags flags →
    mapFreshPage s pml4Phys v flags = (res, s') →
    (res = .mapped → J (insert v M) s') ∧ (res ≠ .mapped → ∃ M', M ⊆ M' ∧ J M' s')
  undo : ∀ {M : Set Word} {s : Vm} {v : Word}, J M s → maps v → v ∈ M →
    ∃ M', M ⊆ M' ∧ J M' (mmapUndoPage s pml4Phys v)
  release : ∀ {M : Set Word} {s : Vm} {v : Word}, J M s → releases v →
    ∃ M', J M' (releasePage s pml4Phys v)

theorem releaseLoop_keeps {P : Vm → Prop} {s : Vm} {body : Vm → Word → Vm} {vaddr : ℕ → Word}
    (n i : ℕ) (hbody : ∀ s k, i ≤ k → k < i + n → P s → P (body s (vaddr k))) (h : P s) :
    P (releaseLoop body vaddr n i s) := by
  induction n generalizing i s with
  | zero => exact h
  | succ n ih =>
    exact ih (i + 1) (fun s k hk hk' ↦ hbody s k (by omega) (by omega))
      (hbody s i le_rfl (by omega) h)

namespace LoopKeeps

variable {pml4Phys : Word} {maps releases : Word → Prop} {J : Set Word → Vm → Prop} {s : Vm}
  {M : Set Word}

theorem brkGrow (h : LoopKeeps pml4Phys maps releases J) (n page : ℕ) (hn : page + n ≤ 2 ^ 52)
    (hmaps : ∀ k, page ≤ k → k < page + n → maps (pageAddr k))
    (hM : ∀ k, page ≤ k → k < page + n → pageAddr k ∉ M) (hJ : J M s) :
    ∃ M', J M' (Process.brkGrow pml4Phys n page s).2 := by
  refine mapLoop_keeps (P := fun k s ↦ ∃ M, (∀ j, k ≤ j → j < page + n → pageAddr j ∉ M) ∧ J M s)
    (Q := fun s ↦ ∃ M, J M s) n page ?_ (fun s hs ↦ hs.imp fun _ ↦ And.right) ⟨M, hM, hJ⟩
  rintro k res s s' hk hk' ⟨M, hM, hJ⟩ hm
  obtain ⟨hmapped, hfailed⟩ := h.map hJ (hmaps k hk hk') (hM k le_rfl hk') (by decide) hm
  refine ⟨fun hres ↦ ⟨_, fun j hj hj' ↦ ?_, hmapped hres⟩,
    fun hres ↦ (hfailed hres).imp fun _ ↦ And.right⟩
  rintro (heq | hin)
  · have hpage := congrArg pageOf heq
    rw [pageOf_pageAddr (by omega), pageOf_pageAddr (by omega)] at hpage
    omega
  · exact hM j (by omega) hj' hin

theorem mmapPages (h : LoopKeeps pml4Phys maps releases J) (mapAddr : Word) {flags : Word}
    (hfl : MapFlags flags) (n i : ℕ) (hn : i + n ≤ 2 ^ 52)
    (hmaps : ∀ k < i + n, maps (rangePage mapAddr k))
    (hM : ∀ k < i + n, rangePage mapAddr k ∈ M ↔ k < i) (hJ : J M s) :
    ∃ M', J M' (Process.mmapPages pml4Phys mapAddr flags n i s).2 := by
  refine mapLoop_keeps (P := fun k s ↦ ∃ M, (∀ j < i + n, rangePage mapAddr j ∈ M ↔ j < k) ∧ J M s)
    (Q := fun s ↦ ∃ M, J M s) n i ?_ (fun s hs ↦ hs.imp fun _ ↦ And.right) ⟨M, hM, hJ⟩
  rintro k res s s' - hk ⟨M, hM, hJ⟩ hm
  obtain ⟨hmapped, hfailed⟩ := h.map hJ (hmaps k hk) (fun hin ↦ lt_irrefl k ((hM k hk).mp hin))
    hfl hm
  refine ⟨fun hres ↦ ⟨_, fun j hj ↦ ?_, hmapped hres⟩, fun hres ↦ ?_⟩
  · rw [Set.mem_insert_iff, hM j hj, Nat.lt_succ_iff_lt_or_eq, or_comm]
    refine or_congr_right ⟨rangePage_inj (by omega) (by omega), ?_⟩
    rintro rfl
    rfl
  · obtain ⟨M', -, hJ'⟩ := releaseLoop_keeps (P := fun s ↦ ∃ M', M ⊆ M' ∧ J M' s) k 0
      (fun s j _ hj ↦ by
        rintro ⟨M', hsub, hJ'⟩
        obtain ⟨M'', hsub', hJ''⟩ := h.undo hJ' (hmaps j (by omega))
          (hsub ((hM j (by omega)).mpr (by omega)))
        exact ⟨M'', hsub.trans hsub', hJ''⟩) (hfailed hres)
    exact ⟨M', hJ'⟩

theorem sysBrk {brkStart oldBrk brk : Word}
    (h : LoopKeeps pml4Phys (brkMaps brkStart oldBrk brk) (brkReleases brkStart oldBrk brk) J)
    (hJ : J ∅ s) : ∃ M, J M (Process.sysBrk s pml4Phys brkStart oldBrk brk).2.2 := by
  have hle := pagesUpTo_le brk
  unfold Process.sysBrk
  by_cases h₀ : brk = 0#64
  · rw [if_pos h₀]
    exact ⟨∅, hJ⟩
  by_cases h₁ : brk < brkStart
  · rw [if_neg h₀, if_pos h₁]
    exact ⟨∅, hJ⟩
  rw [if_neg h₀, if_neg h₁]
  dsimp only
  split_ifs with hgrow hshrink
  · have hg := h.brkGrow ((pagesUpTo brk).toNat - (pagesUpTo oldBrk).toNat)
      (pagesUpTo oldBrk).toNat (by omega) (fun k hk hk' ↦ ⟨h₀, h₁, k, hk, by omega, rfl⟩)
      (fun _ _ _ ↦ Set.notMem_empty _) hJ
    cases hb : Process.brkGrow pml4Phys ((pagesUpTo brk).toNat - (pagesUpTo oldBrk).toNat)
        (pagesUpTo oldBrk).toNat s with
    | mk ok s' =>
      rw [hb] at hg
      cases ok <;> exact hg
  · exact releaseLoop_keeps (P := fun s ↦ ∃ M, J M s) _ _ (fun s k hk hk' ⟨_, hJ⟩ ↦
      h.release hJ ⟨h₀, h₁, k, hk, by omega, rfl⟩) ⟨∅, hJ⟩
  · exact ⟨∅, hJ⟩

theorem sysMmap (prot : Word) {mmapNext addr len flags fd : Word}
    (h : LoopKeeps pml4Phys (mmapMaps mmapNext addr len flags fd) releases J) (hJ : J ∅ s) :
    ∃ M, J M (Process.sysMmap s pml4Phys mmapNext addr len prot flags fd).2.2 := by
  unfold Process.sysMmap
  cases hrej : mmapReject addr len flags fd with
  | some err => exact ⟨∅, hJ⟩
  | none =>
    have hfl := mmapPageFlags_spec prot
    have hm := h.mmapPages (mmapAddr mmapNext addr flags) hfl (pagesUpTo len).toNat 0
      (by have := pagesUpTo_le len; omega) (fun k hk ↦ ⟨hrej, k, by omega, rfl⟩)
      (fun k _ ↦ iff_of_false (Set.notMem_empty _) k.not_lt_zero) hJ
    dsimp only
    cases hb : Process.mmapPages pml4Phys (mmapAddr mmapNext addr flags) (mmapPageFlags prot)
        (pagesUpTo len).toNat 0 s with
    | mk ok s' =>
      rw [hb] at hm
      cases ok <;> exact hm

theorem sysMunmap {addr len : Word}
    (h : LoopKeeps pml4Phys maps (munmapReleases addr len) J) (hJ : J ∅ s) :
    ∃ M, J M (Process.sysMunmap s pml4Phys addr len).2 := by
  unfold Process.sysMunmap
  cases hrej : munmapReject addr len with
  | some err => exact ⟨∅, hJ⟩
  | none =>
    exact releaseLoop_keeps (P := fun s ↦ ∃ M, J M s) _ 0 (fun s k _ hk ⟨_, hJ⟩ ↦
      h.release hJ ⟨hrej, k, by omega, rfl⟩) ⟨∅, hJ⟩

end LoopKeeps

end SeedOS.Process
