import SeedOS.Kheap.LiveBlocks

namespace SeedOS.Kheap

open Foundation

variable {W : Type} {s s' : Heap W} {blocks : List Block} {fl : List ℕ} {b c : Block} {x : ℕ}

theorem HeapInv.used_outside (h : HeapInv s blocks fl) (hc : c ∈ blocks) (hu : c.free = false)
    (hx : c.addr ≤ x) (hx' : x < c.addr + c.size) : ∀ d ∈ fl, x < d ∨ d + 32 ≤ x := by
  intro d hd
  obtain ⟨e, he, hf, rfl⟩ := (h.exact d).mp hd
  have hne : c ≠ e := by
    rintro rfl
    rw [hu] at hf
    exact Bool.false_ne_true hf
  have hapart := h.apart hc he hne
  have hroom := h.room e he hf
  omega

section Links

theorem store_freeList (s : Heap W) (a v : ℕ) : (s.store a v).freeList = s.freeList := rfl

theorem blockSetFree_freeList (s : Heap W) (a : ℕ) : (s.blockSetFree a).freeList = s.freeList :=
  rfl

theorem FreeList.head_outside (h : FreeList s fl) (hx : ∀ d ∈ fl, x < d ∨ d + 32 ≤ x) :
    s.freeList ≠ 0 → x < s.freeList + 8 ∨ s.freeList + 24 ≤ x := by
  intro hne
  have := hx _ (h.head_mem hne)
  omega

theorem carve_mem {current currentSize total : ℕ} (hle : total ≤ currentSize)
    (h8 : 8 ≤ currentSize) (hlt : current + currentSize < 2 ^ 64)
    (hx : x < current ∨ current + currentSize ≤ x)
    (hhead : s.freeList ≠ 0 → x < s.freeList + 8 ∨ s.freeList + 24 ≤ x) :
    (carve s current currentSize total).2.mem x = s.mem x := by
  have hsub := sub64_eq hle (by omega)
  by_cases hsplit : 40 ≤ sub64 currentSize total
  · rw [carve_of_le hsplit, markUsed_mem _ _ _ (by omega), store_mem_of_outside (by omega),
      wrap_eq (by omega)]
    obtain ⟨s₁, hs₁⟩ : ∃ s₁, s₁ = s.store (current + total)
        (sub64 currentSize total ||| blockFree) := ⟨_, rfl⟩
    have hhead₁ : s₁.freeList = s.freeList := by
      rw [hs₁, store_freeList]
    rw [← hs₁, freeListInsert_mem (by omega) (by rwa [hhead₁]), hs₁,
      store_mem_of_outside (by omega)]
  · rw [carve_of_lt (Nat.not_le.mp hsplit), markUsed_mem _ _ _ (by omega)]

end Links

section Used

variable (h : HeapInv s blocks fl)
include h

theorem HeapInv.carve_used (hb : b ∈ blocks) (hf : b.free = true) {total : ℕ} (hle : total ≤ b.size)
    (hc : c ∈ blocks) (hu : c.free = false) (hx : c.addr ≤ x) (hx' : x < c.addr + c.size) :
    (carve (freeListRemove s b.addr) b.addr b.size total).2.mem x = s.mem x := by
  have hout := h.used_outside hc hu hx hx'
  have hbounds := h.bounds hb
  have hsize := h.size b hb
  have hne : c ≠ b := by
    rintro rfl
    rw [hu] at hf
    exact Bool.false_ne_true hf
  have hapart := h.apart hc hb hne
  obtain ⟨hlinks, hmem⟩ := h.links.remove (h.mem_fl hb hf)
  have hhead := hlinks.head_outside fun d hd ↦ hout d (List.mem_of_mem_erase hd)
  rw [carve_mem hle (by omega) (by omega) (by omega) hhead]
  exact hmem x fun d hd ↦ by have := hout d hd; omega

theorem HeapInv.kfree_used (hb : b ∈ blocks) (hbu : b.free = false) (h32 : 32 ≤ b.size)
    (hc : c ∈ blocks) (hu : c.free = false) (hne : c ≠ b) (hx : c.addr ≤ x)
    (hx' : x < c.addr + c.size) : (kfree s (b.addr + 8)).2.mem x = s.mem x := by
  have hout := h.used_outside hc hu hx hx'
  have hbounds := h.bounds hb
  have hapart := h.apart hc hb hne
  have h₁ := h.uncounted b.size
  have hmem₁ := uncount_mem s b.size
  have hlive := congrArg Prod.snd (kfree_live h hb hbu)
  dsimp only at hlive
  rw [hlive]
  clear hlive
  generalize uncount s b.size = s₁ at *
  by_cases hmerge : b.addr + b.size < s₁.heapEnd ∧ s₁.blockIsFree (b.addr + b.size) = true
  · -- the next block is in the free list
    rw [if_pos hmerge]
    have hnext : b.addr + b.size ∈ fl := by
      rcases h₁.tiles.next hb with hend | ⟨d, hd, hda⟩
      · omega
      · have hdf : d.free = true := by rw [← h₁.blockIsFree_eq hd, hda, hmerge.2]
        exact hda ▸ h₁.mem_fl hd hdf
    obtain ⟨hlinks, hmem⟩ := h₁.links.remove hnext
    have hhead := hlinks.head_outside fun d hd ↦ hout d (List.mem_of_mem_erase hd)
    have hout' := hmem x fun d hd ↦ by have := hout d hd; omega
    generalize freeListRemove s₁ (b.addr + b.size) = s₂ at *
    obtain ⟨s₃, hs₃⟩ : ∃ s₃, s₃ = (s₂.store b.addr
        (wrap (b.size + s₂.blockSize (b.addr + b.size)))).blockSetFree b.addr := ⟨_, rfl⟩
    have hhead₃ : s₃.freeList = s₂.freeList := by
      rw [hs₃, blockSetFree_freeList, store_freeList]
    rw [← hs₃, freeListInsert_mem (by omega) (by rwa [hhead₃]), hs₃, Heap.blockSetFree,
      store_mem_of_outside (by omega),
      store_mem_of_outside (by omega), hout', hmem₁]
  · rw [if_neg hmerge]
    have hhead := h₁.links.head_outside hout
    obtain ⟨s₃, hs₃⟩ : ∃ s₃, s₃ = s₁.blockSetFree b.addr := ⟨_, rfl⟩
    have hhead₃ : s₃.freeList = s₁.freeList := by
      rw [hs₃, blockSetFree_freeList]
    rw [← hs₃, freeListInsert_mem (by omega) (by rwa [hhead₃]), hs₃, Heap.blockSetFree,
      store_mem_of_outside (by omega),
      hmem₁]

end Used

section Expand

variable (pager : Pager W)

theorem growLoop_mem {ok : Bool} {allocated allocated' : List ℕ} (n : ℕ)
    (heq : growLoop pager n allocated s = (ok, allocated', s')) (hend : s.heapEnd < 2 ^ 64)
    (hlow : n * 4096 ≤ x) (hx : x < s.heapEnd ∨ s.heapEnd + n * 4096 ≤ x) :
    s'.mem x = s.mem x := by
  induction n generalizing s allocated with
  | zero =>
    simp only [growLoop, Prod.mk.injEq] at heq
    obtain ⟨_, _, rfl⟩ := heq
    rfl
  | succ n ih =>
    rw [growLoop] at heq
    have hpage : ∀ {res s₁}, growPage pager s = (res, s₁) → s₁.mem x = s.mem x := by
      intro res s₁ hg
      unfold growPage at hg
      dsimp only at hg
      split_ifs at hg
      · obtain ⟨-, rfl⟩ := Prod.mk.inj hg
        rfl
      · obtain ⟨-, rfl⟩ := Prod.mk.inj hg
        rfl
      · obtain ⟨-, rfl⟩ := Prod.mk.inj hg
        change mapContents s.mem _ s.heapEnd x = s.mem x
        rw [mapContents, if_neg]
        unfold pageSize
        omega
    cases hg : growPage pager s with
    | mk res s₁ =>
      have hmem := hpage hg
      obtain ⟨_, _, hend₁⟩ := growPage_spec pager hg
      rw [hg] at heq
      cases res with
      | none =>
        simp only [Prod.mk.injEq] at heq
        obtain ⟨_, _, rfl⟩ := heq
        exact hmem
      | some phys =>
        rw [Option.isSome_some, if_pos rfl] at hend₁
        have hwrap : s₁.heapEnd < 2 ^ 64 ∧
            (s₁.heapEnd = s.heapEnd + 4096 ∨ s₁.heapEnd < 4096) := by
          clear ih heq hlow hx hmem hg
          rw [hend₁, wrap, pageSize]
          omega
        have hx₁ : x < s₁.heapEnd ∨ s₁.heapEnd + n * 4096 ≤ x := by
          clear ih heq hmem hg
          omega
        have hlow₁ : n * 4096 ≤ x := Nat.le_trans (Nat.mul_le_mul_right _ (Nat.le_succ n)) hlow
        rw [ih heq hwrap.1 hlow₁ hx₁, hmem]

theorem heapExpand_failed {minSize : ℕ} (heq : heapExpand pager s minSize = (0, s'))
    (hend : s.heapEnd < 2 ^ 64) (hpos : 0 < s.heapEnd) (hlow : 64 * 4096 ≤ x) (hx : x < s.heapEnd) :
    s'.mem x = s.mem x := by
  unfold heapExpand at heq
  split_ifs at heq with hmany
  · obtain ⟨-, rfl⟩ := Prod.mk.inj heq
    rfl
  · have hpages : pagesNeeded minSize * 4096 ≤ 64 * 4096 :=
      Nat.mul_le_mul_right _ (Nat.not_lt.mp hmany)
    dsimp only at heq
    cases hg : growLoop pager (pagesNeeded minSize) [] s with
    | mk ok rest =>
      obtain ⟨allocated, s₁⟩ := rest
      have hmem := growLoop_mem pager _ hg hend (Nat.le_trans hpages hlow) (.inl hx)
      rw [hg] at heq
      cases ok with
      | false =>
        obtain ⟨-, rfl⟩ := Prod.mk.inj heq
        exact hmem
      | true =>
        obtain ⟨h0, -⟩ := Prod.mk.inj heq
        omega

end Expand

theorem copyLoop_inside (dst src j n i : ℕ) (m : ByteMem) (hdst : dst + i + n < 2 ^ 64)
    (hsrc : src + i + n < 2 ^ 64) (hapart : dst + i + n ≤ src ∨ src + i + n ≤ dst) (hj : j < n) :
    copyLoop dst src n i m (dst + i + j) = m (src + i + j) := by
  induction n generalizing i j m with
  | zero => omega
  | succ n ih =>
    rw [copyLoop, wrap_eq (by omega), wrap_eq (by omega)]
    cases j with
    | zero =>
      rw [copyLoop_outside n (i + 1) _ (by omega) (by omega), storeBytes, if_pos (by omega)]
      simp
    | succ j =>
      have hrest := ih j (i + 1) (storeBytes m (dst + i) (m (src + i)).toNat 1) (by omega)
        (by omega) (by omega) (by omega)
      rw [show dst + i + (j + 1) = dst + (i + 1) + j by omega, hrest,
        storeBytes_of_outside (by omega), show src + i + (j + 1) = src + (i + 1) + j by omega]

end SeedOS.Kheap
