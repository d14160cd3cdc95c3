import SeedOS.Kheap.Carve

namespace SeedOS.Kheap

open Foundation

variable {W : Type} {s s' : Heap W} {blocks : List Block} {fl : List ℕ} (pager : Pager W)

structure Grown (s s' : Heap W) : Prop where
  heapStart : s'.heapStart = s.heapStart
  freeList : s'.freeList = s.freeList
  totalAllocated : s'.totalAllocated = s.totalAllocated
  totalFree : s'.totalFree = s.totalFree

theorem Grown.trans {s₁ s₂ s₃ : Heap W} (h : Grown s₁ s₂) (h' : Grown s₂ s₃) : Grown s₁ s₃ :=
  ⟨h'.heapStart.trans h.heapStart, h'.freeList.trans h.freeList,
    h'.totalAllocated.trans h.totalAllocated, h'.totalFree.trans h.totalFree⟩

theorem growPage_spec {res : Option ℕ} (heq : growPage pager s = (res, s')) :
    Grown s s' ∧ (∀ x < s.heapEnd, s'.mem x = s.mem x) ∧
      s'.heapEnd = if res.isSome then wrap (s.heapEnd + pageSize) else s.heapEnd := by
  unfold growPage at heq
  dsimp only at heq
  split_ifs at heq with h₁ h₂
  · obtain ⟨rfl, rfl⟩ := Prod.mk.inj heq
    exact ⟨⟨rfl, rfl, rfl, rfl⟩, fun _ _ ↦ rfl, rfl⟩
  · obtain ⟨rfl, rfl⟩ := Prod.mk.inj heq
    exact ⟨⟨rfl, rfl, rfl, rfl⟩, fun _ _ ↦ rfl, rfl⟩
  · obtain ⟨rfl, rfl⟩ := Prod.mk.inj heq
    exact ⟨⟨rfl, rfl, rfl, rfl⟩, fun x hx ↦ if_neg (by omega), rfl⟩

theorem growLoop_spec {ok : Bool} {allocated allocated' : List ℕ} (n : ℕ)
    (heq : growLoop pager n allocated s = (ok, allocated', s')) :
    Grown s s' ∧ (s.heapEnd + n * 4096 < 2 ^ 64 → ∀ x < s.heapEnd, s'.mem x = s.mem x) ∧
      (ok = true → s'.heapEnd % 2 ^ 64 = (s.heapEnd + n * 4096) % 2 ^ 64) := by
  induction n generalizing s allocated with
  | zero =>
    simp only [growLoop, Prod.mk.injEq] at heq
    obtain ⟨rfl, _, rfl⟩ := heq
    exact ⟨⟨rfl, rfl, rfl, rfl⟩, fun _ _ _ ↦ rfl, fun _ ↦ by rw [Nat.zero_mul, Nat.add_zero]⟩
  | succ n ih =>
    rw [growLoop] at heq
    cases hg : growPage pager s with
    | mk res s₁ =>
      obtain ⟨hgrown, hmem, hend⟩ := growPage_spec pager hg
      rw [hg] at heq
      cases res with
      | none =>
        simp only [Prod.mk.injEq] at heq
        obtain ⟨rfl, _, rfl⟩ := heq
        exact ⟨hgrown, fun _ ↦ hmem, fun hc ↦ absurd hc (by simp)⟩
      | some phys =>
        obtain ⟨hgrown', hmem', hend'⟩ := ih heq
        rw [Option.isSome_some, if_pos rfl, wrap, pageSize] at hend
        refine ⟨hgrown.trans hgrown', fun hlt x hx ↦ ?_, fun hok ↦ ?_⟩
        · rw [hmem' (by omega) x (by omega), hmem x hx]
        · rw [hend' hok, hend]
          omega

theorem growLoop_heapEnd {ok : Bool} {allocated allocated' : List ℕ} {n : ℕ}
    (hs : s.heapEnd < 2 ^ 64) (heq : growLoop pager n allocated s = (ok, allocated', s')) :
    s'.heapEnd < 2 ^ 64 := by
  induction n generalizing s allocated with
  | zero =>
    simp only [growLoop, Prod.mk.injEq] at heq
    obtain ⟨rfl, _, rfl⟩ := heq
    exact hs
  | succ n ih =>
    rw [growLoop] at heq
    cases hg : growPage pager s with
    | mk res s₁ =>
      obtain ⟨_, _, hend⟩ := growPage_spec pager hg
      have hs₁ : s₁.heapEnd < 2 ^ 64 := by
        rw [hend]
        split_ifs
        · exact Nat.mod_lt _ (by decide)
        · exact hs
      rw [hg] at heq
      cases res with
      | none =>
        simp only [Prod.mk.injEq] at heq
        obtain ⟨rfl, _, rfl⟩ := heq
        exact hs₁
      | some phys => exact ih hs₁ heq

/-- The state in which `heap_expand` links the new block of `n` pages. -/
structure NewRegion (s s' : Heap W) (n : ℕ) : Prop where
  heapStart : s'.heapStart = s.heapStart
  heapEnd : s'.heapEnd = (s.heapEnd + n * 4096) % 2 ^ 64
  freeList : s'.freeList = s.freeList
  totalAllocated : s'.totalAllocated = s.totalAllocated
  totalFree : s'.totalFree = wrap (s.totalFree + (n * 4096 - 8))
  header : s'.load s.heapEnd = n * 4096 + 1
  mem : s.heapEnd + n * 4096 < 2 ^ 64 → ∀ x < s.heapEnd, s'.mem x = s.mem x

theorem pagesNeeded_pos (minSize : ℕ) : 16 ≤ pagesNeeded minSize := by
  unfold pagesNeeded heapGrowPages
  dsimp only
  split_ifs <;> omega

theorem pagesNeeded_le {minSize : ℕ} (h : minSize + 4095 < 2 ^ 64) :
    minSize ≤ pagesNeeded minSize * 4096 := by
  unfold pagesNeeded heapGrowPages pageSize
  dsimp only
  rw [wrap_eq (by omega)]
  split_ifs <;> omega

theorem heapExpand_cases {minSize r : ℕ} (hs : s.heapEnd < 2 ^ 64)
    (heq : heapExpand pager s minSize = (r, s')) :
    (r = 0 ∧ Grown s s' ∧ s'.heapEnd = s.heapEnd ∧
      (s.heapEnd + 64 * 4096 < 2 ^ 64 → ∀ x < s.heapEnd, s'.mem x = s.mem x)) ∨
    (r = s.heapEnd ∧ pagesNeeded minSize ≤ 64 ∧
      ∃ s₁, NewRegion s s₁ (pagesNeeded minSize) ∧ s' = freeListInsert s₁ s.heapEnd) := by
  have hpos := pagesNeeded_pos minSize
  unfold heapExpand at heq
  generalize pagesNeeded minSize = n at *
  dsimp only at heq
  split_ifs at heq with hmany
  · obtain ⟨rfl, rfl⟩ := Prod.mk.inj heq
    exact .inl ⟨rfl, ⟨rfl, rfl, rfl, rfl⟩, rfl, fun _ _ _ ↦ rfl⟩
  · cases hg : growLoop pager n [] s with
    | mk ok rest =>
      obtain ⟨allocated, s₁⟩ := rest
      obtain ⟨hgrown, hmem, hend⟩ := growLoop_spec pager n hg
      have hend₁ := growLoop_heapEnd pager hs hg
      rw [hg] at heq
      cases ok with
      | false =>
        obtain ⟨rfl, rfl⟩ := Prod.mk.inj heq
        have hpages : n * 4096 ≤ 64 * 4096 := Nat.mul_le_mul_right _ (Nat.not_lt.mp hmany)
        exact .inl ⟨rfl, ⟨hgrown.heapStart, hgrown.freeList, hgrown.totalAllocated,
          hgrown.totalFree⟩, rfl,
          fun hlt ↦ hmem (Nat.lt_of_le_of_lt (Nat.add_le_add_left hpages _) hlt)⟩
      | true =>
        dsimp only at heq
        have hsize : sub64 (n * 4096) headerSize = n * 4096 - 8 :=
          sub64_eq (by unfold headerSize; omega) (by omega)
        rw [show pageSize = 4096 from rfl, wrap_eq (by omega), hsize,
          or_blockFree (show n * 4096 % 2 = 0 by omega)] at heq
        obtain ⟨tf, htf⟩ : ∃ tf, tf = wrap ((s₁.store s.heapEnd (n * 4096 + 1)).totalFree +
          (n * 4096 - 8)) := ⟨_, rfl⟩
        rw [← htf] at heq
        obtain ⟨s₂, hs₂⟩ : ∃ s₂ : Heap W,
          s₂ = { s₁.store s.heapEnd (n * 4096 + 1) with totalFree := tf } := ⟨_, rfl⟩
        rw [← hs₂] at heq
        obtain ⟨rfl, rfl⟩ := Prod.mk.inj heq
        have hmem₂ : s₂.mem = (s₁.store s.heapEnd (n * 4096 + 1)).mem := by rw [hs₂]
        refine .inr ⟨rfl, by omega, s₂, ⟨?_, ?_, ?_, ?_, ?_, ?_, fun hlt x hx ↦ ?_⟩, rfl⟩
        · rw [hs₂]
          exact hgrown.heapStart
        · have hend₂ : s₂.heapEnd = s₁.heapEnd := by rw [hs₂]; rfl
          rw [hend₂, ← hend rfl, Nat.mod_eq_of_lt hend₁]
        · rw [hs₂]
          exact hgrown.freeList
        · rw [hs₂]
          exact hgrown.totalAllocated
        · have htf₁ : (s₁.store s.heapEnd (n * 4096 + 1)).totalFree = s₁.totalFree := rfl
          rw [htf₁, hgrown.totalFree] at htf
          rw [hs₂, htf]
        · rw [load_of_mem hmem₂, load_store_self (by omega)]
        · rw [hmem₂, store_mem_of_outside (.inl hx), hmem hlt x hx]

theorem HeapInv.extend (h : HeapInv s blocks fl) {n : ℕ} (hn : 1 ≤ n) (hnew : NewRegion s s' n)
    (hlt : s.heapEnd + n * 4096 < 2 ^ 64) :
    HeapInv (freeListInsert s' s.heapEnd) (blocks ++ [⟨s.heapEnd, n * 4096, true⟩])
      (s.heapEnd :: fl) := by
  have hlow : s.heapStart ≤ s.heapEnd := h.tiles.le
  have hstart := h.start
  have hend : s'.heapEnd = s.heapEnd + n * 4096 := by rw [hnew.heapEnd, Nat.mod_eq_of_lt hlt]
  have hmem := hnew.mem hlt
  have hsame := freeListInsert_same s' s.heapEnd
  have hblock : ∀ d ∈ fl, d + 32 ≤ s.heapEnd := by
    intro d hd
    obtain ⟨c, hc, hf, rfl⟩ := (h.exact d).mp hd
    have hsize := h.room c hc hf
    have hbounds := h.bounds hc
    omega
  have hlinks : FreeList s' fl := h.links.congr hnew.freeList fun d hd x hx hx' ↦
    hmem x (by have := hblock d hd; omega)
  have hapart : ∀ d ∈ fl, d + 24 ≤ s.heapEnd ∨ s.heapEnd + 24 ≤ d := fun d hd ↦ by
    have := hblock d hd
    omega
  obtain ⟨hlinks', hmem'⟩ := hlinks.insert hapart (by omega) (by omega)
  have hold : ∀ b ∈ blocks, ∀ x, b.addr ≤ x → x < b.addr + 8 →
      (freeListInsert s' s.heapEnd).mem x = s.mem x := by
    intro b hb x hx hx'
    have hsize := h.size b hb
    have hbounds := h.bounds hb
    rw [hmem' x fun d hd ↦ ?_, hmem x (by omega)]
    rcases List.mem_cons.mp hd with rfl | hd
    · omega
    · exact h.header_outside hb hx hx' d hd
  refine ⟨?_, ?_, ?_, ?_, ?_, ?_, hlinks', fun a ↦ ?_⟩
  · rw [hsame.heapStart, hnew.heapStart]
    exact h.start
  · rw [hsame.heapEnd, hend]
    exact hlt
  · rw [hsame.heapStart, hsame.heapEnd, hnew.heapStart, hend]
    exact tiles_append.mpr ⟨s.heapEnd, h.tiles, rfl, rfl⟩
  · intro b hb
    rcases List.mem_append.mp hb with hb | hb
    · exact h.size b hb
    · obtain rfl := List.mem_singleton.mp hb
      dsimp only
      omega
  · intro b hb hf
    rcases List.mem_append.mp hb with hb | hb
    · exact h.room b hb hf
    · obtain rfl := List.mem_singleton.mp hb
      dsimp only
      omega
  · intro b hb
    rcases List.mem_append.mp hb with hb | hb
    · rw [← h.header b hb]
      exact load_congr (hold b hb)
    · obtain rfl := List.mem_singleton.mp hb
      rw [Block.header, if_pos rfl, ← hnew.header]
      refine load_congr fun x hx hx' ↦ hmem' x fun d hd ↦ ?_
      dsimp only at hx hx'
      rcases List.mem_cons.mp hd with rfl | hd
      · omega
      · have := hblock d hd
        omega
  · rw [List.mem_cons, h.exact]
    constructor
    · rintro (rfl | ⟨b, hb, hf, rfl⟩)
      · exact ⟨⟨s.heapEnd, n * 4096, true⟩, by simp, rfl, rfl⟩
      · exact ⟨b, by simp [hb], hf, rfl⟩
    · rintro ⟨b, hb, hf, rfl⟩
      rcases List.mem_append.mp hb with hb | hb
      · exact .inr ⟨b, hb, hf, rfl⟩
      · obtain rfl := List.mem_singleton.mp hb
        exact .inl rfl

end SeedOS.Kheap
