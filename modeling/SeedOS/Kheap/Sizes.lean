import SeedOS.Kheap.HeapRuns

namespace SeedOS.Kheap

open Foundation

variable {W : Type} {s s' : Heap W} {blocks : List Block} {fl : List ℕ} {b : Block} {size ptr : ℕ}

/-- The pointer is the payload of a used block that is large enough and lies inside a
well-formed heap. -/
def Honoured (s : Heap W) (ptr size : ℕ) : Prop :=
  ∃ a, ptr = a + 8 ∧ size ≤ s.blockSize a - 8 ∧ s.heapStart ≤ a ∧
    a + s.blockSize a ≤ s.heapEnd ∧ s.blockIsFree a = false ∧
    ∃ blocks fl, HeapInv s blocks fl ∧ a ∈ blocks.map Block.addr

theorem honoured_of_used (h : HeapInv s blocks fl) {a n : ℕ} (hb : ⟨a, n, false⟩ ∈ blocks)
    (hle : size + 8 ≤ n) : Honoured s (a + 8) size := by
  have hbounds := h.tiles.bounds hb
  have hsize := h.blockSize_eq hb
  have hused := h.blockIsFree_eq hb
  have hmem := List.mem_map_of_mem (f := Block.addr) hb
  dsimp only at hbounds hsize hused hmem
  refine ⟨a, rfl, ?_, hbounds.1, ?_, hused, blocks, fl, h, hmem⟩
  · rw [hsize]
    omega
  · rw [hsize]
    exact hbounds.2

theorem Honoured.size_lt (h : Honoured s ptr size) : size + 23 < 2 ^ 64 := by
  obtain ⟨a, _, hsize, _, _, _, blocks, fl, hinv, ha⟩ := h
  obtain ⟨b, hb, rfl⟩ := List.mem_map.mp ha
  have hb16 := hinv.size b hb
  have hbounds := hinv.bounds hb
  rw [hinv.blockSize_eq hb] at hsize
  omega

section Tiny

theorem totalSize_tiny (hsize : size ≤ 8) : totalSize size = 24 := by
  have hw : wrap (headerSize + size) = size + 8 := by
    rw [headerSize, wrap_eq (by omega)]
    omega
  have hal : alignUp (size + 8) = size + 8 + 15 - (size + 8 + 15) % 16 := alignUp_eq (by omega)
  unfold totalSize freeBlockSize
  dsimp only
  rw [hw, hal, if_pos (by omega)]

theorem carve_fst (s : Heap W) (current currentSize total : ℕ) :
    (carve s current currentSize total).1 = blockData current := by
  by_cases h : 40 ≤ sub64 currentSize total
  · rw [carve_of_le h]
    rfl
  · rw [carve_of_lt (Nat.not_le.mp h)]
    rfl

theorem carve_bounds (s : Heap W) (current currentSize total : ℕ) :
    (carve s current currentSize total).2.heapStart = s.heapStart ∧
      (carve s current currentSize total).2.heapEnd = s.heapEnd := by
  by_cases h : 40 ≤ sub64 currentSize total
  · rw [carve_of_le h]
    have hsame := ((store_same s (wrap (current + total)) (sub64 currentSize total ||| blockFree)).trans
      (freeListInsert_same _ (wrap (current + total)))).trans (store_same _ current total)
    have hout := (markUsed_globals _ current total).of_same hsame
    exact ⟨hout.heapStart, hout.heapEnd⟩
  · rw [carve_of_lt (Nat.not_le.mp h)]
    exact ⟨(markUsed_globals s current currentSize).heapStart,
      (markUsed_globals s current currentSize).heapEnd⟩

/-- A split for a request of at most 8 bytes. The remainder starts 24 bytes after the
block, but the header records 16. -/
theorem carve_tiny (s : Heap W) (current : ℕ) {currentSize : ℕ} (h : 40 ≤ sub64 currentSize 24)
    (hlt : current + 24 < 2 ^ 64) :
    (carve s current currentSize 24).2.blockSize current = 16 ∧
      (carve s current currentSize 24).2.freeList = current + 24 := by
  rw [carve_of_le h, wrap_eq hlt]
  generalize s.store (current + 24) (sub64 currentSize 24 ||| blockFree) = s₁
  have hhead : (freeListInsert s₁ (current + 24)).freeList = current + 24 := rfl
  generalize freeListInsert s₁ (current + 24) = s₂ at *
  refine ⟨?_, hhead⟩
  rw [Heap.blockSize, markUsed_load, load_store_self (by omega)]
  decide

theorem not_honoured_of_tiny (current : ℕ) (hlt : current + 24 < 2 ^ 64)
    (hsize : s.blockSize current = 16) (hhead : s.freeList = current + 24) :
    ¬ Honoured s (blockData current) size := by
  rintro ⟨a, hptr, _, _, _, _, blocks, fl, hinv, ha⟩
  obtain ⟨b, hb, rfl⟩ := List.mem_map.mp ha
  have hcur : b.addr = current := by
    rw [blockData, headerSize, wrap_eq (by omega)] at hptr
    omega
  have hbs := hinv.blockSize_eq hb
  rw [hcur, hsize] at hbs
  have hmem := hinv.links.head_mem (by omega)
  obtain ⟨c, hc, _, hca⟩ := (hinv.exact _).mp hmem
  have hcs := hinv.size c hc
  have hcb := hinv.bounds hc
  rcases hinv.tiles.next hb with hend | ⟨d, hd, hda⟩
  · omega
  · have hds := hinv.size d hd
    have hapart := hinv.apart hc hd (by rintro rfl; omega)
    omega

end Tiny

/-- When `kmalloc` honours a request: the size is neither below 9 nor so large that its
rounding wraps, and a new region ends below the top of the address space; or a small
request meets a block that is too small to be split. -/
def Honourable (s : Heap W) (fl : List ℕ) (size : ℕ) : Prop :=
  match firstFit s fl (totalSize size) with
  | some a => 9 ≤ size ∧ size + 23 < 2 ^ 64 ∨ size ≤ 8 ∧ s.blockSize a < 64
  | none => 9 ≤ size ∧ size + 23 < 2 ^ 64 ∧ totalSize size + 4095 < 2 ^ 64 ∧
    s.heapEnd + pagesNeeded (totalSize size) * 4096 < 2 ^ 64

section Paths

theorem fit_honoured_iff (h : HeapInv s blocks fl) (hb : b ∈ blocks) (hf : b.free = true)
    (hle : totalSize size ≤ b.size)
    (heq : carve (freeListRemove s b.addr) b.addr b.size (totalSize size) = (ptr, s')) :
    Honoured s' ptr size ↔ 9 ≤ size ∧ size + 23 < 2 ^ 64 ∨ size ≤ 8 ∧ b.size < 64 := by
  have hbounds := h.bounds hb
  have hroom := h.room b hb hf
  constructor
  · intro hon
    have hlt := hon.size_lt
    by_cases hlo : 9 ≤ size
    · exact .inl ⟨hlo, hlt⟩
    · refine .inr ⟨by omega, ?_⟩
      by_contra hbig
      rw [totalSize_tiny (by omega)] at heq
      have hsub : 40 ≤ sub64 b.size 24 := by
        rw [sub64_eq (by omega) (by omega)]
        omega
      obtain ⟨hsize, hhead⟩ := carve_tiny (freeListRemove s b.addr) b.addr hsub (by omega)
      have hfst := carve_fst (freeListRemove s b.addr) b.addr b.size 24
      rw [heq] at hsize hhead hfst
      obtain rfl : ptr = blockData b.addr := hfst
      exact not_honoured_of_tiny b.addr (by omega) hsize hhead hon
  · rintro (⟨hlo, hhi⟩ | ⟨hsmall, hlt⟩)
    · obtain ⟨hreq, _, h32, h16⟩ := totalSize_spec hlo hhi
      obtain ⟨s₁, blocks', fl', n, hcarve, hinv, hcarves, _⟩ := carve_spec h hb hf hle h32 h16
      rw [hcarve] at heq
      obtain ⟨rfl, rfl⟩ := Prod.mk.inj heq
      have hused : (⟨b.addr, n, false⟩ : Block) ∈ blocks' ∧ totalSize size ≤ n := hcarves.used hle
      exact honoured_of_used hinv hused.1 (by omega)
    · obtain ⟨l₁, l₂, hsplit⟩ := List.append_of_mem hb
      obtain rfl : blocks = l₁ ++ [b] ++ l₂ := by simp [hsplit]
      rw [totalSize_tiny hsmall] at heq
      obtain ⟨s₁, hcarve, hinv, _⟩ := carve_whole h hf (show 24 ≤ b.size by omega) (by omega)
      rw [hcarve] at heq
      obtain ⟨rfl, rfl⟩ := Prod.mk.inj heq
      exact honoured_of_used hinv (by simp) (show size + 8 ≤ b.size by omega)

theorem new_honoured_iff (h : HeapInv s blocks fl) {n : ℕ} {s₁ : Heap W}
    (hn : n = pagesNeeded (totalSize size)) (hpages : n ≤ 64) (hnew : NewRegion s s₁ n)
    (heq : carve (freeListRemove (freeListInsert s₁ s.heapEnd) s.heapEnd) s.heapEnd
      ((freeListRemove (freeListInsert s₁ s.heapEnd) s.heapEnd).blockSize s.heapEnd)
      (totalSize size) = (ptr, s')) :
    Honoured s' ptr size ↔ 9 ≤ size ∧ size + 23 < 2 ^ 64 ∧ totalSize size + 4095 < 2 ^ 64 ∧
      s.heapEnd + n * 4096 < 2 ^ 64 := by
  have hpos : 16 ≤ n := hn ▸ pagesNeeded_pos (totalSize size)
  have hbound := h.bound
  constructor
  · intro hon
    have hlt := hon.size_lt
    have hfst := carve_fst (freeListRemove (freeListInsert s₁ s.heapEnd) s.heapEnd) s.heapEnd
      ((freeListRemove (freeListInsert s₁ s.heapEnd) s.heapEnd).blockSize s.heapEnd) (totalSize size)
    obtain ⟨_, hend⟩ := carve_bounds (freeListRemove (freeListInsert s₁ s.heapEnd) s.heapEnd)
      s.heapEnd ((freeListRemove (freeListInsert s₁ s.heapEnd) s.heapEnd).blockSize s.heapEnd)
      (totalSize size)
    rw [heq, (freeListRemove_same _ _).heapEnd, (freeListInsert_same _ _).heapEnd,
      hnew.heapEnd] at hend
    rw [heq] at hfst
    dsimp only at hend hfst
    -- the pointer lies in the new region, so the region does not wrap
    have hregion : s.heapEnd + n * 4096 < 2 ^ 64 ∧ size ≤ n * 4096 := by
      obtain ⟨a, hptr, hsize, _, hin, _⟩ := hon
      rw [hfst, blockData, headerSize, wrap] at hptr
      omega
    obtain ⟨hregion, hsmall⟩ := hregion
    have hlo : 9 ≤ size := by
      by_contra htiny
      rw [totalSize_tiny (by omega)] at heq
      have hinv := h.extend (by omega) hnew hregion
      have hbs := hinv.remove_blockSize (b := ⟨s.heapEnd, n * 4096, true⟩) (by simp) rfl
      dsimp only at hbs
      rw [hbs] at heq
      have hsub : 40 ≤ sub64 (n * 4096) 24 := by
        rw [sub64_eq (by omega) (by omega)]
        omega
      obtain ⟨hsize, hhead⟩ := carve_tiny
        (freeListRemove (freeListInsert s₁ s.heapEnd) s.heapEnd) s.heapEnd hsub (by omega)
      rw [heq] at hsize hhead
      rw [hfst] at hon
      exact not_honoured_of_tiny s.heapEnd (by omega) hsize hhead hon
    obtain ⟨_, htotal, _, _⟩ := totalSize_spec hlo hlt
    exact ⟨hlo, hlt, by omega, hregion⟩
  · rintro ⟨hlo, hhi, htotal, hregion⟩
    obtain ⟨hreq, _, h32, h16⟩ := totalSize_spec hlo hhi
    have hle : totalSize size ≤ n * 4096 := hn ▸ pagesNeeded_le htotal
    obtain ⟨s₂, blocks', fl', k, hcarve, hinv, hcarves, _⟩ :=
      carve_new h (by omega) hnew hregion hle h32 h16
    rw [hcarve] at heq
    obtain ⟨rfl, rfl⟩ := Prod.mk.inj heq
    have hused : (⟨s.heapEnd, k, false⟩ : Block) ∈ blocks' ∧ totalSize size ≤ k := hcarves.used hle
    exact honoured_of_used hinv hused.1 (by omega)

end Paths

/-- `kmalloc` on a well-formed heap honours a request exactly in the cases above. -/
theorem kmalloc_honours_iff (pager : Pager W) (h : HeapInv s blocks fl)
    (heq : kmalloc pager s size = some (ptr, s')) (hptr : ptr ≠ 0) :
    Honoured s' ptr size ↔ Honourable s fl size := by
  have hsize : size ≠ 0 := by
    rintro rfl
    rw [kmalloc, if_pos rfl] at heq
    exact hptr (Prod.mk.inj (Option.some.inj heq)).1.symm
  unfold Honourable
  rcases kmalloc_cases pager h hsize with ⟨b, hb, hf, hle, hfit, hk⟩ | ⟨hfit, r, s₁, hexp, hk⟩
  · rw [hk] at heq
    rw [hfit]
    dsimp only
    rw [h.blockSize_eq hb]
    exact fit_honoured_iff h hb hf hle (Option.some.inj heq)
  · rw [hk] at heq
    rw [hfit]
    dsimp only
    rcases heapExpand_cases pager h.bound hexp with ⟨rfl, _⟩ | ⟨rfl, hpages, s₂, hnew, rfl⟩
    · rw [if_pos rfl] at heq
      exact absurd (Prod.mk.inj (Option.some.inj heq)).1.symm hptr
    · have hlow : s.heapStart ≤ s.heapEnd := h.tiles.le
      have hstart := h.start
      rw [if_neg (by omega)] at heq
      exact new_honoured_iff h rfl hpages hnew (Option.some.inj heq)

theorem firstHeap_inv : HeapInv firstHeap [⟨heapBase, 65536, true⟩] [heapBase] :=
  (kheapInit_spec plentiful firstHeap_init).1

/-- One byte from a fresh heap: the remainder does not start where the block ends. -/
theorem one_byte_breaks_tiling : ¬ ∀ (s s' : Heap Unit) (blocks : List Block) (fl : List ℕ)
    (size ptr : ℕ), HeapInv s blocks fl → size < 2 ^ 64 →
    kmalloc plentiful s size = some (ptr, s') → ptr ≠ 0 → Honoured s' ptr size := by
  intro h
  have hfacts : (kmalloc plentiful firstHeap 1).any fun r ↦
      r.1 = heapBase + 8 ∧ r.2.blockSize heapBase = 16 ∧ r.2.freeList = heapBase + 24 := by
    decide +kernel
  obtain ⟨⟨ptr, s'⟩, hk, hfacts⟩ := (Option.any_eq_true ..).mp hfacts
  rw [decide_eq_true_eq] at hfacts
  obtain ⟨hptr, hsize, hhead⟩ := hfacts
  dsimp only at hptr hsize hhead
  have hon := h firstHeap s' _ _ 1 ptr firstHeap_inv (by decide) hk (by rw [hptr]; decide)
  rw [hptr] at hon
  exact not_honoured_of_tiny heapBase (by decide) hsize hhead hon

theorem kmalloc_honours_iff_first :
    ∃ ptr s', kmalloc plentiful firstHeap 24 = some (ptr, s') ∧ ptr ≠ 0 ∧
      (Honoured s' ptr 24 ↔ Honourable firstHeap [heapBase] 24) ∧
      Honourable firstHeap [heapBase] 24 := by
  have hfacts : (kmalloc plentiful firstHeap 24).any fun r ↦ r.1 ≠ 0 := by decide +kernel
  obtain ⟨⟨ptr, s'⟩, hk, hfacts⟩ := (Option.any_eq_true ..).mp hfacts
  rw [decide_eq_true_eq] at hfacts
  have hfit : firstFit firstHeap [heapBase] (totalSize 24) = some heapBase := by decide +kernel
  refine ⟨ptr, s', hk, hfacts, kmalloc_honours_iff plentiful firstHeap_inv hk hfacts, ?_⟩
  rw [Honourable, hfit]
  exact .inl ⟨by decide, by decide⟩

end SeedOS.Kheap
