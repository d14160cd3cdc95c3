import SeedOS.Kheap.Payload
import SeedOS.Kheap.Sizes
import Mathlib.Algebra.BigOperators.Ring.List

namespace SeedOS.Kheap

open Foundation

variable {W : Type} {s s₁ s' : Heap W} {blocks blocks' : List Block} {fl : List ℕ} {b c e : Block}
  {size : ℕ}

structure WellFormed (s : Heap W) (blocks : List Block) (fl : List ℕ) : Prop where
  heap : HeapInv s blocks fl
  start : s.heapStart = heapBase
  large : ∀ b ∈ blocks, 32 ≤ b.size

def SamePayload (s s' : Heap W) (c : Block) : Prop :=
  ∀ x, c.addr + 8 ≤ x → x < c.addr + c.size → s'.mem x = s.mem x

/-- The contract of `krealloc` for the pointer to the used block `b`, if it returns `q`. -/
def Contract (s s' : Heap W) (blocks : List Block) (b : Block) (size q : ℕ) : Prop :=
  ∃ blocks' fl', WellFormed s' blocks' fl' ∧
    (∀ c ∈ blocks, c.free = false → c ≠ b → c ∈ blocks' ∧ SamePayload s s' c) ∧
    if q = 0 then b ∈ blocks' ∧ SamePayload s s' b
    else
      (∃ c ∈ blocks', c.free = false ∧ q = c.addr + 8 ∧ size ≤ c.size - 8) ∧
      (∀ i < min (b.size - 8) size, s'.mem (q + i) = s.mem (b.addr + 8 + i)) ∧
      (q ≠ b.addr + 8 → ∀ c ∈ blocks', c.free = false → c.addr ≠ b.addr)

def CanGrow (pager : Pager W) (s : Heap W) (n : ℕ) : Prop :=
  n ≤ 64 ∧ (growLoop pager n [] s).1 = true

/-- The sizes for which the roundings do not wrap, and a new region ends below the top of the
address space. -/
def Reallocatable (pager : Pager W) (s : Heap W) (fl : List ℕ) (b : Block) (size : ℕ) : Prop :=
  size + 23 < 2 ^ 64 ∧
    (size + 8 ≤ b.size ∨ (firstFit s fl (totalSize size)).isSome ∨
      (CanGrow pager s (pagesNeeded (totalSize size)) →
        totalSize size + 4095 < 2 ^ 64 ∧
          s.heapEnd + pagesNeeded (totalSize size) * 4096 < 2 ^ 64))

section Moved

structure Granted (s s₁ : Heap W) (blocks blocks₁ : List Block) (fl₁ : List ℕ) (e : Block)
    (size : ℕ) : Prop where
  heap : WellFormed s₁ blocks₁ fl₁
  mem : e ∈ blocks₁
  used : e.free = false
  size_le : size + 8 ≤ e.size
  kept : ∀ c ∈ blocks, c.free = false → c ∈ blocks₁ ∧ c.addr ≠ e.addr ∧
    ∀ x, c.addr ≤ x → x < c.addr + c.size → s₁.mem x = s.mem x

theorem Releases.freed_mem (h : Releases blocks b blocks') : ∃ n, ⟨b.addr, n, true⟩ ∈ blocks' := by
  cases h with
  | alone => exact ⟨_, List.mem_append_left _ (List.mem_append_right _ List.mem_cons_self)⟩
  | merged => exact ⟨_, List.mem_append_left _ (List.mem_append_right _ List.mem_cons_self)⟩

variable {blocks₁ : List Block} {fl₁ : List ℕ}

theorem Granted.contract (h : Granted s s₁ blocks blocks₁ fl₁ e size) (hb : b ∈ blocks)
    (hu : b.free = false) {n : ℕ} (hn : n = min (b.size - 8) size) :
    Contract s (kfree { s₁ with mem := copyLoop (e.addr + 8) (b.addr + 8) n 0 s₁.mem }
      (b.addr + 8)).2 blocks b size (e.addr + 8) := by
  obtain ⟨hb₁, hbe, hbmem⟩ := h.kept b hb hu
  have h₁ := h.heap.heap
  have hsizee := h.size_le
  have hboundse := h₁.bounds h.mem
  have hboundsb := h₁.bounds hb₁
  have hlargeb := h.heap.large b hb₁
  have hne : e ≠ b := fun heq ↦ hbe (congrArg Block.addr heq).symm
  have hapart := h₁.apart h.mem hb₁ hne
  obtain ⟨s₂, hs₂⟩ : ∃ s₂, s₂ =
      { s₁ with mem := copyLoop (e.addr + 8) (b.addr + 8) n 0 s₁.mem } := ⟨_, rfl⟩
  have hcopy : ∀ x, x < e.addr + 8 ∨ e.addr + e.size ≤ x → s₂.mem x = s₁.mem x := by
    intro x hx
    rw [hs₂]
    exact copyLoop_outside n 0 _ (by omega) (by omega)
  have h₂ : HeapInv s₂ blocks₁ fl₁ := by
    refine h₁.congr (by rw [hs₂]) (by rw [hs₂]) (by rw [hs₂]) fun c hc x hx hx' ↦ hcopy x ?_
    by_cases hce : c = e
    · rw [hce, h.used, if_neg Bool.false_ne_true] at hx'
      omega
    · have hapart' := h₁.apart hc h.mem hce
      have hlarge := h.heap.large c hc
      split_ifs at hx' <;> omega
  rw [← hs₂]
  obtain ⟨s', blocks', fl', hfree, h', hrel, hback⟩ := kfree_spec h₂ hb₁ hu hlargeb
  have hfree' : (kfree s₂ (b.addr + 8)).2 = s' := by rw [hfree]
  have hmem : ∀ c ∈ blocks₁, c.free = false → c ≠ b → ∀ x, c.addr ≤ x → x < c.addr + c.size →
      s'.mem x = s₂.mem x := by
    intro c hc hcu hcb x hx hx'
    rw [← hfree']
    exact h₂.kfree_used hb₁ hu hlargeb hc hcu hcb hx hx'
  rw [hfree']
  refine ⟨blocks', fl', ⟨h', ?_, hrel.large h.heap.large⟩, fun c hc hcu hcb ↦ ?_, ?_⟩
  · rw [hback.heapStart, hs₂]
    exact h.heap.start
  · obtain ⟨hc₁, hce, hcmem⟩ := h.kept c hc hcu
    have hapartc := h₁.apart hc₁ h.mem fun heq ↦ hce (congrArg Block.addr heq)
    refine ⟨hrel.kept hc₁ hcu hcb, fun x hx hx' ↦ ?_⟩
    rw [hmem c hc₁ hcu hcb x (by omega) hx', hcopy x (by omega), hcmem x (by omega) hx']
  · rw [if_neg (by omega)]
    refine ⟨⟨e, hrel.kept h.mem h.used hne, h.used, rfl, by omega⟩, fun i hi ↦ ?_,
      fun _ c hc hcu hca ↦ ?_⟩
    · have hin := copyLoop_inside (e.addr + 8) (b.addr + 8) i n 0 s₁.mem (by omega) (by omega)
        (by omega) (by omega)
      rw [Nat.add_zero, Nat.add_zero] at hin
      rw [hmem e h.mem h.used hne _ (by omega) (by omega), hs₂]
      dsimp only
      rw [hin, hbmem _ (by omega) (by omega)]
    · obtain ⟨k, hk⟩ := hrel.freed_mem
      have heq := h'.eq_of_addr hc hk hca
      rw [heq] at hcu
      exact Bool.false_ne_true hcu.symm

end Moved

section Kmalloc

variable (pager : Pager W)

theorem heapExpand_eq_zero_iff (minSize : ℕ) (hpos : s.heapEnd ≠ 0) :
    (heapExpand pager s minSize).1 = 0 ↔ ¬CanGrow pager s (pagesNeeded minSize) := by
  unfold heapExpand CanGrow
  by_cases hmany : 64 < pagesNeeded minSize
  · rw [if_pos hmany]
    exact iff_of_true rfl fun h ↦ absurd h.1 (Nat.not_le.mpr hmany)
  · rw [if_neg hmany]
    dsimp only
    cases hg : growLoop pager (pagesNeeded minSize) [] s with
    | mk ok rest =>
      cases ok with
      | false => exact iff_of_true rfl fun h ↦ Bool.false_ne_true h.2
      | true => exact iff_of_false hpos fun h ↦ h ⟨Nat.not_lt.mp hmany, rfl⟩

section

variable (h : WellFormed s blocks fl)
include h

theorem WellFormed.heapEnd_mod : s.heapEnd % 16 = 0 := by
  have hsum := h.heap.tiles.sum_eq
  have hdvd : 16 ∣ (blocks.map Block.size).sum := by
    refine List.dvd_sum fun n hn ↦ ?_
    obtain ⟨b, hb, rfl⟩ := List.mem_map.mp hn
    exact Nat.dvd_of_mod_eq_zero (h.heap.size b hb).2
  rw [h.start, heapBase] at hsum
  omega

theorem WellFormed.carve (he : e ∈ blocks) (hf : e.free = true)
    (hlo : 9 ≤ size) (hhi : size + 23 < 2 ^ 64) (hle : totalSize size ≤ e.size) :
    ∃ s₁ blocks₁ fl₁ n,
      Kheap.carve (freeListRemove s e.addr) e.addr e.size (totalSize size) = (e.addr + 8, s₁) ∧
      Granted s s₁ blocks blocks₁ fl₁ ⟨e.addr, n, false⟩ size := by
  obtain ⟨hreq, -, h32, h16⟩ := totalSize_spec hlo hhi
  obtain ⟨s₁, blocks₁, fl₁, n, hcarve, hinv, hcarves, hout⟩ := carve_spec h.heap he hf hle h32 h16
  obtain ⟨hmem, hn⟩ := hcarves.used hle
  refine ⟨s₁, blocks₁, fl₁, n, hcarve, ⟨hinv, ?_, hcarves.large h.large h32⟩, hmem, rfl,
    by dsimp only; omega, fun c hc hu ↦ ⟨hcarves.kept hf hc hu, fun hca ↦ ?_, fun x hx hx' ↦ ?_⟩⟩
  · rw [hout.heapStart]
    exact h.start
  · have heq := h.heap.eq_of_addr hc he hca
    rw [heq, hf] at hu
    exact Bool.false_ne_true hu.symm
  · have hused := h.heap.carve_used he hf hle hc hu hx hx'
    rwa [hcarve] at hused

theorem WellFormed.extend {n : ℕ} (hn : 16 ≤ n)
    (hnew : NewRegion s s₁ n) (hlt : s.heapEnd + n * 4096 < 2 ^ 64) :
    WellFormed (freeListInsert s₁ s.heapEnd) (blocks ++ [⟨s.heapEnd, n * 4096, true⟩])
      (s.heapEnd :: fl) := by
  refine ⟨h.heap.extend (by omega) hnew hlt, ?_, fun c hc ↦ ?_⟩
  · rw [(freeListInsert_same _ _).heapStart, hnew.heapStart]
    exact h.start
  · rcases List.mem_append.mp hc with hc | hc
    · exact h.large c hc
    · rw [List.mem_singleton.mp hc]
      dsimp only
      omega

theorem WellFormed.extend_mem {n x : ℕ} (hnew : NewRegion s s₁ n)
    (hlt : s.heapEnd + n * 4096 < 2 ^ 64) (hc : c ∈ blocks) (hu : c.free = false)
    (hx : c.addr ≤ x) (hx' : x < c.addr + c.size) :
    (freeListInsert s₁ s.heapEnd).mem x = s.mem x := by
  have hbounds := h.heap.bounds hc
  have hhead := h.heap.links.head_outside (h.heap.used_outside hc hu hx hx')
  rw [freeListInsert_mem (by omega) (by rwa [hnew.freeList]), hnew.mem hlt x (by omega)]

theorem WellFormed.carve_new {n : ℕ} (hn : 16 ≤ n)
    (hnew : NewRegion s s₁ n) (hlt : s.heapEnd + n * 4096 < 2 ^ 64) (hlo : 9 ≤ size)
    (hhi : size + 23 < 2 ^ 64) (hle : totalSize size ≤ n * 4096) :
    ∃ s₂ blocks₂ fl₂ k,
      Kheap.carve (freeListRemove (freeListInsert s₁ s.heapEnd) s.heapEnd) s.heapEnd
        ((freeListRemove (freeListInsert s₁ s.heapEnd) s.heapEnd).blockSize s.heapEnd)
          (totalSize size) = (s.heapEnd + 8, s₂) ∧
      Granted s s₂ blocks blocks₂ fl₂ ⟨s.heapEnd, k, false⟩ size := by
  have hext := h.extend hn hnew hlt
  have hmem : (⟨s.heapEnd, n * 4096, true⟩ : Block) ∈ blocks ++ [⟨s.heapEnd, n * 4096, true⟩] :=
    List.mem_append_right _ List.mem_cons_self
  have hbs := hext.heap.remove_blockSize hmem rfl
  dsimp only at hbs
  rw [hbs]
  obtain ⟨s₂, blocks₂, fl₂, k, hcarve, hgranted⟩ := hext.carve hmem rfl hlo hhi hle
  refine ⟨s₂, blocks₂, fl₂, k, hcarve, hgranted.heap, hgranted.mem, hgranted.used,
    hgranted.size_le, fun c hc hu ↦ ?_⟩
  obtain ⟨hc', hne, hsame⟩ := hgranted.kept c (List.mem_append_left _ hc) hu
  refine ⟨hc', hne, fun x hx hx' ↦ ?_⟩
  rw [hsame x hx hx', h.extend_mem hnew hlt hc hu hx hx']

theorem WellFormed.failed {minSize : ℕ}
    (heq : heapExpand pager s minSize = (0, s')) (hb : b ∈ blocks) :
    Contract s s' blocks b size 0 := by
  have hpos : 0 < s.heapEnd := Nat.lt_of_lt_of_le h.heap.start h.heap.tiles.le
  have hlow : ∀ c ∈ blocks, 64 * 4096 ≤ c.addr := by
    intro c hc
    have hbounds := h.heap.tiles.bounds hc
    rw [h.start, heapBase] at hbounds
    omega
  have hmem : ∀ c ∈ blocks, ∀ x, c.addr ≤ x → x < c.addr + c.size → s'.mem x = s.mem x := by
    intro c hc x hx hx'
    have hbounds := h.heap.bounds hc
    exact heapExpand_failed pager heq h.heap.bound hpos (Nat.le_trans (hlow c hc) hx) (by omega)
  rcases heapExpand_cases pager h.heap.bound heq with ⟨-, hgrown, hend, -⟩ | ⟨h0, -⟩
  · refine ⟨blocks, fl, ⟨h.heap.congr hgrown.heapStart hend hgrown.freeList
      fun c hc x hx hx' ↦ hmem c hc x hx ?_, hgrown.heapStart.trans h.start, h.large⟩,
      fun c hc _ _ ↦ ⟨hc, fun x hx hx' ↦ hmem c hc x (by omega) hx'⟩, ?_⟩
    · have hlarge := h.large c hc
      split_ifs at hx' <;> omega
    · rw [if_pos rfl]
      exact ⟨hb, fun x hx hx' ↦ hmem b hb x (by omega) hx'⟩
  · omega

end

end Kmalloc

section Krealloc

variable (pager : Pager W)

theorem kfree_heapEnd (s : Heap W) (ptr : ℕ) : (kfree s ptr).2.heapEnd = s.heapEnd := by
  unfold kfree
  dsimp only
  split_ifs
  · rfl
  · rfl
  · rfl
  · rw [(freeListInsert_same _ _).heapEnd, (blockSetFree_same _ _).heapEnd,
      (store_same _ _ _).heapEnd, (freeListRemove_same _ _).heapEnd,
      (uncount_takenBack _ _).heapEnd]
  · rw [(freeListInsert_same _ _).heapEnd, (blockSetFree_same _ _).heapEnd,
      (uncount_takenBack _ _).heapEnd]

/-- The rounding in `krealloc`: exact, or so wrapped that every block is large enough. -/
theorem totalNeeded_cases (hlt : size < 2 ^ 64) :
    (size + 23 < 2 ^ 64 ∧ alignUp (wrap (headerSize + size)) = size + 23 - (size + 23) % 16) ∨
      (2 ^ 64 ≤ size + 23 ∧ alignUp (wrap (headerSize + size)) ≤ 16) := by
  by_cases hfit : size + 23 < 2 ^ 64
  · refine .inl ⟨hfit, ?_⟩
    rw [headerSize, wrap_eq (by omega), alignUp_eq (by omega)]
    omega
  · refine .inr ⟨Nat.not_lt.mp hfit, ?_⟩
    have hsmall : wrap (wrap (headerSize + size) + heapAlignment - 1) < 32 := by
      unfold wrap headerSize heapAlignment
      omega
    rw [alignUp, and_sizeMask (Nat.lt_trans hsmall (by decide))]
    omega

theorem krealloc_inPlace (h : WellFormed s blocks fl) (hb : b ∈ blocks) (hsize : size ≠ 0)
    (hle : alignUp (wrap (headerSize + size)) ≤ b.size) :
    krealloc pager s (b.addr + 8) size = some (b.addr + 8, s) := by
  have hbounds := h.heap.bounds hb
  have hlarge := h.large b hb
  have hblock : dataToBlock (b.addr + 8) = b.addr := by
    rw [dataToBlock, headerSize, sub64_eq (by omega) (by omega)]
    omega
  rw [krealloc, if_neg (by omega), if_neg hsize, hblock]
  dsimp only
  rw [h.heap.blockSize_eq hb, if_pos hle]

theorem krealloc_moves (h : WellFormed s blocks fl) (hb : b ∈ blocks) (hsize : size ≠ 0)
    (hlt : b.size < alignUp (wrap (headerSize + size))) {ptr : ℕ}
    (hk : kmalloc pager s size = some (ptr, s₁)) :
    krealloc pager s (b.addr + 8) size = some (if ptr = 0 then (0, s₁) else
      (ptr, (kfree { s₁ with mem := copyLoop ptr (b.addr + 8) (min (b.size - 8) size) 0 s₁.mem }
        (b.addr + 8)).2)) := by
  have hbounds := h.heap.bounds hb
  have hlarge := h.large b hb
  have hblock : dataToBlock (b.addr + 8) = b.addr := by
    rw [dataToBlock, headerSize, sub64_eq (by omega) (by omega)]
    omega
  have hmin : (if b.size - 8 < size then b.size - 8 else size) = min (b.size - 8) size := by
    split_ifs <;> omega
  have hold : sub64 b.size headerSize = b.size - 8 := by
    rw [headerSize, sub64_eq (by omega) (by omega)]
  rw [krealloc, if_neg (by omega), if_neg hsize, hblock]
  dsimp only
  rw [h.heap.blockSize_eq hb, if_neg (Nat.not_le.mpr hlt), hk]
  dsimp only
  rw [hold, hmin]
  split_ifs <;> rfl

theorem Contract.size_lt {q : ℕ} (h : Contract s s' blocks b size q) (hq : q ≠ 0) :
    size + 23 < 2 ^ 64 := by
  obtain ⟨blocks', fl', h', -, hres⟩ := h
  rw [if_neg hq] at hres
  obtain ⟨⟨c, hc, -, -, hle⟩, -⟩ := hres
  have hbounds := h'.heap.bounds hc
  have hmod := h'.heap.size c hc
  omega

theorem Contract.ptr_le {q : ℕ} (h : Contract s s' blocks b size q) (hq : q ≠ 0) :
    q + size ≤ s'.heapEnd := by
  obtain ⟨blocks', fl', h', -, hres⟩ := h
  rw [if_neg hq] at hres
  obtain ⟨⟨c, hc, -, hqc, hle⟩, -⟩ := hres
  have hbounds := h'.heap.bounds hc
  have hmod := h'.heap.size c hc
  omega

theorem contract_inPlace (h : WellFormed s blocks fl) (hb : b ∈ blocks) (hu : b.free = false)
    (hle : size + 8 ≤ b.size) : Contract s s blocks b size (b.addr + 8) := by
  refine ⟨blocks, fl, h, fun c hc _ _ ↦ ⟨hc, fun _ _ _ ↦ rfl⟩, ?_⟩
  rw [if_neg (by omega)]
  exact ⟨⟨b, hb, hu, rfl, by omega⟩, fun _ _ ↦ rfl, fun hne ↦ absurd rfl hne⟩

theorem new_contract_iff (h : WellFormed s blocks fl) (hb : b ∈ blocks) (hu : b.free = false)
    (hlo : 9 ≤ size) (hhi : size + 23 < 2 ^ 64) {n : ℕ} (hn : n = pagesNeeded (totalSize size))
    (hpages : n ≤ 64) (hnew : NewRegion s s₁ n) {ptr : ℕ}
    (heq : carve (freeListRemove (freeListInsert s₁ s.heapEnd) s.heapEnd) s.heapEnd
      ((freeListRemove (freeListInsert s₁ s.heapEnd) s.heapEnd).blockSize s.heapEnd)
      (totalSize size) = (ptr, s')) :
    ptr = s.heapEnd + 8 ∧
    (Contract s (kfree { s' with
        mem := copyLoop ptr (b.addr + 8) (min (b.size - 8) size) 0 s'.mem } (b.addr + 8)).2
      blocks b size ptr ↔ totalSize size + 4095 < 2 ^ 64 ∧ s.heapEnd + n * 4096 < 2 ^ 64) := by
  have hmod := h.heapEnd_mod
  have hbound := h.heap.bound
  have hpos : 16 ≤ n := hn ▸ pagesNeeded_pos (totalSize size)
  have hptr : ptr = s.heapEnd + 8 := by
    have hfst := carve_fst (freeListRemove (freeListInsert s₁ s.heapEnd) s.heapEnd) s.heapEnd
      ((freeListRemove (freeListInsert s₁ s.heapEnd) s.heapEnd).blockSize s.heapEnd)
      (totalSize size)
    rw [heq, blockData, headerSize, wrap_eq (by omega)] at hfst
    exact hfst
  refine ⟨hptr, fun hcontract ↦ ?_, fun hfits ↦ ?_⟩
  · have hle := hcontract.ptr_le (by omega)
    obtain ⟨-, hend⟩ := carve_bounds (freeListRemove (freeListInsert s₁ s.heapEnd) s.heapEnd)
      s.heapEnd ((freeListRemove (freeListInsert s₁ s.heapEnd) s.heapEnd).blockSize s.heapEnd)
      (totalSize size)
    rw [heq, (freeListRemove_same _ _).heapEnd, (freeListInsert_same _ _).heapEnd,
      hnew.heapEnd] at hend
    rw [kfree_heapEnd] at hle
    dsimp only at hle hend
    obtain ⟨-, htotal, -, -⟩ := totalSize_spec hlo hhi
    omega
  · obtain ⟨htotal, hregion⟩ := hfits
    have hle : totalSize size ≤ n * 4096 := hn ▸ pagesNeeded_le htotal
    obtain ⟨s₂, blocks₂, fl₂, k, hcarve, hgranted⟩ := h.carve_new hpos hnew hregion hlo hhi hle
    rw [hcarve] at heq
    obtain ⟨rfl, rfl⟩ := Prod.mk.inj heq
    exact hgranted.contract hb hu rfl

/-- `krealloc` keeps its contract exactly for the sizes above. -/
theorem krealloc_contract_iff (s : Heap W) (blocks : List Block) (fl : List ℕ) (b : Block)
    (size : ℕ) (h : WellFormed s blocks fl) (hb : b ∈ blocks) (hu : b.free = false)
    (hsize : size ≠ 0) (hlt : size < 2 ^ 64) :
    ∃ q s', krealloc pager s (b.addr + 8) size = some (q, s') ∧
      (Contract s s' blocks b size q ↔ Reallocatable pager s fl b size) := by
  have hlarge := h.large b hb
  have hmod := h.heap.size b hb
  rcases totalNeeded_cases hlt with ⟨hhi, hneeded⟩ | ⟨hwraps, hneeded⟩
  · by_cases hfits : size + 8 ≤ b.size
    · refine ⟨_, s, krealloc_inPlace pager h hb hsize (by omega), ?_⟩
      exact iff_of_true (contract_inPlace h hb hu hfits) ⟨hhi, .inl hfits⟩
    · have hlo : 9 ≤ size := by omega
      have hgt : b.size < alignUp (wrap (headerSize + size)) := by omega
      rcases kmalloc_cases pager h.heap hsize with
        ⟨e, he, hf, hle, hfit, hk⟩ | ⟨hfit, r, s₁, hexp, hk⟩
      · obtain ⟨s₁, blocks₁, fl₁, n, hcarve, hgranted⟩ := h.carve he hf hlo hhi hle
        rw [hcarve] at hk
        have hmoves := krealloc_moves pager h hb hsize hgt hk
        refine ⟨_, _, hmoves.trans (congrArg some (if_neg (by omega))), ?_⟩
        refine iff_of_true (hgranted.contract hb hu rfl) ⟨hhi, .inr (.inl ?_)⟩
        rw [hfit, Option.isSome_some]
      · have hend : s.heapEnd ≠ 0 := Nat.ne_of_gt (Nat.lt_of_lt_of_le h.heap.start h.heap.tiles.le)
        have hgrow : r = 0 ↔ ¬CanGrow pager s (pagesNeeded (totalSize size)) := by
          have hiff := heapExpand_eq_zero_iff pager (totalSize size) hend
          rwa [hexp] at hiff
        rcases heapExpand_cases pager h.heap.bound hexp with
          ⟨rfl, -⟩ | ⟨rfl, hpages, s₂, hnew, rfl⟩
        · rw [if_pos rfl] at hk
          have hmoves := krealloc_moves pager h hb hsize hgt hk
          refine ⟨0, s₁, hmoves.trans (congrArg some (if_pos rfl)), ?_⟩
          refine iff_of_true (h.failed pager hexp hb) ⟨hhi, .inr (.inr fun hcan ↦ ?_)⟩
          exact absurd hcan (hgrow.mp rfl)
        · rw [if_neg hend] at hk
          cases hcarve : carve (freeListRemove (freeListInsert s₂ s.heapEnd) s.heapEnd) s.heapEnd
              ((freeListRemove (freeListInsert s₂ s.heapEnd) s.heapEnd).blockSize s.heapEnd)
              (totalSize size) with
          | mk ptr s' =>
            obtain ⟨hptr, hiff⟩ := new_contract_iff h hb hu hlo hhi rfl hpages hnew hcarve
            rw [hcarve] at hk
            have hmoves := krealloc_moves pager h hb hsize hgt hk
            refine ⟨ptr, _, hmoves.trans (congrArg some (if_neg (by omega))), hiff.trans ?_⟩
            constructor
            · exact fun hfits ↦ ⟨hhi, .inr (.inr fun _ ↦ hfits)⟩
            · rintro ⟨-, hin | hsome | hnewfits⟩
              · omega
              · rw [hfit] at hsome
                cases hsome
              · exact hnewfits (not_not.mp fun hcan ↦ hend (hgrow.mpr hcan))
  · refine ⟨_, s, krealloc_inPlace pager h hb hsize (by omega), ?_⟩
    refine iff_of_false (fun hcontract ↦ ?_) fun hre ↦ ?_
    · have := hcontract.size_lt (by omega)
      omega
    · have := hre.1
      omega

theorem first_allocation : ∃ s blocks fl b, kmalloc plentiful firstHeap 24 = some (b.addr + 8, s) ∧
    WellFormed s blocks fl ∧ b ∈ blocks ∧ b.free = false := by
  have hheap : WellFormed firstHeap [⟨heapBase, 65536, true⟩] [heapBase] :=
    ⟨firstHeap_inv, (kheapInit_spec plentiful firstHeap_init).2.1, by decide⟩
  have hle : totalSize 24 ≤ (⟨heapBase, 65536, true⟩ : Block).size := by decide
  obtain ⟨s, blocks, fl, n, hcarve, hgranted⟩ :=
    hheap.carve List.mem_cons_self rfl (by decide) (by decide) hle
  rcases kmalloc_cases plentiful firstHeap_inv (show 24 ≠ 0 by decide) with
    ⟨e, he, -, -, -, hk⟩ | ⟨hfit, -⟩
  · rw [List.mem_singleton.mp he, hcarve] at hk
    exact ⟨s, blocks, fl, ⟨heapBase, n, false⟩, hk, hgranted.heap, hgranted.mem, rfl⟩
  · exact absurd hfit (by decide +kernel)

theorem krealloc_contract_first : ∃ (s : Heap Unit) (blocks : List Block) (fl : List ℕ) (b : Block),
    WellFormed s blocks fl ∧ b ∈ blocks ∧ b.free = false ∧
    ∃ q s', krealloc plentiful s (b.addr + 8) 100 = some (q, s') ∧
      (Contract s s' blocks b 100 q ↔ Reallocatable plentiful s fl b 100) := by
  obtain ⟨s, blocks, fl, b, -, h, hb, hu⟩ := first_allocation
  exact ⟨s, blocks, fl, b, h, hb, hu,
    krealloc_contract_iff plentiful s blocks fl b 100 h hb hu (by decide) (by decide)⟩

/-- The first allocation grown to `2^64 - 8` bytes: the rounded size wraps to 0, and the pointer is
returned as if the block were large enough. -/
theorem huge_size_granted : ∃ (s : Heap Unit) (blocks : List Block) (fl : List ℕ) (b : Block),
    kmalloc plentiful firstHeap 24 = some (b.addr + 8, s) ∧ WellFormed s blocks fl ∧ b ∈ blocks ∧
    b.free = false ∧ krealloc plentiful s (b.addr + 8) (2 ^ 64 - 8) = some (b.addr + 8, s) ∧
    ¬Contract s s blocks b (2 ^ 64 - 8) (b.addr + 8) := by
  obtain ⟨s, blocks, fl, b, hk, h, hb, hu⟩ := first_allocation
  have hlarge := h.large b hb
  refine ⟨s, blocks, fl, b, hk, h, hb, hu, krealloc_inPlace plentiful h hb (by decide) ?_,
    fun hcontract ↦ ?_⟩
  · exact Nat.le_trans (show alignUp (wrap (headerSize + (2 ^ 64 - 8))) ≤ 32 by decide) hlarge
  · exact absurd (hcontract.size_lt (Nat.succ_ne_zero _)) (by decide)

end Krealloc

end SeedOS.Kheap
