import SeedOS.Kheap.Calls

namespace SeedOS.Kheap

open Foundation

variable {W : Type} {s s' s₁ : Heap W} {blocks blocks' l₁ l₂ old : List Block} {fl fl₁ : List ℕ}
  {b c : Block}

section Kfree

theorem blockSetFree_same (s : Heap W) (a : ℕ) : SameGlobals s (s.blockSetFree a) :=
  store_same s _ _

/-- The blocks `old` become one free block of `n` bytes at `a`, whose header holds its size. -/
theorem HeapInv.release (h : HeapInv s (l₁ ++ old ++ l₂) fl) {a n : ℕ} (hsame : SameGlobals s s₁)
    (htiles : ∀ m m', Tiles Block.addr Block.size m old m' → m = a ∧ m' = a + n)
    (hlinks : FreeList s₁ fl₁) (hfl : ∀ d, d ∈ fl₁ ↔ d ∈ fl ∧ ∀ b ∈ old, b.addr ≠ d)
    (hhdr : s₁.load a = n) (hkeep : ∀ c ∈ l₁ ++ l₂, s₁.load c.addr = s.load c.addr)
    (h32 : 32 ≤ n) (h16 : n % 16 = 0) :
    HeapInv (freeListInsert (s₁.blockSetFree a) a) (l₁ ++ [⟨a, n, true⟩] ++ l₂) (a :: fl₁) := by
  have hend := h.bound
  have hstart := h.start
  obtain ⟨m', hl, ht₂⟩ := tiles_append.mp h.tiles
  obtain ⟨m, ht₁, hold⟩ := tiles_append.mp hl
  obtain ⟨hm, rfl⟩ := htiles m m' hold
  subst hm
  have hlow := ht₁.le
  have hhigh := ht₂.le
  have hbeside : ∀ c ∈ l₁ ++ l₂, c.addr + c.size ≤ m ∨ m + n ≤ c.addr := by
    intro c hc
    rcases List.mem_append.mp hc with hc | hc
    · exact .inl (ht₁.bounds hc).2
    · exact .inr (ht₂.bounds hc).1
  have hrest : ∀ d ∈ fl₁, ∃ c ∈ l₁ ++ l₂, c.free = true ∧ c.addr = d := by
    intro d hd
    obtain ⟨hd, hne⟩ := (hfl d).mp hd
    obtain ⟨c, hc, hf, rfl⟩ := (h.exact d).mp hd
    refine ⟨c, ?_, hf, rfl⟩
    rcases List.mem_append.mp hc with hc | hc
    · rcases List.mem_append.mp hc with hc | hc
      · exact List.mem_append_left _ hc
      · exact absurd rfl (hne c hc)
    · exact List.mem_append_right _ hc
  have hother : ∀ d ∈ fl₁, d + 32 ≤ m ∨ m + n ≤ d := by
    intro d hd
    obtain ⟨c, hc, hf, rfl⟩ := hrest d hd
    have hroom := h.room c (HeapInv.rest_mem hc) hf
    have := hbeside c hc
    omega
  have hset : s₁.blockSetFree m = s₁.store m (n + 1) := by
    rw [Heap.blockSetFree, hhdr, or_blockFree (by omega)]
  rw [hset]
  obtain ⟨hlinks₂, hload₂, hmem₂⟩ := hlinks.insertBlock (v := n + 1)
    (fun d hd ↦ by have := hother d hd; omega) (show m ≠ 0 by omega) (by omega) (by omega)
  have hglobals := (hsame.trans (store_same s₁ m (n + 1))).trans (freeListInsert_same _ m)
  refine h.replace hglobals.heapStart hglobals.heapEnd (fun k k' ht ↦ ?_) ?_ ?_ (fun c hc ↦ ?_)
    (fun c hc ↦ ?_) hlinks₂ fun d ↦ ?_
  · obtain ⟨rfl, rfl⟩ := htiles k k' ht
    exact ⟨rfl, rfl⟩
  · rw [List.forall_mem_singleton]
    dsimp only
    omega
  · exact List.forall_mem_singleton.mpr fun _ ↦ h32
  · obtain rfl := List.mem_singleton.mp hc
    rw [Block.header, if_pos rfl]
    exact hload₂
  · have hb := hbeside c hc
    have hc' : c ∈ l₁ ++ old ++ l₂ := HeapInv.rest_mem hc
    have hsc := h.size c hc'
    rw [← hkeep c hc]
    exact load_congr fun x hx hx' ↦ hmem₂ x (by omega) fun d hd ↦
      h.header_outside hc' hx hx' d ((hfl d).mp hd).1
  · rw [List.mem_cons, hfl, or_comm, eq_comm]
    simp

theorem HeapInv.freed (h : HeapInv s (l₁ ++ [b] ++ l₂) fl) (hu : b.free = false)
    (h32 : 32 ≤ b.size) :
    HeapInv (freeListInsert (s.blockSetFree b.addr) b.addr) (l₁ ++ [⟨b.addr, b.size, true⟩] ++ l₂)
      (b.addr :: fl) := by
  have hb : b ∈ l₁ ++ [b] ++ l₂ := by simp
  have hsize := h.size b hb
  refine h.release ⟨rfl, rfl, rfl, rfl⟩ ?_ h.links (fun d ↦ ?_) ?_ (fun _ _ ↦ rfl) h32 (by omega)
  · rintro k k' ⟨hk, hk'⟩
    have hk' : k + b.size = k' := hk'
    omega
  · refine ⟨fun hd ↦ ⟨hd, List.forall_mem_singleton.mpr ?_⟩, And.left⟩
    rintro rfl
    exact h.used_not_mem hb hu hd
  · rw [h.header b hb, Block.header, hu]
    rfl

theorem HeapInv.merged (h : HeapInv s (l₁ ++ [b, c] ++ l₂) fl) (hu : b.free = false)
    (hf : c.free = true) (hca : c.addr = b.addr + b.size) {s₁ : Heap W}
    (hs₁ : s₁ = (freeListRemove s c.addr).store b.addr (b.size + c.size)) :
    HeapInv (freeListInsert (s₁.blockSetFree b.addr) b.addr)
        (l₁ ++ [⟨b.addr, b.size + c.size, true⟩] ++ l₂) (b.addr :: fl.erase c.addr) ∧
      SameGlobals s (freeListInsert (s₁.blockSetFree b.addr) b.addr) := by
  have hb : b ∈ l₁ ++ [b, c] ++ l₂ := by simp
  have hc : c ∈ l₁ ++ [b, c] ++ l₂ := by simp
  have hbounds := h.bounds hb
  have hboundsc := h.bounds hc
  have hsize := h.size b hb
  have hsc := h.size c hc
  have hroom := h.room c hc hf
  obtain ⟨hlinks, hload, hother⟩ := h.removed hc hf
  have hsame₀ := freeListRemove_same s c.addr
  generalize freeListRemove s c.addr = s₀ at *
  have hsame : SameGlobals s s₁ := hs₁ ▸ hsame₀.trans (store_same s₀ _ _)
  have hmem : ∀ x, x < b.addr ∨ b.addr + 8 ≤ x → s₁.mem x = s₀.mem x :=
    fun x hx ↦ by rw [hs₁]; exact store_mem_of_outside hx
  refine ⟨h.release hsame ?_ ?_ (fun d ↦ ?_) ?_ (fun e he ↦ ?_) (by omega) (by omega),
    (hsame.trans (blockSetFree_same s₁ b.addr)).trans (freeListInsert_same _ b.addr)⟩
  · rintro k k' ⟨hk, hk', hk''⟩
    have hk'' : k + b.size + c.size = k' := hk''
    omega
  · refine hlinks.congr (by rw [hs₁]; rfl) fun d hd x hx hx' ↦ hmem x ?_
    obtain ⟨e, he, hef, rfl⟩ := (h.exact d).mp (List.mem_of_mem_erase hd)
    have hapart := h.apart he hb fun hc ↦ by simp [hc, hu] at hef
    have hroom := h.room e he hef
    omega
  · rw [h.mem_erase_iff]
    refine ⟨fun hd ↦ ⟨hd.1, List.forall_mem_cons.mpr ⟨?_, hd.2⟩⟩,
      fun hd ↦ ⟨hd.1, (List.forall_mem_cons.mp hd.2).2⟩⟩
    rintro rfl
    exact h.used_not_mem hb hu hd.1
  · rw [hs₁, load_store_self (by omega)]
  · have hapart := h.beside (b := b) (by simp) he
    have he' : e ∈ l₁ ++ [b, c] ++ l₂ := HeapInv.rest_mem he
    have hse := h.size e he'
    rw [← hload e he']
    exact load_congr fun x hx hx' ↦ hmem x (by omega)

/-- A used block is freed, and merged with the next one if that is free. -/
inductive Releases (blocks : List Block) (b : Block) : List Block → Prop
  | alone {l₁ l₂ : List Block} : blocks = l₁ ++ [b] ++ l₂ →
    (∀ c ∈ blocks, c.addr = b.addr + b.size → c.free = false) →
    Releases blocks b (l₁ ++ [⟨b.addr, b.size, true⟩] ++ l₂)
  | merged {l₁ l₂ : List Block} {c : Block} : blocks = l₁ ++ [b, c] ++ l₂ →
    c.free = true → c.addr = b.addr + b.size →
    Releases blocks b (l₁ ++ [⟨b.addr, b.size + c.size, true⟩] ++ l₂)

structure TakenBack (s s' : Heap W) (n : ℕ) : Prop where
  heapStart : s'.heapStart = s.heapStart
  heapEnd : s'.heapEnd = s.heapEnd
  totalAllocated : s'.totalAllocated = sub64 s.totalAllocated (sub64 n headerSize)
  totalFree : s'.totalFree = wrap (s.totalFree + sub64 n headerSize)

theorem uncount_takenBack (s : Heap W) (n : ℕ) : TakenBack s (uncount s n) n :=
  ⟨by rw [uncount], by rw [uncount], by rw [uncount], by rw [uncount]⟩

theorem TakenBack.trans_same {n : ℕ} (h : TakenBack s s₁ n) (h' : SameGlobals s₁ s') :
    TakenBack s s' n :=
  ⟨h'.heapStart.trans h.heapStart, h'.heapEnd.trans h.heapEnd,
    h'.totalAllocated.trans h.totalAllocated, h'.totalFree.trans h.totalFree⟩

theorem uncount_mem (s : Heap W) (n : ℕ) : (uncount s n).mem = s.mem := by rw [uncount]

theorem uncount_freeList (s : Heap W) (n : ℕ) : (uncount s n).freeList = s.freeList := by
  rw [uncount]

theorem HeapInv.uncounted (h : HeapInv s blocks fl) (n : ℕ) : HeapInv (uncount s n) blocks fl :=
  h.congr (uncount_takenBack s n).heapStart (uncount_takenBack s n).heapEnd (uncount_freeList s n)
    fun _ _ _ _ _ ↦ by rw [uncount_mem]

theorem kfree_live (h : HeapInv s blocks fl) (hb : b ∈ blocks) (hu : b.free = false) :
    kfree s (b.addr + 8) = (.freed,
      let s₁ := uncount s b.size
      let s₂ := if b.addr + b.size < s₁.heapEnd ∧ s₁.blockIsFree (b.addr + b.size) = true then
          (freeListRemove s₁ (b.addr + b.size)).store b.addr
            (wrap (b.size + (freeListRemove s₁ (b.addr + b.size)).blockSize (b.addr + b.size)))
        else s₁
      freeListInsert (s₂.blockSetFree b.addr) b.addr) := by
  have hbounds := h.bounds hb
  have htiles := h.tiles.bounds hb
  have hsize := h.size b hb
  have hblock : dataToBlock (b.addr + 8) = b.addr := by
    rw [dataToBlock, headerSize, sub64_eq (by omega) (by omega)]
    omega
  have hnext : (uncount s b.size).nextBlock b.addr = b.addr + b.size := by
    rw [Heap.nextBlock, (h.uncounted b.size).blockSize_eq hb, wrap_eq (by omega)]
  have hfree := h.blockIsFree_eq hb
  rw [hu] at hfree
  rw [kfree, if_neg (by omega)]
  dsimp only
  rw [hblock, h.blockSize_eq hb, hfree, if_neg (by omega), if_neg (by simp), hnext]

theorem kfree_spec (h : HeapInv s blocks fl) (hb : b ∈ blocks) (hu : b.free = false)
    (h32 : 32 ≤ b.size) :
    ∃ s' blocks' fl', kfree s (b.addr + 8) = (.freed, s') ∧ HeapInv s' blocks' fl' ∧
      Releases blocks b blocks' ∧ TakenBack s s' b.size := by
  have h₁ := h.uncounted b.size
  have htaken := uncount_takenBack s b.size
  obtain ⟨l₁, l₂, hsplit⟩ := List.append_of_mem hb
  rw [kfree_live h hb hu]
  dsimp only
  rw [htaken.heapEnd]
  by_cases hmerge : b.addr + b.size < s.heapEnd ∧
      (uncount s b.size).blockIsFree (b.addr + b.size) = true
  · obtain ⟨hlt, hfree⟩ := hmerge
    rw [if_pos ⟨hlt, hfree⟩]
    -- the next block of the list is the one that is merged
    obtain ⟨m, ht₁, hm, ht₂⟩ := tiles_append.mp (hsplit ▸ h.tiles)
    cases l₂ with
    | nil =>
      have hend : m + b.size = s.heapEnd := ht₂
      omega
    | cons c l₂ =>
      have hca : c.addr = b.addr + b.size := ht₂.1.trans (by rw [hm])
      have hc : c ∈ blocks := by simp [hsplit]
      have hboundsc := h.bounds hc
      rw [← hca, h₁.blockIsFree_eq hc] at hfree
      obtain rfl : blocks = l₁ ++ [b, c] ++ l₂ := by simp [hsplit]
      rw [← hca, h₁.remove_blockSize hc hfree, wrap_eq (by omega)]
      obtain ⟨hinv, hsame⟩ := h₁.merged hu hfree hca rfl
      exact ⟨_, _, _, rfl, hinv, .merged rfl hfree hca, htaken.trans_same hsame⟩
  · rw [if_neg hmerge]
    obtain rfl : blocks = l₁ ++ [b] ++ l₂ := by simp [hsplit]
    refine ⟨_, _, _, rfl, h₁.freed hu h32, .alone rfl fun c hc hca ↦ ?_, htaken.trans_same
      ((blockSetFree_same _ b.addr).trans (freeListInsert_same _ b.addr))⟩
    by_contra hcf
    have hboundsc := h.bounds hc
    have hsc := h.size c hc
    refine hmerge ⟨by omega, ?_⟩
    rw [← hca, h₁.blockIsFree_eq hc]
    exact Bool.eq_true_of_not_eq_false hcf

end Kfree

end SeedOS.Kheap
