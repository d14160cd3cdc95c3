import SeedOS.Kheap.Blocks

namespace SeedOS.Kheap

open Foundation

variable {W : Type} {s s' : Heap W} {l₁ l₂ : List Block} {fl : List ℕ} {b : Block}

theorem sub64_eq {m n : ℕ} (hle : n ≤ m) (hm : m < 2 ^ 64) : sub64 m n = m - n := by
  unfold sub64
  omega

theorem wrap_eq {n : ℕ} (hn : n < 2 ^ 64) : wrap n = n := Nat.mod_eq_of_lt hn

section Size

theorem alignUp_eq {n : ℕ} (hn : n + 15 < 2 ^ 64) : alignUp n = (n + 15) - (n + 15) % 16 := by
  have hw : wrap (n + heapAlignment - 1) = n + 15 := by
    rw [heapAlignment, wrap_eq (by omega)]
    omega
  rw [alignUp, hw, and_sizeMask hn]

theorem totalSize_spec {size : ℕ} (hlo : 9 ≤ size) (hhi : size + 23 < 2 ^ 64) :
    size + 8 ≤ totalSize size ∧ totalSize size ≤ size + 23 ∧ 32 ≤ totalSize size ∧
      totalSize size % 16 = 0 := by
  have hw : wrap (headerSize + size) = size + 8 := by
    rw [headerSize, wrap_eq (by omega)]
    omega
  have hal : alignUp (size + 8) = size + 8 + 15 - (size + 8 + 15) % 16 := alignUp_eq (by omega)
  unfold totalSize freeBlockSize
  dsimp only
  rw [hw, hal]
  split_ifs <;> omega

end Size

section MarkUsed

variable (s) (current n : ℕ)

structure HandedOut (s s' : Heap W) (n : ℕ) : Prop where
  heapStart : s'.heapStart = s.heapStart
  heapEnd : s'.heapEnd = s.heapEnd
  totalAllocated : s'.totalAllocated = wrap (s.totalAllocated + sub64 n headerSize)
  totalFree : s'.totalFree = sub64 s.totalFree (sub64 n headerSize)

theorem markUsed_globals : HandedOut s (markUsed s current n).2 n := ⟨rfl, rfl, rfl, rfl⟩

theorem markUsed_freeList : (markUsed s current n).2.freeList = s.freeList := rfl

theorem markUsed_store : (markUsed s current n).2.mem =
    (s.store current (s.load current &&& usedMask)).mem := by
  obtain ⟨s₁, hs₁⟩ : ∃ s₁ : Heap W,
    s₁ = { s with totalFree := sub64 s.totalFree (sub64 n headerSize) } := ⟨_, rfl⟩
  have hmem : s₁.mem = s.mem := by rw [hs₁]
  have hmark : (markUsed s current n).2.mem = (s₁.blockSetUsed current).mem := by rw [hs₁]; rfl
  rw [hmark, Heap.blockSetUsed, load_of_mem hmem, Heap.store, Heap.store, hmem]

theorem markUsed_load :
    (markUsed s current n).2.load current = s.load current - s.load current % 2 := by
  have hlt := load_lt s current
  rw [load_of_mem (markUsed_store s current n), and_usedMask hlt, load_store_self (by omega)]

theorem markUsed_mem {x : ℕ} (hx : x < current ∨ current + 8 ≤ x) :
    (markUsed s current n).2.mem x = s.mem x := by
  rw [markUsed_store, store_mem_of_outside hx]

theorem markUsed_header (h16 : n % 2 = 0) (hlt : n < 2 ^ 64) :
    (∀ x, x < current ∨ current + 8 ≤ x →
      (markUsed (s.store current n) current n).2.mem x = s.mem x) ∧
    (markUsed (s.store current n) current n).2.load current = n := by
  refine ⟨fun x hx ↦ (markUsed_mem _ current n hx).trans (store_mem_of_outside hx), ?_⟩
  rw [markUsed_load, load_store_self hlt]
  omega

theorem HandedOut.of_same {s s₁ : Heap W} {n : ℕ} (h' : HandedOut s₁ s' n) (h : SameGlobals s s₁) :
    HandedOut s s' n :=
  ⟨h'.heapStart.trans h.heapStart, h'.heapEnd.trans h.heapEnd,
    by rw [h'.totalAllocated, h.totalAllocated], by rw [h'.totalFree, h.totalFree]⟩

end MarkUsed

section Carve

theorem carve_of_lt {current currentSize total : ℕ} (h : sub64 currentSize total < 40) :
    carve s current currentSize total = markUsed s current currentSize :=
  if_neg (Nat.not_le.mpr h)

theorem carve_of_le {current currentSize total : ℕ} (h : 40 ≤ sub64 currentSize total) :
    carve s current currentSize total =
      markUsed ((freeListInsert (s.store (wrap (current + total))
        (sub64 currentSize total ||| blockFree)) (wrap (current + total))).store current total)
        current total :=
  if_pos h

theorem carve_whole (h : HeapInv s (l₁ ++ [b] ++ l₂) fl) (hf : b.free = true) {total : ℕ}
    (hle : total ≤ b.size) (hsmall : b.size - total < 40) :
    ∃ s', carve (freeListRemove s b.addr) b.addr b.size total = (b.addr + 8, s') ∧
      HeapInv s' (l₁ ++ [{ b with free := false }] ++ l₂) (fl.erase b.addr) ∧
      HandedOut s s' b.size := by
  have hb : b ∈ l₁ ++ [b] ++ l₂ := by simp
  have hbounds := h.bounds hb
  have hsize := h.size b hb
  have hroom := h.room b hb hf
  obtain ⟨hlinks, hload, hother⟩ := h.removed hb hf
  have hsame := freeListRemove_same s b.addr
  generalize freeListRemove s b.addr = s₁ at *
  have hdata : blockData b.addr = b.addr + 8 := wrap_eq (by unfold headerSize; omega)
  rw [carve_of_lt (by rw [sub64_eq hle (by omega)]; exact hsmall)]
  have hglobals := (markUsed_globals s₁ b.addr b.size).of_same hsame
  refine ⟨(markUsed s₁ b.addr b.size).2, by rw [← hdata]; rfl, ?_, hglobals⟩
  refine h.replace hglobals.heapStart hglobals.heapEnd (fun m m' ht ↦ ht) (by simpa using hsize)
    (by simp) (fun c hc ↦ ?_) (fun c hc ↦ ?_)
    (hlinks.congr (markUsed_freeList s₁ b.addr b.size) fun d hd x hx hx' ↦ ?_) fun a ↦ ?_
  · obtain rfl := List.mem_singleton.mp hc
    have hhdr := h.header b hb
    rw [Block.header, hf, if_pos rfl] at hhdr
    rw [markUsed_load, hload b hb, hhdr, Block.header]
    simp only [Bool.false_eq_true, if_false]
    omega
  · have hapart := h.beside (b := b) (by simp) hc
    have hc' : c ∈ l₁ ++ [b] ++ l₂ := HeapInv.rest_mem hc
    have hsc := h.size c hc'
    rw [← hload c hc']
    exact load_congr fun x hx hx' ↦ markUsed_mem s₁ b.addr b.size (by omega)
  · have := hother d hd
    exact markUsed_mem s₁ b.addr b.size (by omega)
  · rw [h.mem_erase_iff]
    simp

theorem carve_split (h : HeapInv s (l₁ ++ [b] ++ l₂) fl) (hf : b.free = true) {total : ℕ}
    (hle : total + 40 ≤ b.size) (h32 : 32 ≤ total) (h16 : total % 16 = 0) :
    ∃ s', carve (freeListRemove s b.addr) b.addr b.size total = (b.addr + 8, s') ∧
      HeapInv s' (l₁ ++ [⟨b.addr, total, false⟩, ⟨b.addr + total, b.size - total, true⟩] ++ l₂)
        ((b.addr + total) :: fl.erase b.addr) ∧
      HandedOut s s' total := by
  have hb : b ∈ l₁ ++ [b] ++ l₂ := by simp
  have hbounds := h.bounds hb
  have hsize := h.size b hb
  obtain ⟨hlinks, hload, hother⟩ := h.removed hb hf
  have hsame := freeListRemove_same s b.addr
  generalize freeListRemove s b.addr = s₁ at *
  have hdata : blockData b.addr = b.addr + 8 := wrap_eq (by unfold headerSize; omega)
  rw [carve_of_le (by rw [sub64_eq (by omega) (by omega)]; omega), sub64_eq (by omega) (by omega),
    wrap_eq (by omega), or_blockFree (show (b.size - total) % 2 = 0 by omega)]
  -- the rest of the block goes to the free list, then the block that is handed out gets its header
  obtain ⟨hlinks₂, hrest, hmem₂⟩ := hlinks.insertBlock (v := b.size - total + 1)
    (fun d hd ↦ by have := hother d hd; omega) (show b.addr + total ≠ 0 by omega) (by omega)
    (by omega)
  have hsame₂ := (store_same s₁ (b.addr + total) (b.size - total + 1)).trans
    (freeListInsert_same _ (b.addr + total))
  generalize freeListInsert (s₁.store (b.addr + total) (b.size - total + 1)) (b.addr + total) = s₂
    at *
  have hglobals := (markUsed_globals (s₂.store b.addr total) b.addr total).of_same
    ((hsame.trans hsame₂).trans (store_same s₂ b.addr total))
  obtain ⟨hmem₃, hused⟩ := markUsed_header s₂ b.addr total (by omega) (by omega)
  refine ⟨(markUsed (s₂.store b.addr total) b.addr total).2, by rw [← hdata]; rfl,
    h.replace hglobals.heapStart hglobals.heapEnd (fun m m' ht ↦ ?_) ?_ ?_ ?_ (fun c hc ↦ ?_)
      (hlinks₂.congr rfl fun d hd x hx hx' ↦ hmem₃ x ?_) fun a ↦ ?_, hglobals⟩
  · obtain ⟨hm, hm'⟩ := ht
    have hm' : m + b.size = m' := hm'
    exact ⟨hm, by change b.addr + total = m + total; omega,
      by change m + total + (b.size - total) = m'; omega⟩
  · rw [List.forall_mem_cons, List.forall_mem_singleton]
    dsimp only
    omega
  · rw [List.forall_mem_cons, List.forall_mem_singleton]
    exact ⟨fun hc ↦ absurd hc Bool.false_ne_true, fun _ ↦ by dsimp only; omega⟩
  · rw [List.forall_mem_cons, List.forall_mem_singleton, Block.header, Block.header, if_pos rfl,
      if_neg Bool.false_ne_true, ← hrest]
    refine ⟨hused, load_congr fun x hx hx' ↦ hmem₃ x ?_⟩
    dsimp only at hx
    omega
  · have hapart := h.beside (b := b) (by simp) hc
    have hc' : c ∈ l₁ ++ [b] ++ l₂ := HeapInv.rest_mem hc
    have hsc := h.size c hc'
    rw [← hload c hc']
    refine load_congr fun x hx hx' ↦ (hmem₃ x (by omega)).trans (hmem₂ x (by omega) fun d hd ↦ ?_)
    exact h.header_outside hc' hx hx' d (List.mem_of_mem_erase hd)
  · rcases List.mem_cons.mp hd with rfl | hd
    · omega
    · have := hother d hd
      omega
  · rw [List.mem_cons, h.mem_erase_iff, or_comm, eq_comm]
    simp

end Carve

end SeedOS.Kheap
