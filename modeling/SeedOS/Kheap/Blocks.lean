import SeedOS.Foundation.Tiling
import SeedOS.Kheap.FreeList

namespace SeedOS.Kheap

open Foundation

structure Block where
  addr : ℕ
  size : ℕ
  free : Bool
  deriving DecidableEq

def Block.header (b : Block) : ℕ := if b.free then b.size + 1 else b.size

/-- The heap represents a list of blocks, in the order of their addresses, and a
list of free blocks, in the order of their links. A free block has room for its links. -/
structure HeapInv {W : Type} (s : Heap W) (blocks : List Block) (fl : List ℕ) : Prop where
  start : 0 < s.heapStart
  bound : s.heapEnd < 2 ^ 64
  tiles : Tiles Block.addr Block.size s.heapStart blocks s.heapEnd
  size : ∀ b ∈ blocks, 16 ≤ b.size ∧ b.size % 16 = 0
  room : ∀ b ∈ blocks, b.free = true → 32 ≤ b.size
  header : ∀ b ∈ blocks, s.load b.addr = b.header
  links : FreeList s fl
  exact : ∀ a, a ∈ fl ↔ ∃ b ∈ blocks, b.free = true ∧ b.addr = a

variable {W : Type} {s s' : Heap W} {blocks l₁ l₂ old new : List Block} {fl fl' : List ℕ}
  {b c : Block}

namespace HeapInv

section

variable (h : HeapInv s blocks fl) (hb : b ∈ blocks)
include h hb

theorem bounds : 0 < b.addr ∧ b.addr + b.size ≤ s.heapEnd ∧ s.heapEnd < 2 ^ 64 := by
  have hbounds := h.tiles.bounds hb
  have hstart := h.start
  have hend := h.bound
  omega

theorem apart (hc : c ∈ blocks) (hne : b ≠ c) :
    b.addr + b.size ≤ c.addr ∨ c.addr + c.size ≤ b.addr := h.tiles.apart hb hc hne

theorem eq_of_addr (hc : c ∈ blocks) (hbc : b.addr = c.addr) : b = c := by
  by_contra hne
  have hapart := h.apart hb hc hne
  have hsb := h.size b hb
  have hsc := h.size c hc
  omega

theorem blockSize_eq : s.blockSize b.addr = b.size := by
  have hsize := h.size b hb
  have hlt := load_lt s b.addr
  rw [Heap.blockSize, and_sizeMask hlt, h.header b hb]
  unfold Block.header
  split_ifs <;> omega

theorem blockIsFree_eq : s.blockIsFree b.addr = b.free := by
  have hsize := h.size b hb
  rw [Heap.blockIsFree, h.header b hb, Block.header, blockFree, Nat.and_one_is_mod]
  cases b.free with
  | false =>
    rw [if_neg (by simp), show b.size % 2 = 0 by omega]
    rfl
  | true =>
    rw [if_pos rfl, show (b.size + 1) % 2 = 1 by omega]
    rfl

theorem mem_fl (hf : b.free = true) : b.addr ∈ fl := (h.exact b.addr).mpr ⟨b, hb, hf, rfl⟩

theorem header_outside {x : ℕ} (hx : b.addr ≤ x)
    (hx' : x < b.addr + 8) : ∀ d ∈ fl, x < d + 8 ∨ d + 24 ≤ x := by
  intro d hd
  obtain ⟨c, hc, hf, rfl⟩ := (h.exact d).mp hd
  by_cases hbc : b = c
  · subst hbc
    omega
  · have hapart := h.apart hb hc hbc
    have hsize := h.room c hc hf
    have hsize' := h.size b hb
    omega

end

theorem congr (h : HeapInv s blocks fl) (hstart : s'.heapStart = s.heapStart)
    (hend : s'.heapEnd = s.heapEnd) (hhead : s'.freeList = s.freeList)
    (hmem : ∀ b ∈ blocks, ∀ x, b.addr ≤ x → x < b.addr + (if b.free then 24 else 8) →
      s'.mem x = s.mem x) : HeapInv s' blocks fl := by
  refine ⟨hstart ▸ h.start, hend ▸ h.bound, hstart ▸ hend ▸ h.tiles, h.size, h.room, fun b hb ↦ ?_,
    h.links.congr hhead fun c hc x hx hx' ↦ ?_, h.exact⟩
  · rw [← h.header b hb]
    exact load_congr fun x hx hx' ↦ hmem b hb x hx (by split_ifs <;> omega)
  · obtain ⟨b, hb, hf, rfl⟩ := (h.exact c).mp hc
    exact hmem b hb x (by omega) (by rw [hf, if_pos rfl]; omega)

theorem removed (h : HeapInv s blocks fl) (hb : b ∈ blocks) (hf : b.free = true) :
    FreeList (freeListRemove s b.addr) (fl.erase b.addr) ∧
      (∀ c ∈ blocks, (freeListRemove s b.addr).load c.addr = s.load c.addr) ∧
      ∀ d ∈ fl.erase b.addr, d + 32 ≤ b.addr ∨ b.addr + b.size ≤ d := by
  obtain ⟨hlinks, hmem⟩ := h.links.remove (h.mem_fl hb hf)
  refine ⟨hlinks, fun c hc ↦ load_congr fun x hx hx' ↦ hmem x (h.header_outside hc hx hx'),
    fun d hd ↦ ?_⟩
  obtain ⟨hne, hd⟩ := (List.Nodup.mem_erase_iff h.links.nodup).mp hd
  obtain ⟨c, hc, hcf, rfl⟩ := (h.exact d).mp hd
  have hapart := h.apart hc hb fun hcb ↦ hne (by rw [hcb])
  have hsc := h.room c hc hcf
  omega

theorem mem_erase_iff (h : HeapInv s blocks fl) {a : ℕ} :
    a ∈ fl.erase b.addr ↔ a ∈ fl ∧ ∀ c ∈ [b], c.addr ≠ a := by
  rw [List.Nodup.mem_erase_iff h.links.nodup, and_comm]
  simp [ne_comm]

theorem used_not_mem (h : HeapInv s blocks fl) (hb : b ∈ blocks) (hu : b.free = false) :
    b.addr ∉ fl := by
  intro hd
  obtain ⟨c, hc, hf, hcb⟩ := (h.exact b.addr).mp hd
  rw [h.eq_of_addr hc hb hcb, hu] at hf
  exact Bool.false_ne_true hf

theorem beside (h : HeapInv s (l₁ ++ old ++ l₂) fl) (hb : b ∈ old) (hc : c ∈ l₁ ++ l₂) :
    b.addr + b.size ≤ c.addr ∨ c.addr + c.size ≤ b.addr := by
  have hpair := h.tiles.pairwise
  rw [List.append_assoc, List.pairwise_append, List.pairwise_append] at hpair
  obtain ⟨_, ⟨_, _, hafter⟩, hbefore⟩ := hpair
  rcases List.mem_append.mp hc with hc | hc
  · exact .inr (hbefore c hc b (List.mem_append_left _ hb))
  · exact .inl (hafter b hb c hc)

theorem rest_mem (hc : c ∈ l₁ ++ l₂) : c ∈ l₁ ++ old ++ l₂ := by
  rcases List.mem_append.mp hc with hc | hc
  · simp [hc]
  · simp [hc]

theorem replace (h : HeapInv s (l₁ ++ old ++ l₂) fl) (hstart : s'.heapStart = s.heapStart)
    (hend : s'.heapEnd = s.heapEnd)
    (htiles : ∀ m m', Tiles Block.addr Block.size m old m' → Tiles Block.addr Block.size m new m')
    (hsize : ∀ b ∈ new, 16 ≤ b.size ∧ b.size % 16 = 0)
    (hroom : ∀ b ∈ new, b.free = true → 32 ≤ b.size)
    (hheader : ∀ b ∈ new, s'.load b.addr = b.header)
    (hkeep : ∀ c ∈ l₁ ++ l₂, s'.load c.addr = s.load c.addr) (hlinks : FreeList s' fl')
    (hexact : ∀ a, a ∈ fl' ↔ (a ∈ fl ∧ ∀ b ∈ old, b.addr ≠ a) ∨
      ∃ b ∈ new, b.free = true ∧ b.addr = a) :
    HeapInv s' (l₁ ++ new ++ l₂) fl' := by
  have hmem : ∀ c, c ∈ l₁ ++ new ++ l₂ ↔ c ∈ new ∨ c ∈ l₁ ++ l₂ := fun c ↦ by
    simp only [List.mem_append]
    tauto
  refine ⟨hstart ▸ h.start, hend ▸ h.bound, ?_, fun c hc ↦ ?_, fun c hc hf ↦ ?_, fun c hc ↦ ?_,
    hlinks, fun a ↦ ?_⟩
  · obtain ⟨m', hl, ht₂⟩ := tiles_append.mp h.tiles
    obtain ⟨m, ht₁, hold⟩ := tiles_append.mp hl
    rw [hstart, hend]
    exact tiles_append.mpr ⟨m', tiles_append.mpr ⟨m, ht₁, htiles m m' hold⟩, ht₂⟩
  · rcases (hmem c).mp hc with hc | hc
    · exact hsize c hc
    · exact h.size c (rest_mem hc)
  · rcases (hmem c).mp hc with hc | hc
    · exact hroom c hc hf
    · exact h.room c (rest_mem hc) hf
  · rcases (hmem c).mp hc with hc | hc
    · exact hheader c hc
    · rw [hkeep c hc]
      exact h.header c (rest_mem hc)
  · have hrest : (a ∈ fl ∧ ∀ b ∈ old, b.addr ≠ a) ↔
        ∃ c ∈ l₁ ++ l₂, c.free = true ∧ c.addr = a := by
      constructor
      · rintro ⟨ha, hne⟩
        obtain ⟨c, hc, hf, rfl⟩ := (h.exact a).mp ha
        refine ⟨c, ?_, hf, rfl⟩
        rcases List.mem_append.mp hc with hc | hc
        · rcases List.mem_append.mp hc with hc | hc
          · exact List.mem_append_left _ hc
          · exact absurd rfl (hne c hc)
        · exact List.mem_append_right _ hc
      · rintro ⟨c, hc, hf, rfl⟩
        refine ⟨h.mem_fl (rest_mem hc) hf, fun b hb heq ↦ ?_⟩
        have hapart := h.beside hb hc
        have hsb := h.size b (by simp [hb])
        have hsc := h.size c (rest_mem hc)
        omega
    rw [hexact, hrest]
    constructor
    · rintro (⟨c, hc, hf, ha⟩ | ⟨c, hc, hf, ha⟩)
      · exact ⟨c, (hmem c).mpr (.inr hc), hf, ha⟩
      · exact ⟨c, (hmem c).mpr (.inl hc), hf, ha⟩
    · rintro ⟨c, hc, hf, ha⟩
      rcases (hmem c).mp hc with hc | hc
      · exact .inr ⟨c, hc, hf, ha⟩
      · exact .inl ⟨c, hc, hf, ha⟩

end HeapInv

structure SameGlobals (s s' : Heap W) : Prop where
  heapStart : s'.heapStart = s.heapStart
  heapEnd : s'.heapEnd = s.heapEnd
  totalAllocated : s'.totalAllocated = s.totalAllocated
  totalFree : s'.totalFree = s.totalFree

theorem SameGlobals.trans {s₁ s₂ s₃ : Heap W} (h : SameGlobals s₁ s₂) (h' : SameGlobals s₂ s₃) :
    SameGlobals s₁ s₃ :=
  ⟨h'.heapStart.trans h.heapStart, h'.heapEnd.trans h.heapEnd,
    h'.totalAllocated.trans h.totalAllocated, h'.totalFree.trans h.totalFree⟩

theorem store_same (s : Heap W) (a v : ℕ) : SameGlobals s (s.store a v) := ⟨rfl, rfl, rfl, rfl⟩

theorem freeListInsert_same (s : Heap W) (block : ℕ) : SameGlobals s (freeListInsert s block) := by
  unfold freeListInsert
  dsimp only
  split_ifs <;> exact ⟨rfl, rfl, rfl, rfl⟩

theorem freeListRemove_same (s : Heap W) (block : ℕ) : SameGlobals s (freeListRemove s block) := by
  unfold freeListRemove
  dsimp only
  split_ifs <;> exact ⟨rfl, rfl, rfl, rfl⟩

end SeedOS.Kheap
