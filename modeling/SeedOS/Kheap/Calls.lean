import SeedOS.Kheap.Expand
import Mathlib.Data.List.Perm.Subperm

namespace SeedOS.Kheap

open Foundation

variable {W : Type} {s s' : Heap W} {blocks blocks' l₁ l₂ : List Block} {fl : List ℕ} {b c : Block}

section Kmalloc

def firstFit (s : Heap W) (fl : List ℕ) (total : ℕ) : Option ℕ :=
  fl.find? fun a ↦ total ≤ s.blockSize a

theorem findFit_eq (s : Heap W) (total : ℕ) {p x : ℕ} (fuel : ℕ)
    (h : Linked s.next s.prev 0 p x fl) (hfuel : fl.length < fuel) :
    findFit s total fuel x = some ((firstFit s fl total).getD 0) := by
  induction fuel generalizing fl p x with
  | zero => omega
  | succ fuel ih =>
    cases fl with
    | nil =>
      obtain rfl : x = 0 := h
      rw [findFit, if_pos rfl]
      rfl
    | cons a fl =>
      obtain ⟨rfl, hne, _, hl⟩ := h
      rw [findFit, if_neg hne, firstFit, List.find?_cons]
      by_cases hfit : total ≤ s.blockSize x
      · simp [hfit]
      · simp only [hfit, if_false, decide_false]
        exact ih hl (by simpa using hfuel)

theorem HeapInv.length_lt_fuel (h : HeapInv s blocks fl) : fl.length < s.fuel := by
  have hsub : fl ⊆ blocks.map Block.addr := by
    intro a ha
    obtain ⟨b, hb, _, rfl⟩ := (h.exact a).mp ha
    exact List.mem_map_of_mem hb
  have hlen := (h.links.nodup.subperm hsub).length_le
  have htiles := h.tiles.length_mul_le fun b hb ↦ (h.size b hb).1
  rw [List.length_map] at hlen
  unfold Heap.fuel
  omega

theorem firstFit_some (h : HeapInv s blocks fl) {total a : ℕ}
    (hfit : firstFit s fl total = some a) :
    ∃ b ∈ blocks, b.free = true ∧ b.addr = a ∧ total ≤ b.size := by
  have hle := List.find?_some hfit
  obtain ⟨b, hb, hf, rfl⟩ := (h.exact a).mp (List.mem_of_find?_eq_some hfit)
  rw [decide_eq_true_eq, h.blockSize_eq hb] at hle
  exact ⟨b, hb, hf, rfl, hle⟩

theorem kmalloc_cases (pager : Pager W) (h : HeapInv s blocks fl) {size : ℕ} (hsize : size ≠ 0) :
    (∃ b ∈ blocks, b.free = true ∧ totalSize size ≤ b.size ∧
      firstFit s fl (totalSize size) = some b.addr ∧
      kmalloc pager s size =
        some (carve (freeListRemove s b.addr) b.addr b.size (totalSize size))) ∨
    (firstFit s fl (totalSize size) = none ∧ ∃ r s₁,
      heapExpand pager s (totalSize size) = (r, s₁) ∧
      kmalloc pager s size = some (if r = 0 then (0, s₁) else
        carve (freeListRemove s₁ r) r ((freeListRemove s₁ r).blockSize r) (totalSize size))) := by
  unfold kmalloc
  rw [if_neg hsize, findFit_eq s (totalSize size) s.fuel h.links.linked h.length_lt_fuel]
  cases hfit : firstFit s fl (totalSize size) with
  | some a =>
    obtain ⟨b, hb, hf, rfl, hle⟩ := firstFit_some h hfit
    have hbounds := h.bounds hb
    refine .inl ⟨b, hb, hf, hle, rfl, ?_⟩
    dsimp only [Option.getD_some]
    rw [if_pos (by omega), h.blockSize_eq hb]
  | none =>
    cases hexp : heapExpand pager s (totalSize size) with
    | mk r s₁ =>
      refine .inr ⟨rfl, r, s₁, rfl, ?_⟩
      simp only [Option.getD_none, ne_eq, not_true_eq_false, if_false]
      by_cases hr : r = 0
      · rw [if_pos hr, if_pos hr]
      · rw [if_neg hr, if_neg hr]

inductive Carves (blocks : List Block) (total : ℕ) (b : Block) : List Block → ℕ → Prop
  | whole {l₁ l₂ : List Block} : blocks = l₁ ++ [b] ++ l₂ → b.size < total + 40 →
    Carves blocks total b (l₁ ++ [{ b with free := false }] ++ l₂) b.size
  | split {l₁ l₂ : List Block} : blocks = l₁ ++ [b] ++ l₂ → total + 40 ≤ b.size →
    Carves blocks total b
      (l₁ ++ [⟨b.addr, total, false⟩, ⟨b.addr + total, b.size - total, true⟩] ++ l₂) total

theorem carve_spec (h : HeapInv s blocks fl) (hb : b ∈ blocks) (hf : b.free = true) {total : ℕ}
    (hle : total ≤ b.size) (h32 : 32 ≤ total) (h16 : total % 16 = 0) :
    ∃ s' blocks' fl' n, carve (freeListRemove s b.addr) b.addr b.size total = (b.addr + 8, s') ∧
      HeapInv s' blocks' fl' ∧ Carves blocks total b blocks' n ∧ HandedOut s s' n := by
  obtain ⟨l₁, l₂, hsplit⟩ := List.append_of_mem hb
  obtain rfl : blocks = l₁ ++ [b] ++ l₂ := by simp [hsplit]
  by_cases hrest : total + 40 ≤ b.size
  · obtain ⟨s', heq, hinv, hout⟩ := carve_split h hf hrest h32 h16
    exact ⟨s', _, _, _, heq, hinv, .split rfl hrest, hout⟩
  · obtain ⟨s', heq, hinv, hout⟩ := carve_whole h hf hle (by omega)
    exact ⟨s', _, _, _, heq, hinv, .whole rfl (by omega), hout⟩

theorem HeapInv.remove_blockSize (h : HeapInv s blocks fl) (hb : b ∈ blocks) (hf : b.free = true) :
    (freeListRemove s b.addr).blockSize b.addr = b.size := by
  rw [Heap.blockSize, (h.removed hb hf).2.1 b hb]
  exact h.blockSize_eq hb

/-- The block that `kmalloc` takes: from the free list, or from a new region. -/
inductive Takes (s : Heap W) (blocks : List Block) (fl : List ℕ) (total : ℕ) :
    Heap W → List Block → Block → Prop
  | fit {b : Block} : b ∈ blocks → firstFit s fl total = some b.addr → Takes s blocks fl total s blocks b
  | new {s₁ : Heap W} : firstFit s fl total = none → pagesNeeded total ≤ 64 →
    NewRegion s s₁ (pagesNeeded total) →
    Takes s blocks fl total (freeListInsert s₁ s.heapEnd)
      (blocks ++ [⟨s.heapEnd, pagesNeeded total * 4096, true⟩])
      ⟨s.heapEnd, pagesNeeded total * 4096, true⟩

/-- What a call that returns `ptr` does to the blocks and to the globals. -/
inductive Allocates (s s' : Heap W) (blocks : List Block) (fl : List ℕ) (total ptr : ℕ)
    (blocks' : List Block) : Prop
  | failed : ptr = 0 → blocks' = blocks → SameGlobals s s' → Allocates s s' blocks fl total ptr blocks'
  | granted {mid : Heap W} {base : List Block} {b : Block} {n : ℕ} :
    Takes s blocks fl total mid base b → Carves base total b blocks' n → b ∈ base →
    b.free = true → total ≤ b.size → ptr = b.addr + 8 → HandedOut mid s' n →
    Allocates s s' blocks fl total ptr blocks'

theorem Allocates.trans_same {s₁ : Heap W} {total ptr : ℕ}
    (h : Allocates s s₁ blocks fl total ptr blocks') (hsame : SameGlobals s₁ s') :
    Allocates s s' blocks fl total ptr blocks' := by
  cases h with
  | failed hptr hblocks hs => exact .failed hptr hblocks (hs.trans hsame)
  | granted ht hc hb hf hle hptr hout =>
    exact .granted ht hc hb hf hle hptr ⟨hsame.heapStart.trans hout.heapStart,
      hsame.heapEnd.trans hout.heapEnd, hsame.totalAllocated.trans hout.totalAllocated,
      hsame.totalFree.trans hout.totalFree⟩

theorem carve_new (h : HeapInv s blocks fl) {n total : ℕ} {s₁ : Heap W} (hn : 1 ≤ n)
    (hnew : NewRegion s s₁ n) (hlt : s.heapEnd + n * 4096 < 2 ^ 64) (hle : total ≤ n * 4096)
    (h32 : 32 ≤ total) (h16 : total % 16 = 0) :
    ∃ s' blocks' fl' k, carve (freeListRemove (freeListInsert s₁ s.heapEnd) s.heapEnd) s.heapEnd
        ((freeListRemove (freeListInsert s₁ s.heapEnd) s.heapEnd).blockSize s.heapEnd) total =
          (s.heapEnd + 8, s') ∧
      HeapInv s' blocks' fl' ∧
      Carves (blocks ++ [⟨s.heapEnd, n * 4096, true⟩]) total ⟨s.heapEnd, n * 4096, true⟩ blocks' k ∧
      HandedOut (freeListInsert s₁ s.heapEnd) s' k := by
  have hinv := h.extend hn hnew hlt
  have hb : (⟨s.heapEnd, n * 4096, true⟩ : Block) ∈ blocks ++ [⟨s.heapEnd, n * 4096, true⟩] := by
    simp
  have hbs := hinv.remove_blockSize hb rfl
  dsimp only at hbs
  rw [hbs]
  exact carve_spec hinv hb rfl hle h32 h16

theorem kmalloc_spec (pager : Pager W) (h : HeapInv s blocks fl) {size : ℕ} (hlo : 9 ≤ size)
    (hhi : size + 8192 < 2 ^ 64) (hend : s.heapEnd + 64 * 4096 < 2 ^ 64) :
    ∃ ptr s' blocks' fl', kmalloc pager s size = some (ptr, s') ∧ HeapInv s' blocks' fl' ∧
      Allocates s s' blocks fl (totalSize size) ptr blocks' := by
  obtain ⟨_, htotal, h32, h16⟩ := totalSize_spec hlo (by omega)
  rcases kmalloc_cases pager h (show size ≠ 0 by omega) with
    ⟨b, hb, hf, hle, hfit, heq⟩ | ⟨hfit, r, s₁, hexp, heq⟩
  · obtain ⟨s', blocks', fl', n, hcarve, hinv, hcarves, hout⟩ := carve_spec h hb hf hle h32 h16
    rw [hcarve] at heq
    exact ⟨_, s', blocks', fl', heq, hinv, .granted (.fit hb hfit) hcarves hb hf hle rfl hout⟩
  · rcases heapExpand_cases pager h.bound hexp with
      ⟨rfl, hgrown, hsame, hmem⟩ | ⟨rfl, hpages, s₂, hnew, rfl⟩
    · rw [if_pos rfl] at heq
      refine ⟨0, s₁, blocks, fl, heq, h.congr hgrown.heapStart hsame hgrown.freeList
        fun c hc x hx hx' ↦ hmem hend x ?_, .failed rfl rfl ⟨hgrown.heapStart, hsame,
          hgrown.totalAllocated, hgrown.totalFree⟩⟩
      have hbounds := h.bounds hc
      have hsize := h.size c hc
      have hroom := h.room c hc
      split_ifs at hx' with hcf
      · have := hroom hcf
        omega
      · omega
    · have hlow : s.heapStart ≤ s.heapEnd := h.tiles.le
      have hstart := h.start
      have hle : totalSize size ≤ pagesNeeded (totalSize size) * 4096 := pagesNeeded_le (by omega)
      have hlt : s.heapEnd + pagesNeeded (totalSize size) * 4096 < 2 ^ 64 :=
        Nat.lt_of_le_of_lt (Nat.add_le_add_left (Nat.mul_le_mul_right _ hpages) _) hend
      obtain ⟨s', blocks', fl', n, hcarve, hinv, hcarves, hout⟩ := carve_new h
        (Nat.le_trans (by decide) (pagesNeeded_pos (totalSize size))) hnew hlt hle h32 h16
      rw [if_neg (by omega), hcarve] at heq
      exact ⟨_, s', blocks', fl', heq, hinv,
        .granted (.new hfit hpages hnew) hcarves (by simp) rfl hle rfl hout⟩

end Kmalloc

end SeedOS.Kheap
