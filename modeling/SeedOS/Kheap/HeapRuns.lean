import SeedOS.Foundation.Machine
import SeedOS.Kheap.LiveBlocks

namespace SeedOS.Kheap

open Foundation

variable {W : Type} {s s' : Heap W} {blocks : List Block} {fl : List ℕ} {live : List (ℕ × ℕ)}

section Init

variable (pager : Pager W)

theorem initLoop_spec (n : ℕ) (hend : s.heapEnd + n * 4096 < 2 ^ 64)
    (heq : initLoop pager n s = some s') :
    Grown s s' ∧ s'.heapEnd = s.heapEnd + n * 4096 := by
  induction n generalizing s with
  | zero =>
    obtain rfl := Option.some.inj heq
    exact ⟨⟨rfl, rfl, rfl, rfl⟩, by omega⟩
  | succ n ih =>
    rw [initLoop] at heq
    cases hg : growPage pager s with
    | mk res s₁ =>
      obtain ⟨hgrown, _, hpage⟩ := growPage_spec pager hg
      rw [hg] at heq
      cases res with
      | none => exact absurd heq (by simp)
      | some phys =>
        rw [Option.isSome_some, if_pos rfl, pageSize, wrap_eq (by omega)] at hpage
        obtain ⟨hgrown', hend'⟩ := ih (by omega) heq
        exact ⟨hgrown.trans hgrown', by omega⟩

theorem kheapInit_spec {mem : ByteMem} {world : W} (heq : kheapInit pager mem world = some s) :
    HeapInv s [⟨heapBase, 65536, true⟩] [heapBase] ∧ s.heapStart = heapBase ∧
      s.heapEnd = heapBase + 65536 ∧ s.totalAllocated = 0 ∧ s.totalFree = 65528 := by
  unfold kheapInit at heq
  obtain ⟨s₀, hs₀⟩ : ∃ s₀ : Heap W, s₀ = ⟨mem, world, heapBase, heapBase, 0, 0, 0⟩ := ⟨_, rfl⟩
  rw [← hs₀] at heq
  cases hloop : initLoop pager initialHeapPages s₀ with
  | none =>
    rw [hloop] at heq
    exact absurd heq (by simp)
  | some s₁ =>
    have hbase : heapBase = 0xFFFFFFFF00000000 := rfl
    have hend₀ : s₀.heapEnd = heapBase := by rw [hs₀]
    obtain ⟨hgrown, hend⟩ := initLoop_spec pager initialHeapPages
      (by rw [hend₀, hbase, initialHeapPages]; omega) hloop
    have hstart : s₁.heapStart = heapBase := by rw [hgrown.heapStart, hs₀]
    rw [hend₀, initialHeapPages] at hend
    rw [hloop] at heq
    dsimp only at heq
    rw [show initialHeapPages * pageSize = 65536 from rfl, hstart,
      show (65536 ||| blockFree) = 65537 from rfl] at heq
    obtain ⟨s₂, hs₂⟩ : ∃ s₂, s₂ = s₁.store heapBase 65537 := ⟨_, rfl⟩
    obtain ⟨s₃, hs₃⟩ : ∃ s₃, s₃ = s₂.setNext heapBase 0 := ⟨_, rfl⟩
    obtain ⟨s₄, hs₄⟩ : ∃ s₄, s₄ = s₃.setPrev heapBase 0 := ⟨_, rfl⟩
    rw [← hs₂, show s₂.heapStart = heapBase by rw [hs₂]; exact hstart, ← hs₃,
      show s₃.heapStart = heapBase by rw [hs₃, hs₂]; exact hstart, ← hs₄,
      show s₄.heapStart = heapBase by rw [hs₄, hs₃, hs₂]; exact hstart] at heq
    obtain rfl := Option.some.inj heq
    have hload : s₄.load heapBase = 65537 := by
      rw [hs₄, Heap.setPrev, load_store_of_disjoint (by omega), hs₃, Heap.setNext,
        load_store_of_disjoint (by omega), hs₂, load_store_self (by omega)]
    have hnext : s₄.next heapBase = 0 := by
      rw [Heap.next, hs₄, Heap.setPrev, load_store_of_disjoint (by omega), hs₃, Heap.setNext,
        load_store_self (by omega)]
    have hprev : s₄.prev heapBase = 0 := by
      rw [Heap.prev, hs₄, Heap.setPrev, load_store_self (by omega)]
    have hend₄ : s₄.heapEnd = heapBase + 65536 := by
      rw [hs₄, hs₃, hs₂]
      exact hend
    have hused₄ : s₄.totalAllocated = 0 := by
      rw [hs₄, hs₃, hs₂]
      exact hgrown.totalAllocated.trans (by rw [hs₀])
    refine ⟨⟨?_, ?_, ?_, ?_, ?_, ?_, ⟨?_, List.pairwise_singleton _ _, ?_, ?_⟩, ?_⟩, rfl, hend₄,
      hused₄, by rw [headerSize, sub64_eq (by omega) (by omega)]⟩
    · dsimp only
      omega
    · dsimp only
      omega
    · dsimp only
      rw [hend₄]
      exact ⟨rfl, rfl⟩
    · intro b hb
      obtain rfl := List.mem_singleton.mp hb
      decide
    · intro b hb _
      obtain rfl := List.mem_singleton.mp hb
      decide
    · intro b hb
      obtain rfl := List.mem_singleton.mp hb
      exact hload
    · exact ⟨rfl, by decide, hprev, hnext⟩
    · intro c hc
      rw [List.mem_singleton.mp hc]
      decide
    · intro c hc d hd hne
      exact absurd ((List.mem_singleton.mp hc).trans (List.mem_singleton.mp hd).symm) hne
    · intro a
      rw [List.mem_singleton]
      constructor
      · rintro rfl
        exact ⟨_, List.mem_singleton_self _, rfl, rfl⟩
      · rintro ⟨b, hb, _, rfl⟩
        rw [List.mem_singleton.mp hb]

end Init

namespace LiveInv

theorem kzalloc (h : LiveInv s live blocks fl) (pager : Pager W) {size : ℕ} (hsize : Request size)
    (hend : s.heapEnd ≤ imageBase) :
    ∃ ptr s' blocks' fl', Kheap.kzalloc pager s size = some (ptr, s') ∧
      LiveInv s' (grant live ptr size) blocks' fl' ∧
      Allocates s s' blocks fl (totalSize size) ptr blocks' := by
  obtain ⟨ptr, s₁, blocks₁, fl₁, heq, h₁, _, _, heffect⟩ :=
    h.kmalloc pager hsize (region_lt hend le_rfl)
  rw [Kheap.kzalloc, heq]
  by_cases hptr : ptr = 0
  · refine ⟨ptr, s₁, blocks₁, fl₁, ?_, h₁, heffect⟩
    simp [hptr]
  · refine ⟨ptr, { s₁ with mem := zeroLoop ptr size 0 s₁.mem }, blocks₁, fl₁, ?_, ?_,
      heffect.trans_same ⟨rfl, rfl, rfl, rfl⟩⟩
    · simp [hptr]
    · have hp : (ptr, size) ∈ grant live ptr size := by
        rw [grant, if_neg hptr]
        exact List.mem_cons_self
      obtain ⟨b, _, _, hpb, hle, _, hlt⟩ := h₁.block_of_live hp
      dsimp only at hpb hle
      exact h₁.write hp fun x hx ↦ zeroLoop_outside size 0 _ (by omega) (by simpa using hx)

/-- What `krealloc` of the pointer to block `b` does to the blocks and to the globals, when it
returns `ptr`. -/
inductive Reallocates (s s' : Heap W) (blocks : List Block) (fl : List ℕ) (size : ℕ) (b : Block)
    (ptr : ℕ) (blocks' : List Block) : Prop
  | freed : size = 0 → Releases blocks b blocks' → TakenBack s s' b.size →
    Reallocates s s' blocks fl size b ptr blocks'
  | kept : blocks' = blocks → SameGlobals s s' → Reallocates s s' blocks fl size b ptr blocks'
  | failed : Allocates s s' blocks fl (totalSize size) 0 blocks' →
    Reallocates s s' blocks fl size b ptr blocks'
  | moved {s₁ : Heap W} {blocks₁ : List Block} : size ≠ 0 → ptr ≠ 0 →
    b.size < alignUp (wrap (headerSize + size)) →
    Allocates s s₁ blocks fl (totalSize size) ptr blocks₁ →
    (∃ fl₁, HeapInv s₁ blocks₁ fl₁) → b ∈ blocks₁ → Releases blocks₁ b blocks' → TakenBack s₁ s' b.size →
    Reallocates s s' blocks fl size b ptr blocks'

theorem krealloc (h : LiveInv s live blocks fl) (pager : Pager W) {p : ℕ × ℕ} (hp : p ∈ live)
    {size : ℕ} (hsize : Request size) (hend : s.heapEnd ≤ imageBase) :
    ∃ ptr s' blocks' fl', Kheap.krealloc pager s p.1 size = some (ptr, s') ∧
      LiveInv s' (if size = 0 then drop live p.1 else if ptr = 0 then live
        else grant (drop live p.1) ptr size) blocks' fl' ∧
      ∀ b ∈ blocks, p.1 = b.addr + 8 → Reallocates s s' blocks fl size b ptr blocks' := by
  obtain ⟨b, hb, hu, hpb, hle, hblock, hlt⟩ := h.block_of_live hp
  have hunique : ∀ c ∈ blocks, p.1 = c.addr + 8 → c = b := fun c hc hpc ↦
    h.heap.eq_of_addr hc hb (by omega)
  rw [Kheap.krealloc, if_neg (by omega)]
  by_cases hzero : size = 0
  · obtain ⟨s', blocks', fl', heq, hinv, hfreed⟩ := h.kfree hp
    refine ⟨0, s', blocks', fl', ?_, ?_, fun c hc hpc ↦ ?_⟩
    · rw [if_pos hzero, heq]
    · rw [if_pos hzero]
      exact hinv
    · exact .freed hzero (hfreed c hc hpc).1 (hfreed c hc hpc).2
  obtain ⟨hlo, hhi⟩ := hsize.resolve_left hzero
  rw [if_neg hzero, hblock]
  dsimp only
  rw [h.heap.blockSize_eq hb]
  have halign : alignUp (wrap (headerSize + size)) = size + 23 - (size + 23) % 16 := by
    rw [headerSize, wrap_eq (by omega), alignUp_eq (by omega)]
    omega
  by_cases hfits : alignUp (wrap (headerSize + size)) ≤ b.size
  · rw [if_pos hfits]
    refine ⟨p.1, s, blocks, fl, rfl, ?_, fun _ _ _ ↦ .kept rfl ⟨rfl, rfl, rfl, rfl⟩⟩
    rw [if_neg hzero, if_neg (by omega), grant, if_neg (by omega)]
    refine ⟨h.heap, h.start, h.large, fun q hq ↦ ?_, ?_⟩
    · rcases List.mem_cons.mp hq with rfl | hq
      · exact ⟨b, hb, hu, hpb, by dsimp only; omega⟩
      · exact h.served q (mem_drop.mp hq).1
    · rw [List.map_cons, List.nodup_cons]
      refine ⟨fun hmem ↦ ?_, nodup_drop h.nodup _⟩
      obtain ⟨q, hq, hqp⟩ := List.mem_map.mp hmem
      exact (mem_drop.mp hq).2 hqp
  · rw [if_neg hfits]
    obtain ⟨ptr, s₁, blocks₁, fl₁, heq, h₁, hnew, hkept, heffect⟩ :=
      h.kmalloc pager hsize (region_lt hend le_rfl)
    rw [heq]
    dsimp only
    by_cases hptr : ptr = 0
    · refine ⟨0, s₁, blocks₁, fl₁, by rw [if_pos hptr], ?_, fun c hc hpc ↦ ?_⟩
      · rw [if_neg hzero, if_pos rfl]
        rwa [grant, if_pos hptr] at h₁
      · rw [hunique c hc hpc]
        exact .failed (hptr ▸ heffect)
    · rw [if_neg hptr, show headerSize = 8 from rfl, sub64_eq (by omega) (by omega)]
      rw [grant, if_neg hptr] at h₁
      have hmem : (ptr, size) ∈ (ptr, size) :: live := List.mem_cons_self
      obtain ⟨c, _, _, hpc, hcle, _, hclt⟩ := h₁.block_of_live hmem
      dsimp only at hpc hcle
      obtain ⟨n, hn⟩ : ∃ n, n = if b.size - 8 < size then b.size - 8 else size := ⟨_, rfl⟩
      have hnle : n ≤ size := by
        rw [hn]
        split_ifs <;> omega
      rw [← hn]
      have h₂ := h₁.write (m := copyLoop ptr p.1 n 0 s₁.mem) hmem fun x hx ↦
        copyLoop_outside n 0 _ (by omega) (by dsimp only at hx; omega)
      obtain ⟨s', blocks', fl', hfree, h₃, hfreed⟩ := h₂.kfree (List.mem_cons_of_mem _ hp)
      refine ⟨ptr, s', blocks', fl', by rw [hfree], ?_, fun c hc hpc ↦ ?_⟩
      · rw [if_neg hzero, if_neg hptr, grant, if_neg hptr]
        have hdrop : drop ((ptr, size) :: live) p.1 = (ptr, size) :: drop live p.1 :=
          List.filter_cons_of_pos (by simpa using Ne.symm (hnew hptr p hp))
        rwa [hdrop] at h₃
      · rw [hunique c hc hpc]
        have hb₁ := hkept b hb hu
        obtain ⟨hrel, hback⟩ := hfreed b hb₁ hpb
        have heffect₂ : Allocates s { s₁ with mem := copyLoop ptr p.1 n 0 s₁.mem } blocks fl
            (totalSize size) ptr blocks₁ := heffect.trans_same ⟨rfl, rfl, rfl, rfl⟩
        exact .moved hzero hptr (Nat.not_le.mp hfits) heffect₂ ⟨fl₁, h₂.heap⟩ hb₁ hrel hback

end LiveInv

structure HeapSys (W : Type) where
  heap : Heap W
  live : List (ℕ × ℕ)

/-- What a caller does: the four calls, and writing a byte to its own memory. -/
inductive HeapCall
  | kmalloc (size : ℕ)
  | kzalloc (size : ℕ)
  | krealloc (ptr size : ℕ)
  | kfree (ptr : ℕ)
  | write (x : ℕ) (v : BitVec 8)

def HeapSys.exec (pager : Pager W) (s : HeapSys W) : HeapCall → Option (HeapSys W)
  | .kmalloc size => (kmalloc pager s.heap size).map fun (ptr, h) ↦ ⟨h, grant s.live ptr size⟩
  | .kzalloc size => (kzalloc pager s.heap size).map fun (ptr, h) ↦ ⟨h, grant s.live ptr size⟩
  | .krealloc ptr size => (krealloc pager s.heap ptr size).map fun (ptr', h) ↦
    ⟨h, if ptr = 0 then grant s.live ptr' size else if size = 0 then drop s.live ptr
      else if ptr' = 0 then s.live else grant (drop s.live ptr) ptr' size⟩
  | .kfree ptr => some ⟨(kfree s.heap ptr).2, drop s.live ptr⟩
  | .write x v => some { s with heap := { s.heap with mem := storeBytes s.heap.mem x v.toNat 1 } }

/-- The callers keep to their memory, free live pointers only, and ask for sizes
in the range; the heap has not reached the kernel image. -/
def HeapSys.Allowed (s : HeapSys W) (call : HeapCall) : Prop :=
  s.heap.heapEnd ≤ imageBase ∧
  match call with
  | .kmalloc size => Request size
  | .kzalloc size => Request size
  | .krealloc ptr size => Request size ∧ (ptr = 0 ∨ ∃ p ∈ s.live, p.1 = ptr)
  | .kfree ptr => ptr = 0 ∨ ∃ p ∈ s.live, p.1 = ptr
  | .write x _ => ∃ p ∈ s.live, p.1 ≤ x ∧ x < p.1 + p.2

def HeapRun (pager : Pager W) (s : HeapSys W) : Prop :=
  ∃ mem world s₀, kheapInit pager mem world = some s₀ ∧
    PartialRuns (HeapSys.exec pager) HeapSys.Allowed ⟨s₀, []⟩ s

theorem LiveInv.drop_zero (h : LiveInv s live blocks fl) : drop live 0 = live := by
  refine List.filter_eq_self.mpr fun p hp ↦ ?_
  obtain ⟨b, _, _, hpb, _⟩ := h.served p hp
  simp [hpb]

theorem HeapSys.exec_inv (pager : Pager W) {s : HeapSys W} (h : LiveInv s.heap s.live blocks fl)
    {call : HeapCall} (hallow : s.Allowed call) :
    ∃ s' blocks' fl', s.exec pager call = some s' ∧ LiveInv s'.heap s'.live blocks' fl' := by
  obtain ⟨hend, hcall⟩ := hallow
  cases call with
  | kmalloc size =>
    obtain ⟨ptr, s', blocks', fl', heq, hinv, _⟩ := h.kmalloc pager hcall (region_lt hend le_rfl)
    exact ⟨_, blocks', fl', by rw [exec, heq]; rfl, hinv⟩
  | kzalloc size =>
    obtain ⟨ptr, s', blocks', fl', heq, hinv, _⟩ := h.kzalloc pager hcall hend
    exact ⟨_, blocks', fl', by rw [exec, heq]; rfl, hinv⟩
  | krealloc ptr size =>
    obtain ⟨hsize, rfl | ⟨p, hp, rfl⟩⟩ := hcall
    · obtain ⟨ptr, s', blocks', fl', heq, hinv, _⟩ := h.kmalloc pager hsize (region_lt hend le_rfl)
      refine ⟨⟨s', grant s.live ptr size⟩, blocks', fl', ?_, hinv⟩
      rw [exec, Kheap.krealloc, if_pos rfl, heq]
      rfl
    · obtain ⟨ptr, s', blocks', fl', heq, hinv, _⟩ := h.krealloc pager hp hsize hend
      obtain ⟨b, _, _, hpb, _⟩ := h.served p hp
      refine ⟨_, blocks', fl', by rw [exec, heq]; rfl, ?_⟩
      dsimp only
      rw [if_neg (by omega)]
      exact hinv
  | kfree ptr =>
    rcases hcall with rfl | ⟨p, hp, rfl⟩
    · refine ⟨_, blocks, fl, rfl, ?_⟩
      rw [h.drop_zero]
      exact h
    · obtain ⟨s', blocks', fl', heq, hinv, _⟩ := h.kfree hp
      exact ⟨_, blocks', fl', by rw [exec, heq], hinv⟩
  | write x v =>
    obtain ⟨p, hp, hx, hx'⟩ := hcall
    exact ⟨_, blocks, fl, rfl, h.write hp fun y hy ↦ storeBytes_of_outside (by omega)⟩

theorem HeapRun.inv {pager : Pager W} {s : HeapSys W} (h : HeapRun pager s) :
    ∃ blocks fl, LiveInv s.heap s.live blocks fl := by
  obtain ⟨mem, world, s₀, hinit, hrun⟩ := h
  refine hrun.invariant (I := fun s ↦ ∃ blocks fl, LiveInv s.heap s.live blocks fl) ?_ ?_
  · obtain ⟨hinv, hstart, _⟩ := kheapInit_spec pager hinit
    exact ⟨_, _, hinv, hstart, by simp, by simp, List.nodup_nil⟩
  · rintro s call s' ⟨blocks, fl, hinv⟩ hallow heq
    obtain ⟨s'', blocks', fl', heq', hinv'⟩ := HeapSys.exec_inv pager hinv hallow
    rw [heq] at heq'
    obtain rfl := Option.some.inj heq'
    exact ⟨blocks', fl', hinv'⟩

/-- The representation of the heap. The blocks fill it from end to end, the free list
holds the free ones, and every live pointer has a block of its own. -/
structure HeapSys.Represents (s : HeapSys W) (blocks fl : List ℕ) : Prop where
  walk : Tiles id s.heap.blockSize s.heap.heapStart blocks s.heap.heapEnd
  header : ∀ a ∈ blocks, 32 ≤ s.heap.blockSize a
  list : Linked s.heap.next s.heap.prev 0 0 s.heap.freeList fl
  once : fl.Nodup
  free : ∀ a, a ∈ fl ↔ a ∈ blocks ∧ s.heap.blockIsFree a = true
  live : ∀ p ∈ s.live, ∃ a ∈ blocks, s.heap.blockIsFree a = false ∧ p.1 = a + 8 ∧
    p.2 ≤ s.heap.blockSize a - 8
  distinct : (s.live.map Prod.fst).Nodup
  apart : ∀ p ∈ s.live, ∀ q ∈ s.live, p.1 ≠ q.1 → p.1 + p.2 ≤ q.1 ∨ q.1 + q.2 ≤ p.1
  apartFree : ∀ p ∈ s.live, ∀ a ∈ fl, p.1 + p.2 ≤ a ∨ a + s.heap.blockSize a ≤ p.1
  accepted : ∀ p ∈ s.live, (kfree s.heap p.1).1 = .freed

theorem tiles_map {l : List Block} {a e : ℕ} {size : ℕ → ℕ}
    (hsize : ∀ b ∈ l, size b.addr = b.size) (h : Tiles Block.addr Block.size a l e) :
    Tiles id size a (l.map Block.addr) e := by
  induction l generalizing a with
  | nil => exact h
  | cons b l ih =>
    obtain ⟨hb, hl⟩ := h
    refine ⟨hb, ?_⟩
    rw [hsize b (by simp)]
    exact ih (fun c hc ↦ hsize c (by simp [hc])) hl

theorem LiveInv.represents {s : HeapSys W} (hinv : LiveInv s.heap s.live blocks fl) :
    s.Represents (blocks.map Block.addr) fl := by
  have hheap := hinv.heap
  have hsize : ∀ b ∈ blocks, s.heap.blockSize b.addr = b.size := fun b hb ↦ hheap.blockSize_eq hb
  refine ⟨tiles_map hsize hheap.tiles, ?_, hheap.links.linked, hheap.links.nodup, fun a ↦ ?_,
    fun p hp ↦ ?_, hinv.nodup, fun p hp q hq hne ↦ ?_, fun p hp a ha ↦ ?_, fun p hp ↦ ?_⟩
  · intro a ha
    obtain ⟨b, hb, rfl⟩ := List.mem_map.mp ha
    rw [hsize b hb]
    exact hinv.large b hb
  · rw [hheap.exact]
    constructor
    · rintro ⟨b, hb, hf, rfl⟩
      exact ⟨List.mem_map_of_mem hb, by rw [hheap.blockIsFree_eq hb, hf]⟩
    · rintro ⟨ha, hf⟩
      obtain ⟨b, hb, rfl⟩ := List.mem_map.mp ha
      exact ⟨b, hb, by rw [← hheap.blockIsFree_eq hb, hf], rfl⟩
  · obtain ⟨b, hb, hu, hpb, hle⟩ := hinv.served p hp
    exact ⟨b.addr, List.mem_map_of_mem hb, by rw [hheap.blockIsFree_eq hb, hu], hpb,
      by rw [hsize b hb]; omega⟩
  · obtain ⟨b, hb, _, hpb, hle⟩ := hinv.served p hp
    obtain ⟨c, hc, _, hqc, hle'⟩ := hinv.served q hq
    have hapart := hheap.apart hb hc (by rintro rfl; omega)
    omega
  · obtain ⟨b, hb, hu, hpb, hle⟩ := hinv.served p hp
    obtain ⟨c, hc, hf, rfl⟩ := (hheap.exact a).mp ha
    have hapart := hheap.apart hb hc (by rintro rfl; simp [hu] at hf)
    rw [hsize c hc]
    omega
  · obtain ⟨s', _, _, heq, _⟩ := hinv.kfree hp
    rw [heq]

/-- The heap is well formed in every state of every run. -/
theorem heap_represents (pager : Pager W) {s : HeapSys W} (h : HeapRun pager s) :
    ∃ blocks fl, s.Represents blocks fl := by
  obtain ⟨blocks, fl, hinv⟩ := h.inv
  exact ⟨blocks.map Block.addr, fl, hinv.represents⟩

def plentiful : Pager Unit where
  pmmAlloc _ := (1, ())
  pmmFree _ _ := ()
  mapPage _ _ _ := (0, ())
  unmapPage _ _ := ()
  contents _ _ := 0#8

def firstHeap : Heap Unit :=
  (kheapInit plentiful (fun _ ↦ 0#8) ()).getD ⟨fun _ ↦ 0#8, (), 0, 0, 0, 0, 0⟩

theorem firstHeap_init : kheapInit plentiful (fun _ ↦ 0#8) () = some firstHeap := by
  have hsome : (kheapInit plentiful (fun _ ↦ 0#8) ()).isSome := by decide +kernel
  obtain ⟨s, hs⟩ := Option.isSome_iff_exists.mp hsome
  rw [firstHeap, hs, Option.getD_some]

theorem heap_represents_first :
    ∃ s, HeapSys.exec plentiful ⟨firstHeap, []⟩ (.kmalloc 24) = some s ∧ s.live ≠ [] ∧
      ∃ blocks fl, s.Represents blocks fl := by
  obtain ⟨s, hs⟩ : ∃ s, HeapSys.exec plentiful ⟨firstHeap, []⟩ (.kmalloc 24) = some s :=
    Option.isSome_iff_exists.mp (by decide +kernel)
  have hlive : (HeapSys.exec plentiful ⟨firstHeap, []⟩ (.kmalloc 24)).all (·.live ≠ []) := by
    decide +kernel
  rw [hs, Option.all_some, decide_eq_true_eq] at hlive
  refine ⟨s, hs, hlive, heap_represents plentiful ⟨_, _, firstHeap, firstHeap_init, ?_⟩⟩
  exact PartialRuns.step .refl (a := .kmalloc 24)
    ⟨by decide +kernel, .inr ⟨by decide, by decide⟩⟩ hs

end SeedOS.Kheap
