import SeedOS.Kheap.HeapRuns

namespace SeedOS.Kheap

open Foundation

variable {W : Type} {s s' : Heap W} {blocks blocks' : List Block} {fl : List ℕ} {b : Block}
  {total ptr : ℕ}

section Bytes

/-- The payload bytes of the used and of the free blocks. -/
def usedBytes (blocks : List Block) : ℕ :=
  (blocks.map fun b ↦ if b.free then 0 else b.size - 8).sum

def freeBytes (blocks : List Block) : ℕ :=
  (blocks.map fun b ↦ if b.free then b.size - 8 else 0).sum

@[simp] theorem usedBytes_append (l₁ l₂ : List Block) :
    usedBytes (l₁ ++ l₂) = usedBytes l₁ + usedBytes l₂ := by simp [usedBytes]

@[simp] theorem freeBytes_append (l₁ l₂ : List Block) :
    freeBytes (l₁ ++ l₂) = freeBytes l₁ + freeBytes l₂ := by simp [freeBytes]

theorem usedBytes_single (b : Block) :
    usedBytes [b] = if b.free then 0 else b.size - 8 := by simp [usedBytes]

theorem freeBytes_single (b : Block) :
    freeBytes [b] = if b.free then b.size - 8 else 0 := by simp [freeBytes]

theorem bytes_le (blocks : List Block) :
    usedBytes blocks + freeBytes blocks ≤ (blocks.map Block.size).sum := by
  induction blocks with
  | nil => exact Nat.le_refl 0
  | cons b blocks ih =>
    rw [show b :: blocks = [b] ++ blocks from rfl, usedBytes_append, freeBytes_append,
      usedBytes_single, freeBytes_single, List.map_append, List.sum_append]
    simp only [List.map_cons, List.map_nil, List.sum_cons, List.sum_nil]
    split_ifs <;> omega

structure Counted (s : Heap W) (blocks : List Block) : Prop where
  used : s.totalAllocated = usedBytes blocks
  free : s.totalFree = freeBytes blocks

theorem HeapInv.bytes_lt (h : HeapInv s blocks fl) :
    usedBytes blocks + freeBytes blocks < 2 ^ 64 := by
  have hle := bytes_le blocks
  have hsum := h.tiles.sum_eq
  have hbound := h.bound
  omega

end Bytes

section Steps

def Unsplit (s : Heap W) (fl : List ℕ) (total : ℕ) : Prop :=
  match firstFit s fl total with
  | some a => s.blockSize a < total + 40
  | none => pagesNeeded total * 4096 < total + 40

theorem Carves.whole_of_lt {base : List Block} {n : ℕ} (h : Carves base total b blocks' n)
    (hlt : b.size < total + 40) : n = b.size ∧ ∃ l₁ l₂, base = l₁ ++ [b] ++ l₂ ∧
      blocks' = l₁ ++ [{ b with free := false }] ++ l₂ := by
  cases h with
  | @whole l₁ l₂ hsplit _ => exact ⟨rfl, l₁, l₂, hsplit, rfl⟩
  | split _ hle => omega

theorem Counted.take {mid : Heap W} {base : List Block} {n : ℕ} (h : Counted mid base)
    (hinv : HeapInv mid base fl) (hf : b.free = true) (hcarves : Carves base total b blocks' n)
    (hlt : b.size < total + 40) (hout : HandedOut mid s' n) : Counted s' blocks' := by
  have hbytes := hinv.bytes_lt
  obtain ⟨rfl, l₁, l₂, rfl, rfl⟩ := hcarves.whole_of_lt hlt
  have hb : b ∈ l₁ ++ [b] ++ l₂ := by simp
  have hsize := hinv.size b hb
  have hbounds := hinv.bounds hb
  have hsub : sub64 b.size headerSize = b.size - 8 :=
    sub64_eq (by unfold headerSize; omega) (by omega)
  have hused := h.used
  have hfree := h.free
  simp only [usedBytes_append, freeBytes_append, usedBytes_single, freeBytes_single, hf,
    if_true] at hbytes hused hfree
  refine ⟨?_, ?_⟩
  · rw [hout.totalAllocated, hsub, hused, wrap_eq (by omega)]
    simp only [usedBytes_append, usedBytes_single, Bool.false_eq_true, if_false]
    omega
  · rw [hout.totalFree, hsub, hfree, sub64_eq (by omega) (by omega)]
    simp only [freeBytes_append, freeBytes_single, Bool.false_eq_true, if_false]
    omega

theorem Counted.allocate (h : Counted s blocks) (hinv : HeapInv s blocks fl)
    (hend : s.heapEnd ≤ imageBase) (hunsplit : ptr ≠ 0 → Unsplit s fl total)
    (ha : Allocates s s' blocks fl total ptr blocks') : Counted s' blocks' := by
  cases ha with
  | failed _ hblocks hsame =>
    subst hblocks
    exact ⟨hsame.totalAllocated.trans h.used, hsame.totalFree.trans h.free⟩
  | @granted mid base b n htakes hcarves hb hf hle hptr hout =>
    have hun := hunsplit (by omega)
    unfold Unsplit at hun
    cases htakes with
    | fit hb hfit =>
      rw [hfit] at hun
      dsimp only at hun
      rw [hinv.blockSize_eq hb] at hun
      exact h.take hinv hf hcarves hun hout
    | @new s₁ hfit hpages hnew =>
      rw [hfit] at hun
      have hinv' := hinv.extend (Nat.le_trans (by decide) (pagesNeeded_pos total)) hnew
        (region_lt hend hpages)
      have hsame := freeListInsert_same s₁ s.heapEnd
      have hbytes := hinv'.bytes_lt
      simp only [usedBytes_append, freeBytes_append, usedBytes_single, freeBytes_single,
        if_true] at hbytes
      have hcounted : Counted (freeListInsert s₁ s.heapEnd)
          (blocks ++ [⟨s.heapEnd, pagesNeeded total * 4096, true⟩]) := by
        refine ⟨?_, ?_⟩
        · rw [hsame.totalAllocated, hnew.totalAllocated, h.used]
          simp [usedBytes_single]
        · rw [hsame.totalFree, hnew.totalFree, h.free, wrap_eq (by omega)]
          simp [freeBytes_single]
      exact hcounted.take hinv' rfl hcarves hun hout

def Unmerged (blocks : List Block) (b : Block) : Prop :=
  ∀ c ∈ blocks, c.addr = b.addr + b.size → c.free = false

theorem Counted.release (h : Counted s blocks) (hinv : HeapInv s blocks fl) (hb : b ∈ blocks)
    (hu : b.free = false) (hun : Unmerged blocks b) (hrel : Releases blocks b blocks')
    (hback : TakenBack s s' b.size) : Counted s' blocks' := by
  have hbytes := hinv.bytes_lt
  have hsize := hinv.size b hb
  have hbounds := hinv.bounds hb
  have hsub : sub64 b.size headerSize = b.size - 8 :=
    sub64_eq (by unfold headerSize; omega) (by omega)
  cases hrel with
  | @alone l₁ l₂ hsplit _ =>
    subst hsplit
    have hused := h.used
    have hfree := h.free
    simp only [usedBytes_append, freeBytes_append, usedBytes_single, freeBytes_single, hu,
      Bool.false_eq_true, if_false] at hbytes hused hfree
    refine ⟨?_, ?_⟩
    · rw [hback.totalAllocated, hsub, hused, sub64_eq (by omega) (by omega)]
      simp only [usedBytes_append, usedBytes_single, if_true]
      omega
    · rw [hback.totalFree, hsub, hfree, wrap_eq (by omega)]
      simp only [freeBytes_append, freeBytes_single, if_true]
      omega
  | @merged l₁ l₂ c hsplit hf hca =>
    have hc := hun c (by simp [hsplit]) hca
    simp [hf] at hc

theorem Allocates.free_before (ha : Allocates s s' blocks fl total ptr blocks')
    (hinv : HeapInv s blocks fl) (hend : s.heapEnd ≤ imageBase)
    (hunsplit : ptr ≠ 0 → Unsplit s fl total) {c : Block} (hc : c ∈ blocks')
    (hf : c.free = true) : c ∈ blocks := by
  cases ha with
  | failed _ hblocks _ => exact hblocks ▸ hc
  | @granted mid base b n htakes hcarves hb hbf hle hptr hout =>
    have hun := hunsplit (by omega)
    unfold Unsplit at hun
    have hlt : b.size < total + 40 := by
      cases htakes with
      | fit hb hfit =>
        rw [hfit] at hun
        dsimp only at hun
        rwa [hinv.blockSize_eq hb] at hun
      | new hfit _ _ =>
        rw [hfit] at hun
        exact hun
    obtain ⟨_, l₁, l₂, hbase, rfl⟩ := hcarves.whole_of_lt hlt
    simp only [List.mem_append, List.mem_singleton] at hc
    have hside : c ∈ l₁ ++ l₂ := by
      rcases hc with (hc | rfl) | hc
      · exact List.mem_append_left _ hc
      · exact absurd hf (by simp)
      · exact List.mem_append_right _ hc
    cases htakes with
    | fit _ _ =>
      rw [hbase]
      exact HeapInv.rest_mem hside
    | @new s₁ _ hpages hnew =>
      -- the new region is the block that was taken
      have hinv' := hinv.extend (Nat.le_trans (by decide) (pagesNeeded_pos total)) hnew
        (region_lt hend hpages)
      have hmem : c ∈ blocks ++ [⟨s.heapEnd, pagesNeeded total * 4096, true⟩] := by
        rw [hbase]
        exact HeapInv.rest_mem hside
      rcases List.mem_append.mp hmem with hmem | hmem
      · exact hmem
      · rw [hbase] at hinv'
        have hapart := hinv'.beside (List.mem_singleton_self _) hside
        have hsize := hinv'.size c (HeapInv.rest_mem hside)
        rw [List.mem_singleton.mp hmem] at hapart hsize
        omega

end Steps

section Runs

variable {pager : Pager W} {s s' : HeapSys W} {live : List (ℕ × ℕ)}

def NextUsed (s : Heap W) (ptr : ℕ) : Prop :=
  ¬ (s.nextBlock (dataToBlock ptr) < s.heapEnd ∧
    s.blockIsFree (s.nextBlock (dataToBlock ptr)) = true)

def ReturnsBlock (result : Option (ℕ × Heap W)) : Prop := ∀ h, result ≠ some (0, h)

theorem returnsBlock_of_eq {result : Option (ℕ × Heap W)} {ptr : ℕ} {h : Heap W}
    (heq : result = some (ptr, h)) (hptr : ptr ≠ 0) : ReturnsBlock result := by
  rintro h' rfl
  exact hptr (Prod.mk.inj (Option.some.inj heq)).1.symm

/-- The call splits no block and merges no two blocks: if `kmalloc` succeeds, it takes a block
that is too small to be split, and `kfree` finds a used block after the one it frees. -/
def HeapSys.Whole (pager : Pager W) (s : HeapSys W) (call : HeapCall) : Prop :=
  ∀ fl, Linked s.heap.next s.heap.prev 0 0 s.heap.freeList fl →
  match call with
  | .kmalloc size => ReturnsBlock (kmalloc pager s.heap size) → Unsplit s.heap fl (totalSize size)
  | .kzalloc size => ReturnsBlock (kzalloc pager s.heap size) → Unsplit s.heap fl (totalSize size)
  | .krealloc ptr size =>
    if ptr = 0 then
      ReturnsBlock (krealloc pager s.heap ptr size) → Unsplit s.heap fl (totalSize size)
    else if size = 0 then NextUsed s.heap ptr
    else alignUp (wrap (headerSize + size)) ≤ s.heap.blockSize (dataToBlock ptr) ∨
      (ReturnsBlock (krealloc pager s.heap ptr size) →
        Unsplit s.heap fl (totalSize size) ∧ NextUsed s.heap ptr)
  | .kfree ptr => ptr ≠ 0 → NextUsed s.heap ptr
  | .write _ _ => True

theorem LiveInv.unmerged {s : Heap W} (h : LiveInv s live blocks fl) {p : ℕ × ℕ}
    (hnext : NextUsed s p.1) {b : Block} (hb : b ∈ blocks) (hpb : p.1 = b.addr + 8) :
    Unmerged blocks b := by
  intro c hc hca
  have hbounds := h.heap.bounds hb
  have hboundsc := h.heap.bounds hc
  have hlarge := h.large c hc
  have hblock : dataToBlock p.1 = b.addr := by
    rw [hpb, dataToBlock, headerSize, sub64_eq (by omega) (by omega)]
    omega
  by_contra hcf
  refine hnext ?_
  rw [Heap.nextBlock, hblock, h.heap.blockSize_eq hb, wrap_eq (by omega), ← hca,
    h.heap.blockIsFree_eq hc]
  exact ⟨by omega, Bool.eq_true_of_not_eq_false hcf⟩

theorem HeapSys.exec_counted (h : LiveInv s.heap s.live blocks fl)
    (hcounted : Counted s.heap blocks)
    {call : HeapCall} (hallow : s.Allowed call) (hwhole : s.Whole pager call)
    (heq : s.exec pager call = some s') :
    ∃ blocks' fl', LiveInv s'.heap s'.live blocks' fl' ∧ Counted s'.heap blocks' := by
  obtain ⟨hend, hcall⟩ := hallow
  have hwhole := hwhole fl h.heap.links.linked
  cases call with
  | kmalloc size =>
    obtain ⟨ptr, h', blocks', fl', hk, hinv, _, _, heffect⟩ :=
      h.kmalloc pager hcall (region_lt hend le_rfl)
    rw [exec, hk] at heq
    obtain rfl := Option.some.inj heq
    exact ⟨blocks', fl', hinv,
      hcounted.allocate h.heap hend (fun hptr ↦ hwhole (returnsBlock_of_eq hk hptr)) heffect⟩
  | kzalloc size =>
    obtain ⟨ptr, h', blocks', fl', hk, hinv, heffect⟩ := h.kzalloc pager hcall hend
    rw [exec, hk] at heq
    obtain rfl := Option.some.inj heq
    exact ⟨blocks', fl', hinv,
      hcounted.allocate h.heap hend (fun hptr ↦ hwhole (returnsBlock_of_eq hk hptr)) heffect⟩
  | krealloc ptr size =>
    obtain ⟨hsize, rfl | ⟨p, hp, rfl⟩⟩ := hcall
    · obtain ⟨ptr, h', blocks', fl', hk, hinv, _, _, heffect⟩ :=
        h.kmalloc pager hsize (region_lt hend le_rfl)
      have hk : Kheap.krealloc pager s.heap 0 size = some (ptr, h') := by
        rw [Kheap.krealloc, if_pos rfl, hk]
      rw [exec, hk] at heq
      obtain rfl := Option.some.inj heq
      dsimp only at hwhole
      rw [if_pos rfl] at hwhole
      exact ⟨blocks', fl', hinv,
        hcounted.allocate h.heap hend (fun hptr ↦ hwhole (returnsBlock_of_eq hk hptr)) heffect⟩
    · obtain ⟨ptr, h', blocks', fl', hk, hinv, heffect⟩ := h.krealloc pager hp hsize hend
      obtain ⟨b, hb, hu, hpb, _, hblock, _⟩ := h.block_of_live hp
      rw [exec, hk] at heq
      obtain rfl := Option.some.inj heq
      dsimp only at hwhole ⊢
      rw [if_neg (by omega)] at hwhole ⊢
      rw [hblock, h.heap.blockSize_eq hb] at hwhole
      refine ⟨blocks', fl', hinv, ?_⟩
      cases heffect b hb hpb with
      | freed hzero hrel hback =>
        rw [if_pos hzero] at hwhole
        exact hcounted.release h.heap hb hu (h.unmerged hwhole hb hpb) hrel hback
      | kept hblocks hsame =>
        subst hblocks
        exact ⟨hsame.totalAllocated.trans hcounted.used, hsame.totalFree.trans hcounted.free⟩
      | failed ha => exact hcounted.allocate h.heap hend (fun hc ↦ absurd rfl hc) ha
      | @moved s₁ blocks₁ hzero hptr hlt ha hinv₁ hb₁ hrel hback =>
        rw [if_neg hzero] at hwhole
        obtain ⟨hun, hnext⟩ :=
          hwhole.resolve_left (Nat.not_le.mpr hlt) (returnsBlock_of_eq hk hptr)
        obtain ⟨fl₁, hinv₁⟩ := hinv₁
        have hcounted₁ := hcounted.allocate h.heap hend (fun _ ↦ hun) ha
        refine hcounted₁.release hinv₁ hb₁ hu (fun c hc hca ↦ ?_) hrel hback
        by_contra hcf
        have hf := Bool.eq_true_of_not_eq_false hcf
        have hc' := ha.free_before h.heap hend (fun _ ↦ hun) hc hf
        rw [h.unmerged hnext hb hpb c hc' hca] at hf
        exact absurd hf (by simp)
  | kfree ptr =>
    obtain rfl := Option.some.inj heq
    rcases hcall with rfl | ⟨p, hp, rfl⟩
    · refine ⟨blocks, fl, ?_, hcounted⟩
      rw [h.drop_zero]
      exact h
    · obtain ⟨b, hb, hu, hpb, _⟩ := h.served p hp
      obtain ⟨h', blocks', fl', hk, hinv, hfreed⟩ := h.kfree hp
      obtain ⟨hrel, hback⟩ := hfreed b hb hpb
      rw [hk]
      exact ⟨blocks', fl', hinv,
        hcounted.release h.heap hb hu (h.unmerged (hwhole (by omega)) hb hpb) hrel hback⟩
  | write x v =>
    obtain rfl := Option.some.inj heq
    obtain ⟨p, hp, hx, hx'⟩ := hcall
    exact ⟨blocks, fl, h.write hp fun y hy ↦ storeBytes_of_outside (by omega), hcounted.used,
      hcounted.free⟩

structure HeapSys.Exact (s : HeapSys W) (blocks fl : List ℕ) : Prop where
  represents : s.Represents blocks fl
  used : kheapGetUsed s.heap =
    ((blocks.filter fun a ↦ !s.heap.blockIsFree a).map fun a ↦ s.heap.blockSize a - 8).sum
  free : kheapGetFree s.heap = (fl.map fun a ↦ s.heap.blockSize a - 8).sum

theorem sum_filter (p : Block → Bool) (f : Block → ℕ) (blocks : List Block) :
    ((blocks.filter p).map f).sum = (blocks.map fun b ↦ if p b then f b else 0).sum := by
  induction blocks with
  | nil => rfl
  | cons b blocks ih =>
    rw [List.filter_cons, List.map_cons, List.sum_cons, ← ih]
    split_ifs <;> simp

theorem HeapInv.sizes_eq {s : Heap W} (h : HeapInv s blocks fl) (p : Block → Bool) :
    (((blocks.filter p).map Block.addr).map fun a ↦ s.blockSize a - 8) =
      (blocks.filter p).map fun b ↦ b.size - 8 := by
  rw [List.map_map]
  refine List.map_congr_left fun b hb ↦ ?_
  exact congrArg (· - 8) (h.blockSize_eq (List.mem_filter.mp hb).1)

theorem usedBytes_eq {s : Heap W} (h : HeapInv s blocks fl) :
    usedBytes blocks = (((blocks.map Block.addr).filter fun a ↦ !s.blockIsFree a).map
      fun a ↦ s.blockSize a - 8).sum := by
  have hfilter : blocks.filter ((fun a ↦ !s.blockIsFree a) ∘ Block.addr) =
      blocks.filter (!·.free) :=
    List.filter_congr fun b hb ↦ congrArg (!·) (h.blockIsFree_eq hb)
  rw [List.filter_map, hfilter, h.sizes_eq, sum_filter, usedBytes]
  refine congrArg List.sum (List.map_congr_left fun b _ ↦ ?_)
  cases b.free <;> rfl

theorem freeBytes_eq {s : Heap W} (h : HeapInv s blocks fl) :
    freeBytes blocks = (fl.map fun a ↦ s.blockSize a - 8).sum := by
  have hnodup : (blocks.map Block.addr).Nodup := by
    refine List.pairwise_map.mpr (h.tiles.pairwise.imp_of_mem fun {b c} hb _ hbc hne ↦ ?_)
    have hsize := h.size b hb
    omega
  have hperm : fl.Perm ((blocks.filter (·.free)).map Block.addr) := by
    refine (List.perm_ext_iff_of_nodup h.links.nodup ?_).mpr fun a ↦ ?_
    · exact hnodup.sublist (List.filter_sublist.map _)
    · rw [h.exact]
      simp [and_assoc]
  rw [(hperm.map _).sum_nat, h.sizes_eq, sum_filter, freeBytes]

/-- The counters of the heap are exact along every run that never splits a block and
never merges two. -/
theorem heap_counters_exact (pager : Pager W) {mem : ByteMem} {world : W} {s₀ : Heap W}
    (hinit : kheapInit pager mem world = some s₀)
    (hrun : PartialRuns (HeapSys.exec pager) (fun s call ↦ s.Allowed call ∧ s.Whole pager call)
      ⟨s₀, []⟩ s) :
    ∃ blocks fl, s.Exact blocks fl := by
  obtain ⟨blocks, fl, hinv, hcounted⟩ : ∃ blocks fl, LiveInv s.heap s.live blocks fl ∧
      Counted s.heap blocks := by
    refine hrun.invariant
      (I := fun s ↦ ∃ blocks fl, LiveInv s.heap s.live blocks fl ∧ Counted s.heap blocks) ?_ ?_
    · obtain ⟨hinv, hstart, _, hused, hfree⟩ := kheapInit_spec pager hinit
      exact ⟨_, _, ⟨hinv, hstart, by simp, by simp, List.nodup_nil⟩, hused, hfree⟩
    · rintro s call s' ⟨blocks, fl, hinv, hcounted⟩ ⟨hallow, hwhole⟩ heq
      exact HeapSys.exec_counted hinv hcounted hallow hwhole heq
  refine ⟨blocks.map Block.addr, fl, hinv.represents, ?_, ?_⟩
  · rw [kheapGetUsed, hcounted.used, usedBytes_eq hinv.heap]
  · rw [kheapGetFree, hcounted.free, freeBytes_eq hinv.heap]

/-- The first block is split, and its remainder is counted with 8 bytes too many. -/
theorem split_miscounts : ¬ ∀ s : HeapSys Unit, HeapRun plentiful s →
    ∃ blocks fl, s.Exact blocks fl := by
  intro h
  have hfacts : (HeapSys.exec plentiful ⟨firstHeap, []⟩ (.kmalloc 24)).any fun s ↦
      s.heap.freeList = heapBase + 32 ∧ s.heap.next (heapBase + 32) = 0 ∧
      s.heap.blockSize (heapBase + 32) = 65504 ∧ kheapGetFree s.heap = 65504 := by decide +kernel
  obtain ⟨s, hs, hfacts⟩ := (Option.any_eq_true ..).mp hfacts
  rw [decide_eq_true_eq] at hfacts
  obtain ⟨hhead, hnext, hsize, hfree⟩ := hfacts
  obtain ⟨blocks, fl, hexact⟩ := h s ⟨_, _, firstHeap, firstHeap_init,
    PartialRuns.step .refl (a := .kmalloc 24)
      ⟨by decide +kernel, .inr ⟨by decide, by decide⟩⟩ hs⟩
  have hlist := hexact.represents.list
  have hsum := hexact.free
  rw [hhead] at hlist
  rw [hfree] at hsum
  rcases fl with _ | ⟨a, _ | ⟨c, fl⟩⟩
  · simp at hsum
  · obtain ⟨rfl, _⟩ := hlist
    rw [List.map_singleton, List.sum_singleton, hsize] at hsum
    omega
  · obtain ⟨rfl, _, _, hc, hne, _⟩ := hlist
    exact hne (hc.symm.trans hnext)

/-- The whole first block is handed out. -/
theorem heap_counters_exact_whole :
    ∃ s, HeapSys.exec plentiful ⟨firstHeap, []⟩ (.kmalloc 65528) = some s ∧
      kheapGetUsed s.heap = 65528 ∧ kheapGetFree s.heap = 0 ∧ ∃ blocks fl, s.Exact blocks fl := by
  have hfacts : (HeapSys.exec plentiful ⟨firstHeap, []⟩ (.kmalloc 65528)).any fun s ↦
      kheapGetUsed s.heap = 65528 ∧ kheapGetFree s.heap = 0 := by decide +kernel
  obtain ⟨s, hs, hfacts⟩ := (Option.any_eq_true ..).mp hfacts
  rw [decide_eq_true_eq] at hfacts
  refine ⟨s, hs, hfacts.1, hfacts.2, heap_counters_exact plentiful firstHeap_init
    (PartialRuns.step .refl (a := .kmalloc 65528)
      ⟨⟨by decide +kernel, .inr ⟨by decide, by decide⟩⟩, fun fl hlist ↦ ?_⟩ hs)⟩
  have hhead : firstHeap.freeList = heapBase := by decide +kernel
  have hsize : firstHeap.blockSize heapBase = 65536 := by decide +kernel
  have htotal : totalSize 65528 = 65536 := by decide
  cases fl with
  | nil => exact absurd (hhead.symm.trans hlist) (by decide)
  | cons a fl =>
    obtain ⟨rfl, _⟩ := hlist
    intro _
    rw [Unsplit, firstFit, List.find?_cons_of_pos (by simp [hhead, hsize, htotal]), htotal]
    dsimp only
    rw [hhead, hsize]
    decide

end Runs

end SeedOS.Kheap
