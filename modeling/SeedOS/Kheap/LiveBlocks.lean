import SeedOS.Kheap.Release

namespace SeedOS.Kheap

open Foundation

variable {W : Type} {s s' : Heap W} {blocks blocks' : List Block} {fl : List ℕ} {b c : Block}
  {total n : ℕ}

section Blocks

theorem kept_of_splice {l₁ l₂ old new : List Block} (hc : c ∈ l₁ ++ old ++ l₂) (ho : c ∉ old) :
    c ∈ l₁ ++ new ++ l₂ := by
  simp only [List.mem_append] at hc ⊢
  tauto

theorem large_of_splice {l₁ l₂ old new : List Block} (h : ∀ c ∈ l₁ ++ old ++ l₂, 32 ≤ c.size)
    (hnew : ∀ c ∈ new, 32 ≤ c.size) : ∀ c ∈ l₁ ++ new ++ l₂, 32 ≤ c.size := by
  simp only [List.forall_mem_append] at h ⊢
  exact ⟨⟨h.1.1, hnew⟩, h.2⟩

theorem Carves.kept (h : Carves blocks total b blocks' n) (hf : b.free = true) (hc : c ∈ blocks)
    (hu : c.free = false) : c ∈ blocks' := by
  have hne : c ≠ b := by
    rintro rfl
    simp [hf] at hu
  cases h with
  | whole hsplit _ => exact kept_of_splice (hsplit ▸ hc) (by simpa using hne)
  | split hsplit _ => exact kept_of_splice (hsplit ▸ hc) (by simpa using hne)

theorem Carves.used (h : Carves blocks total b blocks' n) (hle : total ≤ b.size) :
    ⟨b.addr, n, false⟩ ∈ blocks' ∧ total ≤ n := by
  cases h with
  | whole => exact ⟨by simp, hle⟩
  | split => exact ⟨by simp, Nat.le_refl _⟩

theorem Carves.large (h : Carves blocks total b blocks' n) (hlarge : ∀ c ∈ blocks, 32 ≤ c.size)
    (h32 : 32 ≤ total) : ∀ c ∈ blocks', 32 ≤ c.size := by
  cases h with
  | whole hsplit _ =>
    subst hsplit
    exact large_of_splice hlarge (by simpa using hlarge b (by simp))
  | split hsplit hroom =>
    subst hsplit
    refine large_of_splice hlarge ?_
    rw [List.forall_mem_cons, List.forall_mem_singleton]
    exact ⟨h32, by dsimp only; omega⟩

theorem Releases.kept (h : Releases blocks b blocks') (hc : c ∈ blocks) (hu : c.free = false)
    (hne : c ≠ b) : c ∈ blocks' := by
  cases h with
  | alone hsplit _ => exact kept_of_splice (hsplit ▸ hc) (by simpa using hne)
  | @merged l₁ l₂ d hsplit hf _ =>
    have hne' : c ≠ d := by
      rintro rfl
      simp [hf] at hu
    exact kept_of_splice (hsplit ▸ hc) (by simp [hne, hne'])

theorem Releases.large (h : Releases blocks b blocks') (hlarge : ∀ c ∈ blocks, 32 ≤ c.size) :
    ∀ c ∈ blocks', 32 ≤ c.size := by
  cases h with
  | alone hsplit _ =>
    subst hsplit
    exact large_of_splice hlarge (by simpa using hlarge b (by simp))
  | merged hsplit _ _ =>
    subst hsplit
    have hb := hlarge b (by simp)
    refine large_of_splice hlarge ?_
    rw [List.forall_mem_singleton]
    dsimp only
    omega

theorem Takes.kept {mid : Heap W} {base : List Block} (h : Takes s blocks fl total mid base b)
    (hc : c ∈ blocks) : c ∈ base := by
  cases h with
  | fit => exact hc
  | new => exact List.mem_append_left _ hc

theorem Takes.large {mid : Heap W} {base : List Block} (h : Takes s blocks fl total mid base b)
    (hlarge : ∀ c ∈ blocks, 32 ≤ c.size) : ∀ c ∈ base, 32 ≤ c.size := by
  cases h with
  | fit => exact hlarge
  | new _ _ _ =>
    have hpages := pagesNeeded_pos total
    intro c hc
    rcases List.mem_append.mp hc with hc | hc
    · exact hlarge c hc
    · rw [List.mem_singleton.mp hc]
      dsimp only
      omega

theorem Takes.globals {mid : Heap W} {base : List Block} (h : Takes s blocks fl total mid base b) :
    mid.heapStart = s.heapStart := by
  cases h with
  | fit => rfl
  | new _ _ hnew => rw [(freeListInsert_same _ _).heapStart, hnew.heapStart]

theorem Takes.not_used {mid : Heap W} {base : List Block} (h : HeapInv s blocks fl)
    (ht : Takes s blocks fl total mid base b) (hf : b.free = true) (hc : c ∈ blocks)
    (hu : c.free = false) : c.addr ≠ b.addr := by
  intro haddr
  cases ht with
  | fit hb _ =>
    rw [h.eq_of_addr hc hb haddr, hf] at hu
    exact absurd hu (by simp)
  | new _ _ _ =>
    have hbounds := h.bounds hc
    have hsize := h.size c hc
    dsimp only at haddr
    omega

theorem Allocates.heapEnd_le {ptr : ℕ} (h : Allocates s s' blocks fl total ptr blocks') :
    s'.heapEnd ≤ s.heapEnd + 64 * 4096 := by
  cases h with
  | failed _ _ hsame =>
    rw [hsame.heapEnd]
    omega
  | granted htakes _ _ _ _ _ hout =>
    rw [hout.heapEnd]
    cases htakes with
    | fit => omega
    | new _ hpages hnew =>
      rw [(freeListInsert_same _ _).heapEnd, hnew.heapEnd]
      exact (Nat.mod_le _ _).trans (Nat.add_le_add_left (Nat.mul_le_mul_right _ hpages) _)

end Blocks

def imageBase : ℕ := 0xFFFFFFFF80000000

def Request (size : ℕ) : Prop := size = 0 ∨ 9 ≤ size ∧ size ≤ 2 ^ 63

structure LiveInv (s : Heap W) (live : List (ℕ × ℕ)) (blocks : List Block) (fl : List ℕ) :
    Prop where
  heap : HeapInv s blocks fl
  start : s.heapStart = heapBase
  large : ∀ b ∈ blocks, 32 ≤ b.size
  served : ∀ p ∈ live, ∃ b ∈ blocks, b.free = false ∧ p.1 = b.addr + 8 ∧ p.2 + 8 ≤ b.size
  nodup : (live.map Prod.fst).Nodup

def drop (live : List (ℕ × ℕ)) (ptr : ℕ) : List (ℕ × ℕ) := live.filter (·.1 ≠ ptr)

theorem mem_drop {live : List (ℕ × ℕ)} {ptr : ℕ} {p : ℕ × ℕ} :
    p ∈ drop live ptr ↔ p ∈ live ∧ p.1 ≠ ptr := by
  simp [drop]

theorem nodup_drop {live : List (ℕ × ℕ)} (h : (live.map Prod.fst).Nodup) (ptr : ℕ) :
    ((drop live ptr).map Prod.fst).Nodup :=
  h.sublist ((List.filter_sublist (l := live)).map _)

def grant (live : List (ℕ × ℕ)) (ptr size : ℕ) : List (ℕ × ℕ) :=
  if ptr = 0 then live else (ptr, size) :: live

theorem region_lt (hend : s.heapEnd ≤ imageBase) {n : ℕ} (hn : n ≤ 64) :
    s.heapEnd + n * 4096 < 2 ^ 64 :=
  Nat.lt_of_le_of_lt (Nat.add_le_add hend (Nat.mul_le_mul_right _ hn)) (by decide)

namespace LiveInv

variable {live : List (ℕ × ℕ)}

theorem kmalloc (h : LiveInv s live blocks fl) (pager : Pager W) {size : ℕ}
    (hsize : Request size) (hroom : s.heapEnd + 64 * 4096 < 2 ^ 64) :
    ∃ ptr s' blocks' fl', Kheap.kmalloc pager s size = some (ptr, s') ∧
      LiveInv s' (grant live ptr size) blocks' fl' ∧ (ptr ≠ 0 → ∀ p ∈ live, p.1 ≠ ptr) ∧
      (∀ c ∈ blocks, c.free = false → c ∈ blocks') ∧
      Allocates s s' blocks fl (totalSize size) ptr blocks' := by
  rcases hsize with rfl | ⟨hlo, hhi⟩
  · exact ⟨0, s, blocks, fl, by simp [Kheap.kmalloc], h, fun hc ↦ absurd rfl hc, fun _ hc _ ↦ hc,
      .failed rfl rfl ⟨rfl, rfl, rfl, rfl⟩⟩
  obtain ⟨ptr, s', blocks', fl', heq, hinv, heffect⟩ :=
    kmalloc_spec pager h.heap hlo (by omega) hroom
  have heffect' := heffect
  cases heffect' with
  | failed hptr hblocks hsame =>
    subst hptr hblocks
    exact ⟨0, s', _, fl', heq, ⟨hinv, hsame.heapStart.trans h.start, h.large, h.served, h.nodup⟩,
      fun hc ↦ absurd rfl hc, fun _ hc _ ↦ hc, heffect⟩
  | @granted mid base b n htakes hcarves hb hf hle hptr hout =>
    subst hptr
    obtain ⟨hreq, _, h32, _⟩ := totalSize_spec hlo (by omega)
    obtain ⟨hused, hn⟩ := hcarves.used hle
    have hkept : ∀ c ∈ blocks, c.free = false → c ∈ blocks' := fun c hc hu ↦
      hcarves.kept hf (htakes.kept hc) hu
    have hnew : ∀ p ∈ live, p.1 ≠ b.addr + 8 := by
      intro p hp
      obtain ⟨c, hc, hu, hpc, _⟩ := h.served p hp
      have := htakes.not_used h.heap hf hc hu
      omega
    refine ⟨_, s', blocks', fl', heq, ⟨hinv, ?_, hcarves.large (htakes.large h.large) h32, ?_, ?_⟩,
      fun _ ↦ hnew, hkept, heffect⟩
    · rw [hout.heapStart, htakes.globals, h.start]
    · intro p hp
      rw [grant, if_neg (by omega)] at hp
      rcases List.mem_cons.mp hp with rfl | hp
      · exact ⟨_, hused, rfl, rfl, by dsimp only; omega⟩
      · obtain ⟨c, hc, hu, hpc, hle⟩ := h.served p hp
        exact ⟨c, hkept c hc hu, hu, hpc, hle⟩
    · rw [grant, if_neg (by omega), List.map_cons, List.nodup_cons]
      refine ⟨fun hmem ↦ ?_, h.nodup⟩
      obtain ⟨p, hp, hpp⟩ := List.mem_map.mp hmem
      exact hnew p hp hpp

theorem kfree (h : LiveInv s live blocks fl) {p : ℕ × ℕ} (hp : p ∈ live) :
    ∃ s' blocks' fl', Kheap.kfree s p.1 = (.freed, s') ∧ LiveInv s' (drop live p.1) blocks' fl' ∧
      ∀ b ∈ blocks, p.1 = b.addr + 8 → Releases blocks b blocks' ∧ TakenBack s s' b.size := by
  obtain ⟨b, hb, hu, hpb, _⟩ := h.served p hp
  obtain ⟨s', blocks', fl', heq, hinv, hrel, hback⟩ := kfree_spec h.heap hb hu (h.large b hb)
  refine ⟨s', blocks', fl', by rw [hpb, heq], ⟨hinv, hback.heapStart.trans h.start,
    hrel.large h.large, fun q hq ↦ ?_, nodup_drop h.nodup _⟩, fun c hc hpc ↦ ?_⟩
  · obtain ⟨hq, hne⟩ := mem_drop.mp hq
    obtain ⟨c, hc, hcu, hqc, hle⟩ := h.served q hq
    have hcb : c ≠ b := by
      rintro rfl
      exact hne (hqc.trans hpb.symm)
    exact ⟨c, hrel.kept hc hcu hcb, hcu, hqc, hle⟩
  · obtain rfl := h.heap.eq_of_addr hb hc (by omega)
    exact ⟨hrel, hback⟩

theorem write (h : LiveInv s live blocks fl) {p : ℕ × ℕ} (hp : p ∈ live) {m : ByteMem}
    (hm : ∀ x, x < p.1 ∨ p.1 + p.2 ≤ x → m x = s.mem x) :
    LiveInv { s with mem := m } live blocks fl := by
  obtain ⟨b, hb, hu, hpb, hle⟩ := h.served p hp
  refine ⟨h.heap.congr rfl rfl rfl fun c hc x hx hx' ↦ hm x ?_, h.start, h.large, h.served, h.nodup⟩
  by_cases hcb : c = b
  · subst hcb
    rw [hu] at hx'
    simp only [Bool.false_eq_true, if_false] at hx'
    omega
  · have hapart := h.heap.apart hc hb hcb
    have hlarge := h.large c hc
    split_ifs at hx' <;> omega

theorem block_of_live (h : LiveInv s live blocks fl) {p : ℕ × ℕ} (hp : p ∈ live) :
    ∃ b ∈ blocks, b.free = false ∧ p.1 = b.addr + 8 ∧ p.2 + 8 ≤ b.size ∧ dataToBlock p.1 = b.addr ∧
      b.addr + b.size < 2 ^ 64 := by
  obtain ⟨b, hb, hu, hpb, hle⟩ := h.served p hp
  have hbounds := h.heap.bounds hb
  refine ⟨b, hb, hu, hpb, hle, ?_, by omega⟩
  rw [hpb, dataToBlock, headerSize, sub64_eq (by omega) (by omega)]
  omega

end LiveInv

section Bytes

theorem zeroLoop_outside {ptr x : ℕ} (n i : ℕ) (m : ByteMem) (hend : ptr + i + n < 2 ^ 64)
    (hx : x < ptr + i ∨ ptr + i + n ≤ x) : zeroLoop ptr n i m x = m x := by
  induction n generalizing i m with
  | zero => rfl
  | succ n ih =>
    rw [zeroLoop, ih (i + 1) _ (by omega) (by omega), wrap_eq (by omega)]
    exact storeBytes_of_outside (by omega)

theorem copyLoop_outside {dst src x : ℕ} (n i : ℕ) (m : ByteMem) (hend : dst + i + n < 2 ^ 64)
    (hx : x < dst + i ∨ dst + i + n ≤ x) : copyLoop dst src n i m x = m x := by
  induction n generalizing i m with
  | zero => rfl
  | succ n ih =>
    rw [copyLoop, ih (i + 1) _ (by omega) (by omega), wrap_eq (by omega)]
    exact storeBytes_of_outside (by omega)

end Bytes

end SeedOS.Kheap
