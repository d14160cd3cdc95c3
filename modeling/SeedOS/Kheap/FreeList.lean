import SeedOS.Foundation.LinkedList
import SeedOS.Foundation.Words
import SeedOS.Kheap.Allocator

namespace SeedOS.Kheap

open Foundation

variable {W : Type} {s s' : Heap W} {a b v : ℕ} {fl : List ℕ}

section Memory

theorem load_lt (s : Heap W) (a : ℕ) : s.load a < 2 ^ 64 := loadBytes_lt s.mem a 8

theorem load_congr (h : ∀ x, a ≤ x → x < a + 8 → s'.mem x = s.mem x) : s'.load a = s.load a :=
  loadBytes_congr h

theorem load_of_mem (h : s'.mem = s.mem) (a : ℕ) : s'.load a = s.load a := by
  rw [Heap.load, Heap.load, h]

theorem load_store_self (hv : v < 2 ^ 64) : (s.store a v).load a = v :=
  loadBytes_storeBytes_self.trans (Nat.mod_eq_of_lt hv)

theorem store_mem_of_outside {x : ℕ} (h : x < a ∨ a + 8 ≤ x) : (s.store a v).mem x = s.mem x :=
  storeBytes_of_outside h

theorem load_store_of_disjoint (h : b + 8 ≤ a ∨ a + 8 ≤ b) : (s.store a v).load b = s.load b :=
  loadBytes_storeBytes_of_disjoint h

end Memory

section Bits

theorem and_sizeMask {n : ℕ} (hn : n < 2 ^ 64) : n &&& sizeMask = n - n % 16 := by
  have h := toNat_clearLow (BitVec.ofNat 64 n) (k := 4) (by omega)
  rw [BitVec.toNat_and, BitVec.toNat_ofNat, Nat.mod_eq_of_lt hn] at h
  exact h

theorem and_usedMask {n : ℕ} (hn : n < 2 ^ 64) : n &&& usedMask = n - n % 2 := by
  have h := toNat_clearLow (BitVec.ofNat 64 n) (k := 1) (by omega)
  rw [BitVec.toNat_and, BitVec.toNat_ofNat, Nat.mod_eq_of_lt hn] at h
  exact h

theorem or_blockFree {n : ℕ} (hn : n % 2 = 0) : n ||| blockFree = n + 1 := by
  have h := Nat.two_pow_add_eq_or_of_lt (i := 1) (b := 1) (by omega) (n / 2)
  rw [show 2 ^ 1 * (n / 2) = n by omega] at h
  exact h.symm

end Bits

section Links

variable {block c x : ℕ}

def NodesApart (c d : ℕ) : Prop := c = d ∨ c + 24 ≤ d ∨ d + 24 ≤ c

theorem next_setNext (h : NodesApart c block) (hv : v < 2 ^ 64) :
    (s.setNext block v).next c = if c = block then v else s.next c := by
  split_ifs with hc
  · rw [hc]
    exact load_store_self hv
  · exact load_store_of_disjoint (by have := h.resolve_left hc; omega)

theorem prev_setPrev (h : NodesApart c block) (hv : v < 2 ^ 64) :
    (s.setPrev block v).prev c = if c = block then v else s.prev c := by
  split_ifs with hc
  · rw [hc]
    exact load_store_self hv
  · exact load_store_of_disjoint (by have := h.resolve_left hc; omega)

theorem prev_setNext (h : NodesApart c block) : (s.setNext block v).prev c = s.prev c :=
  load_store_of_disjoint (by unfold NodesApart at h; omega)

theorem next_setPrev (h : NodesApart c block) : (s.setPrev block v).next c = s.next c :=
  load_store_of_disjoint (by unfold NodesApart at h; omega)

theorem setNext_mem (hx : x < block + 8 ∨ block + 24 ≤ x) : (s.setNext block v).mem x = s.mem x :=
  store_mem_of_outside (by omega)

theorem setPrev_mem (hx : x < block + 8 ∨ block + 24 ≤ x) : (s.setPrev block v).mem x = s.mem x :=
  store_mem_of_outside (by omega)

theorem next_linkBack (h : x ≠ 0 → NodesApart c x) :
    (if x ≠ 0 then s.setPrev x v else s).next c = s.next c := by
  split_ifs with hx
  · exact next_setPrev (h hx)
  · rfl

theorem prev_linkBack (h : x ≠ 0 → NodesApart c x) (hv : v < 2 ^ 64) (hc : c ≠ 0) :
    (if x ≠ 0 then s.setPrev x v else s).prev c = if c = x then v else s.prev c := by
  by_cases hx : x ≠ 0
  · rw [if_pos hx, prev_setPrev (h hx) hv]
  · have hcx : c ≠ x := fun hcx ↦ hx (hcx ▸ hc)
    rw [if_neg hx, if_neg hcx]

theorem linkBack_mem {y : ℕ} (h : x ≠ 0 → y < x + 8 ∨ x + 24 ≤ y) :
    (if x ≠ 0 then s.setPrev x v else s).mem y = s.mem y := by
  split_ifs with hx
  · exact setPrev_mem (h hx)
  · rfl

theorem freeListInsert_mem (hx : x < block + 8 ∨ block + 24 ≤ x)
    (hhead : s.freeList ≠ 0 → x < s.freeList + 8 ∨ s.freeList + 24 ≤ x) :
    (freeListInsert s block).mem x = s.mem x :=
  (linkBack_mem (s := (s.setNext block s.freeList).setPrev block 0) hhead).trans
    ((setPrev_mem hx).trans (setNext_mem hx))

end Links

/-- The free list: linked both ways, through nodes that do not overlap. -/
structure FreeList (s : Heap W) (fl : List ℕ) : Prop where
  linked : Linked s.next s.prev 0 0 s.freeList fl
  nodup : fl.Nodup
  small : ∀ c ∈ fl, c < 2 ^ 64
  spaced : ∀ c ∈ fl, ∀ d ∈ fl, c ≠ d → c + 24 ≤ d ∨ d + 24 ≤ c

namespace FreeList

theorem nodup_zero (h : FreeList s fl) : (0 :: fl).Nodup :=
  List.nodup_cons.mpr ⟨fun hc ↦ h.linked.ne_null hc rfl, h.nodup⟩

theorem congr (h : FreeList s fl) (hhead : s'.freeList = s.freeList)
    (hmem : ∀ c ∈ fl, ∀ x, c + 8 ≤ x → x < c + 24 → s'.mem x = s.mem x) : FreeList s' fl := by
  refine ⟨?_, h.nodup, h.small, h.spaced⟩
  rw [hhead]
  refine h.linked.congr (fun c hc ↦ ?_) fun c hc ↦ ?_
  · exact load_congr fun x hx hx' ↦ hmem c hc x hx (by omega)
  · exact load_congr fun x hx hx' ↦ hmem c hc x (by omega) (by omega)

theorem head_mem (h : FreeList s fl) (hne : s.freeList ≠ 0) : s.freeList ∈ fl := by
  have hl := h.linked
  cases fl with
  | nil => exact absurd hl hne
  | cons c fl => simp [hl.1]

theorem apart (h : FreeList s fl) {c d : ℕ} (hc : c ∈ fl) (hd : d ∈ fl) : NodesApart c d :=
  or_iff_not_imp_left.mpr (h.spaced c hc d hd)

theorem head_lt (h : FreeList s fl) : s.freeList < 2 ^ 64 := by
  by_cases hc : s.freeList = 0
  · omega
  · exact h.small _ (h.head_mem hc)

section Insert

variable (h : FreeList s fl) {block c : ℕ} (hapart : ∀ c ∈ fl, c + 24 ≤ block ∨ block + 24 ≤ c)
include h hapart

theorem cons_spaced : ∀ c ∈ block :: fl, ∀ d ∈ block :: fl, c ≠ d → c + 24 ≤ d ∨ d + 24 ≤ c := by
  intro c hc d hd hne
  rcases List.mem_cons.mp hc with rfl | hc'
  · rcases List.mem_cons.mp hd with rfl | hd'
    · exact absurd rfl hne
    · exact (hapart d hd').symm
  · rcases List.mem_cons.mp hd with rfl | hd'
    · exact hapart c hc'
    · exact h.spaced c hc' d hd' hne

theorem insert_next (hc : c ∈ block :: fl) :
    (freeListInsert s block).next c = if c = block then s.freeList else s.next c := by
  have hspaced := fun d hd ↦ or_iff_not_imp_left.mpr (h.cons_spaced hapart c hc d hd)
  have hb : NodesApart c block := hspaced block List.mem_cons_self
  exact (next_linkBack (s := (s.setNext block s.freeList).setPrev block 0) (x := s.freeList)
    fun hne ↦ hspaced _ (List.mem_cons_of_mem _ (h.head_mem hne))).trans
      ((next_setPrev hb).trans (next_setNext hb h.head_lt))

theorem insert_prev (hlt : block < 2 ^ 64) (hc : c ∈ block :: fl) (h0 : c ≠ 0) :
    (freeListInsert s block).prev c =
      if c = s.freeList then block else if c = block then 0 else s.prev c := by
  have hspaced := fun d hd ↦ or_iff_not_imp_left.mpr (h.cons_spaced hapart c hc d hd)
  have hb : NodesApart c block := hspaced block List.mem_cons_self
  have hlinks : ((s.setNext block s.freeList).setPrev block 0).prev c =
      if c = block then 0 else s.prev c := by
    rw [prev_setPrev hb (by omega), prev_setNext hb]
  rw [← hlinks]
  exact prev_linkBack (fun hne ↦ hspaced _ (List.mem_cons_of_mem _ (h.head_mem hne))) hlt h0

theorem insert (h0 : block ≠ 0) (hlt : block < 2 ^ 64) :
    FreeList (freeListInsert s block) (block :: fl) ∧
      ∀ x, (∀ c ∈ block :: fl, x < c + 8 ∨ c + 24 ≤ x) →
        (freeListInsert s block).mem x = s.mem x := by
  have hnot : block ∉ fl := fun hc ↦ by
    have := hapart block hc
    omega
  have hb : block ∈ block :: fl := List.mem_cons_self
  have hhead : block ≠ s.freeList := by
    intro hc
    exact hnot (hc ▸ h.head_mem (hc ▸ h0))
  refine ⟨⟨h.linked.push h.nodup h0 ?_ ?_ (fun c hc ↦ ?_) fun c hc ↦ ?_,
    List.nodup_cons.mpr ⟨hnot, h.nodup⟩, ?_, h.cons_spaced hapart⟩,
    fun x hx ↦ freeListInsert_mem (hx block hb) fun hne ↦
      hx _ (List.mem_cons_of_mem _ (h.head_mem hne))⟩
  · exact (h.insert_next hapart hb).trans (if_pos rfl)
  · exact (h.insert_prev hapart hlt hb h0).trans ((if_neg hhead).trans (if_pos rfl))
  · have hcb : c ≠ block := fun hcb ↦ hnot (hcb ▸ hc)
    rw [h.insert_next hapart (List.mem_cons_of_mem _ hc), if_neg hcb]
  · have hcb : c ≠ block := fun hcb ↦ hnot (hcb ▸ hc)
    rw [h.insert_prev hapart hlt (List.mem_cons_of_mem _ hc) (h.linked.ne_null hc), if_neg hcb]
    rfl
  · intro c hc
    rcases List.mem_cons.mp hc with rfl | hc
    · exact hlt
    · exact h.small c hc

theorem insertBlock (h0 : block ≠ 0) (hlt : block < 2 ^ 64) (hv : v < 2 ^ 64) :
    FreeList (freeListInsert (s.store block v) block) (block :: fl) ∧
      (freeListInsert (s.store block v) block).load block = v ∧
      ∀ x, x < block ∨ block + 24 ≤ x → (∀ c ∈ fl, x < c + 8 ∨ c + 24 ≤ x) →
        (freeListInsert (s.store block v) block).mem x = s.mem x := by
  have hlinks : FreeList (s.store block v) fl := h.congr rfl fun d hd x hx hx' ↦
    store_mem_of_outside (by have := hapart d hd; omega)
  obtain ⟨hlinks', hmem⟩ := hlinks.insert hapart h0 hlt
  refine ⟨hlinks', ?_, fun x hx hfl ↦ ?_⟩
  · refine (load_congr fun x hx hx' ↦ hmem x fun d hd ↦ ?_).trans (load_store_self hv)
    rcases List.mem_cons.mp hd with rfl | hd
    · omega
    · have := hapart d hd
      omega
  · refine (hmem x fun d hd ↦ ?_).trans (store_mem_of_outside (by omega))
    rcases List.mem_cons.mp hd with rfl | hd
    · omega
    · exact hfl d hd

end Insert

section Remove

variable (h : FreeList s fl) {block c : ℕ} (hb : block ∈ fl)
include h hb

-- a link of the list is `NULL` or a node

theorem prev_mem (hne : s.prev block ≠ 0) : s.prev block ∈ fl := by
  by_contra hc
  exact h.linked.prev_ne hb (by simp [hne, hc]) rfl

theorem next_mem (hne : s.next block ≠ 0) : s.next block ∈ fl := by
  by_contra hc
  exact h.linked.next_ne hb hc hne rfl

theorem prev_ne_self : s.prev block ≠ block := fun hc ↦
  h.linked.next_ne_self h.nodup hb ((h.linked.next_eq_iff h.nodup_zero hb hb).mpr hc)

theorem prev_eq_zero_iff : s.prev block = 0 ↔ s.freeList = block := by
  have hl := h.linked
  have hnd := h.nodup_zero
  cases fl with
  | nil => simp at hb
  | cons c fl =>
    obtain ⟨hx, hc0, hpc, hl'⟩ := hl
    rw [hx]
    constructor
    · intro hp0
      rcases List.mem_cons.mp hb with rfl | hb'
      · rfl
      · exact absurd hp0 (hl'.prev_ne hb' (List.nodup_cons.mp hnd).1)
    · rintro rfl
      exact hpc

theorem unlinkNext (hs' : s' = if s.prev block ≠ 0 then s.setNext (s.prev block) (s.next block)
      else { s with freeList := s.next block }) :
    (∀ c ∈ fl, s'.next c = if s.prev block = c then s.next block else s.next c) ∧
    (∀ c ∈ fl, s'.prev c = s.prev c) ∧
    (∀ x, (∀ c ∈ fl, x < c + 8 ∨ c + 24 ≤ x) → s'.mem x = s.mem x) ∧
    s'.freeList = if s.freeList = block then s.next block else s.freeList := by
  by_cases hp : s.prev block = 0
  · rw [if_neg (not_not_intro hp)] at hs'
    have hmem : s'.mem = s.mem := by rw [hs']
    have hload := load_of_mem hmem
    refine ⟨fun c hc ↦ ?_, fun c _ ↦ hload _, fun x _ ↦ congrFun hmem x, ?_⟩
    · rw [if_neg fun hpc ↦ h.linked.ne_null hc (hpc.symm.trans hp)]
      exact hload _
    · rw [if_pos ((h.prev_eq_zero_iff hb).mp hp), hs']
  · rw [if_pos hp] at hs'
    subst hs'
    have hmem := h.prev_mem hb hp
    refine ⟨fun c hc ↦ ?_, fun c hc ↦ prev_setNext (h.apart hc hmem),
      fun x hx ↦ setNext_mem (hx _ hmem), ?_⟩
    · exact (next_setNext (h.apart hc hmem) (load_lt s _)).trans (if_congr eq_comm rfl rfl)
    · rw [if_neg fun hc ↦ hp ((h.prev_eq_zero_iff hb).mpr hc)]
      rfl

theorem remove : FreeList (freeListRemove s block) (fl.erase block) ∧
    ∀ x, (∀ c ∈ fl, x < c + 8 ∨ c + 24 ≤ x) → (freeListRemove s block).mem x = s.mem x := by
  obtain ⟨s₁, hs₁⟩ : ∃ s₁, s₁ = if s.prev block ≠ 0 then s.setNext (s.prev block) (s.next block)
      else { s with freeList := s.next block } := ⟨_, rfl⟩
  obtain ⟨hnext, hprev, hmem, hhead⟩ := h.unlinkNext hb hs₁
  have hres : freeListRemove s block = if s.next block ≠ 0
      then s₁.setPrev (s.next block) (s.prev block) else s₁ := by
    rw [← hprev block hb, ← show s₁.next block = s.next block by
      rw [hnext block hb, if_neg (h.prev_ne_self hb)], hs₁]
    rfl
  have hspaced : ∀ c ∈ fl, s.next block ≠ 0 → NodesApart c (s.next block) := fun c hc hne ↦
    h.apart hc (h.next_mem hb hne)
  rw [hres]
  refine ⟨⟨?_, h.nodup.erase _, fun c hc ↦ h.small c (List.mem_of_mem_erase hc),
    fun c hc d hd ↦ h.spaced c (List.mem_of_mem_erase hc) d (List.mem_of_mem_erase hd)⟩,
    fun x hx ↦ (linkBack_mem fun hne ↦ hx _ (h.next_mem hb hne)).trans (hmem x hx)⟩
  have hhead' : (if s.next block ≠ 0 then s₁.setPrev (s.next block) (s.prev block)
      else s₁).freeList = if s.freeList = block then s.next block else s.freeList := by
    rw [← hhead]
    split_ifs <;> rfl
  rw [hhead']
  refine h.linked.erase h.nodup_zero hb (fun c hc _ ↦ ?_) fun c hc _ ↦ ?_
  · rw [next_linkBack (hspaced c hc), hnext c hc]
    exact if_congr (h.linked.next_eq_iff h.nodup_zero hc hb).symm rfl rfl
  · have hlt : s.prev block < 2 ^ 64 := load_lt s _
    rw [prev_linkBack (hspaced c hc) hlt (h.linked.ne_null hc), hprev c hc]
    exact if_congr (eq_comm.trans (h.linked.next_eq_iff h.nodup_zero hb hc)) rfl rfl

end Remove

end FreeList

end SeedOS.Kheap
