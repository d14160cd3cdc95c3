import SeedOS.Foundation.Walk
import SeedOS.Memory.CopySpec
import SeedOS.Memory.TableChain

namespace SeedOS.Memory

open Foundation Function

/-- What `vmm_free_user_address_space` does, one after another: it reads an entry of a table, or
calls `pmm_free`. -/
inductive TeardownOp
  | read (table : ℕ) (i : Fin 512)
  | free (phys : Word)
  deriving DecidableEq

section Trace

/-- One slot of a loop. The entry is read again for the call of `pmm_free`. -/
def teardownSlot (mem : ℕ → Fin 512 → Word) (table : ℕ) (below : Fin 512 → List TeardownOp)
    (i : Fin 512) : List TeardownOp :=
  .read table i ::
    if hasFlag (mem table i) ptePresent then
      below i ++ [.read table i, .free (mem table i &&& pteAddrMask)]
    else []

def teardownTables (mem : ℕ → Fin 512 → Word) : ℕ → ℕ → List (Fin 512) → List TeardownOp
  | 0, table, slots => slots.flatMap (teardownSlot mem table fun _ ↦ [])
  | level + 1, table, slots =>
    slots.flatMap (teardownSlot mem table fun i ↦
      .read table i :: teardownTables mem level (frameOf (mem table i)) (List.finRange 512))

def teardown (mem : ℕ → Fin 512 → Word) (pml4Phys : Word) : List TeardownOp :=
  teardownTables mem 3 (pageOf pml4Phys) userSlots ++ [.free pml4Phys]

end Trace

section Replay

def replay (p : Pmm) : List TeardownOp → Pmm
  | [] => p
  | .read _ _ :: ops => replay p ops
  | .free phys :: ops => replay (pmmFree p phys) ops

def freed : List TeardownOp → List ℕ
  | [] => []
  | .read _ _ :: ops => freed ops
  | .free phys :: ops => pageOf phys :: freed ops

/-- Every table is read while it is marked, and every call of `pmm_free` succeeds. -/
inductive Safe : Pmm → List TeardownOp → Prop
  | nil {p : Pmm} : Safe p []
  | read {p : Pmm} {table : ℕ} {i : Fin 512} {ops : List TeardownOp} :
      p.Marked table → Safe p ops → Safe p (.read table i :: ops)
  | free {p : Pmm} {phys : Word} {ops : List TeardownOp} :
      pmmFreeError p phys = none → Safe (pmmFree p phys) ops → Safe p (.free phys :: ops)

variable {p : Pmm} {g : ℕ}

theorem safe_read {table : ℕ} {i : Fin 512} {ops : List TeardownOp} :
    Safe p (.read table i :: ops) ↔ p.Marked table ∧ Safe p ops := by
  constructor
  · intro h
    cases h with
    | read ht hops => exact ⟨ht, hops⟩
  · exact fun h ↦ .read h.1 h.2

theorem safe_free {phys : Word} {ops : List TeardownOp} :
    Safe p (.free phys :: ops) ↔ pmmFreeError p phys = none ∧ Safe (pmmFree p phys) ops := by
  constructor
  · intro h
    cases h with
    | free he hops => exact ⟨he, hops⟩
  · exact fun h ↦ .free h.1 h.2

theorem replay_append (p : Pmm) (ops ops' : List TeardownOp) :
    replay p (ops ++ ops') = replay (replay p ops) ops' := by
  induction ops generalizing p with
  | nil => rfl
  | cons op ops ih =>
    cases op with
    | read table i => exact ih p
    | free phys => exact ih (pmmFree p phys)

theorem freed_append (ops ops' : List TeardownOp) :
    freed (ops ++ ops') = freed ops ++ freed ops' := by
  induction ops with
  | nil => rfl
  | cons op ops ih =>
    cases op with
    | read table i => exact ih
    | free phys => exact congrArg (pageOf phys :: ·) ih

theorem safe_append (p : Pmm) (ops ops' : List TeardownOp) :
    Safe p (ops ++ ops') ↔ Safe p ops ∧ Safe (replay p ops) ops' := by
  induction ops generalizing p with
  | nil => exact ⟨fun h ↦ ⟨.nil, h⟩, And.right⟩
  | cons op ops ih =>
    cases op with
    | read table i => simp only [List.cons_append, safe_read, replay, ih, and_assoc]
    | free phys => simp only [List.cons_append, safe_free, replay, ih, and_assoc]

theorem marked_of_no_error {phys : Word} (h : pmmFreeError p phys = none) :
    phys = pageAddr (pageOf phys) ∧ p.Marked (pageOf phys) := by
  unfold pmmFreeError at h
  split_ifs at h with halign hrange hbit
  refine ⟨?_, Nat.not_le.mp hrange, (Bool.not_eq_false _).mp hbit⟩
  have hlow := congrArg BitVec.toNat (not_not.mp halign)
  rw [BitVec.toNat_and, show (0xFFF#64).toNat = 2 ^ 12 - 1 from rfl,
    Nat.and_two_pow_sub_one_eq_mod] at hlow
  apply BitVec.eq_of_toNat_eq
  have hlt := phys.isLt
  rw [pageAddr_toNat (by unfold pageOf; omega), pageOf]
  simp only [BitVec.toNat_zero] at hlow
  omega

structure Released (p p' : Pmm) (frames : List ℕ) : Prop where
  total : p'.totalPages = p.totalPages
  count : p'.freePages = p.freePages + BitVec.ofNat 64 frames.length
  used : ∀ g, bitmapIsUsed p'.bitmap g = true ↔ bitmapIsUsed p.bitmap g = true ∧ g ∉ frames
  nodup : frames.Nodup
  marked : ∀ g ∈ frames, p.Marked g

theorem Released.cons {p' : Pmm} {phys : Word} {frames : List ℕ}
    (hfree : pmmFreeError p phys = none) (h : Released (pmmFree p phys) p' frames) :
    Released p p' (pageOf phys :: frames) := by
  obtain ⟨hphys, hmarked⟩ := marked_of_no_error hfree
  obtain ⟨-, htotal, hcount, hbits⟩ := pmmFree_marked hmarked
  rw [← hphys] at htotal hcount hbits
  have hnot : pageOf phys ∉ frames := by
    intro hmem
    have hbit := (h.marked _ hmem).2
    simp [hbits] at hbit
  refine ⟨h.total.trans htotal, ?_, fun g ↦ ?_, List.nodup_cons.mpr ⟨hnot, h.nodup⟩, ?_⟩
  · rw [h.count, hcount, List.length_cons, BitVec.add_assoc, ← BitVec.ofNat_add, Nat.add_comm 1]
  · rw [h.used, hbits, List.mem_cons]
    simp only [Bool.and_eq_true, decide_eq_true_eq]
    tauto
  · intro g hg
    rcases List.mem_cons.mp hg with rfl | hg
    · exact hmarked
    · have hlater := h.marked g hg
      refine ⟨htotal ▸ hlater.1, ?_⟩
      have hbit := hlater.2
      rw [hbits, Bool.and_eq_true] at hbit
      exact hbit.2

theorem Safe.released {ops : List TeardownOp} (h : Safe p ops) :
    Released p (replay p ops) (freed ops) := by
  induction h with
  | nil =>
    exact ⟨rfl, by simp [replay, freed], fun g ↦ by simp [replay, freed], List.nodup_nil,
      fun g hg ↦ absurd hg List.not_mem_nil⟩
  | read _ _ ih => exact ih
  | free he _ ih => exact .cons he ih

theorem Safe.not_freed {pre post : List TeardownOp} {table : ℕ} {i : Fin 512}
    (h : Safe p (pre ++ .read table i :: post)) : table ∉ freed pre := by
  obtain ⟨hpre, hread⟩ := (safe_append p pre _).mp h
  exact ((hpre.released.used table).mp (safe_read.mp hread).1.2).2

end Replay

section Model

theorem freeLoop_eq {mem : ℕ → Fin 512 → Word} {table : ℕ} {free : Pmm → Word → Pmm}
    {below : Fin 512 → List TeardownOp}
    (hfree : ∀ p i, free p (mem table i) =
      pmmFree (replay p (below i)) (mem table i &&& pteAddrMask))
    (slots : List (Fin 512)) (p : Pmm) :
    freeLoop free (mem table) slots p = replay p (slots.flatMap (teardownSlot mem table below)) := by
  induction slots generalizing p with
  | nil => rfl
  | cons i slots ih =>
    rw [freeLoop, List.flatMap_cons, replay_append, teardownSlot, replay]
    by_cases hp : hasFlag (mem table i) ptePresent = true
    · rw [if_pos hp, if_pos hp, ih, hfree, replay_append]
      rfl
    · rw [if_neg hp, if_neg hp, ih]
      rfl

theorem freeTables_eq (mem : ℕ → Fin 512 → Word) (level : ℕ) (p : Pmm) (table : ℕ)
    (slots : List (Fin 512)) :
    freeTables mem level p table slots = replay p (teardownTables mem level table slots) := by
  induction level generalizing p table slots with
  | zero => exact freeLoop_eq (fun p i ↦ rfl) slots p
  | succ level ih =>
    refine freeLoop_eq (fun p i ↦ ?_) slots p
    rw [ih, replay]

theorem vmmFreeUserAddressSpace_replay (s : Vm) (pml4Phys : Word) :
    (vmmFreeUserAddressSpace s pml4Phys).pmm = replay s.pmm (teardown s.mem pml4Phys) := by
  rw [vmmFreeUserAddressSpace, freeTables_eq, teardown, replay_append]
  rfl

end Model

section Frames

variable {mem : ℕ → Fin 512 → Word} {g : ℕ}

theorem mem_freed_slot {table : ℕ} {below : Fin 512 → List TeardownOp} {i : Fin 512} :
    g ∈ freed (teardownSlot mem table below i) ↔
      hasFlag (mem table i) ptePresent = true ∧ (g ∈ freed (below i) ∨ g = frameOf (mem table i)) := by
  rw [teardownSlot, freed]
  by_cases hp : hasFlag (mem table i) ptePresent = true
  · rw [if_pos hp, freed_append]
    simp [freed, frameOf, hp]
  · rw [if_neg hp]
    simp [freed, hp]

theorem mem_freed_flatMap {f : Fin 512 → List TeardownOp} {slots : List (Fin 512)} :
    g ∈ freed (slots.flatMap f) ↔ ∃ i ∈ slots, g ∈ freed (f i) := by
  induction slots with
  | nil => simp [freed]
  | cons i slots ih => simp [List.flatMap_cons, freed_append, ih]

theorem below_iff {level table : ℕ} {slots : List (Fin 512)} :
    Below mem level table slots g ↔ ∃ i ∈ slots, Below mem level table [i] g := by
  simp [Below]

theorem mem_freed_tables (level table : ℕ) (slots : List (Fin 512)) :
    g ∈ freed (teardownTables mem level table slots) ↔ Below mem level table slots g := by
  induction level generalizing table slots with
  | zero =>
    rw [teardownTables, mem_freed_flatMap, below_iff]
    refine exists_congr fun i ↦ and_congr_right fun _ ↦ ?_
    rw [mem_freed_slot]
    by_cases hp : hasFlag (mem table i) ptePresent = true
    · rw [below_leaf hp]
      simp [freed, hp]
    · rw [Bool.not_eq_true] at hp
      simp [hp, below_absent hp g]
  | succ level ih =>
    rw [teardownTables, mem_freed_flatMap, below_iff]
    refine exists_congr fun i ↦ and_congr_right fun _ ↦ ?_
    rw [mem_freed_slot, freed, ih]
    by_cases hp : hasFlag (mem table i) ptePresent = true
    · rw [below_present hp]
      simp only [hp, true_and, or_comm]
    · rw [Bool.not_eq_true] at hp
      simp [hp, below_absent hp g]

end Frames

section Walk

variable {mem : ℕ → Fin 512 → Word} {p : Pmm}

/-- No frame is reached on two ways from `table` through the slots. -/
def Separate (mem : ℕ → Fin 512 → Word) (level table : ℕ) (slots : List (Fin 512)) : Prop :=
  ∀ q q' g, Starts slots q → Starts slots q' → q.length ≤ level + 1 → q'.length ≤ level + 1 →
    tableAt entryNext mem table q = some g → tableAt entryNext mem table q' = some g → q = q'

namespace Separate

variable {level table : ℕ} {i : Fin 512} {slots : List (Fin 512)}

theorem mono {slots' : List (Fin 512)} (h : Separate mem level table slots)
    (hsub : ∀ i ∈ slots', i ∈ slots) : Separate mem level table slots' :=
  fun q q' g hq hq' ↦ h q q' g (hq.mono hsub) (hq'.mono hsub)

theorem child (h : Separate mem (level + 1) table [i])
    (hp : hasFlag (mem table i) ptePresent = true) :
    Separate mem level (frameOf (mem table i)) (List.finRange 512) := by
  have he : entryNext (mem table i) = some (frameOf (mem table i)) := entryNext_some.mpr ⟨hp, rfl⟩
  intro q q' g _ _ hl hl' ht ht'
  have hcons := h (i :: q) (i :: q') g (starts_cons.mpr List.mem_cons_self)
    (starts_cons.mpr List.mem_cons_self) (Nat.succ_le_succ hl) (Nat.succ_le_succ hl')
    (by rw [tableAt, he]; exact ht) (by rw [tableAt, he]; exact ht')
  exact (List.cons.inj hcons).2

theorem not_below_self (h : Separate mem level table slots) :
    ¬Below mem level table slots table := by
  rintro ⟨i, hi, q, hq, ht⟩
  have hnil := h [] (i :: q) table starts_nil (starts_cons.mpr hi) (Nat.zero_le _)
    (Nat.succ_le_succ hq) rfl ht
  cases hnil

theorem apart (h : Separate mem level table (i :: slots)) (hnodup : (i :: slots).Nodup) {g : ℕ}
    (hg : g = table ∨ Below mem level table slots g) : ¬Below mem level table [i] g := by
  rcases hg with rfl | ⟨k, hk, q', hq', ht'⟩
  · exact (h.mono (by simp)).not_below_self
  · rintro ⟨j, hj, q, hq, ht⟩
    obtain rfl := List.mem_singleton.mp hj
    have heq := h (k :: q') (j :: q) g (starts_cons.mpr (List.mem_cons_of_mem j hk))
      (starts_cons.mpr List.mem_cons_self) (Nat.succ_le_succ hq') (Nat.succ_le_succ hq) ht' ht
    obtain rfl := (List.cons.inj heq).1
    exact (List.nodup_cons.mp hnodup).1 hk

end Separate

theorem Released.marked_of_not_mem {p' : Pmm} {frames : List ℕ} {g : ℕ} (h : Released p p' frames)
    (hg : p.Marked g) (hnot : g ∉ frames) : p'.Marked g :=
  ⟨h.total ▸ hg.1, (h.used g).mpr ⟨hg.2, hnot⟩⟩

theorem teardownSlot_safe {table : ℕ} {below : Fin 512 → List TeardownOp} {i : Fin 512}
    (ht : p.Marked table)
    (hbelow : hasFlag (mem table i) ptePresent = true → Safe p (below i) ∧
      table ∉ freed (below i) ∧ p.Marked (frameOf (mem table i)) ∧
      frameOf (mem table i) ∉ freed (below i)) : Safe p (teardownSlot mem table below i) := by
  refine .read ht ?_
  by_cases hp : hasFlag (mem table i) ptePresent = true
  · obtain ⟨hsafe, htable, hframe, hnot⟩ := hbelow hp
    rw [if_pos hp, safe_append]
    refine ⟨hsafe, .read (hsafe.released.marked_of_not_mem ht htable) (.free ?_ .nil)⟩
    rw [← pageAddr_frameOf]
    exact (pmmFree_marked (hsafe.released.marked_of_not_mem hframe hnot)).1
  · rw [if_neg hp]
    exact .nil

theorem teardownLoop_safe {level table : ℕ} {f : Fin 512 → List TeardownOp}
    (hfreed : ∀ i g, g ∈ freed (f i) ↔ Below mem level table [i] g)
    (hslot : ∀ (p : Pmm) (i : Fin 512), Separate mem level table [i] → p.Marked table →
      (∀ g, Below mem level table [i] g → p.Marked g) → Safe p (f i))
    {slots : List (Fin 512)} (hnodup : slots.Nodup) (hsep : Separate mem level table slots)
    (ht : p.Marked table) (hmarked : ∀ g, Below mem level table slots g → p.Marked g) :
    Safe p (slots.flatMap f) := by
  induction slots generalizing p with
  | nil => exact .nil
  | cons i slots ih =>
    have hcons := below_cons mem level table i slots
    have hi : Safe p (f i) := hslot p i (hsep.mono (by simp)) ht fun g hg ↦
      hmarked g ((hcons g).mpr (.inl hg))
    have hkeep : ∀ g, p.Marked g → (g = table ∨ Below mem level table slots g) →
        (replay p (f i)).Marked g := fun g hg hcase ↦
      hi.released.marked_of_not_mem hg fun hmem ↦ hsep.apart hnodup hcase ((hfreed i g).mp hmem)
    rw [List.flatMap_cons, safe_append]
    refine ⟨hi, ih (List.nodup_cons.mp hnodup).2 (hsep.mono fun _ ↦ List.mem_cons_of_mem i)
      (hkeep table ht (.inl rfl)) fun g hg ↦ ?_⟩
    exact hkeep g (hmarked g ((hcons g).mpr (.inr hg))) (.inr hg)

theorem teardownTables_safe {level table : ℕ} {slots : List (Fin 512)} (hnodup : slots.Nodup)
    (hsep : Separate mem level table slots) (ht : p.Marked table)
    (hmarked : ∀ g, Below mem level table slots g → p.Marked g) :
    Safe p (teardownTables mem level table slots) := by
  have hfreed (level table : ℕ) (i : Fin 512) (g : ℕ) :
      g ∈ freed (teardownTables mem level table [i]) ↔ Below mem level table [i] g :=
    mem_freed_tables level table [i]
  induction level generalizing p table slots with
  | zero =>
    refine teardownLoop_safe (fun i g ↦ ?_) (fun p i hsep ht hmarked ↦ ?_) hnodup hsep ht hmarked
    · simpa [teardownTables] using hfreed 0 table i g
    · refine teardownSlot_safe ht fun hp ↦ ⟨.nil, List.not_mem_nil, ?_, List.not_mem_nil⟩
      exact hmarked _ ((below_leaf hp _).mpr rfl)
  | succ level ih =>
    refine teardownLoop_safe (fun i g ↦ ?_) (fun p i hsep ht hmarked ↦ ?_) hnodup hsep ht hmarked
    · simpa [teardownTables] using hfreed (level + 1) table i g
    · refine teardownSlot_safe ht fun hp ↦ ?_
      have hbelow (g : ℕ) : Below mem (level + 1) table [i] g ↔ _ := below_present hp g
      have hchild := hsep.child hp
      have hframe : p.Marked (frameOf (mem table i)) := hmarked _ ((hbelow _).mpr (.inl rfl))
      have hinner : Safe p (teardownTables mem level (frameOf (mem table i)) (List.finRange 512)) :=
        ih (List.nodup_finRange 512) hchild hframe fun g hg ↦ hmarked g ((hbelow g).mpr (.inr hg))
      refine ⟨.read ht hinner, fun hmem ↦ ?_, hframe, fun hmem ↦ ?_⟩
      · exact hsep.not_below_self ((hbelow _).mpr (.inr ((mem_freed_tables _ _ _).mp hmem)))
      · exact hchild.not_below_self ((mem_freed_tables _ _ _).mp hmem)

end Walk

def KernelTable (mem : ℕ → Fin 512 → Word) (r g : ℕ) : Prop :=
  ∃ p : List (Fin 512), p ≠ [] ∧ KernelPath p ∧ tableAt kernelNext mem r p = some g

/-- The frames of the user half of the address space at `r` are marked and pairwise distinct, and
apart from the tables of the kernel half. -/
structure Unshared (s : Vm) (r : ℕ) : Prop where
  marked : ∀ g, Reached s.mem r g → s.pmm.Marked g
  distinct : ∀ p q g, UserPath p → UserPath q → p.length ≤ 4 → q.length ≤ 4 →
    tableAt entryNext s.mem r p = some g → tableAt entryNext s.mem r q = some g → p = q
  kernel : ∀ g, KernelTable s.mem r g → ¬Reached s.mem r g

section Space

variable {s : Vm} {r : ℕ}

theorem Unshared.safe (h : Unshared s r) : Safe s.pmm (teardown s.mem (pageAddr r)) := by
  have hroot : s.pmm.Marked r := h.marked r (reached_iff.mpr (.inr rfl))
  have hle := s.pmm.totalPages_le
  have hlt := hroot.1
  have hsep : Separate s.mem 3 r userSlots := fun q q' g hq hq' ↦
    h.distinct q q' g (starts_userSlots.mp hq) (starts_userSlots.mp hq')
  have hsafe : Safe s.pmm (teardownTables s.mem 3 r userSlots) :=
    teardownTables_safe userSlots_nodup hsep hroot fun g hg ↦
      h.marked g (reached_iff.mpr (.inl hg))
  have hlast : (replay s.pmm (teardownTables s.mem 3 r userSlots)).Marked r :=
    hsafe.released.marked_of_not_mem hroot fun hmem ↦
      hsep.not_below_self ((mem_freed_tables _ _ _).mp hmem)
  rw [teardown, pageOf_pageAddr (by omega), safe_append]
  exact ⟨hsafe, .free (pmmFree_marked hlast).1 .nil⟩

theorem mem_freed_teardown (hr : r < 2 ^ 52) (g : ℕ) :
    g ∈ freed (teardown s.mem (pageAddr r)) ↔ Reached s.mem r g := by
  rw [teardown, freed_append, List.mem_append, pageOf_pageAddr hr, mem_freed_tables, reached_iff]
  simp [freed, pageOf_pageAddr hr]

end Space

section Ownership

variable {s : Vm} {roots : Set ℕ} {role : Roles} {r : ℕ}

theorem Inv.kernelTable_reserved (h : Inv s roots role) (hr : r ∈ roots) {g : ℕ}
    (hg : KernelTable s.mem r g) : role g = .reserved := by
  obtain ⟨p, hne, hp, ht⟩ := hg
  refine h.kernelTable hp ?_
  cases p with
  | nil => exact absurd rfl hne
  | cons i p =>
    rw [tableAt, ← h.kernelHalf r hr i (hp.2 i rfl)]
    exact ht

theorem Inv.unshared (h : Inv s roots role) (hr : r ∈ roots)
    (hsole : ∀ σ σ' : Site, σ.Valid roots → σ'.Valid roots → σ.root = r → σ'.root = r → ∀ f,
      entryNext (leafEntry s.mem σ) = some f → entryNext (leafEntry s.mem σ') = some f → σ = σ') :
    Unshared s r := by
  have hcase : ∀ p g, UserPath p → p.length ≤ 4 → tableAt entryNext s.mem r p = some g →
      role g = .table r p ∨ role g = .data ∧ ∃ q i, p = q ++ [i] ∧ (⟨r, q, i⟩ : Site).Valid roots ∧
        entryNext (leafEntry s.mem ⟨r, q, i⟩) = some g := by
    intro p g hu hl ht
    by_cases hl3 : p.length ≤ 3
    · exact .inl ((h.tableAt_iff hr hu hl3).mp ht)
    rcases List.eq_nil_or_concat p with rfl | ⟨q, i, rfl⟩
    · exact absurd (Nat.zero_le 3) hl3
    rw [List.concat_eq_append] at hu hl hl3 ht ⊢
    simp only [List.length_append, List.length_singleton] at hl hl3
    rw [tableAt_concat] at ht
    obtain ⟨t, ht, hn⟩ := Option.bind_eq_some_iff.mp ht
    have hlen : q.length = 3 := by omega
    have hvalid : (⟨r, q, i⟩ : Site).Valid roots := ⟨hr, UserPath.dropLast q i hu, hlen⟩
    have hleaf : entryNext (leafEntry s.mem ⟨r, q, i⟩) = some g := by
      simpa only [leafEntry, ht] using hn
    exact .inr ⟨h.leafEntry_data hvalid hleaf, q, i, rfl, hvalid, hleaf⟩
  refine ⟨fun g hg ↦ (h.owned_of_reached hr hg).2, fun p q g hp hq hlp hlq htp htq ↦ ?_,
    fun g hg hre ↦ ?_⟩
  · rcases hcase p g hp hlp htp with hrole | ⟨hdata, p', i, rfl, hvalid, hleaf⟩
    · rcases hcase q g hq hlq htq with hrole' | ⟨hdata', -⟩
      · rw [hrole] at hrole'
        injection hrole'
      · rw [hrole] at hdata'
        cases hdata'
    · rcases hcase q g hq hlq htq with hrole' | ⟨-, q', j, rfl, hvalid', hleaf'⟩
      · rw [hdata] at hrole'
        cases hrole'
      · have hsite := hsole _ _ hvalid hvalid' rfl rfl g hleaf hleaf'
        injection hsite with _ hpath hindex
        rw [hpath, hindex]
  · have hres := h.kernelTable_reserved hr hg
    rcases h.reached_cases hr hre with ⟨p, hp⟩ | ⟨σ, hσ, _, hn⟩
    · rw [hres] at hp
      cases hp
    · rw [h.leafEntry_data hσ hn] at hres
      cases hres

end Ownership

/-- `vmm_free_user_address_space` on an address space that shares no frame: it clears the bits of
its frames and no others, each with one successful `pmm_free`, and reads no table after it has
freed it. -/
theorem teardown_frees_once {s : Vm} {r : ℕ} (h : Unshared s r) :
    let s' := vmmFreeUserAddressSpace s (pageAddr r)
    let ops := teardown s.mem (pageAddr r)
    s'.pmm = replay s.pmm ops ∧
      (∀ g, bitmapIsUsed s'.pmm.bitmap g = true ↔
        bitmapIsUsed s.pmm.bitmap g = true ∧ ¬Reached s.mem r g) ∧
      s'.pmm.freePages = s.pmm.freePages + BitVec.ofNat 64 {g | Reached s.mem r g}.ncard ∧
      (freed ops).Nodup ∧ (∀ g, g ∈ freed ops ↔ Reached s.mem r g) ∧
      (∀ pre phys post, ops = pre ++ .free phys :: post →
        pmmFreeError (replay s.pmm pre) phys = none) ∧
      (∀ pre table i post, ops = pre ++ .read table i :: post → table ∉ freed pre) ∧
      ∀ g, KernelTable s.mem r g → s.pmm.Marked g → s'.pmm.Marked g := by
  intro s' ops
  have hsafe : Safe s.pmm ops := h.safe
  have hr : r < 2 ^ 52 := by
    have hle := s.pmm.totalPages_le
    have hlt := (h.marked r (reached_iff.mpr (.inr rfl))).1
    omega
  have hmem : ∀ g, g ∈ freed ops ↔ Reached s.mem r g := mem_freed_teardown hr
  have hreplay : s'.pmm = replay s.pmm ops := vmmFreeUserAddressSpace_replay s (pageAddr r)
  have hreleased : Released s.pmm s'.pmm (freed ops) := hreplay ▸ hsafe.released
  clear_value s' ops
  refine ⟨hreplay, fun g ↦ ?_, ?_, hreleased.nodup, hmem, ?_, ?_, fun g hg hmarked ↦ ?_⟩
  · rw [hreleased.used, hmem]
  · have hset : {g | Reached s.mem r g} = ↑(freed ops).toFinset := by
      ext g
      simpa using (hmem g).symm
    rw [hreleased.count, hset, Set.ncard_coe_finset, List.toFinset_card_of_nodup hreleased.nodup]
  · intro pre phys post heq
    exact (safe_free.mp ((safe_append s.pmm pre _).mp (heq ▸ hsafe)).2).1
  · intro pre table i post heq
    exact (show Safe s.pmm (pre ++ .read table i :: post) from heq ▸ hsafe).not_freed
  · exact hreleased.marked_of_not_mem hmarked fun hin ↦ h.kernel g hg ((hmem g).mp hin)

theorem onePageVm_unshared : Unshared onePageVm 3 := by
  have hsite : ∀ σ : Site, σ.Valid {3} → ∀ f, entryNext (leafEntry onePageVm.mem σ) = some f →
      σ = ⟨3, [0, 0, 2], 0⟩ := by
    rintro ⟨r, q, i⟩ hσ f hf
    obtain rfl : r = 3 := hσ.root
    unfold leafEntry at hf
    dsimp only at hf
    cases ht : tableAt entryNext onePageVm.mem 3 q with
    | none =>
      rw [ht, entryNext_zero] at hf
      cases hf
    | some t =>
      have hrole := (onePageVm_inv.tableAt_iff hσ.root hσ.user hσ.length.le).mp ht
      have hlen := hσ.length
      obtain ⟨-, ⟨rfl, rfl⟩ | ⟨rfl, rfl⟩ | ⟨rfl, rfl⟩ | ⟨rfl, rfl⟩⟩ := tableRole_table.mp hrole
      · cases hlen
      · cases hlen
      · cases hlen
      · rw [ht] at hf
        rw [(onePageVm_leaf hf).1]
  refine onePageVm_inv.unshared rfl fun σ σ' hσ hσ' _ _ f hf hf' ↦ ?_
  rw [hsite σ hσ f hf, hsite σ' hσ' f hf']

theorem teardown_onePageVm : Unshared onePageVm 3 ∧
    (freed (teardown onePageVm.mem (pageAddr 3))).Nodup :=
  ⟨onePageVm_unshared, (teardown_frees_once onePageVm_unshared).2.2.2.1⟩

end SeedOS.Memory
