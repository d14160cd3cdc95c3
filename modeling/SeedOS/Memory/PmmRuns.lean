import SeedOS.Memory.PmmCount

namespace SeedOS.Memory

open Foundation Function

/-- What the boot protocol guarantees about usable entries: they consist of whole
pages and do not overlap. -/
structure BootMap (entries : List MemmapEntry) : Prop where
  aligned : ∀ e ∈ entries, e.Usable → e.base.toNat % 4096 = 0 ∧ e.length.toNat % 4096 = 0
  disjoint : entries.Pairwise fun a b ↦ a.Usable → b.Usable → ∀ x, ¬ (a.Has x ∧ b.Has x)

def UsablePage (entries : List MemmapEntry) (i : ℕ) : Prop :=
  ∃ e ∈ entries, e.Usable ∧ e.Has (i * 4096)

theorem BootMap.has_iff {entries : List MemmapEntry} (h : BootMap entries) {e : MemmapEntry}
    (he : e ∈ entries) (hu : e.Usable) (i : ℕ) :
    e.Has (i * 4096) ↔ e.base.toNat / 4096 ≤ i ∧ i < e.base.toNat / 4096 + e.length.toNat / 4096 := by
  obtain ⟨h₁, h₂⟩ := h.aligned e he hu
  unfold MemmapEntry.Has
  omega

theorem BootMap.tail {e : MemmapEntry} {es : List MemmapEntry} (h : BootMap (e :: es)) :
    BootMap es :=
  ⟨fun a ha ↦ h.aligned a (List.mem_cons_of_mem _ ha), (List.pairwise_cons.mp h.disjoint).2⟩

theorem end_le_totalPages {entries : List MemmapEntry} (h : BootMap entries) {e : MemmapEntry}
    (he : e ∈ entries) (hu : e.Usable) :
    e.base.toNat / 4096 + e.length.toNat / 4096 ≤ totalPages entries := by
  have hle := (highestAddr_spec entries 0#64 (by decide)).2.2 e he hu
  obtain ⟨h₁, h₂⟩ := h.aligned e he hu
  rw [totalPages_eq]
  omega

theorem freeEntries_marks {n : ℕ} (hn : n ≤ 2 ^ 40) {entries : List MemmapEntry}
    (hmap : BootMap entries) {c : Counted} (h : c.Ok n)
    (hend : ∀ e ∈ entries, e.Usable → e.base.toNat / 4096 + e.length.toNat / 4096 ≤ n)
    (hu : ∀ i, UsablePage entries i → bitmapIsUsed c.bitmap i = true) :
    Marks n (UsablePage entries) false c (freeEntries entries c) := by
  induction entries generalizing c with
  | nil => exact ⟨Traced.all_pure _, h, fun j ⟨e, he, _⟩ ↦ by simp at he, fun j _ ↦ rfl⟩
  | cons e es ih =>
    have hrest : ∀ j, UsablePage (e :: es) j ↔ (e.Usable ∧ e.Has (j * 4096)) ∨ UsablePage es j := by
      intro j
      simp [UsablePage]
    have hend' := fun a ha ↦ hend a (List.mem_cons_of_mem e ha)
    rw [freeEntries]
    by_cases he : e.Usable
    · rw [if_pos he]
      have hhas := hmap.has_iff List.mem_cons_self he
      have hfree := freeRange_marks hn h (hend e List.mem_cons_self he)
        (fun j h₁ h₂ ↦ hu j ((hrest j).mpr (.inl ⟨he, (hhas j).mpr ⟨h₁, h₂⟩⟩)))
      -- a page of a later entry is not in this one, so its bit is still set
      have hlater : ∀ j, UsablePage es j → ¬ e.Has (j * 4096) := by
        rintro j ⟨e', he', hu', hj⟩ hj'
        exact (List.pairwise_cons.mp hmap.disjoint).1 e' he' he hu' _ ⟨hj', hj⟩
      have hm := ih hmap.tail hfree.ok hend' (fun j hj ↦
        (hfree.kept j (fun hr ↦ hlater j hj ((hhas j).mpr hr))).trans (hu j ((hrest j).mpr (.inr hj))))
      refine ⟨(Traced.all_bind _ _).mpr ⟨hfree.inside, hm.inside⟩, hm.ok, fun j hj ↦ ?_, fun j hj ↦ ?_⟩
      · by_cases hj' : UsablePage es j
        · exact hm.marked j hj'
        · have hin := ((hrest j).mp hj).resolve_right hj'
          exact (hm.kept j hj').trans (hfree.marked j ((hhas j).mp hin.2))
      · have hj' := fun hj' ↦ hj ((hrest j).mpr (.inr hj'))
        have hin := fun hr ↦ hj ((hrest j).mpr (.inl ⟨he, (hhas j).mpr hr⟩))
        exact (hm.kept j hj').trans (hfree.kept j hin)
    · rw [if_neg he]
      have hm := ih hmap.tail h hend' (fun j hj ↦ hu j ((hrest j).mpr (.inr hj)))
      have hiff : ∀ j, UsablePage (e :: es) j ↔ UsablePage es j := by
        intro j
        rw [hrest]
        exact ⟨fun h ↦ h.resolve_left (fun h ↦ he h.1), .inr⟩
      exact ⟨hm.inside, hm.ok, fun j hj ↦ hm.marked j ((hiff j).mp hj),
        fun j hj ↦ hm.kept j (fun hj' ↦ hj ((hiff j).mpr hj'))⟩

def BitmapFits (entries : List MemmapEntry) : Prop :=
  ∃ e ∈ entries, e.Usable ∧ 0 < e.length.toNat ∧
    bitmapPages (totalPages entries) * 4096 ≤ e.length.toNat

theorem findBitmap_of_fits {entries : List MemmapEntry} (h : BitmapFits entries) :
    ∃ e, findBitmap (bitmapPages (totalPages entries)) entries = some e ∧ e ∈ entries ∧ e.Usable ∧
      bitmapPages (totalPages entries) * 4096 ≤ e.length.toNat := by
  unfold findBitmap
  cases hf : entries.find? fun e ↦
      e.Usable ∧ bitmapPages (totalPages entries) * 4096 ≤ e.length.toNat with
  | none =>
    obtain ⟨e, he, hu, _, hle⟩ := h
    exact absurd (decide_eq_true ⟨hu, hle⟩) (List.find?_eq_none.mp hf e he)
  | some e =>
    have hp := List.find?_some hf
    simp only [decide_eq_true_eq] at hp
    exact ⟨e, rfl, List.mem_of_find?_eq_some hf, hp.1, hp.2⟩

theorem totalPages_pos {entries : List MemmapEntry} (h : BitmapFits entries) :
    0 < totalPages entries := by
  obtain ⟨e, he, hu, hpos, _⟩ := h
  have hle := (highestAddr_spec entries 0#64 (by decide)).2.2 e he hu
  rw [totalPages_eq]
  omega

def PmmBoot.BitmapPage (boot : PmmBoot) (i : ℕ) : Prop :=
  boot.bitmapPhys.toNat / 4096 ≤ i ∧
    i < boot.bitmapPhys.toNat / 4096 + bitmapPages boot.pmm.totalPages

structure Pmm.Ok (s : Pmm) : Prop where
  count : s.freePages.toNat = clearPages s.bitmap s.totalPages
  beyond : ∀ i, s.totalPages ≤ i → i < 8 * bitmapSize s.totalPages → bitmapIsUsed s.bitmap i = true

theorem fillUsed_ok (n : ℕ) (bitmap : ℕ → BitVec 8) :
    (∀ i < 8 * bitmapSize n, bitmapIsUsed (fillUsed (bitmapSize n) 0 bitmap).val i = true) ∧
      Counted.Ok n ⟨(fillUsed (bitmapSize n) 0 bitmap).val, 0#64⟩ := by
  have hfill : ∀ i < 8 * bitmapSize n,
      bitmapIsUsed (fillUsed (bitmapSize n) 0 bitmap).val i = true := by
    intro i hi
    apply used_of_byte
    rw [fillUsed_val, if_pos (by omega)]
  refine ⟨hfill, ?_⟩
  unfold Counted.Ok clearPages
  rw [Finset.card_eq_zero.mpr]
  · rfl
  · apply Finset.filter_eq_empty_iff.mpr
    intro i hi
    have hlt := Finset.mem_range.mp hi
    simp [hfill i (by unfold bitmapSize; omega)]

theorem buildBitmap_spec {n : ℕ} (hn : n ≤ 2 ^ 40) (hpos : 0 < n) {entries : List MemmapEntry}
    (hmap : BootMap entries)
    (hend : ∀ e ∈ entries, e.Usable → e.base.toNat / 4096 + e.length.toNat / 4096 ≤ n)
    {phys : ℕ} (hroom : phys / 4096 + bitmapPages n ≤ n) (bitmap : ℕ → BitVec 8) :
    Inside n (buildBitmap entries n phys bitmap) ∧ (buildBitmap entries n phys bitmap).val.Ok n ∧
      ∀ i < 8 * bitmapSize n, bitmapIsUsed (buildBitmap entries n phys bitmap).val.bitmap i = false ↔
        UsablePage entries i ∧ ¬ (phys / 4096 ≤ i ∧ i < phys / 4096 + bitmapPages n) ∧ i ≠ 0 := by
  obtain ⟨hfill, hok⟩ := fillUsed_ok n bitmap
  have hbelow : ∀ i, UsablePage entries i → i < 8 * bitmapSize n := by
    rintro i ⟨e, he, hu, hi⟩
    have hi' := (hmap.has_iff he hu i).mp hi
    have he' := hend e he hu
    unfold bitmapSize
    omega
  have hfree := freeEntries_marks hn hmap hok hend (fun i hi ↦ hfill i (hbelow i hi))
  have hreserve := reserveRange_marks hn hfree.ok hroom
  have hzero := reservePage_marks hn hreserve.ok hpos
  refine ⟨?_, hzero.ok, fun i hi ↦ ?_⟩
  · simp only [buildBitmap, Traced.all_bind]
    exact ⟨fillUsed_inside bitmap (by omega), hfree.inside, hreserve.inside, hzero.inside⟩
  · show bitmapIsUsed (reservePage 0 _).val.bitmap i = false ↔ _
    by_cases h₀ : i = 0
    · rw [hzero.marked i h₀]
      simp [h₀]
    · rw [hzero.kept i h₀]
      by_cases hb : phys / 4096 ≤ i ∧ i < phys / 4096 + bitmapPages n
      · simp [hreserve.marked i hb, hb]
      · rw [hreserve.kept i hb]
        by_cases hu : UsablePage entries i
        · simp [hfree.marked i hu, hu, hb, h₀]
        · simp [hfree.kept i hu, hfill i hi, hu]

theorem pmmInit_spec {entries : List MemmapEntry} (hmap : BootMap entries)
    (hfits : BitmapFits entries) (bitmap : ℕ → BitVec 8) :
    ∃ boot, (pmmInit entries bitmap).val = some boot ∧
      boot.pmm.totalPages = totalPages entries ∧
      Inside boot.pmm.totalPages (pmmInit entries bitmap) ∧ boot.pmm.Ok ∧
      ∀ i < 8 * bitmapSize boot.pmm.totalPages, bitmapIsUsed boot.pmm.bitmap i = false ↔
        UsablePage entries i ∧ ¬ boot.BitmapPage i ∧ i ≠ 0 := by
  obtain ⟨e, hfind, he, hu, hlen⟩ := findBitmap_of_fits hfits
  have hend := end_le_totalPages hmap he hu
  obtain ⟨hin, hok, hbits⟩ := buildBitmap_spec (totalPages_le entries) (totalPages_pos hfits) hmap
    (fun e he hu ↦ end_le_totalPages hmap he hu)
    (show e.base.toNat / 4096 + bitmapPages (totalPages entries) ≤ totalPages entries by omega) bitmap
  unfold pmmInit
  rw [hfind]
  refine ⟨_, rfl, rfl, (Traced.all_bind _ _).mpr ⟨hin, Traced.all_pure _⟩, ⟨hok, fun i hi hlt ↦ ?_⟩, hbits⟩
  by_contra hc
  obtain ⟨⟨e', he', hu', hi'⟩, _⟩ := (hbits i hlt).mp (Bool.eq_false_iff.mpr hc)
  have hle := end_le_totalPages hmap he' hu'
  have hlt' := (hmap.has_iff he' hu' i).mp hi'
  dsimp only at hi
  omega

section Runs

inductive PmmCall
  | alloc
  | free (phys : Word)

def Pmm.call (s : Pmm) : PmmCall → Pmm
  | .alloc => (pmmAlloc s).2
  | .free phys => pmmFree s phys

def Pmm.calls (s : Pmm) (ops : List PmmCall) : Pmm := ops.foldl Pmm.call s

theorem pmmScanT_inside (bitmap : ℕ → BitVec 8) {i k n : ℕ} (h : i + k ≤ n) :
    Inside n (pmmScanT bitmap i k) := by
  induction k generalizing i with
  | zero => exact Traced.all_pure _
  | succ k ih =>
    rw [pmmScanT]
    refine (Traced.all_bind _ _).mpr ⟨(Traced.all_touch _ _).mpr (div_lt_bitmapSize (by omega)), ?_⟩
    split
    · exact ih (by omega)
    · exact Traced.all_pure _

theorem pmmAllocT_inside (s : Pmm) : Inside s.totalPages (pmmAllocT s) := by
  rw [pmmAllocT]
  refine (Traced.all_bind _ _).mpr ?_
  rw [pmmScanT_val]
  by_cases h₀ : s.totalPages = 0
  · simp [h₀, pmmScanT, pmmScan]
  · refine ⟨pmmScanT_inside s.bitmap (by omega), ?_⟩
    cases hscan : pmmScan s.bitmap 1 (s.totalPages - 1) with
    | none => exact Traced.all_pure _
    | some i =>
      have hi := (pmmScan_some hscan).2.1
      exact (Traced.all_bind _ _).mpr
        ⟨(Traced.all_touch _ _).mpr (div_lt_bitmapSize (by omega)), Traced.all_pure _⟩

theorem pmmFreeT_inside (s : Pmm) (phys : Word) : Inside s.totalPages (pmmFreeT s phys) := by
  unfold pmmFreeT
  split_ifs with h₁ h₂
  · exact Traced.all_pure _
  · exact Traced.all_pure _
  · have hlt := div_lt_bitmapSize (Nat.not_le.mp h₂)
    refine (Traced.all_bind _ _).mpr ⟨(Traced.all_touch _ _).mpr hlt, ?_⟩
    split
    · exact Traced.all_pure _
    · exact (Traced.all_bind _ _).mpr ⟨(Traced.all_touch _ _).mpr hlt, Traced.all_pure _⟩

theorem clearPages_congr {b b' : ℕ → BitVec 8} {n : ℕ}
    (h : ∀ i, bitmapIsUsed b i = bitmapIsUsed b' i) : clearPages b n = clearPages b' n := by
  simp only [clearPages, h]

theorem alloc_ok {s : Pmm} (h : s.Ok) :
    (pmmAlloc s).2.Ok ∧ (pmmAlloc s).2.totalPages = s.totalPages := by
  rcases pmmAlloc_cases s with ⟨he, _⟩ | ⟨f, s', he, hf, _, htotal, hcount, hbits⟩
  · rw [he]
    exact ⟨h, rfl⟩
  · rw [he]
    have hok : Counted.Ok s.totalPages ⟨s.bitmap, s.freePages⟩ := h.count
    have hmark := hok.markUsed s.totalPages_le hf.2.1 hf.2.2
    refine ⟨⟨?_, fun i hi hlt ↦ ?_⟩, htotal⟩
    · rw [hcount, htotal]
      refine Eq.trans hmark (clearPages_congr fun i ↦ ?_)
      rw [hbits, isUsed_markUsed]
    · rw [htotal] at hi hlt
      rw [hbits, h.beyond i hi hlt, Bool.or_true]

theorem pmmFree_cases (s : Pmm) (phys : Word) :
    pmmFree s phys = s ∨
    ∃ f, phys = pageAddr f ∧ f < s.totalPages ∧ bitmapIsUsed s.bitmap f = true ∧
      pmmFreeError s phys = none ∧
      pmmFree s phys = { s with bitmap := bitmapMarkFree s.bitmap f, freePages := s.freePages + 1#64 } := by
  unfold pmmFree
  cases he : pmmFreeError s phys with
  | some _ => exact .inl rfl
  | none =>
    unfold pmmFreeError at he
    split_ifs at he with h₁ h₂ h₃
    refine .inr ⟨phys.toNat / 4096, ?_, Nat.not_le.mp h₂, by simpa using h₃, rfl, rfl⟩
    have hmod : phys.toNat % 4096 = 0 := by
      have hz := congrArg BitVec.toNat (not_not.mp h₁)
      rwa [BitVec.toNat_and, show (0xFFF#64).toNat = 2 ^ 12 - 1 from rfl,
        Nat.and_two_pow_sub_one_eq_mod] at hz
    have hlt := phys.isLt
    apply BitVec.eq_of_toNat_eq
    rw [pageAddr_toNat (by omega)]
    omega

theorem free_ok {s : Pmm} (h : s.Ok) (phys : Word) :
    (pmmFree s phys).Ok ∧ (pmmFree s phys).totalPages = s.totalPages := by
  rcases pmmFree_cases s phys with he | ⟨f, _, hf, hu, _, he⟩
  · rw [he]
    exact ⟨h, rfl⟩
  · have hok : Counted.Ok s.totalPages ⟨s.bitmap, s.freePages⟩ := h.count
    have hmark := hok.markFree s.totalPages_le hf hu
    rw [he]
    refine ⟨⟨hmark, fun i hi hlt ↦ ?_⟩, rfl⟩
    dsimp only at hi hlt ⊢
    rw [isUsed_markFree, h.beyond i hi hlt, decide_eq_true (show i ≠ f by omega), Bool.and_self]

theorem call_ok {s : Pmm} (h : s.Ok) (op : PmmCall) :
    (s.call op).Ok ∧ (s.call op).totalPages = s.totalPages := by
  cases op with
  | alloc => exact alloc_ok h
  | free phys => exact free_ok h phys

theorem calls_ok {s : Pmm} (h : s.Ok) (ops : List PmmCall) :
    (s.calls ops).Ok ∧ (s.calls ops).totalPages = s.totalPages := by
  induction ops generalizing s with
  | nil => exact ⟨h, rfl⟩
  | cons op ops ih =>
    obtain ⟨hok, htotal⟩ := call_ok h op
    obtain ⟨hok', htotal'⟩ := ih hok
    exact ⟨hok', htotal'.trans htotal⟩

def Releases (s : Pmm) (phys : Word) (ops : List PmmCall) : Prop :=
  ∃ u v, ops = u ++ .free phys :: v ∧ pmmFreeError (s.calls u) phys = none

theorem Releases.cons {s : Pmm} {phys : Word} {op : PmmCall} {ops : List PmmCall}
    (h : Releases (s.call op) phys ops) : Releases s phys (op :: ops) := by
  obtain ⟨u, v, rfl, hn⟩ := h
  exact ⟨op :: u, v, rfl, hn⟩

theorem used_or_releases {s : Pmm} {f : ℕ} (hu : bitmapIsUsed s.bitmap f = true)
    (ops : List PmmCall) :
    bitmapIsUsed (s.calls ops).bitmap f = true ∨ Releases s (pageAddr f) ops := by
  induction ops generalizing s with
  | nil => exact .inl hu
  | cons op ops ih =>
    by_cases hop : bitmapIsUsed (s.call op).bitmap f = true
    · exact (ih hop).imp id Releases.cons
    · right
      cases op with
      | alloc =>
        exfalso
        apply hop
        rcases pmmAlloc_cases s with ⟨he, _⟩ | ⟨g, s', he, _, _, _, _, hbits⟩
        · simpa only [Pmm.call, he] using hu
        · simp only [Pmm.call, he, hbits, hu, Bool.or_true]
      | free phys =>
        rcases pmmFree_cases s phys with he | ⟨g, hphys, hg, _, hnone, he⟩
        · exact absurd (by simpa only [Pmm.call, he] using hu) hop
        · simp only [Pmm.call, he, isUsed_markFree, hu, Bool.and_true, decide_eq_true_eq,
            not_not] at hop
          subst hop
          exact ⟨[], ops, by rw [hphys]; rfl, hphys ▸ hnone⟩

structure Pmm.Correct (s : Pmm) : Prop where
  count : s.freePages.toNat = clearPages s.bitmap s.totalPages
  allocInside : Inside s.totalPages (pmmAllocT s)
  freeInside : ∀ phys, Inside s.totalPages (pmmFreeT s phys)
  failed : (pmmAlloc s).1 = 0#64 ↔
    ∀ i, 1 ≤ i → i < 8 * bitmapSize s.totalPages → bitmapIsUsed s.bitmap i = true
  lowest : (pmmAlloc s).1 ≠ 0#64 → ∃ f, (pmmAlloc s).1.toNat = f * 4096 ∧
    1 ≤ f ∧ f < s.totalPages ∧ bitmapIsUsed s.bitmap f = false ∧
    ∀ g, 1 ≤ g → g < f → bitmapIsUsed s.bitmap g = true

theorem Pmm.Ok.correct {s : Pmm} (h : s.Ok) : s.Correct := by
  refine ⟨h.count, pmmAllocT_inside s, pmmFreeT_inside s, ?_, ?_⟩
  · rcases pmmAlloc_cases s with ⟨he, hnone⟩ | ⟨f, s', he, hf, _⟩
    · rw [he]
      refine ⟨fun _ i hi hlt ↦ ?_, fun _ ↦ rfl⟩
      by_cases hit : i < s.totalPages
      · by_contra hc
        exact hnone i ⟨hi, hit, Bool.eq_false_iff.mpr hc⟩
      · exact h.beyond i (Nat.not_lt.mp hit) hlt
    · have hlt := hf.lt
      have hlt' := hf.2.1
      rw [he]
      refine ⟨fun h₀ ↦ absurd h₀ (pageAddr_ne_zero hf.1 (by omega)), fun hall ↦ ?_⟩
      have hu := hall f hf.1 (by unfold bitmapSize; omega)
      simp [hf.2.2] at hu
  · intro hne
    rcases pmmAlloc_cases s with ⟨he, _⟩ | ⟨f, s', he, hf, hmin, _⟩
    · simp [he] at hne
    · have hlt := hf.lt
      rw [he]
      refine ⟨f, pageAddr_toNat (by omega), hf.1, hf.2.1, hf.2.2, fun g hg hgf ↦ ?_⟩
      by_contra hc
      exact hmin g hgf ⟨hg, by have := hf.2.1; omega, Bool.eq_false_iff.mpr hc⟩

theorem realloc_releases {s : Pmm} (hne : (pmmAlloc s).1 ≠ 0#64) (ops : List PmmCall)
    (hagain : (pmmAlloc ((pmmAlloc s).2.calls ops)).1 = (pmmAlloc s).1) :
    Releases (pmmAlloc s).2 (pmmAlloc s).1 ops := by
  rcases pmmAlloc_cases s with ⟨he, _⟩ | ⟨f, s', he, hf, _, _, _, hbits⟩
  · simp [he] at hne
  · rw [he] at hagain ⊢
    dsimp only at hagain ⊢
    have hu : bitmapIsUsed s'.bitmap f = true := by simp [hbits]
    refine (used_or_releases hu ops).resolve_left fun hstill ↦ ?_
    have hlt := hf.lt
    rcases pmmAlloc_cases (s'.calls ops) with ⟨he', _⟩ | ⟨g, s'', he', hg, _⟩
    · rw [he'] at hagain
      exact pageAddr_ne_zero hf.1 (by omega) hagain.symm
    · have hlt' := hg.lt
      rw [he'] at hagain
      have hgf := pageAddr_injective (by omega) (by omega) hagain
      have hclear := hg.2.2
      rw [hgf, hstill] at hclear
      cases hclear

/-- The physical allocator, from any boot memory map and over any sequence of calls. -/
theorem pmm_correct {entries : List MemmapEntry} (hmap : BootMap entries)
    (hfits : BitmapFits entries) (bitmap : ℕ → BitVec 8) :
    ∃ boot, (pmmInit entries bitmap).val = some boot ∧
      boot.pmm.totalPages = totalPages entries ∧
      Inside boot.pmm.totalPages (pmmInit entries bitmap) ∧
      (∀ i < 8 * bitmapSize boot.pmm.totalPages, bitmapIsUsed boot.pmm.bitmap i = false ↔
        UsablePage entries i ∧ ¬ boot.BitmapPage i ∧ i ≠ 0) ∧
      ∀ ops, (boot.pmm.calls ops).totalPages = boot.pmm.totalPages ∧
        (boot.pmm.calls ops).Correct ∧
        ∀ later, (pmmAlloc (boot.pmm.calls ops)).1 ≠ 0#64 →
          (pmmAlloc ((pmmAlloc (boot.pmm.calls ops)).2.calls later)).1 =
            (pmmAlloc (boot.pmm.calls ops)).1 →
          Releases (pmmAlloc (boot.pmm.calls ops)).2 (pmmAlloc (boot.pmm.calls ops)).1 later := by
  obtain ⟨boot, hboot, htotal, hin, hok, hbits⟩ := pmmInit_spec hmap hfits bitmap
  refine ⟨boot, hboot, htotal, hin, hbits, fun ops ↦ ?_⟩
  obtain ⟨hok', htotal'⟩ := calls_ok hok ops
  exact ⟨htotal', hok'.correct, fun later hne hagain ↦ realloc_releases hne later hagain⟩

def smallMap : List MemmapEntry :=
  [⟨0x0#64, 0x8000#64, 0#64, by decide⟩, ⟨0xFEC00000#64, 0x1000#64, 1#64, by decide⟩]

theorem smallMap_boot : BootMap smallMap ∧ BitmapFits smallMap := by
  refine ⟨⟨?_, ?_⟩, ⟨_, List.mem_cons_self, rfl, by decide, by decide⟩⟩
  · decide
  · refine List.pairwise_pair.mpr fun _ hu ↦ ?_
    exact absurd hu (by decide)

theorem pmm_correct_smallMap : ∃ boot, (pmmInit smallMap fun _ ↦ 0#8).val = some boot ∧
    boot.pmm.totalPages = totalPages smallMap ∧ ∀ ops, (boot.pmm.calls ops).Correct := by
  obtain ⟨boot, hboot, htotal, _, _, hrun⟩ :=
    pmm_correct smallMap_boot.1 smallMap_boot.2 fun _ ↦ 0#8
  exact ⟨boot, hboot, htotal, fun ops ↦ (hrun ops).2.1⟩

end Runs

end SeedOS.Memory
