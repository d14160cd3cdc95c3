import SeedOS.Memory.PmmRuns

namespace SeedOS.Memory

open Foundation Function

variable {entries : List MemmapEntry} {boot : PmmBoot}

/-- The pages that the allocator is there to hand out: usable memory without page 0 and
without the bitmap. -/
def PmmBoot.Grantable (boot : PmmBoot) (entries : List MemmapEntry) (i : ℕ) : Prop :=
  UsablePage entries i ∧ ¬ boot.BitmapPage i ∧ i ≠ 0

/-- The call does not free a page that boot has reserved. Page 0 does no harm, since the
scan of `pmm_alloc` starts behind it. -/
def PmmBoot.SparesReserved (boot : PmmBoot) (entries : List MemmapEntry) : PmmCall → Prop
  | .alloc => True
  | .free phys => phys.toNat % 4096 = 0 → phys.toNat / 4096 < boot.pmm.totalPages →
      phys.toNat / 4096 = 0 ∨ boot.Grantable entries (phys.toNat / 4096)

theorem bitmapFits_of_find {e : MemmapEntry}
    (hfind : findBitmap (bitmapPages (totalPages entries)) entries = some e)
    (hpos : 0 < totalPages entries) : BitmapFits entries := by
  have hp := List.find?_some hfind
  simp only [decide_eq_true_eq] at hp
  refine ⟨e, List.mem_of_find?_eq_some hfind, hp.1, ?_, hp.2⟩
  have hpages : 1 ≤ bitmapPages (totalPages entries) := by
    unfold bitmapPages bitmapSize
    omega
  omega

theorem pmmInit_grantable (hmap : BootMap entries) {bitmap : ℕ → BitVec 8}
    (hboot : (pmmInit entries bitmap).val = some boot) {i : ℕ} (hi : boot.pmm.Available i) :
    boot.Grantable entries i := by
  have htotal : ∃ e, findBitmap (bitmapPages (totalPages entries)) entries = some e ∧
      boot.pmm.totalPages = totalPages entries := by
    unfold pmmInit at hboot
    cases hfind : findBitmap (bitmapPages (totalPages entries)) entries with
    | none => simp [hfind] at hboot
    | some e =>
      simp only [hfind, Traced.val_bind, Traced.val_pure, Option.some.injEq] at hboot
      exact ⟨e, rfl, by rw [← hboot]⟩
  obtain ⟨e, hfind, htotal⟩ := htotal
  obtain ⟨_, hlt, hclear⟩ := hi
  obtain ⟨boot', hboot', _, _, _, hbits⟩ :=
    pmmInit_spec hmap (bitmapFits_of_find hfind (by omega)) bitmap
  obtain rfl := Option.some.inj (hboot.symm.trans hboot')
  exact (hbits i (by unfold bitmapSize; omega)).mp hclear

def PmmBoot.Clean (boot : PmmBoot) (entries : List MemmapEntry) (s : Pmm) : Prop :=
  s.totalPages = boot.pmm.totalPages ∧ ∀ i, s.Available i → boot.Grantable entries i

theorem PmmBoot.Clean.call {s : Pmm} (h : boot.Clean entries s) {op : PmmCall}
    (hop : boot.SparesReserved entries op) : boot.Clean entries (s.call op) := by
  obtain ⟨htotal, hfree⟩ := h
  cases op with
  | alloc =>
    rcases pmmAlloc_cases s with ⟨he, _⟩ | ⟨f, s', he, _, _, hs', _, hbits⟩
    · rw [Pmm.call, he]
      exact ⟨htotal, hfree⟩
    · rw [Pmm.call, he]
      refine ⟨hs'.trans htotal, fun i hi ↦ ?_⟩
      obtain ⟨h₀, hlt, hclear⟩ := hi
      refine hfree i ⟨h₀, hs' ▸ hlt, ?_⟩
      rw [hbits, Bool.or_eq_false_iff] at hclear
      exact hclear.2
  | free phys =>
    rcases pmmFree_cases s phys with he | ⟨f, hphys, hf, _, _, he⟩
    · rw [Pmm.call, he]
      exact ⟨htotal, hfree⟩
    · rw [Pmm.call, he]
      refine ⟨htotal, fun i hi ↦ ?_⟩
      obtain ⟨h₀, hlt, hclear⟩ := hi
      dsimp only at hlt hclear
      by_cases hif : i = f
      · have hle := s.totalPages_le
        have hnat : phys.toNat = f * 4096 := by rw [hphys, pageAddr_toNat (by omega)]
        have hpage : phys.toNat / 4096 = i := by omega
        have := hop (by omega) (by omega)
        rw [hpage] at this
        exact this.resolve_left (by omega)
      · rw [isUsed_markFree, decide_eq_true hif, Bool.true_and] at hclear
        exact hfree i ⟨h₀, hlt, hclear⟩

theorem PmmBoot.Clean.calls {s : Pmm} (h : boot.Clean entries s) {ops : List PmmCall}
    (hops : ∀ op ∈ ops, boot.SparesReserved entries op) : boot.Clean entries (s.calls ops) := by
  induction ops generalizing s with
  | nil => exact h
  | cons op ops ih =>
    exact ih (h.call (hops op List.mem_cons_self)) fun op' hop' ↦
      hops op' (List.mem_cons_of_mem _ hop')

/-- As long as no call frees a reserved page, every address that `pmm_alloc` returns lies
in a usable entry and is neither page 0 nor a page of the bitmap. -/
theorem alloc_grants_usable (hmap : BootMap entries) {bitmap : ℕ → BitVec 8}
    (hboot : (pmmInit entries bitmap).val = some boot) {ops : List PmmCall}
    (hops : ∀ op ∈ ops, boot.SparesReserved entries op)
    (hne : (pmmAlloc (boot.pmm.calls ops)).1 ≠ 0#64) :
    ∃ i, (pmmAlloc (boot.pmm.calls ops)).1.toNat = i * 4096 ∧ UsablePage entries i ∧
      ¬ boot.BitmapPage i ∧ i ≠ 0 := by
  have hclean : boot.Clean entries boot.pmm := ⟨rfl, fun _ hi ↦ pmmInit_grantable hmap hboot hi⟩
  rcases pmmAlloc_cases (boot.pmm.calls ops) with ⟨he, _⟩ | ⟨f, s', he, hf, _⟩
  · simp [he] at hne
  · have hlt := hf.lt
    rw [he]
    exact ⟨f, pageAddr_toNat (by omega), (hclean.calls hops).2 f hf⟩

/-- Eight usable pages from page 1 on, the first of which holds the bitmap. -/
def lowMap : List MemmapEntry := [⟨0x1000#64, 0x8000#64, 0#64, by decide⟩]

theorem lowMap_boot : BootMap lowMap := by
  refine ⟨by decide, ?_⟩
  exact List.pairwise_singleton _ _

/-- The page of the bitmap is freed, and the next call hands it out. -/
theorem freed_bitmap_granted : ¬ ∀ boot ops, (pmmInit lowMap fun _ ↦ 0#8).val = some boot →
    (pmmAlloc (boot.pmm.calls ops)).1 ≠ 0#64 →
    ∃ i, (pmmAlloc (boot.pmm.calls ops)).1.toNat = i * 4096 ∧ UsablePage lowMap i ∧
      ¬ boot.BitmapPage i ∧ i ≠ 0 := by
  intro h
  have hphys : (pmmInit lowMap fun _ ↦ 0#8).val.any fun boot ↦ boot.bitmapPhys = 0x1000#64 ∧
      bitmapPages boot.pmm.totalPages = 1 ∧
      (pmmAlloc (boot.pmm.calls [.free 0x1000#64])).1 = 0x1000#64 := by decide +kernel
  obtain ⟨boot, hboot, hphys⟩ := (Option.any_eq_true ..).mp hphys
  rw [decide_eq_true_eq] at hphys
  obtain ⟨hb, hp, ha⟩ := hphys
  obtain ⟨i, hi, _, hbitmap, _⟩ := h boot [.free 0x1000#64] hboot (by rw [ha]; decide)
  rw [ha, show (0x1000#64).toNat = 4096 from rfl] at hi
  refine hbitmap ?_
  rw [PmmBoot.BitmapPage, hb, hp, show (0x1000#64).toNat = 4096 from rfl]
  omega

theorem alloc_grants_usable_lowMap : ∃ boot, (pmmInit lowMap fun _ ↦ 0#8).val = some boot ∧
    ∃ i, (pmmAlloc (boot.pmm.calls [.alloc, .free 0x2000#64, .free 0x123#64])).1.toNat = i * 4096 ∧
      UsablePage lowMap i ∧ ¬ boot.BitmapPage i ∧ i ≠ 0 := by
  have hfacts : (pmmInit lowMap fun _ ↦ 0#8).val.any fun boot ↦ boot.bitmapPhys = 0x1000#64 ∧
      bitmapPages boot.pmm.totalPages = 1 ∧
      (pmmAlloc (boot.pmm.calls [.alloc, .free 0x2000#64, .free 0x123#64])).1 ≠ 0#64 := by
    decide +kernel
  obtain ⟨boot, hboot, hfacts⟩ := (Option.any_eq_true ..).mp hfacts
  rw [decide_eq_true_eq] at hfacts
  obtain ⟨hb, hp, ha⟩ := hfacts
  refine ⟨boot, hboot, alloc_grants_usable lowMap_boot hboot (fun op hop ↦ ?_) ha⟩
  simp only [List.mem_cons, List.not_mem_nil, or_false] at hop
  rcases hop with rfl | rfl | rfl
  · trivial
  · refine fun _ _ ↦ .inr ⟨⟨_, List.mem_singleton_self _, rfl, by decide, by decide⟩, ?_, by decide⟩
    rw [PmmBoot.BitmapPage, hb, hp]
    decide
  · intro hmod
    exact absurd hmod (by decide)

end SeedOS.Memory
