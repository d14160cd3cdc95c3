import SeedOS.Memory.CopySpec
import SeedOS.Memory.TableChain
import SeedOS.Process.Sharing

namespace SeedOS.Process

open Foundation Memory Function

/-- The count of every mapped user frame is the number of pages that map it, and the frame
is allocated. -/
def ExactCounts (roots : Set ℕ) (s : Vm) : Prop :=
  ∀ f, (pagesOf s roots f).Nonempty →
    (pagesOf s roots f).encard = s.count f ∧ s.count f ≤ 254 ∧ bitmapIsUsed s.pmm.bitmap f = true

section Counts

variable {s s' : Vm} {roots : Set ℕ} {role role' : Roles} {σ : Site} {f g : ℕ} {e : Word}

theorem pagesOf_relinked (hlink : Relinked roots s s' σ e) (hσ : σ.Valid roots) (k : ℕ) :
    pagesOf s' roots k =
      if entryNext e = some k then insert σ (pagesOf s roots k) else pagesOf s roots k \ {σ} := by
  ext τ
  simp only [pagesOf, Set.mem_ofPred_eq]
  by_cases hτ : τ = σ
  · subst hτ
    have hself := hlink τ hσ
    rw [if_pos rfl] at hself
    split_ifs with he
    · simp [hσ, hself, he]
    · simp [hself, he]
  · have hother : τ.Valid roots → leafEntry s'.mem τ = leafEntry s.mem τ := fun hv ↦ by
      rw [hlink τ hv, if_neg hτ]
    split_ifs with he
    · simp only [Set.mem_insert_iff, hτ, false_or, Set.mem_ofPred_eq]
      exact and_congr_right fun hv ↦ by rw [hother hv]
    · simp only [Set.mem_sdiff, Set.mem_singleton_iff, hτ, not_false_eq_true, and_true,
        Set.mem_ofPred_eq]
      exact and_congr_right fun hv ↦ by rw [hother hv]

theorem ExactCounts.used (h : Inv s roots role) {k : ℕ} (hk : (pagesOf s roots k).Nonempty) :
    bitmapIsUsed s.pmm.bitmap k = true := by
  obtain ⟨τ, hτ, hnext⟩ := hk
  exact (h.owned (.inl (h.leafEntry_data hτ hnext))).2.2

theorem ExactCounts.reclaim (h : Inv s roots role) (hx : ExactCounts roots s) (hσ : σ.Valid roots)
    (hf : entryNext (leafEntry s.mem σ) = some f) (hrec : Reclaimed roots s s' role σ f) :
    ExactCounts roots s' := by
  intro k hk
  have hused := ExactCounts.used hrec.inv hk
  rw [hrec.pages_eq h hσ hf] at hk ⊢
  rw [hrec.info.count]
  obtain ⟨hcard, hle, -⟩ := hx k hk
  exact ⟨hcard, hle, hused⟩

theorem ExactCounts.duplicate (h : Inv s roots role) (hx : ExactCounts roots s)
    (hσ : σ.Valid roots) (hf : entryNext (leafEntry s.mem σ) = some f)
    (hdup : Duplicated roots s s' role role' σ f g) (hg : s.Tracked g)
    (hlink : Relinked roots s s' σ e) (he : entryNext e = some g) : ExactCounts roots s' := by
  have hfg : f ≠ g := by
    rintro rfl
    have := h.leafEntry_data hσ hf
    simp [hdup.fresh] at this
  have hnew : pagesOf s roots g = ∅ := by
    refine Set.eq_empty_of_forall_notMem fun τ hτ ↦ ?_
    have := h.leafEntry_data hτ.1 hτ.2
    simp [hdup.fresh] at this
  intro k hk
  have hused := ExactCounts.used hdup.inv hk
  rw [pagesOf_relinked hlink hσ, he] at hk ⊢
  by_cases hkg : g = k
  · subst hkg
    rw [if_pos rfl, hnew, hdup.count_new hg]
    exact ⟨by simp, by omega, hused⟩
  · rw [if_neg fun hc ↦ hkg (Option.some.inj hc)] at hk ⊢
    rw [hdup.count k (Ne.symm hkg)]
    obtain ⟨hcard, hle, -⟩ := hx k (hk.mono Set.sdiff_subset)
    by_cases hkf : k = f
    · subst hkf
      rw [if_pos ⟨rfl, by omega⟩]
      rw [Set.encard_sdiff_singleton_of_mem (show σ ∈ pagesOf s roots k from ⟨hσ, hf⟩), hcard,
        ENat.natCast_sub]
      exact ⟨rfl, by omega, hused⟩
    · rw [if_neg fun hc ↦ hkf hc.1]
      have hnot : σ ∉ pagesOf s roots k := fun hmem ↦ hkf (Option.some.inj (hmem.2.symm.trans hf))
      rw [Set.sdiff_singleton_eq_self hnot]
      exact ⟨hcard, hle, hused⟩

end Counts

section Mapping

variable {s s' : Vm} {roots : Set ℕ} {pml4Phys va : Word}

theorem pageMapping_relinked {f : ℕ} {fl : Word} (hr : pageOf pml4Phys ∈ roots)
    (hv : (pml4Index va).val < 256) (hlt : f < 2 ^ 40) (hfl : MapFlags fl)
    (hlink : Relinked roots s s' (siteOf (pageOf pml4Phys) va) (pageAddr f ||| fl)) :
    pageMapping s' pml4Phys va = some (f, fl) := by
  rw [pageMapping_eq, hlink _ (siteOf_valid hr hv), if_pos rfl, entryNext_entry hlt hfl,
    Option.map_some, rest_entry hlt hfl.1]

theorem resolvedFlags_bits (fl : Word) :
    hasFlag (resolvedFlags fl) pteWritable = true ∧ hasFlag (resolvedFlags fl) pteCow = false ∧
      resolvedFlags fl &&& ~~~(pteCow ||| pteWritable) = fl &&& ~~~(pteCow ||| pteWritable) := by
  unfold resolvedFlags
  refine ⟨?_, ?_, ?_⟩
  · rw [hasFlag_or, hasFlag_self _ (by decide), Bool.or_true]
  · rw [hasFlag_or, hasFlag_and_of_disjoint _ _ _ (by decide)]
    decide
  · rw [BitVec.and_or_distrib_right, BitVec.and_assoc,
      show ~~~pteCow &&& ~~~(pteCow ||| pteWritable) = ~~~(pteCow ||| pteWritable) by decide,
      show pteWritable &&& ~~~(pteCow ||| pteWritable) = 0#64 by decide, BitVec.or_zero]

end Mapping

/-- What a resolved COW fault on the page at `va` leaves: the page has the same bytes and
flags, but is writable and no longer shared, and no other page of any address space has
changed. -/
structure FaultResolved (roots : Set ℕ) (s s' : Vm) (pml4Phys va : Word) : Prop where
  counts : ExactCounts roots s'
  page : ∃ f g fl fl', pageMapping s pml4Phys va = some (f, fl) ∧
    pageMapping s' pml4Phys va = some (g, fl') ∧ s'.mem g = s.mem f ∧
    hasFlag fl' pteWritable = true ∧ hasFlag fl' pteCow = false ∧
    fl' &&& ~~~(pteCow ||| pteWritable) = fl &&& ~~~(pteCow ||| pteWritable)
  others : ∀ other v, pageOf other ∈ roots → (pml4Index v).val < 256 →
    siteOf (pageOf other) v ≠ siteOf (pageOf pml4Phys) va →
    pageMapping s' other v = pageMapping s other v ∧
      ∀ f fl, pageMapping s other v = some (f, fl) → s'.mem f = s.mem f

section Fault

variable {s s' : Vm} {roots : Set ℕ} {role role' : Roles} {pml4Phys va : Word} {f g : ℕ}

theorem FaultResolved.of_relinked (h : Inv s roots role) (h' : Inv s' roots role')
    (hr : pageOf pml4Phys ∈ roots) (hv : (pml4Index va).val < 256)
    (hf : entryNext (leafEntry s.mem (siteOf (pageOf pml4Phys) va)) = some f)
    (hg : role' g = .data) (hcopy : s'.mem g = s.mem f)
    (hdata : ∀ k, role k = .data → s'.mem k = s.mem k)
    (hlink : Relinked roots s s' (siteOf (pageOf pml4Phys) va) (pageAddr g |||
      resolvedFlags (leafEntry s.mem (siteOf (pageOf pml4Phys) va) &&& ~~~pteAddrMask)))
    (hx : ExactCounts roots s') : FaultResolved roots s s' pml4Phys va := by
  have hfl := resolvedFlags_spec _ (entryNext_some.mp hf).1
  refine ⟨hx, ⟨f, g, _, _, ?_, pageMapping_relinked hr hv (h'.owned (.inl hg)).lt hfl hlink,
    hcopy, resolvedFlags_bits _⟩, fun other v ho hv' hne ↦ ⟨?_, fun k fl hk ↦ ?_⟩⟩
  · rw [pageMapping_eq, hf, Option.map_some]
  · rw [pageMapping_eq, pageMapping_eq, hlink _ (siteOf_valid ho hv'), if_neg hne]
  · rw [pageMapping_eq] at hk
    obtain ⟨k', hk', hkk⟩ := Option.map_eq_some_iff.mp hk
    obtain ⟨rfl, -⟩ := Prod.mk.inj hkk
    exact hdata k' (h.leafEntry_data (siteOf_valid ho hv') hk')

end Fault

/-- `handle_cow_fault` preserves exact sharing. The reference counts cover every page of
the allocator, as `page_init` is called. -/
theorem cow_fault_exact {s s' : Vm} {roots : Set ℕ} {role : Roles} {pml4Phys va : Word} {res : ℤ}
    (h : Inv s roots role) (hmax : s.maxPages = s.pmm.totalPages) (hx : ExactCounts roots s)
    (hr : pageOf pml4Phys ∈ roots) (hv : (pml4Index va).val < 256)
    (heq : handleCowFault s pml4Phys va = (res, s')) :
    (res = -1 ∧ s' = s) ∨ (res = 0 ∧ FaultResolved roots s s' pml4Phys va) := by
  have hσ := siteOf_valid hr hv
  rcases handleCowFault_exact h hr hv heq rfl rfl with
    hsame | ⟨hres, f, hf, -, ⟨hrec, hlink⟩ | ⟨g, role', hav, hdup, hlink⟩⟩
  · exact .inl hsame
  · have hdata := h.leafEntry_data hσ hf
    exact .inr ⟨hres, .of_relinked h hrec.inv hr hv hf hdata (hrec.keeps.mem (.inl hdata))
      (fun k hk ↦ hrec.keeps.mem (.inl hk)) hlink (.reclaim h hx hσ hf hrec)⟩
  · have hdata : role' g = .data := hdup.data.mpr (.inl rfl)
    have hfl := resolvedFlags_spec _ (entryNext_some.mp hf).1
    have he := entryNext_entry (hdup.inv.owned (.inl hdata)).lt hfl
    have htracked : s.Tracked g := by
      have hcard := (hx f ⟨_, hσ, hf⟩).1
      have hf' : s.Tracked f := tracked_of_count fun hz ↦ by
        rw [hz, Nat.cast_zero, Set.encard_eq_zero] at hcard
        exact hcard.subset ⟨hσ, hf⟩
      exact ⟨hf'.1, hmax ▸ hav.2.1⟩
    exact .inr ⟨hres, .of_relinked h hdup.inv hr hv hf hdata hdup.copy
      (fun k hk ↦ hdup.mem (.inl hk)) hlink (hx.duplicate h hσ hf hdup htracked hlink he)⟩

section Example

variable {pmm : Pmm} {leaves : Fin 512 → Word} (info : ℕ → BitVec 8)

theorem tableVm_pagesOf (hpmm : ∀ f, 0 < f → f ≤ 7 → pmm.Owned f)
    (h : ∀ i f, entryNext (leaves i) = some f → f = 7) (f : ℕ) :
    pagesOf (tableVm pmm leaves info) {3} f =
      Set.image (fun i ↦ (⟨3, [0, 0, 2], i⟩ : Site)) {i | entryNext (leaves i) = some f} := by
  have hinv := tableVm_inv info hpmm h
  have hlast : tableRole 6 = .table 3 [0, 0, 2] := rfl
  ext σ
  constructor
  · rintro ⟨hσ, hf⟩
    obtain ⟨t, ht, hleaf⟩ := hinv.leafEntry_present hσ hf
    obtain ⟨hroot, hcase⟩ := tableRole_table.mp ht
    have hlen := hσ.length
    obtain ⟨rfl, hpath⟩ : t = 6 ∧ σ.path = [0, 0, 2] := by grind
    refine ⟨σ.index, ?_, ?_⟩
    · rw [hleaf] at hf
      exact hf
    · cases σ
      simp_all
  · rintro ⟨i, hi, rfl⟩
    refine ⟨⟨rfl, by simp [UserPath], rfl⟩, ?_⟩
    rw [hinv.leafEntry_of_table hlast]
    exact hi

def sharedTwice : Vm :=
  tableVm tablePmm (fun i ↦ if i.val < 2 then 0x7205#64 else 0#64) fun f ↦ if f = 7 then 2#8 else 0#8

theorem sharedTwice_leaves (i : Fin 512) (f : ℕ)
    (h : entryNext (if i.val < 2 then 0x7205#64 else 0#64) = some f) : i.val < 2 ∧ f = 7 := by
  split_ifs at h with hi
  · rw [show entryNext 0x7205#64 = some 7 by decide] at h
    exact ⟨hi, (Option.some.inj h).symm⟩
  · rw [entryNext_zero] at h
    cases h

theorem sharedTwice_exact : ExactCounts {3} sharedTwice := by
  have hpages := tableVm_pagesOf (fun f ↦ if f = 7 then 2#8 else 0#8) tablePmm_owned
    fun i f h ↦ (sharedTwice_leaves i f h).2
  intro f hf
  obtain rfl : f = 7 := by
    rw [sharedTwice, hpages] at hf
    obtain ⟨σ, i, hi, -⟩ := hf
    exact (sharedTwice_leaves i f hi).2
  refine ⟨?_, by decide, by decide⟩
  have hset : {i : Fin 512 | entryNext (if i.val < 2 then 0x7205#64 else 0#64) = some 7} =
      {0, 1} := by
    ext i
    constructor
    · intro h
      have := (sharedTwice_leaves i 7 h).1
      simp only [Set.mem_insert_iff, Set.mem_singleton_iff, Fin.ext_iff]
      omega
    · rintro (rfl | rfl) <;> decide
  rw [sharedTwice, hpages, hset, Function.Injective.encard_image (fun i j hij ↦ by simpa using hij),
    Set.encard_pair (by decide)]
  rfl

end Example

theorem cow_fault_exact_sharedTwice :
    ∃ s', handleCowFault sharedTwice 0x3000#64 0x401008#64 = (0, s') ∧
      FaultResolved {3} sharedTwice s' 0x3000#64 0x401008#64 := by
  have hinv : Inv sharedTwice {3} tableRole :=
    tableVm_inv _ tablePmm_owned fun i f h ↦ (sharedTwice_leaves i f h).2
  have hres : (handleCowFault sharedTwice 0x3000#64 0x401008#64).1 = 0 := by decide +kernel
  have heq : handleCowFault sharedTwice 0x3000#64 0x401008#64 =
      (0, (handleCowFault sharedTwice 0x3000#64 0x401008#64).2) := by rw [← hres]
  rcases cow_fault_exact hinv rfl sharedTwice_exact (by decide) (by decide) heq with
    ⟨hneg, -⟩ | ⟨-, hok⟩
  · cases hneg
  · exact ⟨_, heq, hok⟩

end SeedOS.Process
