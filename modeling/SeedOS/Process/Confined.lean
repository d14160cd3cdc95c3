import SeedOS.Memory.Translate
import SeedOS.Process.LoadImage

namespace SeedOS.Process

open Foundation Memory Function

/-- The address space at `root` has written to no frame outside `A` but its root, where `A`
holds all frames it has and all it can still get. -/
structure Confined (A : Set ℕ) (mem₀ : ℕ → Fin 512 → Word) (kernelPml4 : Word) (roots : Set ℕ)
    (root : ℕ) (s : Vm) (role : Roles) : Prop where
  inv : Inv s roots role
  rooted : root ∈ roots
  kernel : s.kernelPml4Phys = kernelPml4
  mem : ∀ f ∉ A, f ≠ root → s.mem f = mem₀ f
  available : ∀ f, s.pmm.Available f → f ∈ A
  tables : ∀ f p, role f = .table root p → f ∈ A ∨ f = root
  pages : ∀ σ : Site, σ.Valid roots → σ.root = root → ∀ f,
    entryNext (leafEntry s.mem σ) = some f → f ∈ A

namespace Confined

variable {A : Set ℕ} {mem₀ : ℕ → Fin 512 → Word} {kernelPml4 : Word} {roots : Set ℕ}
  {s s' : Vm} {role : Roles} {pml4Phys v flags : Word}

section

variable (h : Confined A mem₀ kernelPml4 roots (pageOf pml4Phys) s role)
include h

theorem sameLeaves (hsame : SameLeaves s s' roots) (σ : Site) (hσ : σ.Valid roots)
    (hroot : σ.root = pageOf pml4Phys)
    (f : ℕ) (hf : entryNext (leafEntry s'.mem σ) = some f) : f ∈ A :=
  h.pages σ hσ hroot f (by rwa [hsame σ hσ] at hf)

theorem write_mem {t : ℕ}
    {p : List (Fin 512)} (ht : role t = .table (pageOf pml4Phys) p) (i : Fin 512) (w : Word) :
    ∀ f ∉ A, f ≠ pageOf pml4Phys → (s.write t i w).mem f = mem₀ f := by
  intro f hf hne
  have hft : f ≠ t := by
    rintro rfl
    exact (h.tables f p ht).elim hf hne
  rw [← h.mem f hf hne]
  funext j
  rw [Vm.write_mem, if_neg fun hc ↦ hft hc.1]

theorem descend {t t' : ℕ}
    {p : List (Fin 512)} {i : Fin 512} {phys : Word} (ht : role t = .table (pageOf pml4Phys) p)
    (hl : p.length < 3) (hu : UserPath (p ++ [i]))
    (hd : Memory.descend s t i flags = some (t', phys, s')) :
    ∃ role', Confined A mem₀ kernelPml4 roots (pageOf pml4Phys) s' role' ∧ Keeps s s' role role' ∧
      SameLeaves s s' roots ∧ LevelDone s s' role role' t i (pageOf pml4Phys) p t' phys := by
  cases descend_cases hd with
  | follow hpres hs =>
    obtain ⟨hinv, ht', hk, hsame⟩ := follow_spec h.inv ht hl hu hpres hs
    refine ⟨role, ⟨hinv, h.rooted, hk.kernel.trans h.kernel, ?_, ?_, h.tables, h.sameLeaves hsame⟩,
      hk, hsame, levelDone_follow ht' hpres hs⟩
    · rcases hs with rfl | rfl
      · exact h.mem
      · exact h.write_mem ht i _
    · rcases hs with rfl | rfl
      · exact h.available
      · exact h.available
  | fresh hnone pmm hav htk hne hs =>
    obtain ⟨hfl, hhuge⟩ := intermediateFlags_spec flags
    obtain ⟨hinv, hk, hsame, hzero⟩ := fresh_spec h.inv ht hl hu hfl hhuge hnone hav htk hs
    have htA := h.available t' hav
    refine ⟨_, ⟨hinv, h.rooted, hk.kernel.trans h.kernel, fun f hf hroot ↦ ?_, fun f hf ↦ ?_,
      fun f q hq ↦ ?_, h.sameLeaves hsame⟩, hk, hsame,
      levelDone_fresh (h.inv.free_of_available hav) hne hs hzero⟩
    · have hft' : f ≠ t' := fun hc ↦ hf (hc ▸ htA)
      have hft : f ≠ t := fun hc ↦ (h.tables f p (hc ▸ ht)).elim hf hroot
      rw [← h.mem f hf hroot]
      funext j
      rw [hs, Vm.write_mem, if_neg fun hc ↦ hft hc.1, Vm.fill_mem, if_neg hft']
    · rw [hs] at hf
      exact h.available f (htk.available hf).1
    · by_cases hft' : f = t'
      · exact .inl (hft' ▸ htA)
      · rw [update_of_ne hft'] at hq
        exact h.tables f q hq

theorem unlink {t g : ℕ}
    {p : List (Fin 512)} {i : Fin 512} {phys : Word} (ht : role t = .table (pageOf pml4Phys) p)
    (hl : p.length < 3) (hu : UserPath (p ++ [i]))
    (hg : role g = .table (pageOf pml4Phys) (p ++ [i]))
    (hphys : phys ≠ 0#64 → phys = pageAddr g ∧ s.mem g = fun _ ↦ 0#64) :
    ∃ role', Confined A mem₀ kernelPml4 roots (pageOf pml4Phys) (Memory.unlink s t i phys) role' ∧
      Keeps s (Memory.unlink s t i phys) role role' ∧
      SameLeaves s (Memory.unlink s t i phys) roots ∧
      LevelUndone s (Memory.unlink s t i phys) role role' t i g phys := by
  by_cases h0 : phys = 0#64
  · have hs : Memory.unlink s t i phys = s := by rw [Memory.unlink, if_pos h0]
    rw [hs]
    exact ⟨role, h, .refl _ _, fun _ _ ↦ rfl, fun _ _ ↦ rfl, fun hc ↦ absurd h0 hc⟩
  · obtain ⟨rfl, hzero⟩ := hphys h0
    have hs : Memory.unlink s t i (pageAddr g) =
        { (s.write t i 0#64) with pmm := pmmFree s.pmm (pageAddr g) } := by
      rw [Memory.unlink, if_neg h0]
      rfl
    obtain ⟨hinv, hk, hsame, hm⟩ := unlink_spec h.inv ht hl hu hg hzero hs
    refine ⟨_, ⟨hinv, h.rooted, hk.kernel.trans h.kernel, ?_, fun f hf ↦ ?_, fun f q hq ↦ ?_,
      h.sameLeaves hsame⟩, hk, hsame, fun k hkg ↦ update_of_ne hkg _ _, fun _ ↦ hm⟩
    · rw [hs]
      exact h.write_mem ht i _
    · rw [hs] at hf
      rcases (pmmFree_gives (h.inv.owned (.inr ⟨_, _, hg⟩))).available hf with rfl | hf
      · refine (h.tables f _ hg).resolve_right fun hc ↦ ?_
        have hroot := h.inv.forest.root _ h.rooted
        rw [← hc, hg] at hroot
        simp at hroot
      · exact h.available f hf
    · exact h.tables f q (of_update_eq hq (by simp)).2

theorem vmmMapPage (hv : (pml4Index v).val < 256) {f : ℕ} (hf : role f = .data) (hfA : f ∈ A)
    (hfl : MapFlags flags) {res : ℤ}
    (heq : Memory.vmmMapPage s pml4Phys v (pageAddr f) flags = (res, s')) :
    ∃ role', Confined A mem₀ kernelPml4 roots (pageOf pml4Phys) s' role' ∧ role' f = .data ∧
      (res = 0 ∨ res = -1 ∧ SameLeaves s s' roots) := by
  have hdescent := vmmMapPage_descent
    (J := fun s' role' ↦ Confined A mem₀ kernelPml4 roots (pageOf pml4Phys) s' role' ∧
      Keeps s s' role role' ∧ SameLeaves s s' roots)
    (fun h ht hl hu hd ↦ by
      obtain ⟨role', hc, hk, hsame, hlevel⟩ := h.1.descend ht hl hu hd
      exact ⟨role', ⟨hc, h.2.1.trans hk, h.2.2.trans hsame⟩, hlevel⟩)
    (fun h ht hl hu hg hphys ↦ by
      obtain ⟨role', hc, hk, hsame, hundo⟩ := h.1.unlink ht (by omega) hu hg hphys
      exact ⟨role', ⟨hc, h.2.1.trans hk, h.2.2.trans hsame⟩, hundo⟩)
    ⟨h, .refl _ _, fun _ _ ↦ rfl⟩ (h.inv.forest.root _ h.rooted) hv heq
  rcases hdescent with ⟨hres, role', hc, hk, hsame⟩ | ⟨s₃, role₃, pt, hres, ⟨hc, hk, hsame⟩, ht, rfl⟩
  · exact ⟨role', hc, hk.data.mpr hf, .inr ⟨hres, hsame⟩⟩
  · have hnext := entryNext_entry (h.inv.owned (.inl hf)).lt hfl
    obtain ⟨hinv', hk', hleaf⟩ := writePage_spec hc.inv ht rfl (hk.data.mpr hf) hfl rfl
    refine ⟨role₃, ⟨hinv', h.rooted, hc.kernel, hc.write_mem ht _ _, hc.available, hc.tables,
      fun σ hσ hroot g hg ↦ ?_⟩, hk.data.mpr hf, .inl hres⟩
    rw [hleaf σ hσ] at hg
    split_ifs at hg
    · rw [hnext] at hg
      exact Option.some.inj hg ▸ hfA
    · exact hc.pages σ hσ hroot g hg

theorem mapFreshPage (hv : (pml4Index v).val < 256) (hfl : MapFlags flags)
    {res : FreshPage} (heq : Process.mapFreshPage s pml4Phys v flags = (res, s')) :
    ∃ role', Confined A mem₀ kernelPml4 roots (pageOf pml4Phys) s' role' := by
  rcases mapFreshPage_cases heq with ⟨-, rfl, -⟩ | ⟨f, s₁, code, s₂, htook, hmap, hcode⟩
  · exact ⟨role, h⟩
  have hfA := h.available f htook.available
  obtain ⟨hinv₁, hpres₁, hsame₁⟩ := takePage_spec h.inv htook
  have h₁ : Confined A mem₀ kernelPml4 roots (pageOf pml4Phys) s₁ (update role f .data) := by
    refine ⟨hinv₁, h.rooted, hpres₁.kernel.trans h.kernel, fun g hg hroot ↦ ?_,
      fun g hg ↦ h.available g (htook.takes.available hg).1,
      fun g q hq ↦ h.tables g q (of_update_eq hq (by simp)).2, h.sameLeaves hsame₁⟩
    have hgf : g ≠ f := fun hc ↦ hg (hc ▸ hfA)
    rw [← h.mem g hg hroot, htook.eq, Vm.fill_mem, if_neg hgf]
  obtain ⟨role₂, h₂, hdata₂, hres⟩ := h₁.vmmMapPage hv (update_self _ _ _) hfA hfl hmap
  rcases hcode with ⟨hc, -, rfl⟩ | ⟨-, -, rfl⟩
  · obtain ⟨-, hsame₂⟩ := hres.resolve_left fun h ↦ by omega
    have hnone : ∀ σ : Site, σ.Valid roots → entryNext (leafEntry s₂.mem σ) ≠ some f := by
      intro σ hσ hn
      rw [hsame₂ σ hσ, hsame₁ σ hσ] at hn
      have hfree := h.inv.free_of_available htook.available
      simp [h.inv.leafEntry_data hσ hn] at hfree
    refine ⟨_, ⟨release_spec h₂.inv hdata₂ hnone, h.rooted, h₂.kernel, h₂.mem,
      fun g hg ↦ ?_, fun g q hq ↦ h₂.tables g q (of_update_eq hq (by simp)).2, h₂.pages⟩⟩
    rcases (pmmFree_gives (h₂.inv.owned (.inl hdata₂))).available hg with rfl | hg
    · exact hfA
    · exact h₂.available g hg
  · exact ⟨role₂, h₂⟩

theorem elfMemcpy (hv : (pml4Index v).val < 256) (hne : vmmGetPhysical s pml4Phys v ≠ 0#64)
    (off : ℕ) (data : File)
    (src : Word) (n : ℕ) : Confined A mem₀ kernelPml4 roots (pageOf pml4Phys)
      (Process.elfMemcpy s (pageOf (vmmGetPhysical s pml4Phys v)) off data src n) role := by
  obtain ⟨f, hf, hphys, hnext⟩ := vmmGetPhysical_data h.inv h.rooted hv hne
  have hlt := (h.inv.owned (.inl hf)).lt
  have hfA := h.pages _ (siteOf_valid h.rooted hv) rfl f hnext
  rw [hphys, pageOf_pageAddr (by omega)]
  obtain ⟨hpmm, hkernel, hmem⟩ := writeBytes_frame s f off (fun i ↦ data (src + BitVec.ofNat 64 i)) n
  have hother : ∀ g, role g ≠ .data → (writeBytes s f off
      (fun i ↦ data (src + BitVec.ofNat 64 i)) n).mem g = s.mem g :=
    fun g hg ↦ hmem g fun hc ↦ hg (hc ▸ hf)
  refine ⟨(writeData_progress h.inv hpmm hkernel hother).inv, h.rooted, hkernel.trans h.kernel,
    fun g hg hroot ↦ ?_, fun g hg ↦ ?_, h.tables,
    h.sameLeaves (writeData_leaves h.inv hpmm hkernel hother)⟩
  · exact (hmem g fun hc ↦ hg (hc ▸ hfA)).trans (h.mem g hg hroot)
  · exact h.available g (hpmm ▸ hg)

end

theorem physical_of_leaf (hleaf : leafEntry s'.mem (siteOf (pageOf pml4Phys) v) =
    leafEntry s.mem (siteOf (pageOf pml4Phys) v)) :
    vmmGetPhysical s' pml4Phys v = vmmGetPhysical s pml4Phys v := by
  rw [vmmGetPhysical_eq, vmmGetPhysical_eq, hleaf]

theorem loaderKeeps : LoaderKeeps pml4Phys UserAddress fun T s ↦
    (∃ role, Confined A mem₀ kernelPml4 roots (pageOf pml4Phys) s role) ∧
      ∀ va, UserAddress va → vmmGetPhysical s pml4Phys va ≠ 0#64 → pageOf va ∈ T where
  mono hT h := ⟨h.1, fun va hva hne ↦ hT (h.2 va hva hne)⟩
  map h hv hvT hfl heq := by
    obtain ⟨⟨role, h⟩, hT⟩ := h
    refine ⟨h.mapFreshPage hv.pml4Index_lt hfl heq, fun va hva hne ↦ ?_⟩
    have hsite := siteOf_valid h.rooted hva.pml4Index_lt
    obtain ⟨-, -, -, ⟨-, _, -, -, -, hleaf⟩ | ⟨-, hsame⟩⟩ :=
      mapFreshPage_spec h.inv h.rooted hv.pml4Index_lt hfl heq
    · by_contra hnot
      rw [physical_of_leaf ((hleaf _ hsite).trans
        (if_neg fun hc ↦ hnot (((siteOf_inj hva hv _ _).mp hc).2 ▸ hvT)))] at hne
      exact hnot (hT va hva hne)
    · rw [physical_of_leaf (hsame _ hsite)] at hne
      exact hT va hva hne
  mapped h hv hne := h.2 _ hv hne
  copy h hv hne off data src n := by
    obtain ⟨⟨role, h⟩, hT⟩ := h
    refine ⟨⟨role, h.elfMemcpy hv.pml4Index_lt hne off data src n⟩, fun va hva hne' ↦ ?_⟩
    have hf := frame_data h.inv h.rooted hv.pml4Index_lt hne
    obtain ⟨hpmm, hkernel, hmem⟩ := writeBytes_frame _ (pageOf (vmmGetPhysical _ pml4Phys _)) off
      (fun i ↦ data (src + BitVec.ofNat 64 i)) n
    have hsame := writeData_leaves h.inv hpmm hkernel
      (fun g hg ↦ hmem g fun hc ↦ hg (hc ▸ hf)) _ (siteOf_valid h.rooted hva.pml4Index_lt)
    exact hT va hva (physical_of_leaf hsame ▸ hne')

end Confined

/-- A load has changed no translation of the kernel half in any address space, no frame that was
in use but the PML4 of its own process, and of that only the user half. -/
structure StaysInUserSpace (roots : Set ℕ) (pml4Phys : Word) (s s' : Vm) : Prop where
  translation : ∀ pml4, pageOf pml4 ∈ roots ∨ pml4 = s.kernelPml4Phys → ∀ va,
    256 ≤ (pml4Index va).val → translate s' pml4 va = translate s pml4 va
  frames : ∀ f, ¬ s.pmm.Available f → f ≠ pageOf pml4Phys → s'.mem f = s.mem f
  pml4 : ∀ i : Fin 512, 256 ≤ i.val → s'.mem (pageOf pml4Phys) i = s.mem (pageOf pml4Phys) i

theorem Confined.stays {roots : Set ℕ} {pml4Phys : Word} {s s' : Vm} {role role' : Roles}
    (h : Inv s roots role) (h' : Confined {f | s.pmm.Available f} s.mem s.kernelPml4Phys roots
      (pageOf pml4Phys) s' role') : StaysInUserSpace roots pml4Phys s s' := by
  have hreserved : ∀ g, role g = .reserved → s'.mem g = s.mem g := by
    intro g hg
    refine h'.mem g (h.held hg) ?_
    rintro rfl
    rw [h.forest.root _ h'.rooted] at hg
    simp at hg
  have hkernel : ∀ p f, KernelPath p →
      tableAt kernelNext s.mem (pageOf s.kernelPml4Phys) p = some f → s'.mem f = s.mem f :=
    fun p f hp hf ↦ hreserved f (h.kernelTable hp hf)
  have hroot := hkernel [] _ ⟨by simp, by simp⟩ rfl
  refine ⟨?_, fun f hf hne ↦ h'.mem f hf hne, fun i hi ↦ ?_⟩
  · rintro pml4 (hr | rfl) va hva
    · exact translate_congr_kernel h h'.inv h'.kernel hreserved hr hr hva
    · exact translate_congr (congrFun hroot _) fun p f hp hf ↦ hkernel _ f ⟨hp, by simpa using hva⟩ hf
  · rw [h'.inv.kernelHalf _ h'.rooted i hi, h.kernelHalf _ h'.rooted i hi, h'.kernel, hroot]

end SeedOS.Process
