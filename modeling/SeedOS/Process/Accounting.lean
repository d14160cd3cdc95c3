import SeedOS.Process.Frames
import SeedOS.Process.Loading

namespace SeedOS.Process

open Foundation Memory Function

section Map

variable {s s' : Vm} {roots : Set ℕ} {role : Roles} {pml4Phys v flags : Word}

theorem vmmMapPage_idle (h : Inv s roots role) {f : ℕ} (hr : pageOf pml4Phys ∈ roots)
    (hv : (pml4Index v).val < 256) (hf : role f = .data) (hfl : MapFlags flags) {res : ℤ}
    (heq : vmmMapPage s pml4Phys v (pageAddr f) flags = (res, s'))
    (hnone : res = 0 → entryNext (leafEntry s.mem (siteOf (pageOf pml4Phys) v)) = none) :
    PmmVia s.pmm s'.pmm ∧
      ((res = 0 ∧ ∀ g, Idle s' (pageOf pml4Phys) g ↔ Idle s (pageOf pml4Phys) g ∧ g ≠ f) ∨
        (res = -1 ∧ ∀ g, Idle s' (pageOf pml4Phys) g ↔ Idle s (pageOf pml4Phys) g)) := by
  have hdescent := vmmMapPage_descent
    (J := fun s' role' ↦ (Inv s' roots role' ∧ Keeps s s' role role' ∧ SameLeaves s s' roots) ∧
      PmmVia s.pmm s'.pmm ∧ ∀ g, Idle s' (pageOf pml4Phys) g ↔ Idle s (pageOf pml4Phys) g)
    (fun ⟨h, hvia, hidle⟩ ht hl hu hd ↦ by
      obtain ⟨role', hinv, hk, hsame, hlevel⟩ := descend_spec h.1 ht hl hu hd
      exact ⟨role', ⟨⟨hinv, h.2.1.trans hk, h.2.2.trans hsame⟩, hvia.trans (descend_via hd),
        fun g ↦ (descend_idle h.1 ht hl hu hd g).trans (hidle g)⟩, hlevel⟩)
    (fun ⟨h, hvia, hidle⟩ ht hl hu hg hphys ↦ by
      obtain ⟨role', hinv, hk, hsame, hundo⟩ := unlink_undo h.1 ht (by omega) hu hg hphys
      exact ⟨role', ⟨⟨hinv, h.2.1.trans hk, h.2.2.trans hsame⟩, hvia.trans (unlink_via _ _ _ _),
        fun g ↦ (unlink_idle h.1 ht (by omega) hu hg hphys g).trans (hidle g)⟩, hundo⟩)
    ⟨⟨h, .refl _ _, fun _ _ ↦ rfl⟩, .refl _, fun _ ↦ Iff.rfl⟩ (h.forest.root _ hr) hv heq
  rcases hdescent with ⟨hres, _, _, hvia, hidle⟩ |
    ⟨s₃, role₃, pt, hres, ⟨⟨hinv, hk, hsame⟩, hvia, hidle⟩, ht, rfl⟩
  · exact ⟨hvia, .inr ⟨hres, hidle⟩⟩
  · have he := entryNext_entry (h.owned (.inl hf)).lt hfl
    have hσ := siteOf_valid hr hv
    obtain ⟨hinv', _, hleaf⟩ := writePage_spec hinv (i := ptIndex v) ht rfl (hk.data.mpr hf) hfl
      rfl
    refine ⟨hvia, .inl ⟨hres, fun g ↦ ?_⟩⟩
    have hreach := reached_mapped hinv hinv' hσ he (by rw [hsame _ hσ, hnone hres]) hleaf g
    rw [← hidle, Idle, Idle]
    show _ ∧ ¬ Reached _ (siteOf (pageOf pml4Phys) v).root g ↔ _
    rw [hreach, not_or, ← and_assoc]
    rfl

def Unmapped (s : Vm) (pml4Phys v : Word) : Prop :=
  entryNext (leafEntry s.mem (siteOf (pageOf pml4Phys) v)) = none

theorem takePage_idle (h : Inv s roots role) {f r : ℕ} (hr : r ∈ roots) (htook : TookPage s s' f)
    (g : ℕ) : Idle s' r g ↔ Idle s r g ∨ g = f := by
  obtain ⟨hinv, _, hsame⟩ := takePage_spec h htook
  have hfree := h.free_of_available htook.available
  have hreach : Reached s'.mem r g ↔ Reached s.mem r g := by
    refine (reached_sameLeaves h hinv hr hsame (fun _ ↦ False) (fun k ↦ ?_) g).trans
      (Iff.of_eq (or_false _))
    by_cases hk : k = f
    · subst hk; simp [hfree]
    · simp [hk]
  have hnot : ¬ Reached s.mem r f := fun hc ↦
    (h.owned_of_reached hr hc).not_available htook.available
  rw [Idle, Idle, used_take htook.takes, hreach]
  constructor
  · rintro ⟨hu | hg, hn⟩
    · exact .inl ⟨hu, hn⟩
    · exact .inr hg
  · rintro (⟨hu, hn⟩ | rfl)
    · exact ⟨.inl hu, hn⟩
    · exact ⟨.inr rfl, hnot⟩

theorem mapFreshPage_idle (h : Inv s roots role) (hr : pageOf pml4Phys ∈ roots)
    (hv : (pml4Index v).val < 256) (hfl : MapFlags flags)
    {res : FreshPage} (heq : mapFreshPage s pml4Phys v flags = (res, s'))
    (hnone : res = .mapped → Unmapped s pml4Phys v) :
    PmmVia s.pmm s'.pmm ∧ ∀ g, Idle s' (pageOf pml4Phys) g ↔ Idle s (pageOf pml4Phys) g := by
  rcases mapFreshPage_cases heq with ⟨-, rfl, -⟩ | ⟨f, s₁, code, s₂, htook, hmap, hcode⟩
  · exact ⟨.refl _, fun _ ↦ Iff.rfl⟩
  have hidle : ∀ g, Idle s (pageOf pml4Phys) g → g ≠ f := by
    rintro g hg rfl
    exact absurd hg.1 (by rw [htook.available.2.2]; decide)
  have hidle₁ := takePage_idle h hr htook
  obtain ⟨h₁, _, hsame₁⟩ := takePage_spec h htook
  obtain ⟨hvia₂, hres⟩ := vmmMapPage_idle h₁ hr hv (update_self _ _ _) hfl hmap <| by
    rintro rfl
    rw [hsame₁ _ (siteOf_valid hr hv)]
    exact hnone (hcode.resolve_left fun hc ↦ absurd hc.1 (by decide)).2.1
  have hvia := htook.via.trans hvia₂
  rcases hcode with ⟨hc, -, rfl⟩ | ⟨hc, -, rfl⟩
  · obtain ⟨-, hidle₂⟩ := hres.resolve_left fun h ↦ by omega
    obtain ⟨role₂, h₂, hk₂, _⟩ := vmmMapPage_spec h₁ hr hv (update_self _ _ _) hfl hmap
    have hgives := pmmFree_gives (h₂.owned (.inl (hk₂.data.mpr (update_self _ _ _))))
    refine ⟨hvia.trans (via_free _ _), fun g ↦ ?_⟩
    rw [Idle, used_give hgives, and_right_comm]
    show Idle s₂ (pageOf pml4Phys) g ∧ g ≠ f ↔ _
    rw [hidle₂, hidle₁]
    exact ⟨fun hg ↦ hg.1.resolve_right hg.2, fun hg ↦ ⟨.inl hg, hidle g hg⟩⟩
  · obtain ⟨-, hidle₂⟩ := hres.resolve_right fun h ↦ by omega
    refine ⟨hvia, fun g ↦ ?_⟩
    rw [hidle₂, hidle₁]
    exact ⟨fun hg ↦ hg.1.resolve_right hg.2, fun hg ↦ ⟨.inl hg, hidle g hg⟩⟩

theorem unmapFree_idle (h : Inv s roots role) (hr : pageOf pml4Phys ∈ roots)
    (hv : (pml4Index v).val < 256) (hsole : Sole s roots (siteOf (pageOf pml4Phys) v))
    (hne : vmmGetPhysical s pml4Phys v ≠ 0#64)
    (hs : s' = { (vmmUnmapPage s pml4Phys v).2 with
        pmm := pmmFree (vmmUnmapPage s pml4Phys v).2.pmm (vmmGetPhysical s pml4Phys v) }) :
    PmmVia s.pmm s'.pmm ∧ ∀ g, Idle s' (pageOf pml4Phys) g ↔ Idle s (pageOf pml4Phys) g := by
  obtain ⟨f, hf, hphys, hmaps⟩ := vmmGetPhysical_data h hr hv hne
  obtain ⟨h₁, _, hpmm, hleaf⟩ := vmmUnmapPage_spec h hr hv Prod.mk.eta.symm
  have hσ := siteOf_valid hr hv
  have hgives := pmmFree_gives (h.owned (.inl hf))
  have hpmm' : s'.pmm = pmmFree s.pmm (pageAddr f) := by
    rw [hs, ← hphys]
    exact congrArg (pmmFree · _) hpmm
  have hmem : s'.mem = (vmmUnmapPage s pml4Phys v).2.mem := by rw [hs]
  refine ⟨hpmm' ▸ via_free _ _, idle_give (f := f) (fun g ↦ ?_) ?_ fun g ↦ ?_⟩
  · rw [hpmm']
    exact used_give hgives g
  · exact (reached_iff_role h hr).mpr (.inr ⟨_, hσ, rfl, hmaps⟩)
  · rw [hmem]
    exact reached_unmapped h h₁ hσ hmaps hsole hleaf g

theorem unmapPage_idle (h : Inv s roots role) (hr : pageOf pml4Phys ∈ roots)
    (hv : (pml4Index v).val < 256) (hz : vmmGetPhysical s pml4Phys v = 0#64) (g : ℕ) :
    Idle (vmmUnmapPage s pml4Phys v).2 (pageOf pml4Phys) g ↔ Idle s (pageOf pml4Phys) g := by
  obtain ⟨h₁, _, hpmm, hleaf⟩ := vmmUnmapPage_spec h hr hv Prod.mk.eta.symm
  have hnone := vmmGetPhysical_zero h hr hv hz
  have hreach : Reached (vmmUnmapPage s pml4Phys v).2.mem (pageOf pml4Phys) g ↔
      Reached s.mem (pageOf pml4Phys) g := by
    rw [reached_iff_role h₁ hr, reached_iff_role h hr]
    refine or_congr_right (exists_congr fun σ ↦ and_congr_right fun hσ ↦ and_congr_right fun _ ↦ ?_)
    rw [hleaf σ hσ]
    split_ifs with he
    · rw [he, hnone, entryNext_zero]
    · rfl
  rw [Idle, Idle, hpmm, hreach]

theorem releasePage_idle (h : Inv s roots role) (hr : pageOf pml4Phys ∈ roots)
    (hv : (pml4Index v).val < 256) (hsole : Sole s roots (siteOf (pageOf pml4Phys) v)) :
    PmmVia s.pmm (releasePage s pml4Phys v).pmm ∧
      ∀ g, Idle (releasePage s pml4Phys v) (pageOf pml4Phys) g ↔ Idle s (pageOf pml4Phys) g := by
  unfold releasePage
  by_cases hz : vmmGetPhysical s pml4Phys v = 0#64
  · rw [if_pos hz]
    exact ⟨.refl _, fun _ ↦ Iff.rfl⟩
  · rw [if_neg hz]
    exact unmapFree_idle h hr hv hsole hz rfl

theorem mmapUndoPage_idle (h : Inv s roots role) (hr : pageOf pml4Phys ∈ roots)
    (hv : (pml4Index v).val < 256) (hsole : Sole s roots (siteOf (pageOf pml4Phys) v)) :
    PmmVia s.pmm (mmapUndoPage s pml4Phys v).pmm ∧
      ∀ g, Idle (mmapUndoPage s pml4Phys v) (pageOf pml4Phys) g ↔ Idle s (pageOf pml4Phys) g := by
  unfold mmapUndoPage
  by_cases hz : vmmGetPhysical s pml4Phys v = 0#64
  · simp only [hz, if_true]
    obtain ⟨_, _, hpmm, _⟩ := vmmUnmapPage_spec h hr hv Prod.mk.eta.symm
    exact ⟨hpmm ▸ .refl _, unmapPage_idle h hr hv hz⟩
  · simp only [hz, if_false]
    exact unmapFree_idle h hr hv hsole hz rfl

end Map

section Account

/-- The accounts of the address space at `r`: the frames in use that are not its own
are those in use in `p₀`, and no other page maps one of its frames. -/
structure Account (p₀ : Pmm) (roots : Set ℕ) (r : ℕ) (s : Vm) : Prop where
  inv : ∃ role, Inv s roots role
  via : PmmVia p₀ s.pmm
  sole : ∀ σ : Site, σ.Valid roots → σ.root = r → Sole s roots σ
  idle : ∀ g, Idle s r g ↔ bitmapIsUsed p₀.bitmap g = true

variable {s s' : Vm} {roots : Set ℕ} {role role' : Roles} {pml4Phys v flags : Word} {p₀ : Pmm}

theorem Account.step {r : ℕ} (h : Account p₀ roots r s) (hp : Progress roots s s' role role')
    (hidle : PmmVia s.pmm s'.pmm ∧ ∀ g, Idle s' r g ↔ Idle s r g) : Account p₀ roots r s' where
  inv := ⟨role', hp.inv⟩
  via := h.via.trans hidle.1
  sole σ hσ hroot := hp.sole σ hσ (h.sole σ hσ hroot)
  idle g := (hidle.2 g).trans (h.idle g)

section

variable (h : Account p₀ roots (pageOf pml4Phys) s) (hr : pageOf pml4Phys ∈ roots)
  (hv : (pml4Index v).val < 256)
include h hr hv

theorem mapFreshPage_account (hfl : MapFlags flags) (hnone : Unmapped s pml4Phys v)
    {res : FreshPage} (heq : mapFreshPage s pml4Phys v flags = (res, s')) :
    Account p₀ roots (pageOf pml4Phys) s' := by
  obtain ⟨role, hinv⟩ := h.inv
  obtain ⟨role', hprog, _⟩ := mapFreshPage_progress hinv hr hv hfl heq
  exact h.step hprog (mapFreshPage_idle hinv hr hv hfl heq fun _ ↦ hnone)

theorem mapFreshPage_unmapped (hfl : MapFlags flags) {res : FreshPage}
    (heq : mapFreshPage s pml4Phys v flags = (res, s')) {v' : Word}
    (hv' : (pml4Index v').val < 256)
    (hne : siteOf (pageOf pml4Phys) v' ≠ siteOf (pageOf pml4Phys) v)
    (hnone : Unmapped s pml4Phys v') : Unmapped s' pml4Phys v' := by
  obtain ⟨role, hinv⟩ := h.inv
  obtain ⟨_, _, _, hres⟩ := mapFreshPage_spec hinv hr hv hfl heq
  have hσ := siteOf_valid hr hv'
  rw [Unmapped] at hnone ⊢
  rcases hres with ⟨_, f, _, _, _, hleaf⟩ | ⟨_, hsame⟩
  · rw [hleaf _ hσ, if_neg hne, hnone]
  · rw [hsame _ hσ, hnone]

theorem releasePage_account : Account p₀ roots (pageOf pml4Phys) (releasePage s pml4Phys v) := by
  obtain ⟨role, hinv⟩ := h.inv
  have hsole := h.sole _ (siteOf_valid hr hv) rfl
  obtain ⟨role', hprog⟩ := releasePage_progress hinv hr hv hsole
  exact h.step hprog (releasePage_idle hinv hr hv hsole)

theorem mmapUndoPage_account : Account p₀ roots (pageOf pml4Phys) (mmapUndoPage s pml4Phys v) := by
  obtain ⟨role, hinv⟩ := h.inv
  have hsole := h.sole _ (siteOf_valid hr hv) rfl
  obtain ⟨role', hprog⟩ := mmapUndoPage_progress hinv hr hv hsole
  exact h.step hprog (mmapUndoPage_idle hinv hr hv hsole)

end

theorem writeByte_leaves (h : Inv s roots role) {f : ℕ} (hf : role f = .data) (off : ℕ)
    (b : BitVec 8) : SameLeaves s (s.writeByte f off b) roots := by
  refine writeData_leaves h rfl rfl fun g hg ↦ funext fun j ↦ ?_
  rw [Vm.writeByte, Vm.write_mem, if_neg]
  rintro ⟨rfl, _⟩
  exact hg hf

theorem pokeByte_account (h : Account p₀ roots (pageOf pml4Phys) s)
    (hr : pageOf pml4Phys ∈ roots) (hv : (pml4Index (alignDown v)).val < 256) (b : BitVec 8) :
    Account p₀ roots (pageOf pml4Phys) (pokeByte pml4Phys v b s).2 := by
  obtain ⟨role, hinv⟩ := h.inv
  unfold pokeByte
  by_cases hz : vmmGetPhysical s pml4Phys (alignDown v) = 0#64
  · simp only [hz, if_true]
    exact h
  · simp only [hz, if_false]
    have hdata := frame_data hinv hr hv hz
    have hprog := writeByte_progress hinv hdata (v &&& 0xFFF#64).toNat b
    refine h.step hprog ⟨.refl _, fun g ↦ ?_⟩
    have hsame := writeByte_leaves hinv hdata (v &&& 0xFFF#64).toNat b
    exact and_congr_right fun _ ↦ not_congr <|
      (reached_sameLeaves hinv hprog.inv hr hsame (fun _ ↦ False) (by simp) g).trans
        (Iff.of_eq (or_false _))

theorem account_create (h : Inv s roots role) {phys : Word}
    (heq : vmmCreateAddressSpace s = (phys, s')) (hne : phys ≠ 0#64) :
    Account s.pmm (insert (pageOf phys) roots) (pageOf phys) s' ∧ phys = pageAddr (pageOf phys) := by
  obtain ⟨hphys, role', hinv, _, _, _, hempty⟩ := vmmCreateAddressSpace_spec h heq hne
  obtain ⟨r, pmm, rfl, hr, hav, htk, hs⟩ :=
    vmmCreateAddressSpace_fresh (h.held h.kernel_reserved) heq hne
  rw [hr] at hinv hempty ⊢
  have hvia : PmmVia s.pmm s'.pmm := by
    have := congrArg (fun x ↦ x.2.pmm) heq
    exact this ▸ vmmCreateAddressSpace_via s
  have hreach : ∀ g, Reached s'.mem r g ↔ g = r := by
    intro g
    rw [reached_iff, or_iff_right]
    rintro ⟨i, hi, q, _, ht⟩
    rw [tableAt, hs, Vm.fill_mem, if_pos rfl, if_neg (by have := mem_userSlots.mp hi; omega),
      entryNext_zero] at ht
    simp at ht
  refine ⟨⟨⟨role', hinv⟩, hvia, fun σ hσ hroot σ' _ f hf _ ↦ ?_, fun g ↦ ?_⟩, rfl⟩
  · rw [hempty σ hσ hroot, entryNext_zero] at hf
    simp at hf
  · rw [Idle, hreach, hs]
    show bitmapIsUsed pmm.bitmap g = true ∧ _ ↔ _
    rw [used_take htk]
    refine ⟨fun hg ↦ hg.1.resolve_right hg.2, fun hg ↦ ⟨.inl hg, ?_⟩⟩
    rintro rfl
    rw [hav.2.2] at hg
    exact absurd hg (by decide)

theorem Account.destroy (h : Account p₀ roots (pageOf pml4Phys) s)
    (hphys : pml4Phys = pageAddr (pageOf pml4Phys)) (hr : pageOf pml4Phys ∈ roots) :
    (vmmFreeUserAddressSpace s pml4Phys).pmm = p₀ := by
  obtain ⟨role, hinv⟩ := h.inv
  have hfree := vmmFreeUserAddressSpace_frees hinv hphys hr
  have hvia : PmmVia s.pmm (vmmFreeUserAddressSpace s pml4Phys).pmm :=
    (freeTables_via _ _ _ _ _).trans (via_free _ _)
  exact (h.via.trans hvia).eq_of_used fun g ↦ (hfree.used g).trans (h.idle g)

end Account

end SeedOS.Process
