import SeedOS.Memory.CowCopy
import SeedOS.Process.CowFault
import Mathlib.Data.Set.Card

namespace SeedOS.Process

open Foundation Memory Function

def pagesOf (s : Vm) (roots : Set ℕ) (f : ℕ) : Set Site :=
  {σ | σ.Valid roots ∧ entryNext (leafEntry s.mem σ) = some f}

/-- The sharing discipline of copy-on-write. A page that can be written is alone on
its frame, and a frame outside `O` has no more pages than its count says, unless
the count is pinned. -/
structure Shared (O roots : Set ℕ) (s : Vm) : Prop where
  sole : ∀ σ : Site, σ.Valid roots → hasFlag (leafEntry s.mem σ) pteWritable = true →
    Sole s roots σ
  counted : ∀ f, f ∉ O → s.Tracked f →
    s.count f = 255 ∨ (pagesOf s roots f).encard ≤ s.count f

section Basics

variable {s s' : Vm} {O roots : Set ℕ} {role : Roles}

theorem Shared.congr (h : Shared O roots s) (hsame : SameLeaves s s' roots)
    (hinfo : SameInfo s s') : Shared O roots s' := by
  refine ⟨fun σ hσ hw ↦ ?_, fun f hf ht ↦ ?_⟩
  · rw [hsame σ hσ] at hw
    exact (h.sole σ hσ hw).congr hσ hsame
  · have hpages : pagesOf s' roots f = pagesOf s roots f := by
      ext σ
      refine and_congr_right fun hσ ↦ ?_
      rw [hsame σ hσ]
    rw [hpages, hinfo.count]
    exact h.counted f hf ((hinfo.tracked f).mp ht)

theorem Shared.sole_of_one (h : Shared O roots s) {σ : Site} (hσ : σ.Valid roots) {f : ℕ}
    (hf : entryNext (leafEntry s.mem σ) = some f) (hO : f ∉ O) (hone : s.count f = 1) :
    Sole s roots σ := by
  intro σ' hσ' g hg hg'
  obtain rfl : f = g := Option.some.inj (hf.symm.trans hg)
  have hle : (pagesOf s roots f).encard ≤ 1 := by
    rcases h.counted f hO (tracked_of_count (by omega)) with hc | hc
    · omega
    · rw [hone] at hc
      exact_mod_cast hc
  exact Set.encard_le_one_iff.mp hle σ' σ ⟨hσ', hg'⟩ ⟨hσ, hf⟩

end Basics

section Fork

variable {s : Vm} {O roots : Set ℕ} {role : Roles} {src dst S D : ℕ} {p : List (Fin 512)}
  {l : Fin 512}

theorem Shared.copyLeaf (h : Inv s roots role) (hS : role S = .table src p)
    (hD : role D = .table dst p) (hl : p.length = 3)
    (hp : hasFlag (s.mem S l) ptePresent = true) (hs : Shared O roots s) :
    Shared O roots (Memory.copyLeaf S D s l) := by
  obtain ⟨_, _, hleaf, _⟩ := copyLeaf_spec h (l := l) hS hD hl
  have hsrc : leafEntry s.mem ⟨src, p, l⟩ = s.mem S l := h.leafEntry_of_table hS l
  have hf : entryNext (leafEntry s.mem ⟨src, p, l⟩) = some (frameOf (s.mem S l)) := by
    rw [hsrc]
    exact entryNext_some.mpr ⟨hp, rfl⟩
  generalize hfr : frameOf (s.mem S l) = f at hf
  have hflt := frameOf_lt (s.mem S l)
  -- the only page that a frame may gain is the copy
  have hpage : ∀ σ : Site, σ.Valid roots → ∀ g,
      entryNext (leafEntry (Memory.copyLeaf S D s l).mem σ) = some g →
      (σ = ⟨dst, p, l⟩ ∧ g = f) ∨ entryNext (leafEntry s.mem σ) = some g := by
    intro σ hσ g hg
    rw [hleaf σ hσ] at hg
    split_ifs at hg with hc
    · rw [cowEntry_next, hf] at hg
      rcases hc with rfl | rfl
      · exact .inr (hf.trans hg)
      · exact .inl ⟨rfl, (Option.some.inj hg).symm⟩
    · exact .inr hg
  have hcount : ∀ g, (Memory.copyLeaf S D s l).count g =
      if g = f ∧ s.Tracked g then min 255 (s.count g + 1) else s.count g := by
    intro g
    rw [copyLeaf_eq, pageRef_count, hfr, pageOf_pageAddr (by omega)]
    rfl
  refine ⟨fun σ hσ hw σ' hσ' g hg hg' ↦ ?_, fun g hO ht ↦ ?_⟩
  · have hne : ¬ (σ = ⟨src, p, l⟩ ∨ σ = ⟨dst, p, l⟩) := by
      intro hc
      rw [hleaf σ hσ, if_pos hc, cowEntry_writable] at hw
      simp at hw
    rw [hleaf σ hσ, if_neg hne] at hw hg
    rcases hpage σ' hσ' g hg' with ⟨rfl, rfl⟩ | hg'
    · have hsole := hs.sole σ hσ hw ⟨src, p, l⟩ ⟨(h.forest.live hS).1, (h.forest.live hS).2.1, hl⟩
        g hg hf
      exact absurd hsole.symm (not_or.mp hne).1
    · exact hs.sole σ hσ hw σ' hσ' g hg hg'
  · have ht' : s.Tracked g := by
      rw [copyLeaf_eq, pageRef_tracked] at ht
      exact ht
    have hold := hs.counted g hO ht'
    rw [hcount]
    by_cases hgf : g = f
    · subst hgf
      rw [if_pos ⟨rfl, ht'⟩]
      have hsub : pagesOf (Memory.copyLeaf S D s l) roots g ⊆
          insert ⟨dst, p, l⟩ (pagesOf s roots g) := by
        rintro σ ⟨hσ, hg⟩
        rcases hpage σ hσ g hg with ⟨rfl, _⟩ | hg
        · exact Set.mem_insert _ _
        · exact Set.mem_insert_of_mem _ ⟨hσ, hg⟩
      by_cases hpin : s.count g + 1 ≥ 255
      · exact .inl (by omega)
      · have hle := hold.resolve_left (by omega)
        refine .inr ?_
        rw [Nat.min_eq_right (by omega)]
        calc (pagesOf (Memory.copyLeaf S D s l) roots g).encard
            ≤ (insert ⟨dst, p, l⟩ (pagesOf s roots g)).encard := Set.encard_le_encard hsub
          _ ≤ (pagesOf s roots g).encard + 1 := Set.encard_insert_le _ _
          _ ≤ ((s.count g + 1 : ℕ) : ℕ∞) := by
            push_cast
            gcongr
    · rw [if_neg (fun hc ↦ hgf hc.1)]
      refine hold.imp_right fun hle ↦ le_trans (Set.encard_le_encard ?_) hle
      rintro σ ⟨hσ, hg⟩
      exact ⟨hσ, (hpage σ hσ g hg).resolve_left fun hc ↦ hgf hc.2⟩

theorem Shared.copyStable : CopyStable roots src dst fun s _ ↦ Shared O roots s where
  link _ _ _ hsame hinfo hmax hs := hs.congr hsame ⟨hinfo, hmax⟩
  leaf h hS hD hl hp hs := hs.copyLeaf h hS hD hl hp

theorem Shared.newSpace {s' : Vm} {d : ℕ} (hs : Shared O roots s) (hsame : SameLeaves s s' roots)
    (hnew : ∀ σ : Site, σ.Valid (insert d roots) → σ.root = d → leafEntry s'.mem σ = 0#64)
    (hinfo : SameInfo s s') : Shared O (insert d roots) s' := by
  have hold : ∀ (σ : Site), σ.Valid (insert d roots) → ∀ f,
      entryNext (leafEntry s'.mem σ) = some f → σ.Valid roots := by
    intro σ hσ f hf
    refine ⟨hσ.root.resolve_left fun hc ↦ ?_, hσ.user, hσ.length⟩
    rw [hnew σ hσ hc, entryNext_zero] at hf
    simp at hf
  have hs' := hs.congr hsame hinfo
  refine ⟨fun σ hσ hw σ' hσ' f hf hf' ↦ ?_, fun f hO ht ↦ ?_⟩
  · exact hs'.sole σ (hold σ hσ f hf) hw σ' (hold σ' hσ' f hf') f hf hf'
  · refine (hs'.counted f hO ht).imp_right fun hle ↦ le_trans (Set.encard_le_encard ?_) hle
    rintro σ ⟨hσ, hf⟩
    exact ⟨hold σ hσ f hf, hf⟩

end Fork

section Write

variable {s s' : Vm} {O roots : Set ℕ} {role : Roles} {pml4Phys va : Word} {b : BitVec 8}

section

variable (h : Inv s roots role) (hs : Shared O roots s)
include h hs

theorem Shared.store (hr : pageOf pml4Phys ∈ roots) (hv : (pml4Index va).val < 256)
    (hst : userStore s pml4Phys va b = some s') : Shared O roots s' := by
  obtain ⟨f, off, hf, _, rfl⟩ := userStore_cases h hr hv hst
  refine hs.congr (writeData_leaves h rfl rfl fun g hg ↦ writeByte_mem s off b ?_) ⟨rfl, rfl⟩
  rintro rfl
  exact hg (h.leafEntry_data (siteOf_valid hr hv) hf)

omit hs in
theorem Reclaimed.pages_eq {σ : Site} {f : ℕ} (hrec : Reclaimed roots s s' role σ f)
    (hσ : σ.Valid roots) (hf : entryNext (leafEntry s.mem σ) = some f) (k : ℕ) :
    pagesOf s' roots k = pagesOf s roots k := by
  ext τ
  refine and_congr_right fun hτ ↦ ?_
  rw [hrec.next_eq h hσ hf hτ]

theorem Shared.reclaim {σ : Site}
    (hσ : σ.Valid roots) {f : ℕ} (hf : entryNext (leafEntry s.mem σ) = some f) (hO : f ∉ O)
    (hrec : Reclaimed roots s s' role σ f) : Shared O roots s' := by
  obtain ⟨fl, -, hleaf⟩ := hrec.leaf
  refine ⟨fun τ hτ hw ↦ Sole.of_next ?_ hτ fun _ ↦ hrec.next_eq h hσ hf, fun g hg ht ↦ ?_⟩
  · by_cases hc : τ = σ
    · rw [hc]
      exact hs.sole_of_one hσ hf hO hrec.one
    · rw [hleaf τ hτ, if_neg hc] at hw
      exact hs.sole τ hτ hw
  · rw [hrec.pages_eq h hσ hf, hrec.info.count]
    exact hs.counted g hg ((hrec.info.tracked g).mp ht)

theorem Shared.duplicate {σ : Site}
    (hσ : σ.Valid roots) {f g : ℕ} (hf : entryNext (leafEntry s.mem σ) = some f) {role' : Roles}
    (hdup : Duplicated roots s s' role role' σ f g) : Shared O roots s' := by
  obtain ⟨fl, hfl, hleaf⟩ := hdup.leaf
  have hlt := (hdup.inv.owned (.inl (hdup.data.mpr (.inl rfl)))).lt
  have hnext := entryNext_entry hlt hfl
  have hunmapped : ∀ τ : Site, τ.Valid roots → entryNext (leafEntry s.mem τ) ≠ some g := by
    intro τ hτ hn
    have := h.leafEntry_data hτ hn
    simp [hdup.fresh] at this
  obtain ⟨hself, hkeep⟩ := sole_of_fresh hσ hnext hunmapped hleaf
  refine ⟨fun τ hτ hw ↦ ?_, fun k hO ht ↦ ?_⟩
  · by_cases hc : τ = σ
    · exact hc ▸ hself
    · rw [hleaf τ hτ, if_neg hc] at hw
      exact hkeep τ hτ (hs.sole τ hτ hw)
  · have htr := (hdup.tracked k).mp ht
    by_cases hkg : k = g
    · subst hkg
      refine .inr ?_
      rw [hdup.count_new htr, Nat.cast_one, Set.encard_le_one_iff]
      rintro τ τ' ⟨hτ, hk⟩ ⟨hτ', hk'⟩
      have honly : ∀ {ρ : Site}, ρ.Valid roots → entryNext (leafEntry s'.mem ρ) = some k →
          ρ = σ := by
        intro ρ hρ hk
        by_contra hc
        rw [hleaf ρ hρ, if_neg hc] at hk
        exact hunmapped ρ hρ hk
      rw [honly hτ hk, honly hτ' hk']
    · have hsub : pagesOf s' roots k ⊆ pagesOf s roots k \ {σ} := by
        rintro τ ⟨hτ, hk⟩
        rw [hleaf τ hτ] at hk
        split_ifs at hk with hc
        · rw [hnext] at hk
          exact absurd (Option.some.inj hk).symm hkg
        · exact ⟨⟨hτ, hk⟩, hc⟩
      rw [hdup.count k hkg]
      by_cases hpin : s.count k = 255
      · exact .inl (by rw [if_neg (fun hc ↦ hc.2 hpin), hpin])
      have hle := (hs.counted k hO htr).resolve_left hpin
      refine .inr (le_trans (Set.encard_le_encard hsub) ?_)
      by_cases hkf : k = f
      · subst hkf
        rw [if_pos ⟨rfl, hpin⟩]
        have hcard : (pagesOf s roots k \ {σ}).encard + 1 = (pagesOf s roots k).encard :=
          Set.encard_sdiff_singleton_add_one ⟨hσ, hf⟩
        rw [← hcard] at hle
        have hpos : 0 < s.count k := by
          by_contra hc
          obtain hz : s.count k = 0 := by omega
          rw [hz] at hle
          simp at hle
        have hsplit : s.count k = (s.count k - 1) + 1 := by omega
        rw [hsplit, Nat.cast_add, Nat.cast_one] at hle
        exact (ENat.add_le_add_iff_right (by simp)).mp hle
      · rw [if_neg fun hc ↦ hkf hc.1]
        exact le_trans (Set.encard_le_encard Set.sdiff_subset) hle

/-- `handle_cow_fault` keeps the discipline, unless it takes a frame of `O` with
count 1 to have a single owner. -/
theorem Shared.fault (hr : pageOf pml4Phys ∈ roots) (hv : (pml4Index va).val < 256)
    (hO : ∀ f, entryNext (leafEntry s.mem (siteOf (pageOf pml4Phys) va)) = some f →
      hasFlag (leafEntry s.mem (siteOf (pageOf pml4Phys) va)) pteCow = true → f ∈ O →
      s.count f ≠ 1) :
    ∃ role', Inv (handleCowFault s pml4Phys va).2 roots role' ∧
      Shared O roots (handleCowFault s pml4Phys va).2 := by
  rcases handleCowFault_spec h hr hv Prod.mk.eta.symm with
    ⟨_, hsame⟩ | ⟨_, f, hf, hcow, hrec | ⟨g, role', hdup⟩⟩
  · rw [hsame]
    exact ⟨role, h, hs⟩
  · exact ⟨role, hrec.inv, hs.reclaim h (siteOf_valid hr hv) hf
      (fun hc ↦ hO f hf hcow hc hrec.one) hrec⟩
  · exact ⟨role', hdup.inv, hs.duplicate h (siteOf_valid hr hv) hf hdup⟩

end

end Write

section Read

variable {s s' : Vm} {O roots : Set ℕ} {role : Roles} {pml4Phys va other va' : Word}
  {b : BitVec 8}

theorem handleCowFault_read (other va' : Word) (h : Inv s roots role) (hr : pageOf pml4Phys ∈ roots)
    (hv : (pml4Index va).val < 256) (hother : pageOf other ∈ roots)
    (hne : pageOf other ≠ pageOf pml4Phys) (hv' : (pml4Index va').val < 256) :
    userRead (handleCowFault s pml4Phys va).2 other va' = userRead s other va' := by
  have hdata : ∀ f, entryNext (leafEntry s.mem (siteOf (pageOf other) va')) = some f →
      role f = .data := fun f hf ↦ h.leafEntry_data (siteOf_valid hother hv') hf
  rcases handleCowFault_spec h hr hv Prod.mk.eta.symm with
    ⟨_, hsame⟩ | ⟨_, f, hf, _, hrec | ⟨g, role', hdup⟩⟩
  · rw [hsame]
  · exact userRead_congr h hother hv' (fun k p hk ↦ hrec.apart k _ p hk hne)
      fun f hf ↦ hrec.keeps.mem (.inl (hdata f hf))
  · exact userRead_congr h hother hv' (fun k p hk ↦ hdup.apart k _ p hk hne)
      fun f hf ↦ hdup.mem (.inl (hdata f hf))

theorem userStore_read (h : Inv s roots role) (hs : Shared O roots s)
    (hr : pageOf pml4Phys ∈ roots) (hv : (pml4Index va).val < 256)
    (hst : userStore s pml4Phys va b = some s') (hother : pageOf other ∈ roots)
    (hne : pageOf other ≠ pageOf pml4Phys) (hv' : (pml4Index va').val < 256) :
    userRead s' other va' = userRead s other va' := by
  obtain ⟨f, off, hf, hw, rfl⟩ := userStore_cases h hr hv hst
  have hσ := siteOf_valid hr hv
  refine userRead_congr h hother hv' (fun k p hk ↦ writeByte_mem s off b ?_)
    fun g hg ↦ writeByte_mem s off b ?_
  · rintro rfl
    simp [h.leafEntry_data hσ hf] at hk
  · rintro rfl
    have hsame := hs.sole _ hσ hw _ (siteOf_valid hother hv') g hf hg
    exact hne (congrArg Site.root hsame)

theorem userWrite_shared (h : Inv s roots role) (hs : Shared O roots s)
    (hr : pageOf pml4Phys ∈ roots) (hv : (pml4Index va).val < 256) (b : BitVec 8)
    (hO : ∀ f, entryNext (leafEntry s.mem (siteOf (pageOf pml4Phys) va)) = some f →
      hasFlag (leafEntry s.mem (siteOf (pageOf pml4Phys) va)) pteCow = true → f ∈ O →
      s.count f ≠ 1) :
    Shared O roots (userWrite s pml4Phys va b) ∧
      ∀ other va', pageOf other ∈ roots → pageOf other ≠ pageOf pml4Phys →
        (pml4Index va').val < 256 →
        userRead (userWrite s pml4Phys va b) other va' = userRead s other va' := by
  unfold userWrite
  cases hst : userStore s pml4Phys va b with
  | some s' =>
    exact ⟨hs.store h hr hv hst, fun _ _ hother hne hv' ↦
      userStore_read h hs hr hv hst hother hne hv'⟩
  | none =>
    cases ht : translate s pml4Phys va with
    | none => exact ⟨hs, fun _ _ _ _ _ ↦ rfl⟩
    | some t =>
      obtain ⟨role₁, h₁, hs₁⟩ := hs.fault h hr hv hO
      have hread := fun other va' ho hne hv' ↦
        handleCowFault_read other va' h hr hv ho hne hv'
      dsimp only
      split_ifs
      · cases hst' : userStore (handleCowFault s pml4Phys va).2 pml4Phys va b with
        | none => exact ⟨hs₁, hread⟩
        | some s' =>
          refine ⟨hs₁.store h₁ hr hv hst', fun other va' hother hne hv' ↦ ?_⟩
          exact (userStore_read h₁ hs₁ hr hv hst' hother hne hv').trans
            (hread other va' hother hne hv')
      · exact ⟨hs₁, hread⟩

end Read

end SeedOS.Process
