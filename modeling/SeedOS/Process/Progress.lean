import SeedOS.Process.SyscallSteps

namespace SeedOS.Process

open Foundation Memory Function

def Sole (s : Vm) (roots : Set ℕ) (σ : Site) : Prop :=
  ∀ σ' : Site, σ'.Valid roots → ∀ f, entryNext (leafEntry s.mem σ) = some f →
    entryNext (leafEntry s.mem σ') = some f → σ' = σ

/-- The kernel's frames stay the kernel's, with the contents they had. -/
structure Preserves (s s' : Vm) (role role' : Roles) : Prop where
  mem : ∀ {g}, role g = .reserved → s'.mem g = s.mem g
  reserved : ∀ {g}, role' g = .reserved ↔ role g = .reserved
  kernel : s'.kernelPml4Phys = s.kernelPml4Phys

theorem Preserves.refl (s : Vm) (role : Roles) : Preserves s s role role :=
  ⟨fun _ ↦ rfl, Iff.rfl, rfl⟩

theorem Preserves.trans {s₁ s₂ s₃ : Vm} {role₁ role₂ role₃ : Roles}
    (h : Preserves s₁ s₂ role₁ role₂) (h' : Preserves s₂ s₃ role₂ role₃) :
    Preserves s₁ s₃ role₁ role₃ where
  mem hg := by rw [h'.mem (h.reserved.mpr hg), h.mem hg]
  reserved := h'.reserved.trans h.reserved
  kernel := h'.kernel.trans h.kernel

theorem Preserves.of_keeps {s s' : Vm} {role role' : Roles} (h : Keeps s s' role role') :
    Preserves s s' role role' :=
  ⟨fun hg ↦ h.mem (.inr hg), h.reserved, h.kernel⟩

structure Holds (s s' : Vm) (role role' : Roles) : Prop extends Preserves s s' role role' where
  data : ∀ {k}, role k = .data → role' k = .data ∧ s'.mem k = s.mem k

theorem Holds.refl (s : Vm) (role : Roles) : Holds s s role role :=
  ⟨.refl s role, fun hk ↦ ⟨hk, rfl⟩⟩

theorem Holds.trans {s₁ s₂ s₃ : Vm} {role₁ role₂ role₃ : Roles}
    (h : Holds s₁ s₂ role₁ role₂) (h' : Holds s₂ s₃ role₂ role₃) : Holds s₁ s₃ role₁ role₃ := by
  refine ⟨h.toPreserves.trans h'.toPreserves, fun hk ↦ ?_⟩
  obtain ⟨hk₂, hm₂⟩ := h.data hk
  obtain ⟨hk₃, hm₃⟩ := h'.data hk₂
  exact ⟨hk₃, hm₃.trans hm₂⟩

theorem Holds.of_keeps {s s' : Vm} {role role' : Roles} (h : Keeps s s' role role') :
    Holds s s' role role' :=
  ⟨.of_keeps h, fun hk ↦ ⟨h.data.mpr hk, h.mem (.inl hk)⟩⟩

/-- What every kernel operation on one user address space keeps. -/
structure Progress (roots : Set ℕ) (s s' : Vm) (role role' : Roles) : Prop extends
    Preserves s s' role role' where
  inv : Inv s' roots role'
  sole : ∀ σ : Site, σ.Valid roots → Sole s roots σ → Sole s' roots σ

namespace Progress

variable {roots : Set ℕ}

theorem refl {s : Vm} {role : Roles} (h : Inv s roots role) : Progress roots s s role role :=
  ⟨.refl s role, h, fun _ _ hs ↦ hs⟩

theorem trans {s₁ s₂ s₃ : Vm} {role₁ role₂ role₃ : Roles} (h : Progress roots s₁ s₂ role₁ role₂)
    (h' : Progress roots s₂ s₃ role₂ role₃) : Progress roots s₁ s₃ role₁ role₃ :=
  ⟨h.toPreserves.trans h'.toPreserves, h'.inv, fun σ hσ hs ↦ h'.sole σ hσ (h.sole σ hσ hs)⟩

end Progress

theorem Sole.of_next {s s' : Vm} {roots : Set ℕ} {σ : Site} (h : Sole s roots σ)
    (hσ : σ.Valid roots) (hnext : ∀ τ : Site, τ.Valid roots →
      entryNext (leafEntry s'.mem τ) = entryNext (leafEntry s.mem τ)) : Sole s' roots σ := by
  intro σ' hσ' f hf hf'
  rw [hnext σ hσ] at hf
  rw [hnext σ' hσ'] at hf'
  exact h σ' hσ' f hf hf'

theorem Sole.congr {s s' : Vm} {roots : Set ℕ} {σ : Site} (h : Sole s roots σ)
    (hσ : σ.Valid roots) (hsame : SameLeaves s s' roots) : Sole s' roots σ :=
  h.of_next hσ fun τ hτ ↦ congrArg entryNext (hsame τ hτ)

section Primitives

variable {s s' : Vm} {roots : Set ℕ} {role : Roles} {pml4Phys v : Word}

section

variable (h : Inv s roots role)
include h

theorem release_spec {f : ℕ} (hf : role f = .data)
    (hnone : ∀ σ : Site, σ.Valid roots → entryNext (leafEntry s.mem σ) ≠ some f) :
    Inv { s with pmm := pmmFree s.pmm (pageAddr f) } roots (update role f .free) := by
  have hmap : ∀ t r p i, role t = .table r p → p.length = 3 → entryNext (s.mem t i) ≠ some f := by
    intro t r p i ht hl hn
    have hlive := h.forest.live ht
    refine hnone ⟨r, p, i⟩ ⟨hlive.1, hlive.2.1, hl⟩ ?_
    rw [h.leafEntry_of_table ht]
    exact hn
  refine h.release ?_ hf (pmmFree_gives (h.owned (.inl hf))) ?_ hmap
  · rfl
  · rfl

theorem vmmGetPhysical_data (hr : pageOf pml4Phys ∈ roots)
    (hv : (pml4Index v).val < 256) (hne : vmmGetPhysical s pml4Phys v ≠ 0#64) :
    ∃ f, role f = .data ∧ vmmGetPhysical s pml4Phys v = pageAddr f ∧
      entryNext (leafEntry s.mem (siteOf (pageOf pml4Phys) v)) = some f := by
  rw [vmmGetPhysical_eq] at hne ⊢
  cases hp : hasFlag (leafEntry s.mem (siteOf (pageOf pml4Phys) v)) ptePresent with
  | false => simp [hp] at hne
  | true =>
    have hn : entryNext (leafEntry s.mem (siteOf (pageOf pml4Phys) v)) = some _ :=
      entryNext_some.mpr ⟨hp, rfl⟩
    exact ⟨_, h.leafEntry_data (siteOf_valid hr hv) hn, (pageAddr_frameOf _).symm, hn⟩

theorem vmmGetPhysical_zero (hr : pageOf pml4Phys ∈ roots)
    (hv : (pml4Index v).val < 256) (hz : vmmGetPhysical s pml4Phys v = 0#64) :
    entryNext (leafEntry s.mem (siteOf (pageOf pml4Phys) v)) = none := by
  rw [vmmGetPhysical_eq] at hz
  cases hp : hasFlag (leafEntry s.mem (siteOf (pageOf pml4Phys) v)) ptePresent with
  | false => exact entryNext_none.mpr hp
  | true =>
    -- a present page has a frame other than frame 0
    have hn : entryNext (leafEntry s.mem (siteOf (pageOf pml4Phys) v)) = some _ :=
      entryNext_some.mpr ⟨hp, rfl⟩
    have ho := h.owned (.inl (h.leafEntry_data (siteOf_valid hr hv) hn))
    have hlt := ho.lt
    rw [hp, if_pos rfl, ← pageAddr_frameOf] at hz
    exact absurd hz (pageAddr_ne_zero ho.1 (by omega))

theorem writeData_leaves (hp : s'.pmm = s.pmm) (hk : s'.kernelPml4Phys = s.kernelPml4Phys)
    (hm : ∀ g, role g ≠ .data → s'.mem g = s.mem g) : SameLeaves s s' roots := by
  intro τ hτ
  refine h.tabled.leafEntry_eq (h.writeData hk hp hm).tabled hτ hτ (fun t ht ↦ ⟨ht, ?_⟩)
    fun t ht ↦ .inl ht
  rw [hm t (by simp [ht])]

theorem writeData_progress (hp : s'.pmm = s.pmm) (hk : s'.kernelPml4Phys = s.kernelPml4Phys)
    (hm : ∀ g, role g ≠ .data → s'.mem g = s.mem g) : Progress roots s s' role role :=
  ⟨⟨fun hg ↦ hm _ (by simp [hg]), Iff.rfl, hk⟩, h.writeData hk hp hm,
    fun _ hσ hs ↦ hs.congr hσ (writeData_leaves h hp hk hm)⟩

theorem write_progress {f : ℕ} (hf : role f = .data) (i : Fin 512)
    (w : Word) : Progress roots s (s.write f i w) role role := by
  refine writeData_progress h rfl rfl fun g hg ↦ funext fun j ↦ ?_
  rw [Vm.write_mem, if_neg]
  rintro ⟨rfl, _⟩
  exact hg hf

theorem writeByte_progress {f : ℕ} (hf : role f = .data) (off : ℕ)
    (b : BitVec 8) : Progress roots s (s.writeByte f off b) role role :=
  write_progress h hf _ _

theorem takePage_spec {f : ℕ} (htook : TookPage s s' f) :
    Inv s' roots (update role f .data) ∧ Holds s s' role (update role f .data) ∧
      SameLeaves s s' roots := by
  have hfree := h.free_of_available htook.available
  have hm : ∀ g ≠ f, s'.mem g = s.mem g := fun g hg ↦ by rw [htook.eq, Vm.fill_mem, if_neg hg]
  have hk : s'.kernelPml4Phys = s.kernelPml4Phys := by rw [htook.eq]; rfl
  have hinv : Inv s' roots (update role f .data) := h.take hk htook.available htook.takes hm
  refine ⟨hinv, ⟨⟨fun {g} hg ↦ hm g ?_, update_eq_iff (by simp [hfree]) (by simp), hk⟩,
    fun {k} hkd ↦ ?_⟩, h.take_sameLeaves hfree hinv hm⟩
  · rintro rfl; simp [hg] at hfree
  · have hkf : k ≠ f := by rintro rfl; simp [hkd] at hfree
    exact ⟨by rwa [update_of_ne hkf], hm k hkf⟩

theorem mapFreshPage_holds {flags : Word} (hr : pageOf pml4Phys ∈ roots)
    (hv : (pml4Index v).val < 256) (hfl : MapFlags flags)
    {res : FreshPage} (heq : mapFreshPage s pml4Phys v flags = (res, s')) :
    ∃ role', Holds s s' role role' ∧ Inv s' roots role' ∧
      ((res = .mapped ∧ ∃ f, s.pmm.Available f ∧ (pmmAlloc s.pmm).1 = pageAddr f ∧
          role' f = .data ∧ s'.mem f = (fun _ ↦ 0#64) ∧
          Relinked roots s s' (siteOf (pageOf pml4Phys) v) (pageAddr f ||| flags)) ∨
        (res ≠ .mapped ∧ SameLeaves s s' roots)) := by
  rcases mapFreshPage_cases heq with ⟨rfl, rfl, -⟩ | ⟨f, s₁, code, s₂, htook, hmap, hcode⟩
  · exact ⟨role, .refl _ _, h, .inr ⟨by simp, fun _ _ ↦ rfl⟩⟩
  have hfree := h.free_of_available htook.available
  obtain ⟨h₁, hpres₁, hsame₁⟩ := takePage_spec h htook
  obtain ⟨role₂, h₂, hk₂, hres⟩ := vmmMapPage_spec h₁ hr hv (update_self _ _ _) hfl hmap
  have hpres₂ := hpres₁.trans (.of_keeps hk₂)
  have hdata₂ : role₂ f = .data := hk₂.data.mpr (update_self _ _ _)
  rcases hcode with ⟨hc, rfl, rfl⟩ | ⟨hc, rfl, rfl⟩
  · obtain ⟨-, hsame₂⟩ := hres.resolve_left fun h ↦ by omega
    have hsame := hsame₁.trans hsame₂
    have hnone : ∀ σ : Site, σ.Valid roots → entryNext (leafEntry s₂.mem σ) ≠ some f := by
      intro σ hσ hn
      rw [hsame σ hσ] at hn
      simp [h.leafEntry_data hσ hn] at hfree
    refine ⟨_, ⟨hpres₂.toPreserves.trans ⟨fun _ ↦ rfl, update_eq_iff (by simp [hdata₂])
      (by simp), rfl⟩, fun {k} hk ↦ ?_⟩, release_spec h₂ hdata₂ hnone, .inr ⟨by simp, hsame⟩⟩
    have hkf : k ≠ f := by rintro rfl; simp [hk] at hfree
    rw [update_of_ne hkf]
    exact hpres₂.data hk
  · obtain ⟨-, hleaf⟩ := hres.resolve_right fun h ↦ by omega
    refine ⟨role₂, hpres₂, h₂, .inl ⟨rfl, f, htook.available, by rw [htook.alloc], hdata₂, ?_,
      fun σ hσ ↦ ?_⟩⟩
    · rw [hk₂.mem (.inl (update_self _ _ _)), htook.eq, Vm.fill_mem, if_pos rfl]
    · rw [hleaf σ hσ, hsame₁ σ hσ]

theorem mapFreshPage_spec {flags : Word} (hr : pageOf pml4Phys ∈ roots)
    (hv : (pml4Index v).val < 256) (hfl : MapFlags flags)
    {res : FreshPage} (heq : mapFreshPage s pml4Phys v flags = (res, s')) :
    ∃ role', Preserves s s' role role' ∧ Inv s' roots role' ∧
      ((res = .mapped ∧ ∃ f, role f = .free ∧ role' f = .data ∧ s'.mem f = (fun _ ↦ 0#64) ∧
          Relinked roots s s' (siteOf (pageOf pml4Phys) v) (pageAddr f ||| flags)) ∨
        (res ≠ .mapped ∧ SameLeaves s s' roots)) := by
  obtain ⟨role', hholds, hinv, hres⟩ := mapFreshPage_holds h hr hv hfl heq
  refine ⟨role', hholds.toPreserves, hinv, hres.imp_left fun ⟨hm, f, hav, _, hrest⟩ ↦ ?_⟩
  exact ⟨hm, f, h.free_of_available hav, hrest⟩

end

theorem sole_of_fresh {τ : Site} (hτ : τ.Valid roots) {e : Word} {f : ℕ} (he : entryNext e = some f)
    (hunmapped : ∀ σ : Site, σ.Valid roots → entryNext (leafEntry s.mem σ) ≠ some f)
    (hleaf : Relinked roots s s' τ e) :
    Sole s' roots τ ∧ ∀ σ : Site, σ.Valid roots → Sole s roots σ → Sole s' roots σ := by
  have hself : Sole s' roots τ := by
    intro σ' hσ' g hg hg'
    by_contra hc
    rw [hleaf τ hτ, if_pos rfl, he] at hg
    rw [hleaf σ' hσ', if_neg hc] at hg'
    exact hunmapped σ' hσ' (Option.some.inj hg ▸ hg')
  refine ⟨hself, fun σ hσ hs ↦ ?_⟩
  by_cases hστ : σ = τ
  · exact hστ ▸ hself
  · intro σ' hσ' g hg hg'
    rw [hleaf σ hσ, if_neg hστ] at hg
    by_cases hσ'τ : σ' = τ
    · rw [hleaf σ' hσ', if_pos hσ'τ, he] at hg'
      exact absurd (Option.some.inj hg' ▸ hg) (hunmapped σ hσ)
    · rw [hleaf σ' hσ', if_neg hσ'τ] at hg'
      exact hs σ' hσ' g hg hg'

theorem mapFreshPage_progress (h : Inv s roots role) {flags : Word}
    (hr : pageOf pml4Phys ∈ roots) (hv : (pml4Index v).val < 256) (hfl : MapFlags flags)
    {res : FreshPage} (heq : mapFreshPage s pml4Phys v flags = (res, s')) :
    ∃ role', Progress roots s s' role role' ∧
      (res = .mapped → Sole s' roots (siteOf (pageOf pml4Phys) v)) := by
  obtain ⟨role', hpres, hinv, hres⟩ := mapFreshPage_spec h hr hv hfl heq
  rcases hres with ⟨rfl, f, hfree, hdata, _, hleaf⟩ | ⟨hne, hsame⟩
  · have hlt := (hinv.owned (.inl hdata)).lt
    have hunmapped : ∀ σ : Site, σ.Valid roots → entryNext (leafEntry s.mem σ) ≠ some f := by
      intro σ hσ hn
      simp [h.leafEntry_data hσ hn] at hfree
    have hsole := sole_of_fresh (siteOf_valid hr hv) (entryNext_entry hlt hfl) hunmapped hleaf
    exact ⟨role', ⟨hpres, hinv, hsole.2⟩, fun _ ↦ hsole.1⟩
  · exact ⟨role', ⟨hpres, hinv, fun σ hσ hs ↦ hs.congr hσ hsame⟩, fun hc ↦ absurd hc hne⟩

theorem sole_of_cleared {τ : Site} (hleaf : Relinked roots s s' τ 0#64)
    {σ : Site} (hσ : σ.Valid roots) (hs : Sole s roots σ) : Sole s' roots σ := by
  intro σ' hσ' f hf hf'
  rw [hleaf σ hσ] at hf
  rw [hleaf σ' hσ'] at hf'
  split_ifs at hf with he
  · simp [entryNext_zero] at hf
  · split_ifs at hf' with he'
    · simp [entryNext_zero] at hf'
    · exact hs σ' hσ' f hf hf'

section

variable (h : Inv s roots role) (hr : pageOf pml4Phys ∈ roots) (hv : (pml4Index v).val < 256)
  (hsole : Sole s roots (siteOf (pageOf pml4Phys) v))
include h hr hv hsole

theorem unmapFree_progress (hne : vmmGetPhysical s pml4Phys v ≠ 0#64) : ∃ role', Progress roots s
      { (vmmUnmapPage s pml4Phys v).2 with
        pmm := pmmFree (vmmUnmapPage s pml4Phys v).2.pmm (vmmGetPhysical s pml4Phys v) }
      role role' := by
  obtain ⟨f, hf, hphys, hmaps⟩ := vmmGetPhysical_data h hr hv hne
  obtain ⟨h₁, hk₁, _, hleaf⟩ := vmmUnmapPage_spec h hr hv Prod.mk.eta.symm
  have hnone : ∀ σ : Site, σ.Valid roots →
      entryNext (leafEntry (vmmUnmapPage s pml4Phys v).2.mem σ) ≠ some f := by
    intro σ hσ hn
    rw [hleaf σ hσ] at hn
    split_ifs at hn with he
    · simp [entryNext_zero] at hn
    · exact he (hsole σ hσ f hmaps hn)
  have h₂ := release_spec h₁ hf hnone
  rw [← hphys] at h₂
  refine ⟨_, ⟨?_, h₂, fun σ hσ hs ↦ sole_of_cleared hleaf hσ hs⟩⟩
  exact (Preserves.of_keeps hk₁).trans
    ⟨fun _ ↦ rfl, update_eq_iff (by simp [hf]) (by simp), rfl⟩

theorem releasePage_progress : ∃ role', Progress roots s (releasePage s pml4Phys v) role role' := by
  unfold releasePage
  by_cases hz : vmmGetPhysical s pml4Phys v = 0#64
  · rw [if_pos hz]
    exact ⟨role, .refl h⟩
  · rw [if_neg hz]
    exact unmapFree_progress h hr hv hsole hz

theorem mmapUndoPage_progress :
    ∃ role', Progress roots s (mmapUndoPage s pml4Phys v) role role' := by
  unfold mmapUndoPage
  by_cases hz : vmmGetPhysical s pml4Phys v = 0#64
  · simp only [hz, if_true]
    obtain ⟨h₁, hk₁, _, hleaf⟩ := vmmUnmapPage_spec h hr hv Prod.mk.eta.symm
    exact ⟨role, .of_keeps hk₁, h₁, fun σ hσ hs ↦ sole_of_cleared hleaf hσ hs⟩
  · simp only [hz, if_false]
    exact unmapFree_progress h hr hv hsole hz

end

end Primitives

section Syscalls

variable {s : Vm} {roots : Set ℕ} {role : Roles} {pml4Phys : Word}

theorem Progress.loopKeeps (hr : pageOf pml4Phys ∈ roots) (maps releases : Word → Prop)
    (hmap : ∀ v, maps v → (pml4Index v).val < 256)
    (hrel : ∀ v, releases v → (pml4Index v).val < 256 ∧
      Sole s roots (siteOf (pageOf pml4Phys) v)) :
    LoopKeeps pml4Phys maps releases fun M s' ↦ (∀ v ∈ M, maps v) ∧
      ∃ role', Progress roots s s' role role' ∧
        ∀ v ∈ M, Sole s' roots (siteOf (pageOf pml4Phys) v) where
  map := by
    rintro M s₁ s₂ v flags res ⟨hM, role₁, hp₁, hsole⟩ hv - hfl hm
    obtain ⟨role₂, hp₂, hnew⟩ := mapFreshPage_progress hp₁.inv hr (hmap v hv) hfl hm
    have hsole₂ : ∀ w ∈ M, Sole s₂ roots (siteOf (pageOf pml4Phys) w) := fun w hw ↦
      hp₂.sole _ (siteOf_valid hr (hmap w (hM w hw))) (hsole w hw)
    refine ⟨fun hres ↦ ⟨?_, role₂, hp₁.trans hp₂, ?_⟩,
      fun _ ↦ ⟨M, Set.Subset.rfl, hM, role₂, hp₁.trans hp₂, hsole₂⟩⟩
    · rintro w (rfl | hw)
      · exact hv
      · exact hM w hw
    · rintro w (rfl | hw)
      · exact hnew hres
      · exact hsole₂ w hw
  undo := by
    rintro M s₁ v ⟨hM, role₁, hp₁, hsole⟩ hv hin
    obtain ⟨role₂, hp₂⟩ := mmapUndoPage_progress hp₁.inv hr (hmap v hv) (hsole v hin)
    exact ⟨M, Set.Subset.rfl, hM, role₂, hp₁.trans hp₂, fun w hw ↦
      hp₂.sole _ (siteOf_valid hr (hmap w (hM w hw))) (hsole w hw)⟩
  release := by
    rintro M s₁ v ⟨hM, role₁, hp₁, hsole⟩ hv
    obtain ⟨hidx, hs⟩ := hrel v hv
    obtain ⟨role₂, hp₂⟩ := releasePage_progress hp₁.inv hr hidx
      (hp₁.sole _ (siteOf_valid hr hidx) hs)
    exact ⟨∅, nofun, role₂, hp₁.trans hp₂, nofun⟩

theorem sysBrk_progress (h : Inv s roots role) (hr : pageOf pml4Phys ∈ roots)
    {brkStart oldBrk brk : Word}
    (hmap : ∀ v, brkMaps brkStart oldBrk brk v → (pml4Index v).val < 256)
    (hrel : ∀ v, brkReleases brkStart oldBrk brk v → (pml4Index v).val < 256 ∧
      Sole s roots (siteOf (pageOf pml4Phys) v)) :
    ∃ role', Progress roots s (sysBrk s pml4Phys brkStart oldBrk brk).2.2 role role' := by
  obtain ⟨M, -, role', hp, -⟩ := (Progress.loopKeeps hr _ _ hmap hrel).sysBrk
    ⟨nofun, role, .refl h, nofun⟩
  exact ⟨role', hp⟩

theorem sysMmap_progress (h : Inv s roots role) (hr : pageOf pml4Phys ∈ roots) (prot : Word)
    {mmapNext addr len flags fd : Word}
    (hmap : ∀ v, mmapMaps mmapNext addr len flags fd v → (pml4Index v).val < 256) :
    ∃ role', Progress roots s
      (sysMmap s pml4Phys mmapNext addr len prot flags fd).2.2 role role' := by
  obtain ⟨M, -, role', hp, -⟩ := (Progress.loopKeeps hr _ (fun _ ↦ False) hmap
    nofun).sysMmap prot ⟨nofun, role, .refl h, nofun⟩
  exact ⟨role', hp⟩

theorem sysMunmap_progress (h : Inv s roots role) (hr : pageOf pml4Phys ∈ roots) {addr len : Word}
    (hrel : ∀ v, munmapReleases addr len v → (pml4Index v).val < 256 ∧
      Sole s roots (siteOf (pageOf pml4Phys) v)) :
    ∃ role', Progress roots s (sysMunmap s pml4Phys addr len).2 role role' := by
  obtain ⟨M, -, role', hp, -⟩ := (Progress.loopKeeps hr (fun _ ↦ False) _ nofun
    hrel).sysMunmap ⟨nofun, role, .refl h, nofun⟩
  exact ⟨role', hp⟩

end Syscalls

end SeedOS.Process
