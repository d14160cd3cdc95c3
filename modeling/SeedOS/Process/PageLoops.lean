import SeedOS.Memory.MapRefinement
import SeedOS.Process.Progress

namespace SeedOS.Process

open Foundation Memory Function

def addresses (vaddr : ℕ → Word) : ℕ → ℕ → List Word
  | 0, _ => []
  | n + 1, i => vaddr i :: addresses vaddr n (i + 1)

theorem mem_addresses {vaddr : ℕ → Word} {n i : ℕ} {v : Word} :
    v ∈ addresses vaddr n i ↔ ∃ k < n, v = vaddr (i + k) := by
  induction n generalizing i with
  | zero => simp [addresses]
  | succ n ih =>
    rw [addresses, List.mem_cons, ih]
    constructor
    · rintro (rfl | ⟨k, hk, rfl⟩)
      · exact ⟨0, by omega, rfl⟩
      · exact ⟨k + 1, by omega, by rw [Nat.add_assoc, Nat.add_comm 1]⟩
    · rintro ⟨k, hk, rfl⟩
      cases k with
      | zero => exact .inl rfl
      | succ k => exact .inr ⟨k, by omega, by rw [Nat.add_assoc, Nat.add_comm 1]⟩

theorem length_addresses (vaddr : ℕ → Word) (n i : ℕ) : (addresses vaddr n i).length = n := by
  induction n generalizing i with
  | zero => rfl
  | succ n ih => rw [addresses, List.length_cons, ih]

theorem rangePage_page {addr : Word} {n : ℕ} (hv : ∀ k < n, UserAddress (rangePage addr k))
    {k : ℕ} (hk : k < n) : pageOf (rangePage addr k) = pageOf addr + k := by
  have hsucc : ∀ k, rangePage addr (k + 1) = rangePage addr k + 4096#64 := by
    intro k
    rw [rangePage, rangePage, BitVec.ofNat_add, BitVec.add_mul, ← BitVec.add_assoc]
    rfl
  induction k with
  | zero => simp [rangePage]
  | succ k ih =>
    have hlt := hv k (by omega)
    unfold UserAddress userSpaceTop at hlt
    rw [hsucc, ← Nat.add_assoc, ← ih (by omega), pageOf, pageOf, BitVec.toNat_add,
      show (4096#64).toNat = 4096 from rfl]
    omega

inductive MapsFresh (pml4Phys flags : Word) : List Word → Vm → Vm → Prop
  | nil (s : Vm) : MapsFresh pml4Phys flags [] s s
  | cons {v : Word} {vs : List Word} {s s₁ s' : Vm}
      (hfirst : mapFreshPage s pml4Phys v flags = (.mapped, s₁))
      (hrest : MapsFresh pml4Phys flags vs s₁ s') : MapsFresh pml4Phys flags (v :: vs) s s'

section Loops

variable {s s' : Vm} {pml4Phys flags : Word} {vaddr : ℕ → Word} {undo : ℕ → Vm → Vm} {ok : Bool}

/-- A mapping loop maps every page, or it stops at the first that fails. -/
theorem mapLoop_cases (n i : ℕ) (h : mapLoop pml4Phys flags vaddr undo n i s = (ok, s')) :
    (ok = true ∧ MapsFresh pml4Phys flags (addresses vaddr n i) s s') ∨
    (ok = false ∧ ∃ k < n, ∃ s₁ s₂ res,
      MapsFresh pml4Phys flags (addresses vaddr k i) s s₁ ∧ res ≠ .mapped ∧
      mapFreshPage s₁ pml4Phys (vaddr (i + k)) flags = (res, s₂) ∧ s' = undo (i + k) s₂) := by
  induction n generalizing i s with
  | zero =>
    simp only [mapLoop, Prod.mk.injEq] at h
    obtain ⟨rfl, rfl⟩ := h
    exact .inl ⟨rfl, .nil s⟩
  | succ n ih =>
    rw [mapLoop] at h
    cases hm : mapFreshPage s pml4Phys (vaddr i) flags with
    | mk res s₁ =>
      cases res with
      | mapped =>
        simp only [hm] at h
        refine (ih (i + 1) h).imp (And.imp_right (.cons hm)) ?_
        rintro ⟨hok, k, hk, s₂, s₃, res, hsome, hres, hlast, hundo⟩
        rw [Nat.add_assoc, Nat.add_comm 1] at hlast hundo
        exact ⟨hok, k + 1, by omega, s₂, s₃, res, .cons hm hsome, hres, hlast, hundo⟩
      | noMemory =>
        simp only [hm, Prod.mk.injEq] at h
        obtain ⟨rfl, rfl⟩ := h
        exact .inr ⟨rfl, 0, by omega, s, s₁, _, .nil s, by simp, hm, rfl⟩
      | mapFailed code =>
        simp only [hm, Prod.mk.injEq] at h
        obtain ⟨rfl, rfl⟩ := h
        exact .inr ⟨rfl, 0, by omega, s, s₁, _, .nil s, by simp, hm, rfl⟩

theorem mapLoop_iff (n i : ℕ) : mapLoop pml4Phys flags vaddr undo n i s = (true, s') ↔
    MapsFresh pml4Phys flags (addresses vaddr n i) s s' := by
  refine ⟨fun h ↦ ((mapLoop_cases n i h).resolve_right fun hc ↦ by simp at hc).2, fun h ↦ ?_⟩
  induction n generalizing i s with
  | zero =>
    cases h
    rfl
  | succ n ih =>
    rw [addresses] at h
    cases h with
    | cons hfirst hrest =>
      rw [mapLoop, hfirst]
      exact ih (i + 1) hrest

end Loops

/-- Between `p` and `p'` frames have been taken, but none given back. -/
def OnlyTaken (p p' : Pmm) : Prop :=
  p'.totalPages = p.totalPages ∧
    ∀ g, bitmapIsUsed p.bitmap g = true → bitmapIsUsed p'.bitmap g = true

section Taken

variable {s s' : Vm} {pml4Phys v phys flags : Word} {p p' p'' : Pmm}

theorem OnlyTaken.refl (p : Pmm) : OnlyTaken p p := ⟨rfl, fun _ hg ↦ hg⟩

theorem OnlyTaken.trans (h : OnlyTaken p p') (h' : OnlyTaken p' p'') : OnlyTaken p p'' :=
  ⟨h'.1.trans h.1, fun g hg ↦ h'.2 g (h.2 g hg)⟩

theorem OnlyTaken.of_takes {f : ℕ} (h : p.Takes p' f) : OnlyTaken p p' :=
  ⟨h.1, fun g hg ↦ by rw [h.2, hg, Bool.or_true]⟩

theorem OnlyTaken.available (h : OnlyTaken p p') {g : ℕ} (hg : p'.Available g) : p.Available g := by
  obtain ⟨hpos, hlt, hfree⟩ := hg
  refine ⟨hpos, h.1 ▸ hlt, ?_⟩
  cases hu : bitmapIsUsed p.bitmap g with
  | false => rfl
  | true =>
    rw [h.2 g hu] at hfree
    cases hfree

theorem descend_taken {t t' : ℕ} {i : Fin 512}
    (hd : descend s t i flags = some (t', phys, s')) : OnlyTaken s.pmm s'.pmm := by
  cases descend_cases hd with
  | follow _ hs => rcases hs with rfl | rfl <;> exact .refl _
  | fresh _ pmm _ htk _ hs =>
    rw [hs]
    exact .of_takes htk

theorem vmmMapPage_taken {res : ℤ} (hmap : vmmMapPage s pml4Phys v phys flags = (res, s'))
    (hres : ¬ res < 0) : OnlyTaken s.pmm s'.pmm := by
  simp only [vmmMapPage] at hmap
  cases hd₄ : descend s (pageOf pml4Phys) (pml4Index v) flags with
  | none =>
    simp only [hd₄, Prod.mk.injEq] at hmap
    omega
  | some r₄ =>
    obtain ⟨pdpt, newPdpt, s₁⟩ := r₄
    simp only [hd₄] at hmap
    cases hd₃ : descend s₁ pdpt (pdptIndex v) flags with
    | none =>
      simp only [hd₃, Prod.mk.injEq] at hmap
      omega
    | some r₃ =>
      obtain ⟨pd, newPd, s₂⟩ := r₃
      simp only [hd₃] at hmap
      cases hd₂ : descend s₂ pd (pdIndex v) flags with
      | none =>
        simp only [hd₂, Prod.mk.injEq] at hmap
        omega
      | some r₂ =>
        simp only [hd₂, Prod.mk.injEq] at hmap
        rw [← hmap.2]
        have htaken := descend_taken hd₂
        exact (descend_taken hd₄).trans ((descend_taken hd₃).trans htaken)

theorem mapFreshPage_taken (hmap : mapFreshPage s pml4Phys v flags = (.mapped, s')) :
    OnlyTaken s.pmm s'.pmm := by
  rcases mapFreshPage_cases hmap with
    ⟨hc, -⟩ | ⟨f, s₁, code, s₂, htook, hcode, ⟨-, hc, -⟩ | ⟨hc, -, rfl⟩⟩
  · cases hc
  · cases hc
  · exact (OnlyTaken.of_takes htook.takes).trans (vmmMapPage_taken hcode (not_lt.mpr hc))

end Taken

/-- What mapping fresh pages at the sites `S` has done: each of them has a zeroed frame of
its own that was available before, and no other page has changed. -/
structure FreshPages (roots : Set ℕ) (s s' : Vm) (role role' : Roles) (flags : Word)
    (S : Set Site) : Prop where
  inv : Inv s' roots role'
  holds : Holds s s' role role'
  taken : OnlyTaken s.pmm s'.pmm
  inside : ∀ σ ∈ S, ∃ f, s.pmm.Available f ∧ role' f = .data ∧ s'.mem f = (fun _ ↦ 0#64) ∧
    leafEntry s'.mem σ = pageAddr f ||| flags
  outside : ∀ σ : Site, σ.Valid roots → σ ∉ S → leafEntry s'.mem σ = leafEntry s.mem σ
  sole : ∀ σ ∈ S, Sole s' roots σ
  keepsSole : ∀ σ : Site, σ.Valid roots → Sole s roots σ → Sole s' roots σ

section Fresh

variable {s s₁ s' : Vm} {roots : Set ℕ} {role role₁ role' : Roles} {pml4Phys v flags : Word}

def sitesOf (pml4Phys : Word) (vs : List Word) : Set Site :=
  {σ | ∃ v ∈ vs, σ = siteOf (pageOf pml4Phys) v}

theorem sitesOf_cons (v : Word) (vs : List Word) : sitesOf pml4Phys (v :: vs) =
    {siteOf (pageOf pml4Phys) v} ∪ sitesOf pml4Phys vs := by
  ext σ
  simp [sitesOf]

theorem mem_sitesOf_addresses {vaddr : ℕ → Word} {n i page : ℕ}
    (hpage : ∀ k < n, UserAddress (vaddr (i + k)) ∧ pageOf (vaddr (i + k)) = page + k)
    (hv : UserAddress v) {r : ℕ} : siteOf r v ∈ sitesOf pml4Phys (addresses vaddr n i) ↔
      r = pageOf pml4Phys ∧ page ≤ pageOf v ∧ pageOf v < page + n := by
  constructor
  · rintro ⟨w, hw, hsite⟩
    obtain ⟨k, hk, rfl⟩ := mem_addresses.mp hw
    obtain ⟨huser, hnum⟩ := hpage k hk
    obtain ⟨rfl, heq⟩ := (siteOf_inj hv huser _ _).mp hsite
    exact ⟨rfl, by omega, by omega⟩
  · rintro ⟨rfl, hle, hlt⟩
    obtain ⟨huser, hnum⟩ := hpage (pageOf v - page) (by omega)
    refine ⟨_, mem_addresses.mpr ⟨pageOf v - page, by omega, rfl⟩, ?_⟩
    rw [siteOf_inj hv huser, hnum]
    exact ⟨rfl, by omega⟩

theorem FreshPages.refl (h : Inv s roots role) : FreshPages roots s s role role flags ∅ where
  inv := h
  holds := .refl s role
  taken := .refl _
  inside := by simp
  outside _ _ _ := rfl
  sole := by simp
  keepsSole _ _ hs := hs

theorem FreshPages.of_page (h : Inv s roots role) (hr : pageOf pml4Phys ∈ roots)
    (hv : (pml4Index v).val < 256) (hfl : MapFlags flags)
    (hmap : mapFreshPage s pml4Phys v flags = (.mapped, s')) :
    ∃ role', FreshPages roots s s' role role' flags {siteOf (pageOf pml4Phys) v} := by
  obtain ⟨role', hholds, hinv, hres⟩ := mapFreshPage_holds h hr hv hfl hmap
  obtain ⟨-, f, hav, -, hdata, hzero, hleaf⟩ := hres.resolve_right fun hc ↦ hc.1 rfl
  have hlt := hav.lt
  have hunmapped : ∀ σ : Site, σ.Valid roots → entryNext (leafEntry s.mem σ) ≠ some f := by
    intro σ hσ hn
    have hdata := h.leafEntry_data hσ hn
    simp [h.free_of_available hav] at hdata
  have hσ := siteOf_valid hr hv
  obtain ⟨hself, hkeep⟩ := sole_of_fresh hσ (entryNext_entry hlt hfl) hunmapped hleaf
  refine ⟨role', hinv, hholds, mapFreshPage_taken hmap, ?_, ?_, ?_, hkeep⟩
  · rintro σ rfl
    exact ⟨f, hav, hdata, hzero, by rw [hleaf _ hσ, if_pos rfl]⟩
  · intro σ hσ' hne
    rw [Set.mem_singleton_iff] at hne
    rw [hleaf σ hσ', if_neg hne]
  · rintro σ rfl
    exact hself

theorem FreshPages.trans {S T : Set Site} (h : FreshPages roots s s₁ role role₁ flags S)
    (h' : FreshPages roots s₁ s' role₁ role' flags T) (hS : ∀ σ ∈ S, σ.Valid roots) :
    FreshPages roots s s' role role' flags (S ∪ T) where
  inv := h'.inv
  holds := h.holds.trans h'.holds
  taken := h.taken.trans h'.taken
  inside σ hσ := by
    by_cases hT : σ ∈ T
    · obtain ⟨f, hav, hrest⟩ := h'.inside σ hT
      exact ⟨f, h.taken.available hav, hrest⟩
    · have hσS := hσ.resolve_right hT
      obtain ⟨f, hav, hdata, hzero, hleaf⟩ := h.inside σ hσS
      obtain ⟨hdata', hmem⟩ := h'.holds.data hdata
      refine ⟨f, hav, hdata', hmem.trans hzero, ?_⟩
      rw [h'.outside σ (hS σ hσS) hT, hleaf]
  outside σ hσ hne := by
    rw [Set.mem_union, not_or] at hne
    rw [h'.outside σ hσ hne.2, h.outside σ hσ hne.1]
  sole σ hσ := by
    by_cases hT : σ ∈ T
    · exact h'.sole σ hT
    · have hσS := hσ.resolve_right hT
      exact h'.keepsSole σ (hS σ hσS) (h.sole σ hσS)
  keepsSole σ hσ hs := h'.keepsSole σ hσ (h.keepsSole σ hσ hs)

theorem MapsFresh.spec {vs : List Word} (hrun : MapsFresh pml4Phys flags vs s s')
    (h : Inv s roots role) (hr : pageOf pml4Phys ∈ roots) (hfl : MapFlags flags)
    (hv : ∀ v ∈ vs, (pml4Index v).val < 256) :
    ∃ role', FreshPages roots s s' role role' flags (sitesOf pml4Phys vs) := by
  induction hrun generalizing role with
  | nil s =>
    have hnone : sitesOf pml4Phys [] = ∅ := by simp [sitesOf]
    rw [hnone]
    exact ⟨role, .refl h⟩
  | @cons v vs s s₁ s' hfirst _ ih =>
    have hvv := hv v (by simp)
    obtain ⟨role₁, h₁⟩ := FreshPages.of_page h hr hvv hfl hfirst
    obtain ⟨role', h'⟩ := ih h₁.inv fun w hw ↦ hv w (by simp [hw])
    rw [sitesOf_cons]
    refine ⟨role', h₁.trans h' ?_⟩
    rintro σ rfl
    exact siteOf_valid hr hvv

end Fresh

/-- `t` is a state with the memory of `s'` after the pages at the sites `S` of `s` have been
unmapped. The allocators of `s` and `t` agree, whatever `s'` has given back. -/
structure Released (roots : Set ℕ) (s t s' : Vm) (role : Roles) (S : Set Site) : Prop where
  mem : t.mem = s'.mem
  inv : Inv t roots role
  keeps : Keeps s t role role
  inside : ∀ σ ∈ S, entryNext (leafEntry t.mem σ) = none
  outside : ∀ σ : Site, σ.Valid roots → σ ∉ S → leafEntry t.mem σ = leafEntry s.mem σ

section Release

variable {s t s' : Vm} {roots : Set ℕ} {role : Roles} {pml4Phys v : Word}

theorem vmmGetPhysical_congr (h : t.mem = s.mem) :
    vmmGetPhysical t pml4Phys v = vmmGetPhysical s pml4Phys v := by
  simp only [vmmGetPhysical, walk, h]

theorem vmmUnmapPage_congr (h : t.mem = s.mem) :
    (vmmUnmapPage t pml4Phys v).2.mem = (vmmUnmapPage s pml4Phys v).2.mem := by
  simp only [vmmUnmapPage, h, Vm.write]
  split_ifs <;> first | exact h | rfl

theorem Released.refl (hmem : t.mem = s.mem) (h : Inv t roots role) :
    Released roots t t s role ∅ :=
  ⟨hmem, h, .refl t role, by simp, fun _ _ _ ↦ rfl⟩

theorem Released.unmap (hmem : t.mem = s.mem) (h : Inv t roots role) (hr : pageOf pml4Phys ∈ roots)
    (hv : (pml4Index v).val < 256) (hs : s'.mem = (vmmUnmapPage s pml4Phys v).2.mem) :
    ∃ t', Released roots t t' s' role {siteOf (pageOf pml4Phys) v} := by
  obtain ⟨hinv, hkeeps, -, hleaf⟩ := vmmUnmapPage_spec h hr hv Prod.mk.eta.symm
  refine ⟨_, (vmmUnmapPage_congr hmem).trans hs.symm, hinv, hkeeps, ?_, ?_⟩
  · rintro σ rfl
    rw [hleaf _ (siteOf_valid hr hv), if_pos rfl, entryNext_zero]
  · intro σ hσ hne
    rw [Set.mem_singleton_iff] at hne
    rw [hleaf σ hσ, if_neg hne]

theorem Released.trans {t₁ t₂ : Vm} {S T : Set Site} (h : Released roots s t₁ t role S)
    (h' : Released roots t₁ t₂ s' role T) (hS : ∀ σ ∈ S, σ.Valid roots) :
    Released roots s t₂ s' role (S ∪ T) where
  mem := h'.mem
  inv := h'.inv
  keeps := h.keeps.trans h'.keeps
  inside σ hσ := by
    by_cases hT : σ ∈ T
    · exact h'.inside σ hT
    · have hσS := hσ.resolve_right hT
      rw [h'.outside σ (hS σ hσS) hT]
      exact h.inside σ hσS
  outside σ hσ hne := by
    rw [Set.mem_union, not_or] at hne
    rw [h'.outside σ hσ hne.2, h.outside σ hσ hne.1]

def Unmaps (roots : Set ℕ) (pml4Phys : Word) (body : Vm → Word → Vm) : Prop :=
  ∀ {s t : Vm} {role : Roles} {v : Word}, t.mem = s.mem → Inv t roots role →
    (pml4Index v).val < 256 → ∃ t', Released roots t t' (body s v) role {siteOf (pageOf pml4Phys) v}

theorem releasePage_unmaps (hr : pageOf pml4Phys ∈ roots) :
    Unmaps roots pml4Phys fun s v ↦ releasePage s pml4Phys v := by
  intro s t role v hmem h hv
  simp only [releasePage]
  split_ifs with hz
  · rw [← vmmGetPhysical_congr hmem] at hz
    refine ⟨t, hmem, h, .refl t role, ?_, fun _ _ _ ↦ rfl⟩
    rintro σ rfl
    exact vmmGetPhysical_zero h hr hv hz
  · exact Released.unmap hmem h hr hv rfl

theorem mmapUndoPage_unmaps (hr : pageOf pml4Phys ∈ roots) :
    Unmaps roots pml4Phys fun s v ↦ mmapUndoPage s pml4Phys v := by
  intro s t role v hmem h hv
  apply Released.unmap hmem h hr hv
  simp only [mmapUndoPage]
  split_ifs <;> rfl

theorem releaseLoop_released {body : Vm → Word → Vm} (hbody : Unmaps roots pml4Phys body)
    (hr : pageOf pml4Phys ∈ roots) (vaddr : ℕ → Word) (n i : ℕ)
    (hmem : t.mem = s.mem) (h : Inv t roots role)
    (hv : ∀ v ∈ addresses vaddr n i, (pml4Index v).val < 256) :
    ∃ t', Released roots t t' (releaseLoop body vaddr n i s) role
      (sitesOf pml4Phys (addresses vaddr n i)) := by
  induction n generalizing i s t with
  | zero =>
    have hnone : sitesOf pml4Phys (addresses vaddr 0 i) = ∅ := by simp [sitesOf, addresses]
    rw [hnone]
    exact ⟨t, .refl hmem h⟩
  | succ n ih =>
    have hvi := hv (vaddr i) (by simp [addresses])
    obtain ⟨t₁, h₁⟩ := hbody hmem h hvi
    obtain ⟨t₂, h₂⟩ := ih (i + 1) h₁.mem h₁.inv fun w hw ↦ hv w (by simp [addresses, hw])
    rw [addresses, sitesOf_cons]
    refine ⟨t₂, h₁.trans h₂ ?_⟩
    rintro σ rfl
    exact siteOf_valid hr hvi

end Release

end SeedOS.Process
