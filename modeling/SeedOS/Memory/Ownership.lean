import SeedOS.Foundation.Forest
import SeedOS.Memory.Vmm

namespace SeedOS.Memory

open Foundation Function

def entryNext (e : Word) : Option ℕ := if hasFlag e ptePresent then some (frameOf e) else none

/-- The table a present entry points to, where large pages end the walk. -/
def kernelNext (e : Word) : Option ℕ :=
  if hasFlag e ptePresent && !hasFlag e pteHuge then some (frameOf e) else none

theorem entryNext_some {e : Word} {f : ℕ} :
    entryNext e = some f ↔ hasFlag e ptePresent = true ∧ frameOf e = f := by
  unfold entryNext
  split <;> simp_all

theorem entryNext_none {e : Word} : entryNext e = none ↔ hasFlag e ptePresent = false := by
  unfold entryNext
  split <;> simp_all

theorem entryNext_zero : entryNext 0#64 = none := entryNext_none.mpr (hasFlag_zero _)

/-- Paths whose first index lies in the user half of a PML4. -/
def UserPath (p : List (Fin 512)) : Prop := ∀ i, p.head? = some i → i.val < 256

theorem userPath_nil : UserPath [] := by simp [UserPath]

theorem userPath_cons {i : Fin 512} {p : List (Fin 512)} : UserPath (i :: p) ↔ i.val < 256 := by
  simp [UserPath]

theorem UserPath.concat {p : List (Fin 512)} (h : UserPath p) (hp : p ≠ []) (i : Fin 512) :
    UserPath (p ++ [i]) := by
  cases p with
  | nil => exact absurd rfl hp
  | cons j p => exact h

theorem UserPath.dropLast (p : List (Fin 512)) (i : Fin 512) (h : UserPath (p ++ [i])) :
    UserPath p := by
  cases p with
  | nil => exact userPath_nil
  | cons j p => exact h

/-- Paths of the kernel half, down to the last table level. -/
def KernelPath (p : List (Fin 512)) : Prop :=
  p.length ≤ 3 ∧ ∀ i, p.head? = some i → 256 ≤ i.val

abbrev Roles := ℕ → Role ℕ (Fin 512)

abbrev UserForest (mem : ℕ → Fin 512 → Word) (roots : Set ℕ) (role : Roles) : Prop :=
  Forest entryNext 3 UserPath mem roots role

/-- Frame ownership. Every frame has one role; the tables and pages of the live
address spaces are allocated, and the kernel half is common to all of them. -/
structure Inv (s : Vm) (roots : Set ℕ) (role : Roles) : Prop where
  forest : UserForest s.mem roots role
  owned : ∀ {f}, (role f = .data ∨ ∃ r p, role f = .table r p) → s.pmm.Owned f
  held : ∀ {f}, role f = .reserved → ¬ s.pmm.Available f
  plain : ∀ {f r p i}, role f = .table r p → p.length < 3 → UserPath (p ++ [i]) →
    hasFlag (s.mem f i) ptePresent = true → hasFlag (s.mem f i) pteHuge = false
  kernelHalf : ∀ r ∈ roots, ∀ i : Fin 512, 256 ≤ i.val →
    s.mem r i = s.mem (pageOf s.kernelPml4Phys) i
  kernelTable : ∀ {p f}, KernelPath p →
    tableAt kernelNext s.mem (pageOf s.kernelPml4Phys) p = some f → role f = .reserved

def Pmm.Takes (s s' : Pmm) (f : ℕ) : Prop :=
  s'.totalPages = s.totalPages ∧
    ∀ g, bitmapIsUsed s'.bitmap g = (decide (g = f) || bitmapIsUsed s.bitmap g)

def Pmm.Gives (s s' : Pmm) (f : ℕ) : Prop :=
  s'.totalPages = s.totalPages ∧
    ∀ g, bitmapIsUsed s'.bitmap g = (decide (g ≠ f) && bitmapIsUsed s.bitmap g)

section Bitmap

variable {s s' : Pmm} {f g : ℕ}

theorem Pmm.Takes.owned_self (h : s.Takes s' f) (hf : s.Available f) : s'.Owned f :=
  ⟨hf.1, h.1 ▸ hf.2.1, by simp [h.2]⟩

theorem Pmm.Takes.owned (h : s.Takes s' f) (hg : s.Owned g) : s'.Owned g :=
  ⟨hg.1, h.1 ▸ hg.2.1, by simp [h.2, hg.2.2]⟩

theorem Pmm.Takes.available (h : s.Takes s' f) (hg : s'.Available g) : s.Available g ∧ g ≠ f := by
  obtain ⟨h₀, h₁, h₂⟩ := hg
  rw [h.2, Bool.or_eq_false_iff] at h₂
  exact ⟨⟨h₀, h.1 ▸ h₁, h₂.2⟩, by simpa using h₂.1⟩

theorem Pmm.Gives.owned (h : s.Gives s' f) (hg : s.Owned g) (hne : g ≠ f) : s'.Owned g :=
  ⟨hg.1, h.1 ▸ hg.2.1, by simp [h.2, hg.2.2, hne]⟩

theorem Pmm.Gives.available (h : s.Gives s' f) (hg : s'.Available g) : g = f ∨ s.Available g := by
  obtain ⟨h₀, h₁, h₂⟩ := hg
  by_cases hgf : g = f
  · exact .inl hgf
  · rw [h.2] at h₂
    exact .inr ⟨h₀, h.1 ▸ h₁, by simpa [hgf] using h₂⟩

theorem pmmFree_gives (h : s.Owned f) : s.Gives (pmmFree s (pageAddr f)) f :=
  ⟨(pmmFree_marked h.2).2.1, (pmmFree_marked h.2).2.2.2⟩

end Bitmap

theorem pmmAlloc_takes (s : Pmm) :
    pmmAlloc s = (0#64, s) ∨
    ∃ f s', pmmAlloc s = (pageAddr f, s') ∧ s.Available f ∧ s.Takes s' f := by
  rcases pmmAlloc_cases s with ⟨h, _⟩ | ⟨f, s', h, hf, _, ht, _, hu⟩
  · exact .inl h
  · exact .inr ⟨f, s', h, hf, ht, hu⟩

theorem allocPageTable_cases (s : Vm) :
    allocPageTable s = (0#64, s) ∨
    ∃ f pmm, allocPageTable s = (pageAddr f, { s with pmm := pmm }.fill f fun _ ↦ 0#64) ∧
      pageAddr f ≠ 0#64 ∧ s.pmm.Available f ∧ s.pmm.Takes pmm f := by
  unfold allocPageTable
  rcases pmmAlloc_takes s.pmm with h | ⟨f, pmm, h, hf, ht⟩
  · exact .inl (by simp [h])
  · have hlt := hf.lt
    have hne := pageAddr_ne_zero hf.1 (show f < 2 ^ 52 by omega)
    refine .inr ⟨f, pmm, ?_, hne, hf, ht⟩
    simp only [h, if_neg hne, pageOf_pageAddr (show f < 2 ^ 52 by omega)]

theorem allocPageTable_none {s : Vm} (h : (allocPageTable s).1 = 0#64) (f : ℕ) :
    ¬ s.pmm.Available f := by
  rcases pmmAlloc_cases s.pmm with ⟨-, hnone⟩ | ⟨g, pmm, ha, hav, -⟩
  · exact hnone f
  · have hlt := hav.lt
    have hne := pageAddr_ne_zero hav.1 (show g < 2 ^ 52 by omega)
    simp [allocPageTable, ha, hne] at h

namespace Inv

variable {s s' : Vm} {roots roots' : Set ℕ} {role role' : Roles}

theorem free_of_available (h : Inv s roots role) {f : ℕ} (hf : s.pmm.Available f) :
    role f = .free := by
  cases hr : role f with
  | free => rfl
  | reserved => exact absurd hf (h.held hr)
  | data => exact absurd hf (h.owned (.inl hr)).not_available
  | table r p => exact absurd hf (h.owned (.inr ⟨r, p, hr⟩)).not_available

theorem owned_table (h : Inv s roots role) {f r : ℕ} {p : List (Fin 512)}
    (hf : role f = .table r p) : s.pmm.Owned f := h.owned (.inr ⟨r, p, hf⟩)

theorem kernel_walk (h : Inv s roots role)
    (hk : s'.kernelPml4Phys = s.kernelPml4Phys)
    (hres : ∀ g, role g = .reserved → s'.mem g = s.mem g) {p : List (Fin 512)} (hp : KernelPath p) :
    tableAt kernelNext s'.mem (pageOf s'.kernelPml4Phys) p =
      tableAt kernelNext s.mem (pageOf s.kernelPml4Phys) p := by
  rw [hk]
  apply tableAt_congr
  intro q f i hq hf
  have hqp : KernelPath q := by
    obtain ⟨tail, rfl⟩ := hq
    refine ⟨?_, fun j hj ↦ hp.2 j ?_⟩
    · have := hp.1
      simp only [List.length_append, List.length_singleton] at this
      omega
    · cases q with
      | nil => simp at hj
      | cons a q => simpa using hj
  rw [hres f (h.kernelTable hqp hf)]

theorem step (h : Inv s roots role) (hk : s'.kernelPml4Phys = s.kernelPml4Phys)
    (hres : ∀ g, role g = .reserved → s'.mem g = s.mem g ∧ role' g = .reserved)
    (hforest : UserForest s'.mem roots' role')
    (howned : ∀ {f}, (role' f = .data ∨ ∃ r p, role' f = .table r p) → s'.pmm.Owned f)
    (hheld : ∀ {f}, role' f = .reserved → ¬ s'.pmm.Available f)
    (hplain : ∀ {f r p i}, role' f = .table r p → p.length < 3 → UserPath (p ++ [i]) →
      hasFlag (s'.mem f i) ptePresent = true → hasFlag (s'.mem f i) pteHuge = false)
    (hroots : ∀ r ∈ roots', ∀ i : Fin 512, 256 ≤ i.val →
      s'.mem r i = s.mem (pageOf s.kernelPml4Phys) i) :
    Inv s' roots' role' where
  forest := hforest
  owned := howned
  held := hheld
  plain := hplain
  kernelHalf r hr i hi := by
    have hp : role (pageOf s.kernelPml4Phys) = .reserved :=
      h.kernelTable (p := []) ⟨by simp, by simp⟩ rfl
    rw [hroots r hr i hi, hk, (hres _ hp).1]
  kernelTable {p f} hp hf := by
    rw [h.kernel_walk hk (fun g hg ↦ (hres g hg).1) hp] at hf
    exact (hres f (h.kernelTable hp hf)).2

theorem congr (h : Inv s roots role) (hm : s'.mem = s.mem) (hp : s'.pmm = s.pmm)
    (hk : s'.kernelPml4Phys = s.kernelPml4Phys) : Inv s' roots role :=
  h.step hk (fun g hg ↦ ⟨by rw [hm], hg⟩) (hm ▸ h.forest) (fun hf ↦ hp ▸ h.owned hf)
    (fun hf ↦ hp ▸ h.held hf) (fun hf hl hu ↦ hm ▸ h.plain hf hl hu)
    (fun r hr i hi ↦ by rw [hm]; exact h.kernelHalf r hr i hi)

open Classical in
theorem of_empty (hk : ∀ p f, KernelPath p →
      tableAt kernelNext s.mem (pageOf s.kernelPml4Phys) p = some f → ¬ s.pmm.Available f) :
    Inv s ∅ fun f ↦ if s.pmm.Available f then .free else .reserved := by
  have hrole : ∀ f, (if s.pmm.Available f then Role.free else .reserved) ≠
      (Role.data : Role ℕ (Fin 512)) ∧ ∀ r p,
      (if s.pmm.Available f then Role.free else .reserved) ≠
        (Role.table r p : Role ℕ (Fin 512)) := by
    intro f
    split_ifs <;> simp
  refine ⟨⟨fun r hr ↦ absurd hr (Set.notMem_empty r), fun hf ↦ absurd hf ((hrole _).2 _ _),
    fun hf ↦ absurd hf ((hrole _).2 _ _), fun hf ↦ absurd hf ((hrole _).2 _ _),
    fun hf ↦ absurd hf ((hrole _).2 _ _), fun hf ↦ absurd hf ((hrole _).2 _ _)⟩, ?_, ?_,
    fun hf ↦ absurd hf ((hrole _).2 _ _), fun r hr ↦ absurd hr (Set.notMem_empty r), ?_⟩
  · rintro f (hf | ⟨r, p, hf⟩)
    · exact absurd hf (hrole f).1
    · exact absurd hf ((hrole f).2 r p)
  · intro f hf hav
    simp [hav] at hf
  · intro p f hp hf
    exact if_neg (hk p f hp hf)

section Frames

variable (h : Inv s roots role) (hk : s'.kernelPml4Phys = s.kernelPml4Phys)

include h hk

theorem take {f : ℕ} (hf : s.pmm.Available f) (ht : s.pmm.Takes s'.pmm f)
    (hm : ∀ g ≠ f, s'.mem g = s.mem g) : Inv s' roots (update role f .data) := by
  have hfree := h.free_of_available hf
  have hne : ∀ {g x}, role g = x → x ≠ .free → g ≠ f := by
    rintro g x hg hx rfl
    exact hx (hg.symm.trans hfree)
  have hold : ∀ {g r p}, update role f .data g = .table r p → role g = .table r p :=
    fun hg ↦ (of_update_eq hg (by simp)).2
  refine h.step hk ?_ ?_ ?_ ?_ ?_ ?_
  · intro g hg
    have hgf := hne hg (by simp)
    exact ⟨hm g hgf, by rw [update_of_ne hgf, hg]⟩
  · refine (h.forest.setRole (by simp [hfree]) (by simp) (.inl rfl)).congr ?_
    intro g r p hg i
    rw [hm g (hne (hold hg) (by simp))]
  · intro g hg
    by_cases hgf : g = f
    · exact hgf ▸ ht.owned_self hf
    · rw [update_of_ne hgf] at hg
      exact ht.owned (h.owned hg)
  · intro g hg hav
    exact h.held (of_update_eq hg (by simp)).2 (ht.available hav).1
  · intro g r p i hg hp hu
    rw [hm g (hne (hold hg) (by simp))]
    exact h.plain (hold hg) hp hu
  · intro r hr i hi
    rw [hm r (hne (h.forest.root r hr) (by simp))]
    exact h.kernelHalf r hr i hi

theorem release {f : ℕ} (hf : role f = .data) (hg : s.pmm.Gives s'.pmm f) (hm : s'.mem = s.mem)
    (hmap : ∀ t r p i, role t = .table r p → p.length = 3 → entryNext (s.mem t i) ≠ some f) :
    Inv s' roots (update role f .free) := by
  refine h.step hk ?_ ?_ ?_ ?_ ?_ ?_
  · intro g hgr
    have hgf : g ≠ f := by rintro rfl; simp [hgr] at hf
    exact ⟨by rw [hm], by rw [update_of_ne hgf, hgr]⟩
  · rw [hm]
    exact h.forest.setRole (by simp [hf]) (by simp) (.inr hmap)
  · rintro g (hg' | ⟨r, p, hg'⟩)
    · obtain ⟨hgf, hg'⟩ := of_update_eq hg' (by simp)
      exact hg.owned (h.owned (.inl hg')) hgf
    · obtain ⟨hgf, hg'⟩ := of_update_eq hg' (by simp)
      exact hg.owned (h.owned_table hg') hgf
  · intro g hg' hav
    obtain ⟨hgf, hg'⟩ := of_update_eq hg' (by simp)
    exact h.held hg' ((hg.available hav).resolve_left hgf)
  · intro g r p i hg' hp hu
    rw [hm]
    exact h.plain (of_update_eq hg' (by simp)).2 hp hu
  · intro r hr i hi
    rw [hm]
    exact h.kernelHalf r hr i hi

theorem writeData (hp : s'.pmm = s.pmm) (hm : ∀ g, role g ≠ .data → s'.mem g = s.mem g) :
    Inv s' roots role := by
  have htab : ∀ {g r p}, role g = .table r p → s'.mem g = s.mem g := by
    intro g r p hg
    exact hm g (by simp [hg])
  refine h.step hk ?_ ?_ ?_ ?_ ?_ ?_
  · intro g hg; exact ⟨hm g (by simp [hg]), hg⟩
  · exact h.forest.congr fun hg i ↦ by rw [htab hg]
  · intro g hg; rw [hp]; exact h.owned hg
  · intro g hg; rw [hp]; exact h.held hg
  · intro g r p i hg hl hu; rw [htab hg]; exact h.plain hg hl hu
  · intro r hr i hi; rw [htab (h.forest.root r hr)]; exact h.kernelHalf r hr i hi

end Frames

section Entries

variable (h : Inv s roots role) (hk : s'.kernelPml4Phys = s.kernelPml4Phys)
  {t r : ℕ} {p : List (Fin 512)} {i : Fin 512} (ht : role t = .table r p)

include h ht in
theorem slot_not_kernel (hu : UserPath (p ++ [i])) {r' : ℕ} (hr' : r' ∈ roots) {j : Fin 512}
    (hj : 256 ≤ j.val) : ¬ (r' = t ∧ j = i) := by
  rintro ⟨rfl, rfl⟩
  have hroot := h.forest.root r' hr'
  rw [ht] at hroot
  injection hroot with _ hp
  subst hp
  have := userPath_cons.mp hu
  omega

include h hk ht

theorem retag (hu : UserPath (p ++ [i])) (hp : s'.pmm = s.pmm)
    (hm : ∀ g j, ¬ (g = t ∧ j = i) → s'.mem g j = s.mem g j)
    (hi : entryNext (s'.mem t i) = entryNext (s.mem t i))
    (hh : hasFlag (s'.mem t i) pteHuge = hasFlag (s.mem t i) pteHuge) : Inv s' roots role := by
  have hnext : ∀ g j, entryNext (s'.mem g j) = entryNext (s.mem g j) := by
    intro g j
    by_cases hc : g = t ∧ j = i
    · rw [hc.1, hc.2, hi]
    · rw [hm g j hc]
  refine h.step hk ?_ ?_ ?_ ?_ ?_ ?_
  · intro g hg
    refine ⟨funext fun j ↦ hm g j ?_, hg⟩
    rintro ⟨rfl, _⟩
    simp [ht] at hg
  · exact h.forest.congr fun _ j ↦ hnext _ j
  · intro g hg; rw [hp]; exact h.owned hg
  · intro g hg; rw [hp]; exact h.held hg
  · intro g r' p' j hg hl hu' hpres
    have hpres' : hasFlag (s.mem g j) ptePresent = true := by
      have hn := hnext g j
      rw [entryNext_some.mpr ⟨hpres, rfl⟩] at hn
      exact (entryNext_some.mp hn.symm).1
    by_cases hc : g = t ∧ j = i
    · obtain ⟨rfl, rfl⟩ := hc
      rw [hh]
      exact h.plain hg hl hu' hpres'
    · rw [hm g j hc]
      exact h.plain hg hl hu' hpres'
  · intro r' hr' j hj
    rw [hm r' j (h.slot_not_kernel ht hu hr' hj)]
    exact h.kernelHalf r' hr' j hj

theorem setLeaf (hl : p.length = 3) (hp : s'.pmm = s.pmm)
    (hm : ∀ g j, ¬ (g = t ∧ j = i) → s'.mem g j = s.mem g j)
    (hi : ∀ g, entryNext (s'.mem t i) = some g → role g = .data) : Inv s' roots role := by
  have hne : ∀ {g r' p'}, role g = .table r' p' → p'.length < 3 → g ≠ t :=
    fun hg hlt ↦ Role.ne_of_length hg ht (by omega)
  refine h.step hk ?_ ?_ ?_ ?_ ?_ ?_
  · intro g hg
    refine ⟨funext fun j ↦ hm g j ?_, hg⟩
    rintro ⟨rfl, _⟩
    simp [ht] at hg
  · exact h.forest.setLeaf ht hl (fun {g _ _} _ j hc ↦ by rw [hm g j (not_and_or.mpr hc)]) hi
  · intro g hg; rw [hp]; exact h.owned hg
  · intro g hg; rw [hp]; exact h.held hg
  · intro g r' p' j hg hlt hu'
    rw [hm g j (fun hc ↦ hne hg hlt hc.1)]
    exact h.plain hg hlt hu'
  · intro r' hr' j hj
    rw [hm r' j (fun hc ↦ hne (h.forest.root r' hr') (by simp) hc.1)]
    exact h.kernelHalf r' hr' j hj

theorem link (hl : p.length < 3) (hu : UserPath (p ++ [i]))
    (hnone : hasFlag (s.mem t i) ptePresent = false) {g : ℕ} (hg : s.pmm.Available g)
    (htk : s.pmm.Takes s'.pmm g) (hzero : s'.mem g = fun _ ↦ 0#64)
    (hti : entryNext (s'.mem t i) = some g) (hh : hasFlag (s'.mem t i) pteHuge = false)
    (hm : ∀ k j, k ≠ g → ¬ (k = t ∧ j = i) → s'.mem k j = s.mem k j) :
    Inv s' roots (update role g (.table r (p ++ [i]))) := by
  have hfree := h.free_of_available hg
  have hne : ∀ {k x}, role k = x → x ≠ .free → k ≠ g := by
    rintro k x hk hx rfl
    exact hx (hk.symm.trans hfree)
  have hold : ∀ {k x}, k ≠ g → update role g (.table r (p ++ [i])) k = x → role k = x := by
    intro k x hkg hx
    rwa [update_of_ne hkg] at hx
  refine h.step hk ?_ ?_ ?_ ?_ ?_ ?_
  · intro k hkr
    have hkg := hne hkr (by simp)
    refine ⟨funext fun j ↦ hm k j hkg ?_, by rw [update_of_ne hkg, hkr]⟩
    rintro ⟨rfl, _⟩
    simp [ht] at hkr
  · refine h.forest.link ht hl hu hfree (entryNext_none.mpr hnone) ?_ hti ?_
    · intro j; rw [hzero]; exact entryNext_zero
    · intro k r' p' hkr j hc
      rw [hm k j (hne hkr (by simp)) (not_and_or.mpr hc)]
  · intro k hkr
    by_cases hkg : k = g
    · exact hkg ▸ htk.owned_self hg
    · rw [update_of_ne hkg] at hkr
      exact htk.owned (h.owned hkr)
  · intro k hkr hav
    obtain ⟨hav, hkg⟩ := htk.available hav
    exact h.held (hold hkg hkr) hav
  · intro k r' p' j hkr hl' hu' hpres
    by_cases hkg : k = g
    · rw [hkg, hzero, hasFlag_zero] at hpres
      simp at hpres
    · by_cases hc : k = t ∧ j = i
      · rw [hc.1, hc.2, hh]
      · rw [hm k j hkg hc] at hpres ⊢
        exact h.plain (hold hkg hkr) hl' hu' hpres
  · intro r' hr' j hj
    rw [hm r' j (hne (h.forest.root r' hr') (by simp)) (h.slot_not_kernel ht hu hr' hj)]
    exact h.kernelHalf r' hr' j hj

theorem unlink (hl : p.length < 3) (hu : UserPath (p ++ [i])) {g : ℕ}
    (hg : role g = .table r (p ++ [i])) (hempty : ∀ j, entryNext (s.mem g j) = none)
    (hgv : s.pmm.Gives s'.pmm g) (hti : entryNext (s'.mem t i) = none)
    (hm : ∀ k j, ¬ (k = t ∧ j = i) → s'.mem k j = s.mem k j) :
    Inv s' roots (update role g .free) := by
  refine h.step hk ?_ ?_ ?_ ?_ ?_ ?_
  · intro k hkr
    have hkg : k ≠ g := by rintro rfl; simp [hkr] at hg
    refine ⟨funext fun j ↦ hm k j ?_, by rw [update_of_ne hkg, hkr]⟩
    rintro ⟨rfl, _⟩
    simp [ht] at hkr
  · exact h.forest.unlink ht hl hg hempty hti
      fun {k _ _} _ j hc ↦ by rw [hm k j (not_and_or.mpr hc)]
  · rintro k (hkr | ⟨r', p', hkr⟩)
    · obtain ⟨hkg, hkr⟩ := of_update_eq hkr (by simp)
      exact hgv.owned (h.owned (.inl hkr)) hkg
    · obtain ⟨hkg, hkr⟩ := of_update_eq hkr (by simp)
      exact hgv.owned (h.owned_table hkr) hkg
  · intro k hkr hav
    obtain ⟨hkg, hkr⟩ := of_update_eq hkr (by simp)
    exact h.held hkr ((hgv.available hav).resolve_left hkg)
  · intro k r' p' j hkr hl' hu' hpres
    by_cases hc : k = t ∧ j = i
    · rw [hc.1, hc.2] at hpres
      rw [entryNext_none] at hti
      simp [hti] at hpres
    · rw [hm k j hc] at hpres ⊢
      exact h.plain (of_update_eq hkr (by simp)).2 hl' hu' hpres
  · intro r' hr' j hj
    rw [hm r' j (h.slot_not_kernel ht hu hr' hj)]
    exact h.kernelHalf r' hr' j hj

end Entries

end Inv

end SeedOS.Memory
