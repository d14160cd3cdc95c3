import SeedOS.Memory.Ownership

namespace SeedOS.Memory

open Foundation Function

/-- A page of user memory: the root of an address space, the path to the
last-level table, and the index in that table. -/
structure Site where
  root : ℕ
  path : List (Fin 512)
  index : Fin 512
  deriving DecidableEq

structure Site.Valid (σ : Site) (roots : Set ℕ) : Prop where
  root : σ.root ∈ roots
  user : UserPath σ.path
  length : σ.path.length = 3

def siteOf (r : ℕ) (virt : Word) : Site :=
  ⟨r, [pml4Index virt, pdptIndex virt, pdIndex virt], ptIndex virt⟩

theorem siteOf_valid {roots : Set ℕ} {r : ℕ} {virt : Word} (hr : r ∈ roots)
    (hv : (pml4Index virt).val < 256) : (siteOf r virt).Valid roots :=
  ⟨hr, by simpa [siteOf, UserPath] using hv, rfl⟩

/-- What an address space says about a page: its last-level entry, or `0` when a
table on the way is missing. -/
def leafEntry (mem : ℕ → Fin 512 → Word) (σ : Site) : Word :=
  match tableAt entryNext mem σ.root σ.path with
  | some t => mem t σ.index
  | none => 0#64

structure Keeps (s s' : Vm) (role role' : Roles) : Prop where
  mem : ∀ {g}, role g = .data ∨ role g = .reserved → s'.mem g = s.mem g
  data : ∀ {g}, role' g = .data ↔ role g = .data
  reserved : ∀ {g}, role' g = .reserved ↔ role g = .reserved
  kernel : s'.kernelPml4Phys = s.kernelPml4Phys

theorem Keeps.refl (s : Vm) (role : Roles) : Keeps s s role role :=
  ⟨fun _ ↦ rfl, Iff.rfl, Iff.rfl, rfl⟩

theorem Keeps.trans {s₁ s₂ s₃ : Vm} {role₁ role₂ role₃ : Roles} (h : Keeps s₁ s₂ role₁ role₂)
    (h' : Keeps s₂ s₃ role₂ role₃) : Keeps s₁ s₃ role₁ role₃ where
  mem {g} hg := by
    have hg' : role₂ g = .data ∨ role₂ g = .reserved := hg.imp h.data.mpr h.reserved.mpr
    rw [h'.mem hg', h.mem hg]
  data := h'.data.trans h.data
  reserved := h'.reserved.trans h.reserved
  kernel := h'.kernel.trans h.kernel

def SameLeaves (s s' : Vm) (roots : Set ℕ) : Prop :=
  ∀ σ : Site, σ.Valid roots → leafEntry s'.mem σ = leafEntry s.mem σ

theorem SameLeaves.trans {s₁ s₂ s₃ : Vm} {roots : Set ℕ} (h : SameLeaves s₁ s₂ roots)
    (h' : SameLeaves s₂ s₃ roots) : SameLeaves s₁ s₃ roots :=
  fun σ hσ ↦ (h' σ hσ).trans (h σ hσ)

def Relinked (roots : Set ℕ) (s s' : Vm) (σ : Site) (e : Word) : Prop :=
  ∀ τ : Site, τ.Valid roots → leafEntry s'.mem τ = if τ = σ then e else leafEntry s.mem τ

def IsLast (role : Roles) (f : ℕ) : Prop := ∃ r p, role f = .table r p ∧ p.length = 3

theorem not_isLast {role : Roles} {f r : ℕ} {p : List (Fin 512)} (hf : role f = .table r p)
    (hl : p.length < 3) : ¬ IsLast role f := by
  rintro ⟨r', p', hf', hl'⟩
  exact Role.ne_of_length hf hf' (by omega) rfl

/-- `t` is `s` up to the contents of last-level tables. -/
structure Skeleton (role : Roles) (s t : Vm) : Prop where
  pmm : t.pmm = s.pmm
  kernel : t.kernelPml4Phys = s.kernelPml4Phys
  mem : ∀ {f}, ¬ IsLast role f → t.mem f = s.mem f

/-- The tables of the live address spaces are in order, whatever frames their pages
are mapped to: ownership holds once the last-level entries are left out. -/
def Tabled (s : Vm) (roots : Set ℕ) (role : Roles) : Prop :=
  ∃ t, Inv t roots role ∧ Skeleton role s t

theorem Skeleton.refl (role : Roles) (s : Vm) : Skeleton role s s := ⟨rfl, rfl, fun _ ↦ rfl⟩

section Leaves

variable {s s' : Vm} {roots roots' : Set ℕ} {role role' : Roles}

theorem Inv.tabled (h : Inv s roots role) : Tabled s roots role := ⟨s, h, .refl role s⟩

theorem Inv.tableAt_iff (h : Inv s roots role) {r : ℕ} (hr : r ∈ roots) {p : List (Fin 512)}
    (hu : UserPath p) (hl : p.length ≤ 3) {t : ℕ} :
    tableAt entryNext s.mem r p = some t ↔ role t = .table r p :=
  ⟨h.forest.role_of_tableAt UserPath.dropLast hr hu hl, h.forest.tableAt_of_role⟩

theorem Skeleton.writeLast {t : Vm} (h : Skeleton role s t) {f : ℕ}
    (hf : IsLast role f) (i : Fin 512) (w : Word) : Skeleton role (s.write f i w) t where
  pmm := h.pmm
  kernel := h.kernel
  mem {g} hg := by
    rw [h.mem hg]
    funext j
    rw [Vm.write_mem, if_neg]
    rintro ⟨rfl, _⟩
    exact hg hf

section

variable (h : Tabled s roots role)
include h

theorem Tabled.tableAt_iff {r : ℕ} (hr : r ∈ roots)
    {p : List (Fin 512)} (hu : UserPath p) (hl : p.length ≤ 3) {f : ℕ} :
    tableAt entryNext s.mem r p = some f ↔ role f = .table r p := by
  obtain ⟨t, hinv, hsk⟩ := h
  rw [← hinv.tableAt_iff hr hu hl]
  have he : tableAt entryNext s.mem r p = tableAt entryNext t.mem r p := by
    apply tableAt_congr
    intro q g i hq hg
    have hqu : UserPath q := by
      obtain ⟨tail, rfl⟩ := hq
      intro j hj
      apply hu j
      cases q with
      | nil => simp at hj
      | cons a q => simpa using hj
    have hql : q.length < 3 := by
      have := hq.length_le
      simp only [List.length_append, List.length_singleton] at this
      omega
    rw [hsk.mem (not_isLast ((hinv.tableAt_iff hr hqu hql.le).mp hg) hql)]
  rw [he]

theorem Tabled.root {r : ℕ} (hr : r ∈ roots) : role r = .table r [] := by
  obtain ⟨t, hinv, _⟩ := h
  exact hinv.forest.root r hr

theorem Tabled.leafEntry_of_table {σ : Site} (hσ : σ.Valid roots)
    {f : ℕ} (hf : role f = .table σ.root σ.path) : leafEntry s.mem σ = s.mem f σ.index := by
  simp [leafEntry, (h.tableAt_iff hσ.root hσ.user hσ.length.le).mpr hf]

theorem Tabled.leafEntry_of_none {σ : Site} (hσ : σ.Valid roots)
    (hn : ∀ f, role f ≠ .table σ.root σ.path) : leafEntry s.mem σ = 0#64 := by
  have ht : tableAt entryNext s.mem σ.root σ.path = none := by
    cases ht : tableAt entryNext s.mem σ.root σ.path with
    | none => rfl
    | some f => exact absurd ((h.tableAt_iff hσ.root hσ.user hσ.length.le).mp ht) (hn f)
  simp [leafEntry, ht]

theorem Tabled.leafEntry_eq {roots' : Set ℕ}
    (h' : Tabled s' roots' role') {σ : Site} (hσ : σ.Valid roots) (hσ' : σ.Valid roots')
    (hold : ∀ f, role f = .table σ.root σ.path →
      role' f = .table σ.root σ.path ∧ s'.mem f σ.index = s.mem f σ.index)
    (hnew : ∀ f, role' f = .table σ.root σ.path →
      role f = .table σ.root σ.path ∨ s'.mem f σ.index = 0#64) :
    leafEntry s'.mem σ = leafEntry s.mem σ := by
  by_cases hn : ∃ f, role f = .table σ.root σ.path
  · obtain ⟨f, hf⟩ := hn
    rw [h.leafEntry_of_table hσ hf, h'.leafEntry_of_table hσ' (hold f hf).1, (hold f hf).2]
  · rw [h.leafEntry_of_none hσ (not_exists.mp hn)]
    by_cases hn' : ∃ f, role' f = .table σ.root σ.path
    · obtain ⟨f, hf⟩ := hn'
      rw [h'.leafEntry_of_table hσ' hf]
      exact (hnew f hf).resolve_left (not_exists.mp hn f)
    · exact h'.leafEntry_of_none hσ' (not_exists.mp hn')

theorem Tabled.writeLast {σ : Site} (hσ : σ.Valid roots) {f : ℕ}
    (hf : role f = .table σ.root σ.path) (w : Word) :
    Tabled (s.write f σ.index w) roots role ∧ Relinked roots s (s.write f σ.index w) σ w := by
  have hlast : IsLast role f := ⟨_, _, hf, hσ.length⟩
  have h' : Tabled (s.write f σ.index w) roots role := by
    obtain ⟨t, hinv, hsk⟩ := h
    exact ⟨t, hinv, hsk.writeLast hlast _ _⟩
  refine ⟨h', fun τ hτ ↦ ?_⟩
  split_ifs with he
  · subst he
    rw [h'.leafEntry_of_table hτ hf, Vm.write_mem, if_pos ⟨rfl, rfl⟩]
  · refine h.leafEntry_eq h' hτ hτ (fun g hg ↦ ⟨hg, ?_⟩) fun g hg ↦ .inl hg
    rw [Vm.write_mem, if_neg]
    rintro ⟨rfl, hi⟩
    rw [hf] at hg
    injection hg with hr hp
    apply he
    cases τ
    cases σ
    simp_all

end

end Leaves

namespace Inv

variable {s s' : Vm} {roots roots' : Set ℕ} {role role' : Roles}

section

variable (h : Inv s roots role)
include h

theorem tableAt_ne {r : ℕ} (hr : r ∈ roots) {p : List (Fin 512)}
    (hu : UserPath p) (hl : p.length ≤ 3) {k r' : ℕ} {p' : List (Fin 512)}
    (hk : role k = .table r' p') (hne : r' ≠ r) : tableAt entryNext s.mem r p ≠ some k := by
  intro ht
  exact Role.ne_of_root hk ((h.tableAt_iff hr hu hl).mp ht) hne rfl

theorem leafEntry_of_table {t r : ℕ} {p : List (Fin 512)}
    (ht : role t = .table r p) (i : Fin 512) : leafEntry s.mem ⟨r, p, i⟩ = s.mem t i := by
  simp only [leafEntry, h.forest.tableAt_of_role ht]

theorem leafEntry_present {σ : Site} (hσ : σ.Valid roots) {f : ℕ}
    (hf : entryNext (leafEntry s.mem σ) = some f) :
    ∃ t, role t = .table σ.root σ.path ∧ leafEntry s.mem σ = s.mem t σ.index := by
  by_cases hn : ∃ t, role t = .table σ.root σ.path
  · obtain ⟨t, ht⟩ := hn
    exact ⟨t, ht, h.leafEntry_of_table ht σ.index⟩
  · rw [h.tabled.leafEntry_of_none hσ (not_exists.mp hn), entryNext_zero] at hf
    simp at hf

theorem leafEntry_data {σ : Site} (hσ : σ.Valid roots) {f : ℕ}
    (hf : entryNext (leafEntry s.mem σ) = some f) : role f = .data := by
  obtain ⟨t, ht, he⟩ := h.leafEntry_present hσ hf
  exact h.forest.leaf ht hσ.length (he ▸ hf)

theorem take_sameLeaves {f : ℕ} (hfree : role f = .free) (h' : Inv s' roots (update role f .data))
    (hm : ∀ g ≠ f, s'.mem g = s.mem g) : SameLeaves s s' roots := by
  refine fun σ hσ ↦ h.tabled.leafEntry_eq h'.tabled hσ hσ (fun t ht ↦ ?_) fun t ht ↦
    .inl (of_update_eq ht (by simp)).2
  have htf : t ≠ f := by rintro rfl; simp [ht] at hfree
  exact ⟨by rwa [update_of_ne htf], by rw [hm t htf]⟩

end

end Inv

section Flags

theorem isFlags_present : IsFlags ptePresent := by decide
theorem isFlags_writable : IsFlags pteWritable := by decide
theorem isFlags_user : IsFlags pteUser := by decide
theorem isFlags_huge : IsFlags pteHuge := by decide

theorem frameOf_or {e fl : Word} (hfl : IsFlags fl) : frameOf (e ||| fl) = frameOf e := by
  rw [frameOf, frameOf, BitVec.and_or_distrib_right, hfl, BitVec.or_zero]

theorem entryNext_or_user (e : Word) : entryNext (e ||| pteUser) = entryNext e := by
  rw [entryNext, entryNext, frameOf_or isFlags_user, hasFlag_or,
    show hasFlag pteUser ptePresent = false by decide, Bool.or_false]

theorem huge_or_user (e : Word) : hasFlag (e ||| pteUser) pteHuge = hasFlag e pteHuge := by
  rw [hasFlag_or, show hasFlag pteUser pteHuge = false by decide, Bool.or_false]

theorem entryNext_entry {f : ℕ} {fl : Word} (hf : f < 2 ^ 40) (hfl : MapFlags fl) :
    entryNext (pageAddr f ||| fl) = some f := by
  rw [entryNext_some]
  exact ⟨by rw [hasFlag_entry hf _ isFlags_present, hfl.2], frameOf_entry hf hfl.1⟩

theorem intermediateFlags_spec (flags : Word) : MapFlags (intermediateFlags flags) ∧
    hasFlag (intermediateFlags flags) pteHuge = false := by
  unfold intermediateFlags
  split <;> decide

end Flags

section Descend

variable {s s' : Vm} {roots : Set ℕ} {role : Roles} {t r : ℕ} {p : List (Fin 512)} {i : Fin 512}

inductive Descended (s s' : Vm) (t : ℕ) (i : Fin 512) (flags : Word) (t' : ℕ) :
    Word → Prop
  | follow (hpres : entryNext (s.mem t i) = some t')
      (hs : s' = s ∨ s' = s.write t i (s.mem t i ||| pteUser)) :
      Descended s s' t i flags t' 0#64
  | fresh (hnone : hasFlag (s.mem t i) ptePresent = false) (pmm : Pmm)
      (hav : s.pmm.Available t') (htk : s.pmm.Takes pmm t') (hne : pageAddr t' ≠ 0#64)
      (hs : s' = ({ s with pmm := pmm }.fill t' fun _ ↦ 0#64).write t i
        (pageAddr t' ||| intermediateFlags flags)) :
      Descended s s' t i flags t' (pageAddr t')

theorem descend_cases {flags : Word} {t' : ℕ} {phys : Word}
    (hd : descend s t i flags = some (t', phys, s')) :
    Descended s s' t i flags t' phys := by
  unfold descend at hd
  by_cases hp : hasFlag (s.mem t i) ptePresent = true
  · simp only [hp, if_true] at hd
    split at hd
    · simp only [Option.some.injEq, Prod.mk.injEq] at hd
      obtain ⟨rfl, rfl, rfl⟩ := hd
      exact .follow (entryNext_some.mpr ⟨hp, rfl⟩) (.inr rfl)
    · simp only [Option.some.injEq, Prod.mk.injEq] at hd
      obtain ⟨rfl, rfl, rfl⟩ := hd
      exact .follow (entryNext_some.mpr ⟨hp, rfl⟩) (.inl rfl)
  · simp only [hp, if_false, Bool.false_eq_true] at hd
    rcases allocPageTable_cases s with ha | ⟨g, pmm, ha, hne, hav, htk⟩
    · simp [ha] at hd
    · have hg : pageOf (pageAddr g) = g := pageOf_pageAddr (by have := hav.lt; omega)
      simp only [ha, if_neg hne, Option.some.injEq, Prod.mk.injEq, hg] at hd
      obtain ⟨rfl, rfl, rfl⟩ := hd
      exact .fresh (by simpa using hp) pmm hav htk hne rfl

variable (h : Inv s roots role) (ht : role t = .table r p) (hl : p.length < 3)
  (hu : UserPath (p ++ [i]))

include h ht hl hu

theorem follow_spec {t' : ℕ} (hpres : entryNext (s.mem t i) = some t')
    (hs : s' = s ∨ s' = s.write t i (s.mem t i ||| pteUser)) :
    Inv s' roots role ∧ role t' = .table r (p ++ [i]) ∧ Keeps s s' role role ∧
      SameLeaves s s' roots := by
  have ht' := h.forest.child ht hl hu hpres
  rcases hs with rfl | rfl
  · exact ⟨h, ht', .refl _ _, fun _ _ ↦ rfl⟩
  · have hm : ∀ g j, ¬ (g = t ∧ j = i) →
        (s.write t i (s.mem t i ||| pteUser)).mem g j = s.mem g j := by
      intro g j hc
      rw [Vm.write_mem, if_neg hc]
    have hti : (s.write t i (s.mem t i ||| pteUser)).mem t i = s.mem t i ||| pteUser := by
      rw [Vm.write_mem, if_pos ⟨rfl, rfl⟩]
    have hinv : Inv (s.write t i (s.mem t i ||| pteUser)) roots role :=
      h.retag rfl ht hu rfl hm (by rw [hti, entryNext_or_user]) (by rw [hti, huge_or_user])
    refine ⟨hinv, ht', ⟨?_, Iff.rfl, Iff.rfl, rfl⟩, ?_⟩
    · intro g hg
      funext j
      refine hm g j ?_
      rintro ⟨rfl, _⟩
      simp [ht] at hg
    · intro σ hσ
      have hlen := hσ.length
      refine h.tabled.leafEntry_eq hinv.tabled hσ hσ (fun k hk ↦ ⟨hk, hm k σ.index fun hc ↦ ?_⟩)
        fun k hk ↦ .inl hk
      exact Role.ne_of_length hk ht (by omega) hc.1

theorem fresh_spec {fl : Word} {pmm : Pmm} {g : ℕ} (hfl : MapFlags fl)
    (hhuge : hasFlag fl pteHuge = false) (hnone : hasFlag (s.mem t i) ptePresent = false)
    (hav : s.pmm.Available g) (htk : s.pmm.Takes pmm g)
    (hs : s' = ({ s with pmm := pmm }.fill g fun _ ↦ 0#64).write t i (pageAddr g ||| fl)) :
    Inv s' roots (update role g (.table r (p ++ [i]))) ∧
      Keeps s s' role (update role g (.table r (p ++ [i]))) ∧ SameLeaves s s' roots ∧
      s'.mem g = fun _ ↦ 0#64 := by
  have hfree := h.free_of_available hav
  have hgt : t ≠ g := by rintro rfl; simp [ht] at hfree
  have hm : ∀ k j, k ≠ g → ¬ (k = t ∧ j = i) → s'.mem k j = s.mem k j := by
    intro k j hk hc
    rw [hs, Vm.write_mem, if_neg hc, Vm.fill_mem, if_neg hk]
  have hzero : s'.mem g = fun _ ↦ 0#64 := by
    funext j
    rw [hs, Vm.write_mem, if_neg (fun hc ↦ hgt hc.1.symm), Vm.fill_mem, if_pos rfl]
  have hti : s'.mem t i = pageAddr g ||| fl := by
    rw [hs, Vm.write_mem, if_pos ⟨rfl, rfl⟩]
  have hk : s'.kernelPml4Phys = s.kernelPml4Phys := by rw [hs]; rfl
  have hp : s'.pmm = pmm := by rw [hs]; rfl
  have hinv : Inv s' roots (update role g (.table r (p ++ [i]))) := by
    refine h.link hk ht hl hu hnone hav (hp ▸ htk) hzero ?_ ?_ hm
    · rw [hti, entryNext_entry hav.lt hfl]
    · rw [hti, hasFlag_entry hav.lt _ isFlags_huge, hhuge]
  refine ⟨hinv, ⟨?_, update_eq_iff (by simp [hfree]) (by simp),
    update_eq_iff (by simp [hfree]) (by simp), hk⟩, ?_, hzero⟩
  · intro k hkr
    funext j
    refine hm k j ?_ ?_
    · rintro rfl; simp [hfree] at hkr
    · rintro ⟨rfl, _⟩; simp [ht] at hkr
  · intro σ hσ
    have hlen := hσ.length
    refine h.tabled.leafEntry_eq hinv.tabled hσ hσ (fun k hkr ↦ ?_) fun k hkr ↦ ?_
    · have hkg : k ≠ g := by rintro rfl; simp [hfree] at hkr
      refine ⟨by rwa [update_of_ne hkg], hm k σ.index hkg fun hc ↦ ?_⟩
      exact Role.ne_of_length hkr ht (by omega) hc.1
    · by_cases hkg : k = g
      · exact .inr (by rw [hkg, hzero])
      · exact .inl (by rwa [update_of_ne hkg] at hkr)

theorem unlink_spec {g : ℕ} (hg : role g = .table r (p ++ [i])) (hempty : s.mem g = fun _ ↦ 0#64)
    (hs : s' = { (s.write t i 0#64) with pmm := pmmFree s.pmm (pageAddr g) }) :
    Inv s' roots (update role g .free) ∧ Keeps s s' role (update role g .free) ∧
      SameLeaves s s' roots ∧ ∀ k j, s'.mem k j = if k = t ∧ j = i then 0#64 else s.mem k j := by
  have hm : ∀ k j, s'.mem k j = if k = t ∧ j = i then 0#64 else s.mem k j := by
    intro k j
    rw [hs]
    exact Vm.write_mem s t i 0#64 k j
  have hk : s'.kernelPml4Phys = s.kernelPml4Phys := by rw [hs]; rfl
  have hinv : Inv s' roots (update role g .free) := by
    refine h.unlink hk ht hl hu hg (fun j ↦ by rw [hempty, entryNext_zero]) ?_ ?_ ?_
    · rw [hs]; exact pmmFree_gives (h.owned_table hg)
    · rw [hm, if_pos ⟨rfl, rfl⟩, entryNext_zero]
    · intro k j hc; rw [hm, if_neg hc]
  refine ⟨hinv, ⟨?_, update_eq_iff (by simp [hg]) (by simp), update_eq_iff (by simp [hg]) (by simp),
    hk⟩, ?_, hm⟩
  · intro k hkr
    funext j
    rw [hm, if_neg]
    rintro ⟨rfl, _⟩
    simp [ht] at hkr
  · intro σ hσ
    have hlen := hσ.length
    refine (hinv.tabled.leafEntry_eq h.tabled hσ hσ (fun k hkr ↦ ?_) fun k hkr ↦ ?_).symm
    · have hkr := (of_update_eq hkr (by simp)).2
      exact ⟨hkr, by rw [hm, if_neg fun hc ↦ Role.ne_of_length hkr ht (by omega) hc.1]⟩
    · by_cases hkg : k = g
      · exact .inr (by rw [hkg, hempty])
      · exact .inl (by rwa [update_of_ne hkg])

end Descend

end SeedOS.Memory
