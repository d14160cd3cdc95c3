import SeedOS.Memory.Mapping

namespace SeedOS.Memory

open Foundation Function

section Walk

variable (s : Vm) (pml4Phys virt : Word)

theorem walk_eq : walk s pml4Phys virt =
    (tableAt entryNext s.mem (pageOf pml4Phys)
      [pml4Index virt, pdptIndex virt, pdIndex virt]).map fun t ↦ (t, ptIndex virt) := by
  unfold walk
  simp only [tableAt, entryNext]
  by_cases h₄ : hasFlag (s.mem (pageOf pml4Phys) (pml4Index virt)) ptePresent = true
  · simp only [h₄, Bool.true_eq_false, if_false, if_true, Option.bind_some]
    by_cases h₃ : hasFlag (s.mem (frameOf (s.mem (pageOf pml4Phys) (pml4Index virt)))
        (pdptIndex virt)) ptePresent = true
    · simp only [h₃, Bool.true_eq_false, if_false, if_true, Option.bind_some]
      split <;> simp_all
    · simp [h₃]
  · simp [h₄]

theorem walk_read (read : Word → Word) :
    (match walk s pml4Phys virt with
      | none => 0#64
      | some (pt, i) => if hasFlag (s.mem pt i) ptePresent then read (s.mem pt i) else 0#64) =
    if hasFlag (leafEntry s.mem (siteOf (pageOf pml4Phys) virt)) ptePresent then
      read (leafEntry s.mem (siteOf (pageOf pml4Phys) virt)) else 0#64 := by
  unfold leafEntry siteOf
  rw [walk_eq]
  cases tableAt entryNext s.mem (pageOf pml4Phys)
    [pml4Index virt, pdptIndex virt, pdIndex virt] with
  | none => simp [hasFlag_zero]
  | some t => rfl

theorem vmmGetPhysical_eq : vmmGetPhysical s pml4Phys virt =
    if hasFlag (leafEntry s.mem (siteOf (pageOf pml4Phys) virt)) ptePresent then
      leafEntry s.mem (siteOf (pageOf pml4Phys) virt) &&& pteAddrMask else 0#64 :=
  walk_read s pml4Phys virt (· &&& pteAddrMask)

theorem vmmGetPteFlags_eq : vmmGetPteFlags s pml4Phys virt =
    if hasFlag (leafEntry s.mem (siteOf (pageOf pml4Phys) virt)) ptePresent then
      leafEntry s.mem (siteOf (pageOf pml4Phys) virt) &&& ~~~pteAddrMask else 0#64 :=
  walk_read s pml4Phys virt (· &&& ~~~pteAddrMask)

end Walk

theorem userPath_steps {virt : Word} (hv : (pml4Index virt).val < 256) :
    UserPath ([] ++ [pml4Index virt]) ∧ UserPath ([pml4Index virt] ++ [pdptIndex virt]) ∧
      UserPath ([pml4Index virt, pdptIndex virt] ++ [pdIndex virt]) :=
  ⟨userPath_cons.mpr hv, userPath_cons.mpr hv, userPath_cons.mpr hv⟩

/-- No present entry on the way is a large page. -/
def PlainFrom (mem : ℕ → Fin 512 → Word) : ℕ → List (Fin 512) → Prop
  | _, [] => True
  | t, i :: way => hasFlag (mem t i) ptePresent = true →
    hasFlag (mem t i) pteHuge = false ∧ PlainFrom mem (frameOf (mem t i)) way

def PlainWay (s : Vm) (pml4Phys va : Word) : Prop :=
  PlainFrom s.mem (pageOf pml4Phys) [pml4Index va, pdptIndex va, pdIndex va]

section Plain

variable {s : Vm} {roots : Set ℕ} {role : Roles} {pml4Phys virt : Word}

theorem plainWay_of (hv : (pml4Index virt).val < 256)
    (h : ∀ p i f, p.length < 3 → UserPath (p ++ [i]) →
      tableAt entryNext s.mem (pageOf pml4Phys) p = some f →
      hasFlag (s.mem f i) ptePresent = true → hasFlag (s.mem f i) pteHuge = false) :
    PlainWay s pml4Phys virt := by
  obtain ⟨hu₄, hu₃, hu₂⟩ := userPath_steps hv
  intro h₄
  refine ⟨h _ _ _ (by simp) hu₄ rfl h₄, fun h₃ ↦ ?_⟩
  refine ⟨h _ _ _ (by simp) hu₃ (by simp [tableAt, entryNext, h₄]) h₃, fun h₂ ↦ ?_⟩
  exact ⟨h _ _ _ (by simp) hu₂ (by simp [tableAt, entryNext, h₄, h₃]) h₂, trivial⟩

theorem Tabled.plainWay (h : Tabled s roots role) (hr : pageOf pml4Phys ∈ roots)
    (hv : (pml4Index virt).val < 256) : PlainWay s pml4Phys virt := by
  refine plainWay_of hv fun p i f hl hu hf hpres ↦ ?_
  have hf' := (h.tableAt_iff hr (UserPath.dropLast p i hu) hl.le).mp hf
  obtain ⟨sk, hinv, hsk⟩ := h
  rw [← hsk.mem (not_isLast hf' hl)] at hpres ⊢
  exact hinv.plain hf' hl hu hpres

theorem vmmUnmapPage_plain (h : PlainWay s pml4Phys virt) : vmmUnmapPage s pml4Phys virt =
    match walk s pml4Phys virt with
    | none => (-1, s)
    | some (pt, i) => (0, s.write pt i 0#64) := by
  unfold vmmUnmapPage walk
  dsimp only
  split_ifs with h₄ h₃ hh₃ h₂ h₂ hh₂
  all_goals simp only [Bool.not_eq_false] at *
  · rw [((h h₄).2 h₃).1] at hh₃
    cases hh₃
  · rw [(((h h₄).2 h₃).2 h₂).1] at hh₂
    cases hh₂

end Plain

section Leaf

variable {s s' : Vm} {roots : Set ℕ} {role : Roles}

theorem writeLeaf_spec (h : Inv s roots role) {t r : ℕ} {p : List (Fin 512)} {i : Fin 512}
    (ht : role t = .table r p) (hl : p.length = 3) {w : Word}
    (hw : ∀ g, entryNext w = some g → role g = .data) :
    Inv (s.write t i w) roots role ∧ Keeps s (s.write t i w) role role ∧
      Relinked roots s (s.write t i w) ⟨r, p, i⟩ w := by
  have hm : ∀ g j, ¬ (g = t ∧ j = i) → (s.write t i w).mem g j = s.mem g j := by
    intro g j hc
    rw [Vm.write_mem, if_neg hc]
  have hti : (s.write t i w).mem t i = w := by rw [Vm.write_mem, if_pos ⟨rfl, rfl⟩]
  have hinv : Inv (s.write t i w) roots role :=
    h.setLeaf rfl ht hl rfl hm fun g hg ↦ hw g (by rwa [hti] at hg)
  refine ⟨hinv, ⟨?_, Iff.rfl, Iff.rfl, rfl⟩, ?_⟩
  · intro g hg
    funext j
    refine hm g j ?_
    rintro ⟨rfl, _⟩
    simp [ht] at hg
  · obtain ⟨hr, hu, -⟩ := h.forest.live ht
    exact (h.tabled.writeLast (σ := ⟨r, p, i⟩) ⟨hr, hu, hl⟩ ht w).2

theorem writePage_spec (h : Inv s roots role) {t r f : ℕ} {p : List (Fin 512)} {i : Fin 512}
    (ht : role t = .table r p) (hl : p.length = 3) (hf : role f = .data) {flags : Word}
    (hfl : MapFlags flags)
    (hs : s' = s.write t i (pageAddr f &&& pteAddrMask ||| flags)) :
    Inv s' roots role ∧ Keeps s s' role role ∧
      Relinked roots s s' ⟨r, p, i⟩ (pageAddr f ||| flags) := by
  have hlt := (h.owned (.inl hf)).lt
  rw [hs, pageAddr_and_mask hlt]
  refine writeLeaf_spec h ht hl fun g hg ↦ ?_
  rw [entryNext_entry hlt hfl] at hg
  exact Option.some.inj hg ▸ hf

end Leaf

section Map

variable {s : Vm} {roots : Set ℕ} {role : Roles}

structure LevelDone (s s' : Vm) (role role' : Roles) (t : ℕ) (i : Fin 512) (r : ℕ)
    (p : List (Fin 512)) (t' : ℕ) (phys : Word) : Prop where
  table : role' t' = .table r (p ++ [i])
  ext : ∀ k r' p', role k = .table r' p' → role' k = .table r' p'
  fresh : phys ≠ 0#64 → phys = pageAddr t' ∧ s'.mem t' = fun _ ↦ 0#64
  must : hasFlag (s.mem t i) ptePresent = false → phys ≠ 0#64
  mem : ∀ k j r' p', role k = .table r' p' → ¬ (k = t ∧ j = i) → s'.mem k j = s.mem k j

theorem levelDone_follow {s' : Vm} {t r t' : ℕ} {p : List (Fin 512)} {i : Fin 512}
    (ht' : role t' = .table r (p ++ [i])) (hpres : entryNext (s.mem t i) = some t')
    (hs : s' = s ∨ s' = s.write t i (s.mem t i ||| pteUser)) :
    LevelDone s s' role role t i r p t' 0#64 where
  table := ht'
  ext _ _ _ hr := hr
  fresh hc := absurd rfl hc
  must hc := by
    rw [(entryNext_some.mp hpres).1] at hc
    simp at hc
  mem k j r' p' _ hc := by
    rcases hs with rfl | rfl
    · rfl
    · rw [Vm.write_mem, if_neg hc]

theorem levelDone_fresh {s' : Vm} {t r t' : ℕ} {p : List (Fin 512)} {i : Fin 512} {w : Word}
    {pmm : Pmm} (hfree : role t' = .free) (hne : pageAddr t' ≠ 0#64)
    (hs : s' = ({ s with pmm := pmm }.fill t' fun _ ↦ 0#64).write t i w)
    (hzero : s'.mem t' = fun _ ↦ 0#64) :
    LevelDone s s' role (update role t' (.table r (p ++ [i]))) t i r p t' (pageAddr t') := by
  have hold : ∀ {k r' p'}, role k = .table r' p' → k ≠ t' := by
    rintro k r' p' hkr rfl
    simp [hkr] at hfree
  refine ⟨update_self _ _ _, ?_, fun _ ↦ ⟨rfl, hzero⟩, fun _ ↦ hne, ?_⟩
  · intro k r' p' hkr
    rwa [update_of_ne (hold hkr)]
  · intro k j r' p' hkr hc
    rw [hs, Vm.write_mem, if_neg hc, Vm.fill_mem, if_neg (hold hkr)]

theorem descend_spec (h : Inv s roots role) {s' : Vm} {t r : ℕ} {p : List (Fin 512)} {i : Fin 512}
    (ht : role t = .table r p) (hl : p.length < 3) (hu : UserPath (p ++ [i]))
    {flags phys : Word} {t' : ℕ} (hd : descend s t i flags = some (t', phys, s')) :
    ∃ role', Inv s' roots role' ∧ Keeps s s' role role' ∧ SameLeaves s s' roots ∧
      LevelDone s s' role role' t i r p t' phys := by
  cases descend_cases hd with
  | follow hpres hs =>
    obtain ⟨hinv, ht', hk, hsame⟩ := follow_spec h ht hl hu hpres hs
    exact ⟨role, hinv, hk, hsame, levelDone_follow ht' hpres hs⟩
  | fresh hnone pmm hav htk hne hs =>
    obtain ⟨hfl, hhuge⟩ := intermediateFlags_spec flags
    obtain ⟨hinv, hk, hsame, hzero⟩ := fresh_spec h ht hl hu hfl hhuge hnone hav htk hs
    exact ⟨_, hinv, hk, hsame, levelDone_fresh (h.free_of_available hav) hne hs hzero⟩

/-- What taking out the table `g` has done, if it was fresh. -/
structure LevelUndone (s s' : Vm) (role role' : Roles) (t : ℕ) (i : Fin 512) (g : ℕ)
    (phys : Word) : Prop where
  role : ∀ k, k ≠ g → role' k = role k
  mem : phys ≠ 0#64 → ∀ k j, s'.mem k j = if k = t ∧ j = i then 0#64 else s.mem k j

theorem unlink_undo (h : Inv s roots role) {t r g : ℕ} {p : List (Fin 512)} {i : Fin 512}
    (ht : role t = .table r p) (hl : p.length < 3) (hu : UserPath (p ++ [i]))
    (hg : role g = .table r (p ++ [i])) {phys : Word}
    (hphys : phys ≠ 0#64 → phys = pageAddr g ∧ s.mem g = fun _ ↦ 0#64) :
    ∃ role', Inv (unlink s t i phys) roots role' ∧ Keeps s (unlink s t i phys) role role' ∧
      SameLeaves s (unlink s t i phys) roots ∧
      LevelUndone s (unlink s t i phys) role role' t i g phys := by
  by_cases h0 : phys = 0#64
  · have hs : unlink s t i phys = s := by rw [unlink, if_pos h0]
    rw [hs]
    exact ⟨role, h, .refl _ _, fun _ _ ↦ rfl, fun _ _ ↦ rfl, fun hc ↦ absurd h0 hc⟩
  · obtain ⟨rfl, hzero⟩ := hphys h0
    have hs : unlink s t i (pageAddr g) =
        { (s.write t i 0#64) with pmm := pmmFree s.pmm (pageAddr g) } := by
      rw [unlink, if_neg h0]
      rfl
    obtain ⟨hinv, hk, hsame, hm⟩ := unlink_spec h ht hl hu hg hzero hs
    exact ⟨_, hinv, hk, hsame, fun k hkg ↦ update_of_ne hkg _ _, fun _ ↦ hm⟩

/-- The descent of `vmm_map_page`, for any property `J` of states that each level and
the undoing of each level keep. It ends at the last-level table of `virt`, or it
fails with every fresh table taken out again. -/
theorem vmmMapPage_descent {J : Vm → Roles → Prop} {pml4Phys virt phys flags : Word}
    (hdescend : ∀ {s s' : Vm} {role : Roles} {t t' : ℕ} {p : List (Fin 512)} {i : Fin 512}
      {phys : Word}, J s role → role t = .table (pageOf pml4Phys) p → p.length < 3 →
      UserPath (p ++ [i]) → descend s t i flags = some (t', phys, s') →
      ∃ role', J s' role' ∧ LevelDone s s' role role' t i (pageOf pml4Phys) p t' phys)
    (hunlink : ∀ {s : Vm} {role : Roles} {t g : ℕ} {p : List (Fin 512)} {i : Fin 512}
      {phys : Word}, J s role → role t = .table (pageOf pml4Phys) p → p.length < 2 →
      UserPath (p ++ [i]) → role g = .table (pageOf pml4Phys) (p ++ [i]) →
      (phys ≠ 0#64 → phys = pageAddr g ∧ s.mem g = fun _ ↦ 0#64) →
      ∃ role', J (unlink s t i phys) role' ∧ LevelUndone s (unlink s t i phys) role role' t i g phys)
    (h : J s role) (hroot : role (pageOf pml4Phys) = .table (pageOf pml4Phys) [])
    (hv : (pml4Index virt).val < 256) {res : ℤ} {s' : Vm}
    (heq : vmmMapPage s pml4Phys virt phys flags = (res, s')) :
    (res = -1 ∧ ∃ role', J s' role') ∨
    ∃ s₃ role₃ pt, res = 0 ∧ J s₃ role₃ ∧
      role₃ pt = .table (pageOf pml4Phys) [pml4Index virt, pdptIndex virt, pdIndex virt] ∧
      s' = s₃.write pt (ptIndex virt) (phys &&& pteAddrMask ||| flags) := by
  obtain ⟨hu₄, hu₃, hu₂⟩ := userPath_steps hv
  unfold vmmMapPage at heq
  cases hd₄ : descend s (pageOf pml4Phys) (pml4Index virt) flags with
  | none =>
    simp only [hd₄, Prod.mk.injEq] at heq
    obtain ⟨rfl, rfl⟩ := heq
    exact .inl ⟨rfl, role, h⟩
  | some x₄ =>
    obtain ⟨pdpt, newPdpt, s₁⟩ := x₄
    obtain ⟨role₁, h₁, hl₁⟩ := hdescend h hroot (by simp) hu₄ hd₄
    have hroot' := hl₁.ext _ _ _ hroot
    cases hd₃ : descend s₁ pdpt (pdptIndex virt) flags with
    | none =>
      simp only [hd₄, hd₃, Prod.mk.injEq] at heq
      obtain ⟨rfl, rfl⟩ := heq
      obtain ⟨role', h', _⟩ := hunlink h₁ hroot' (by simp) hu₄ hl₁.table hl₁.fresh
      exact .inl ⟨rfl, role', h'⟩
    | some x₃ =>
      obtain ⟨pd, newPd, s₂⟩ := x₃
      obtain ⟨role₂, h₂, hl₂⟩ := hdescend h₁ hl₁.table (by simp) hu₃ hd₃
      have ht₃ := hl₂.ext _ _ _ hl₁.table
      have ht₂ := hl₂.table
      cases hd₂ : descend s₂ pd (pdIndex virt) flags with
      | none =>
        simp only [hd₄, hd₃, hd₂, Prod.mk.injEq] at heq
        obtain ⟨rfl, rfl⟩ := heq
        obtain ⟨role₃, h₃, hundo⟩ := hunlink h₂ ht₃ (by simp) hu₃ ht₂ hl₂.fresh
        have hpd : pdpt ≠ pd := Role.ne_of_length ht₃ ht₂ (by simp)
        have hpd₄ := Role.ne_of_length (hl₂.ext _ _ _ hroot') ht₂ (by simp)
        have hempty : newPdpt ≠ 0#64 → newPdpt = pageAddr pdpt ∧
            (unlink s₂ pdpt (pdptIndex virt) newPd).mem pdpt = fun _ ↦ 0#64 := by
          -- a fresh PDPT held nothing but the entry of the PD just taken out
          intro hne
          obtain ⟨hphys, hzero⟩ := hl₁.fresh hne
          refine ⟨hphys, funext fun j ↦ ?_⟩
          have hnewPd := hl₂.must (by rw [hzero, hasFlag_zero])
          rw [hundo.mem hnewPd]
          split_ifs with hc
          · rfl
          · rw [hl₂.mem pdpt j _ _ hl₁.table hc, hzero]
        obtain ⟨role', h', _⟩ := hunlink h₃
          (by rw [hundo.role _ hpd₄]; exact hl₂.ext _ _ _ hroot') (by simp) hu₄
          (by rw [hundo.role _ hpd]; exact ht₃) hempty
        exact .inl ⟨rfl, role', h'⟩
      | some x₂ =>
        obtain ⟨pt, newPt, s₃⟩ := x₂
        obtain ⟨role₃, h₃, hl₃⟩ := hdescend h₂ ht₂ (by simp) hu₂ hd₂
        simp only [hd₄, hd₃, hd₂, Prod.mk.injEq] at heq
        obtain ⟨rfl, rfl⟩ := heq
        exact .inr ⟨s₃, role₃, pt, rfl, h₃, hl₃.table, rfl⟩

/-- `vmm_map_page` in the user half. On success one page of one address space
has its new entry; on failure no page has changed. -/
theorem vmmMapPage_spec (h : Inv s roots role) {pml4Phys virt flags : Word} {f : ℕ}
    (hr : pageOf pml4Phys ∈ roots) (hv : (pml4Index virt).val < 256) (hf : role f = .data)
    (hfl : MapFlags flags) {res : ℤ} {s' : Vm}
    (heq : vmmMapPage s pml4Phys virt (pageAddr f) flags = (res, s')) :
    ∃ role', Inv s' roots role' ∧ Keeps s s' role role' ∧
      ((res = 0 ∧ Relinked roots s s' (siteOf (pageOf pml4Phys) virt) (pageAddr f ||| flags)) ∨
        (res = -1 ∧ SameLeaves s s' roots)) := by
  have hdescent := vmmMapPage_descent
    (J := fun s' role' ↦ Inv s' roots role' ∧ Keeps s s' role role' ∧ SameLeaves s s' roots)
    (fun h ht hl hu hd ↦ by
      obtain ⟨role', hinv, hk, hsame, hlevel⟩ := descend_spec h.1 ht hl hu hd
      exact ⟨role', ⟨hinv, h.2.1.trans hk, h.2.2.trans hsame⟩, hlevel⟩)
    (fun h ht hl hu hg hphys ↦ by
      obtain ⟨role', hinv, hk, hsame, hundo⟩ := unlink_undo h.1 ht (by omega) hu hg hphys
      exact ⟨role', ⟨hinv, h.2.1.trans hk, h.2.2.trans hsame⟩, hundo⟩)
    ⟨h, .refl _ _, fun _ _ ↦ rfl⟩ (h.forest.root _ hr) hv heq
  rcases hdescent with ⟨hres, role', hinv, hk, hsame⟩ | ⟨s₃, role₃, pt, hres, ⟨hinv, hk, hsame⟩, ht, rfl⟩
  · exact ⟨role', hinv, hk, .inr ⟨hres, hsame⟩⟩
  · obtain ⟨hinv', hk', hleaf⟩ := writePage_spec hinv ht rfl (hk.data.mpr hf) hfl rfl
    refine ⟨role₃, hinv', hk.trans hk', .inl ⟨hres, fun σ hσ ↦ ?_⟩⟩
    rw [hleaf σ hσ, hsame σ hσ]
    rfl

theorem descend_present (s : Vm) (t : ℕ) (i : Fin 512) (flags : Word)
    (hp : hasFlag (s.mem t i) ptePresent = true) :
    ∃ s', descend s t i flags = some (frameOf (s.mem t i), 0#64, s') := by
  simp only [descend, hp, if_true]
  split
  · exact ⟨_, rfl⟩
  · exact ⟨_, rfl⟩

theorem vmmMapPage_of_table (h : Inv s roots role) {pml4Phys virt : Word} (phys flags : Word)
    {t : ℕ} (hr : pageOf pml4Phys ∈ roots)
    (ht : role t = .table (pageOf pml4Phys) [pml4Index virt, pdptIndex virt, pdIndex virt]) :
    (vmmMapPage s pml4Phys virt phys flags).1 = 0 ∧
      ∀ k r p, role k = .table r p → r ≠ pageOf pml4Phys →
        (vmmMapPage s pml4Phys virt phys flags).2.mem k = s.mem k := by
  have hu₂ : UserPath ([pml4Index virt, pdptIndex virt] ++ [pdIndex virt]) :=
    (h.forest.live ht).2.1
  have hu₃ : UserPath ([pml4Index virt] ++ [pdptIndex virt]) := UserPath.dropLast _ _ hu₂
  have hu₄ : UserPath ([] ++ [pml4Index virt]) := UserPath.dropLast _ _ hu₃
  obtain ⟨pd, hpd, hn₂⟩ : ∃ g, role g = .table (pageOf pml4Phys) [pml4Index virt, pdptIndex virt] ∧
      entryNext (s.mem g (pdIndex virt)) = some t := h.forest.linked ht
  obtain ⟨pdpt, hpdpt, hn₃⟩ : ∃ g, role g = .table (pageOf pml4Phys) [pml4Index virt] ∧
      entryNext (s.mem g (pdptIndex virt)) = some pd := h.forest.linked hpd
  have hroot := h.forest.root _ hr
  have hn₄ : entryNext (s.mem (pageOf pml4Phys) (pml4Index virt)) = some pdpt := by
    obtain ⟨g, hg, hn⟩ : ∃ g, role g = .table (pageOf pml4Phys) [] ∧
      entryNext (s.mem g (pml4Index virt)) = some pdpt := h.forest.linked hpdpt
    rwa [h.forest.base hg] at hn
  have hne₃ := Role.ne_of_length hpdpt hroot (by simp)
  have hne₂ := Role.ne_of_length hpd hroot (by simp)
  have hne₂' := Role.ne_of_length hpd hpdpt (by simp)
  obtain ⟨s₁, hd₄⟩ := descend_present s (pageOf pml4Phys) (pml4Index virt) flags
    (entryNext_some.mp hn₄).1
  obtain ⟨role₁, h₁, _, _, _, hext₁, _, _, hmem₁⟩ := descend_spec h hroot (by simp) hu₄ hd₄
  have hm₃ := hmem₁ pdpt (pdptIndex virt) _ _ hpdpt fun hc ↦ hne₃ hc.1
  obtain ⟨s₂, hd₃⟩ := descend_present s₁ pdpt (pdptIndex virt) flags
    (by rw [hm₃]; exact (entryNext_some.mp hn₃).1)
  obtain ⟨role₂, h₂, _, _, _, hext₂, _, _, hmem₂⟩ :=
    descend_spec h₁ (hext₁ _ _ _ hpdpt) (by simp) hu₃ hd₃
  have hm₂ : s₂.mem pd (pdIndex virt) = s.mem pd (pdIndex virt) :=
    (hmem₂ pd _ _ _ (hext₁ _ _ _ hpd) fun hc ↦ hne₂' hc.1).trans
      (hmem₁ pd _ _ _ hpd fun hc ↦ hne₂ hc.1)
  obtain ⟨s₃, hd₂⟩ := descend_present s₂ pd (pdIndex virt) flags
    (by rw [hm₂]; exact (entryNext_some.mp hn₂).1)
  rw [(entryNext_some.mp hn₄).2] at hd₄
  rw [hm₃, (entryNext_some.mp hn₃).2] at hd₃
  rw [hm₂, (entryNext_some.mp hn₂).2] at hd₂
  obtain ⟨role₃, _, _, _, _, hext₃, _, _, hmem₃⟩ :=
    descend_spec h₂ (hext₂ _ _ _ (hext₁ _ _ _ hpd)) (by simp) hu₂ hd₂
  simp only [vmmMapPage, hd₄, hd₃, hd₂, true_and]
  intro k r p hk hne
  have hother : ∀ {t q}, role t = .table (pageOf pml4Phys) q → k ≠ t :=
    fun ht ↦ Role.ne_of_root hk ht hne
  have hk₁ := hext₁ _ _ _ hk
  funext j
  rw [Vm.write_mem, if_neg fun hc ↦ hother ht hc.1,
    hmem₃ k j _ _ (hext₂ _ _ _ hk₁) fun hc ↦ hother hpd hc.1,
    hmem₂ k j _ _ hk₁ fun hc ↦ hother hpdpt hc.1, hmem₁ k j _ _ hk fun hc ↦ hother hroot hc.1]

end Map

section Unmap

variable {s : Vm} {roots : Set ℕ} {role : Roles}

theorem vmmUnmapPage_mem (s : Vm) (pml4Phys virt : Word) {k : ℕ}
    (hk : tableAt entryNext s.mem (pageOf pml4Phys)
      [pml4Index virt, pdptIndex virt, pdIndex virt] ≠ some k) :
    (vmmUnmapPage s pml4Phys virt).2.mem k = s.mem k := by
  unfold vmmUnmapPage
  dsimp only
  split_ifs with h₄ h₃ hh₃ h₂ hh₂
  all_goals try rfl
  funext j
  rw [Vm.write_mem, if_neg]
  rintro ⟨rfl, _⟩
  simp only [Bool.not_eq_false] at h₄ h₃ h₂
  simp [tableAt, entryNext, h₄, h₃, h₂] at hk

theorem vmmUnmapPage_spec (h : Inv s roots role) {pml4Phys virt : Word}
    (hr : pageOf pml4Phys ∈ roots) (hv : (pml4Index virt).val < 256) {res : ℤ} {s' : Vm}
    (heq : vmmUnmapPage s pml4Phys virt = (res, s')) :
    Inv s' roots role ∧ Keeps s s' role role ∧ s'.pmm = s.pmm ∧
      Relinked roots s s' (siteOf (pageOf pml4Phys) virt) 0#64 := by
  have hσ := siteOf_valid hr hv
  rw [vmmUnmapPage_plain (h.tabled.plainWay hr hv), walk_eq] at heq
  cases ht : tableAt entryNext s.mem (pageOf pml4Phys)
    [pml4Index virt, pdptIndex virt, pdIndex virt] with
  | none =>
    simp only [ht, Option.map_none, Prod.mk.injEq] at heq
    obtain ⟨rfl, rfl⟩ := heq
    refine ⟨h, .refl _ _, rfl, fun σ _ ↦ ?_⟩
    split_ifs with he
    · rw [he, leafEntry, siteOf, ht]
    · rfl
  | some t =>
    simp only [ht, Option.map_some, Prod.mk.injEq] at heq
    obtain ⟨rfl, rfl⟩ := heq
    obtain ⟨hinv, hk, hleaf⟩ := writeLeaf_spec h (i := ptIndex virt)
      ((h.tableAt_iff hr hσ.user hσ.length.le).mp ht) rfl (w := 0#64)
      fun g hg ↦ by simp [entryNext_zero] at hg
    exact ⟨hinv, hk, rfl, hleaf⟩

end Unmap

section Flags

variable {s : Vm} {roots : Set ℕ} {role : Roles}

theorem vmmSetPteFlags_mem (s : Vm) (pml4Phys virt flags : Word) {k : ℕ}
    (hk : tableAt entryNext s.mem (pageOf pml4Phys)
      [pml4Index virt, pdptIndex virt, pdIndex virt] ≠ some k) :
    (vmmSetPteFlags s pml4Phys virt flags).2.mem k = s.mem k := by
  unfold vmmSetPteFlags
  rw [walk_eq]
  cases ht : tableAt entryNext s.mem (pageOf pml4Phys)
    [pml4Index virt, pdptIndex virt, pdIndex virt] with
  | none => rfl
  | some t =>
    simp only [Option.map_some]
    split_ifs
    · funext j
      rw [Vm.write_mem, if_neg]
      rintro ⟨rfl, _⟩
      exact hk ht
    · rfl

theorem vmmSetPteFlags_spec (h : Inv s roots role) {pml4Phys virt flags : Word} {f : ℕ}
    (hr : pageOf pml4Phys ∈ roots) (hv : (pml4Index virt).val < 256) (hfl : MapFlags flags)
    (hf : entryNext (leafEntry s.mem (siteOf (pageOf pml4Phys) virt)) = some f) :
    Inv (vmmSetPteFlags s pml4Phys virt flags).2 roots role ∧
      Keeps s (vmmSetPteFlags s pml4Phys virt flags).2 role role ∧
      ∀ σ : Site, σ.Valid roots → leafEntry (vmmSetPteFlags s pml4Phys virt flags).2.mem σ =
        if σ = siteOf (pageOf pml4Phys) virt then pageAddr f ||| flags else leafEntry s.mem σ := by
  have hσ := siteOf_valid hr hv
  obtain ⟨t, ht, hleaf⟩ := h.leafEntry_present hσ hf
  have hwalk : walk s pml4Phys virt = some (t, ptIndex virt) := by
    rw [walk_eq]
    exact congrArg (Option.map _) (h.forest.tableAt_of_role ht)
  have hpres : hasFlag (s.mem t (ptIndex virt)) ptePresent = true := by
    have := (entryNext_some.mp hf).1
    rwa [hleaf] at this
  have haddr : s.mem t (ptIndex virt) &&& pteAddrMask = pageAddr f := by
    rw [← pageAddr_frameOf, ← (entryNext_some.mp hf).2, hleaf]
    rfl
  have hlt := (h.owned (.inl (h.leafEntry_data hσ hf))).lt
  simp only [vmmSetPteFlags, hwalk, hpres, if_true, haddr]
  refine writeLeaf_spec h ht rfl fun g hg ↦ ?_
  rw [entryNext_entry hlt hfl] at hg
  exact Option.some.inj hg ▸ h.leafEntry_data hσ hf

end Flags

end SeedOS.Memory
