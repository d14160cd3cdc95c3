import SeedOS.Memory.AddressSpace

namespace SeedOS.Memory

open Foundation Function

theorem Skeleton.write {role : Roles} {s t : Vm} (h : Skeleton role s t) (f : ℕ) (i : Fin 512)
    (w : Word) : Skeleton role (s.write f i w) (t.write f i w) where
  pmm := h.pmm
  kernel := h.kernel
  mem hg := by
    funext j
    rw [Vm.write_mem, Vm.write_mem, h.mem hg]

theorem Skeleton.fill {role : Roles} {s t : Vm} (h : Skeleton role s t) (role' : Roles) {f : ℕ}
    (pmm : Pmm) (page : Fin 512 → Word) (hrole : ∀ g ≠ f, role' g = role g) :
    Skeleton role' ({ s with pmm := pmm }.fill f page) ({ t with pmm := pmm }.fill f page) where
  pmm := rfl
  kernel := h.kernel
  mem {g} hg := by
    rw [Vm.fill_mem, Vm.fill_mem]
    split_ifs with hgf
    · rfl
    · refine h.mem fun hlast ↦ hg ?_
      unfold IsLast at hlast ⊢
      rwa [hrole g hgf]

section Tabled

variable {s s' : Vm} {roots : Set ℕ} {role role' : Roles}

section

variable (h : Tabled s roots role)
include h

theorem Tabled.descend {t r t' : ℕ} {p : List (Fin 512)} {i : Fin 512}
    (ht : role t = .table r p) (hl : p.length < 3) (hu : UserPath (p ++ [i]))
    {flags phys : Word} (hd : descend s t i flags = some (t', phys, s')) :
    ∃ role', Tabled s' roots role' ∧ SameLeaves s s' roots ∧
      LevelDone s s' role role' t i r p t' phys := by
  obtain ⟨sk, hinv, hsk⟩ := id h
  have hmem := hsk.mem (not_isLast ht hl)
  have hlong : ∀ {k r' p'}, role k = .table r' p' → p'.length = 3 → k ≠ t :=
    fun hk hp ↦ Role.ne_of_length hk ht (by omega)
  cases descend_cases hd with
  | follow hpres hs =>
    obtain ⟨sk', hs', hsk'⟩ : ∃ sk', (sk' = sk ∨ sk' = sk.write t i (sk.mem t i ||| pteUser)) ∧
        Skeleton role s' sk' := by
      rcases hs with rfl | rfl
      · exact ⟨sk, .inl rfl, hsk⟩
      · exact ⟨_, .inr rfl, hmem ▸ hsk.write t i _⟩
    obtain ⟨hinv', ht', _, _⟩ := follow_spec hinv ht hl hu (by rw [hmem]; exact hpres) hs'
    have hdone := levelDone_follow ht' hpres hs
    refine ⟨role, ⟨sk', hinv', hsk'⟩, fun σ hσ ↦ ?_, hdone⟩
    refine h.leafEntry_eq ⟨sk', hinv', hsk'⟩ hσ hσ (fun k hk ↦ ⟨hk, ?_⟩) fun k hk ↦ .inl hk
    exact hdone.mem k _ _ _ hk fun hc ↦ hlong hk hσ.length hc.1
  | fresh hnone pmm hav htk hne hs =>
    obtain ⟨hfl, hhuge⟩ := intermediateFlags_spec flags
    rw [← hsk.pmm] at hav htk
    obtain ⟨hinv', _, _, _⟩ := fresh_spec hinv ht hl hu hfl hhuge (by rw [hmem]; exact hnone)
      hav htk rfl
    have hfree := hinv.free_of_available hav
    have hsk' := (hsk.fill (update role t' (.table r (p ++ [i]))) pmm (fun _ ↦ 0#64)
      (fun g hg ↦ update_of_ne hg _ _)).write t i (pageAddr t' ||| intermediateFlags flags)
    rw [← hs] at hsk'
    have hzero : s'.mem t' = fun _ ↦ 0#64 := by
      funext j
      have htt : ¬ (t' = t ∧ j = i) := by
        rintro ⟨rfl, _⟩
        simp [ht] at hfree
      rw [hs, Vm.write_mem, if_neg htt, Vm.fill_mem, if_pos rfl]
    have hdone := levelDone_fresh (r := r) (p := p) hfree hne hs hzero
    refine ⟨_, ⟨_, hinv', hsk'⟩, fun σ hσ ↦ ?_, hdone⟩
    refine h.leafEntry_eq ⟨_, hinv', hsk'⟩ hσ hσ (fun k hk ↦ ⟨hdone.ext k _ _ hk, ?_⟩) fun k hk ↦ ?_
    · exact hdone.mem k _ _ _ hk fun hc ↦ hlong hk hσ.length hc.1
    · by_cases hkt : k = t'
      · exact .inr (by rw [hkt, hzero])
      · exact .inl (by rwa [update_of_ne hkt] at hk)

theorem Tabled.unlink {t r g : ℕ} {p : List (Fin 512)} {i : Fin 512}
    (ht : role t = .table r p) (hl : p.length < 2) (hu : UserPath (p ++ [i]))
    (hg : role g = .table r (p ++ [i])) {phys : Word}
    (hphys : phys ≠ 0#64 → phys = pageAddr g ∧ s.mem g = fun _ ↦ 0#64) :
    ∃ role', Tabled (unlink s t i phys) roots role' ∧ SameLeaves s (unlink s t i phys) roots ∧
      LevelUndone s (unlink s t i phys) role role' t i g phys := by
  by_cases h0 : phys = 0#64
  · have hs : Memory.unlink s t i phys = s := by rw [Memory.unlink, if_pos h0]
    rw [hs]
    exact ⟨role, h, fun _ _ ↦ rfl, fun _ _ ↦ rfl, fun hc ↦ absurd h0 hc⟩
  · obtain ⟨rfl, hzero⟩ := hphys h0
    obtain ⟨sk, hinv, hsk⟩ := id h
    have hglen : (p ++ [i]).length < 3 := by
      rw [List.length_append, List.length_singleton]
      omega
    have hgmem := hsk.mem (not_isLast hg hglen)
    obtain ⟨s', hs⟩ : ∃ s', s' = Memory.unlink s t i (pageAddr g) := ⟨_, rfl⟩
    have hm : ∀ k j, s'.mem k j = if k = t ∧ j = i then 0#64 else s.mem k j := by
      intro k j
      rw [hs, Memory.unlink, if_neg h0]
      exact Vm.write_mem s t i 0#64 k j
    obtain ⟨hinv', _, _, _⟩ := unlink_spec hinv ht (by omega) hu hg (hgmem.trans hzero) rfl
    have hne : ∀ {k}, IsLast role k → k ≠ g := by
      rintro k hk rfl
      exact not_isLast hg hglen hk
    have hsk' : Skeleton (update role g .free) s'
        { (sk.write t i 0#64) with pmm := pmmFree sk.pmm (pageAddr g) } := by
      refine ⟨?_, ?_, fun {k} hk ↦ ?_⟩
      · rw [hs, Memory.unlink, if_neg h0, hsk.pmm]
        rfl
      · rw [hs, Memory.unlink, if_neg h0]
        exact hsk.kernel
      · have hk' : ¬ IsLast role k := by
          intro hlast
          apply hk
          unfold IsLast
          rwa [update_of_ne (hne hlast)]
        funext j
        rw [hm]
        show (sk.write t i 0#64).mem k j = _
        rw [Vm.write_mem, hsk.mem hk']
    rw [← hs]
    refine ⟨_, ⟨_, hinv', hsk'⟩, fun σ hσ ↦ ?_, fun k hk ↦ update_of_ne hk _ _, fun _ ↦ hm⟩
    have hlast : ∀ {f}, role f = .table σ.root σ.path → f ≠ g :=
      fun hf ↦ hne ⟨_, _, hf, hσ.length⟩
    refine h.leafEntry_eq ⟨_, hinv', hsk'⟩ hσ hσ (fun f hf ↦ ⟨?_, ?_⟩) fun f hf ↦ ?_
    · rwa [update_of_ne (hlast hf)]
    · rw [hm, if_neg]
      rintro ⟨rfl, _⟩
      exact not_isLast ht (by omega) ⟨_, _, hf, hσ.length⟩
    · by_cases hfg : f = g
      · simp [hfg] at hf
      · exact .inl (by rwa [update_of_ne hfg] at hf)

theorem Tabled.mapPage {pml4Phys virt phys flags : Word}
    (hr : pageOf pml4Phys ∈ roots) (hv : (pml4Index virt).val < 256) {res : ℤ}
    (heq : vmmMapPage s pml4Phys virt phys flags = (res, s')) :
    (∃ role', Tabled s' roots role') ∧
      ((res = 0 ∧ Relinked roots s s' (siteOf (pageOf pml4Phys) virt)
          (phys &&& pteAddrMask ||| flags)) ∨
        (res = -1 ∧ SameLeaves s s' roots)) := by
  have hdescent := vmmMapPage_descent
    (J := fun s' role' ↦ Tabled s' roots role' ∧ SameLeaves s s' roots)
    (fun h ht hl hu hd ↦ by
      obtain ⟨role', ht', hsame, hlevel⟩ := h.1.descend ht hl hu hd
      exact ⟨role', ⟨ht', h.2.trans hsame⟩, hlevel⟩)
    (fun h ht hl hu hg hphys ↦ by
      obtain ⟨role', ht', hsame, hundo⟩ := h.1.unlink ht hl hu hg hphys
      exact ⟨role', ⟨ht', h.2.trans hsame⟩, hundo⟩)
    ⟨h, fun _ _ ↦ rfl⟩ (h.root hr) hv heq
  rcases hdescent with ⟨hres, role', h', hsame⟩ | ⟨s₃, role₃, pt, hres, ⟨h₃, hsame⟩, ht, rfl⟩
  · exact ⟨⟨role', h'⟩, .inr ⟨hres, hsame⟩⟩
  · obtain ⟨h', hleaf⟩ := h₃.writeLast (siteOf_valid hr hv) ht (phys &&& pteAddrMask ||| flags)
    refine ⟨⟨role₃, h'⟩, .inl ⟨hres, fun σ hσ ↦ ?_⟩⟩
    rw [← hsame σ hσ]
    exact hleaf σ hσ

theorem Tabled.create {phys : Word}
    (heq : vmmCreateAddressSpace s = (phys, s')) (hne : phys ≠ 0#64) :
    phys = pageAddr (pageOf phys) ∧ pageOf phys ∉ roots ∧
      (∃ role', Tabled s' (insert (pageOf phys) roots) role') ∧ SameLeaves s s' roots ∧
      ∀ σ : Site, σ.Valid (insert (pageOf phys) roots) → σ.root = pageOf phys →
        leafEntry s'.mem σ = 0#64 := by
  obtain ⟨sk, hinv, hsk⟩ := id h
  have hkernel := hinv.kernel_reserved
  rw [hsk.kernel] at hkernel
  have hkmem : sk.mem (pageOf s.kernelPml4Phys) = s.mem (pageOf s.kernelPml4Phys) := by
    refine hsk.mem ?_
    rintro ⟨r, p, hr, _⟩
    rw [hkernel] at hr
    cases hr
  obtain ⟨r, pmm, rfl, hr, hav, htk, hs⟩ :=
    vmmCreateAddressSpace_fresh (by rw [← hsk.pmm]; exact hinv.held hkernel) heq hne
  rw [← hsk.pmm] at hav htk
  obtain ⟨hinv', _, hroot, _, _⟩ := newSpace_spec hinv
    (fun i ↦ if 256 ≤ i.val then s.mem (pageOf s.kernelPml4Phys) i else 0#64) hav htk
    (fun i hi ↦ if_neg (by omega))
    (fun i hi ↦ by rw [if_pos hi, hsk.kernel, hkmem]) rfl
  have hsk' := hsk.fill (update role r (.table r [])) pmm
    (fun i ↦ if 256 ≤ i.val then s.mem (pageOf s.kernelPml4Phys) i else 0#64)
    (fun g hg ↦ update_of_ne hg _ _)
  rw [← hs] at hsk'
  have h' : Tabled s' (insert r roots) (update role r (.table r [])) := ⟨_, hinv', hsk'⟩
  have hfree := hinv.free_of_available hav
  -- a table at the end of a path of length 3 is not the new root
  have hold : ∀ {f r' p'}, p'.length = 3 →
      (update role r (.table r []) f = .table r' p' ↔ role f = .table r' p') := by
    refine fun hl ↦ update_eq_iff (by simp [hfree]) fun hc ↦ ?_
    injection hc with _ hp
    simp [← hp] at hl
  rw [hr]
  refine ⟨rfl, hroot, ⟨_, h'⟩, fun σ hσ ↦ ?_, fun σ hσ hσr ↦ ?_⟩
  · refine h.leafEntry_eq h' hσ ⟨.inr hσ.root, hσ.user, hσ.length⟩ (fun f hf ↦ ?_) fun f hf ↦ ?_
    · refine ⟨(hold hσ.length).mpr hf, ?_⟩
      rw [hs, Vm.fill_mem, if_neg]
      rintro rfl
      simp [hf] at hfree
    · exact .inl ((hold hσ.length).mp hf)
  · refine h'.leafEntry_of_none hσ fun f hf ↦ hroot ?_
    have hf' := (hold hσ.length).mp hf
    rw [hσr] at hf'
    exact (hinv.forest.live hf').1

end

end Tabled

end SeedOS.Memory
