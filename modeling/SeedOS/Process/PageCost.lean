import Mathlib.Algebra.BigOperators.Group.Finset.Piecewise
import SeedOS.Process.PageLoops

namespace SeedOS.Process

open Foundation Memory Function

def freeFrames (p : Pmm) : ℕ :=
  ((Finset.range p.totalPages).filter fun f ↦ 0 < f ∧ bitmapIsUsed p.bitmap f = false).card

section Free

variable {p p' : Pmm} {f : ℕ}

theorem mem_freeFrames : f ∈ (Finset.range p.totalPages).filter
    (fun f ↦ 0 < f ∧ bitmapIsUsed p.bitmap f = false) ↔ p.Available f := by
  rw [Finset.mem_filter, Finset.mem_range]
  exact ⟨fun h ↦ ⟨h.2.1, h.1, h.2.2⟩, fun h ↦ ⟨h.2.1, h.1, h.2.2⟩⟩

theorem freeFrames_eq_zero (h : ∀ f, ¬ p.Available f) : freeFrames p = 0 := by
  rw [freeFrames, Finset.card_eq_zero, Finset.eq_empty_iff_forall_notMem]
  exact fun f hf ↦ h f (mem_freeFrames.mp hf)

theorem freeFrames_take (hav : p.Available f) (htk : p.Takes p' f) :
    freeFrames p = freeFrames p' + 1 := by
  have herase : (Finset.range p'.totalPages).filter
        (fun f ↦ 0 < f ∧ bitmapIsUsed p'.bitmap f = false) =
      ((Finset.range p.totalPages).filter
        fun f ↦ 0 < f ∧ bitmapIsUsed p.bitmap f = false).erase f := by
    ext g
    rw [Finset.mem_erase, mem_freeFrames, mem_freeFrames]
    refine ⟨fun hg ↦ (htk.available hg).symm, fun ⟨hne, hpos, hlt, hfree⟩ ↦ ⟨hpos, ?_, ?_⟩⟩
    · rwa [htk.1]
    · rw [htk.2, hfree, decide_eq_false hne, Bool.or_self]
  rw [freeFrames, freeFrames, herase, Finset.card_erase_add_one (mem_freeFrames.mpr hav)]

end Free

def Missing (s : Vm) (r : ℕ) (q : List (Fin 512)) : Prop := tableAt entryNext s.mem r q = none

instance Missing.decidable (s : Vm) (r : ℕ) (q : List (Fin 512)) : Decidable (Missing s r q) :=
  inferInstanceAs (Decidable (_ = _))

def tablePaths (v : Word) : List (List (Fin 512)) :=
  [[pml4Index v], [pml4Index v, pdptIndex v], [pml4Index v, pdptIndex v, pdIndex v]]

def missingTables (s : Vm) (pml4Phys : Word) (vs : List Word) : Finset (List (Fin 512)) :=
  (vs.flatMap tablePaths).toFinset.filter (Missing s (pageOf pml4Phys))

def frameCost (s : Vm) (pml4Phys : Word) (vs : List Word) : ℕ :=
  vs.length + (missingTables s pml4Phys vs).card

structure Linked (s s' : Vm) (r : ℕ) (qs : List (List (Fin 512))) (n : ℕ) : Prop where
  frames : freeFrames s.pmm = freeFrames s'.pmm + n
  pmm : s'.pmm = (fun p ↦ (pmmAlloc p).2)^[n] s.pmm
  tables : ∀ q, UserPath q → q.length ≤ 3 → (Missing s' r q ↔ Missing s r q ∧ q ∉ qs)

theorem tablePaths_user {v : Word} {q : List (Fin 512)} (hv : (pml4Index v).val < 256)
    (hq : q ∈ tablePaths v) : UserPath q ∧ q.length ≤ 3 := by
  simp only [tablePaths, List.mem_cons, List.not_mem_nil, or_false] at hq
  rcases hq with rfl | rfl | rfl
  all_goals exact ⟨userPath_cons.mpr hv, by simp⟩

section Levels

variable {s s₁ s' : Vm} {roots : Set ℕ} {role role' : Roles} {r : ℕ} {q : List (Fin 512)}

theorem missing_iff (h : Inv s roots role) (hr : r ∈ roots) (hu : UserPath q)
    (hl : q.length ≤ 3) : Missing s r q ↔ ∀ k, role k ≠ .table r q := by
  rw [Missing, Option.eq_none_iff_forall_ne_some]
  exact forall_congr' fun k ↦ not_congr (h.tableAt_iff hr hu hl)

theorem Linked.of_tables (h : Inv s roots role) (h' : Inv s' roots role') (hr : r ∈ roots)
    {n : ℕ} (hframes : freeFrames s.pmm = freeFrames s'.pmm + n)
    (hpmm : s'.pmm = (fun p ↦ (pmmAlloc p).2)^[n] s.pmm)
    (htab : ∀ k q, role' k = .table r q ↔ role k = .table r q) : Linked s s' r [] n := by
  refine ⟨hframes, hpmm, fun q hu hl ↦ ?_⟩
  rw [missing_iff h' hr hu hl, missing_iff h hr hu hl, and_iff_left (by simp)]
  exact forall_congr' fun k ↦ not_congr (htab k q)

theorem Linked.trans {qs qs' : List (List (Fin 512))} {n n' : ℕ} (h : Linked s s₁ r qs n)
    (h' : Linked s₁ s' r qs' n') : Linked s s' r (qs ++ qs') (n + n') := by
  refine ⟨by rw [h.frames, h'.frames]; omega, ?_, fun q hu hl ↦ ?_⟩
  · rw [h'.pmm, h.pmm, Nat.add_comm, iterate_add_apply]
  rw [h'.tables q hu hl, h.tables q hu hl, List.mem_append, not_or, and_assoc]

theorem descend_pmm {t t' : ℕ} {i : Fin 512} {flags phys : Word}
    (hd : descend s t i flags = some (t', phys, s')) :
    s'.pmm = if hasFlag (s.mem t i) ptePresent then s.pmm else (pmmAlloc s.pmm).2 := by
  unfold descend at hd
  dsimp only at hd
  split_ifs at hd with hpres huser hzero
  · obtain ⟨-, -, rfl⟩ : _ ∧ _ ∧ _ := by simpa using hd
    rw [if_pos hpres]
    rfl
  · obtain ⟨-, -, rfl⟩ : _ ∧ _ ∧ _ := by simpa using hd
    rw [if_pos hpres]
  · obtain ⟨-, -, rfl⟩ : _ ∧ _ ∧ _ := by simpa using hd
    rw [if_neg hpres]
    show (allocPageTable s).2.pmm = _
    unfold allocPageTable
    dsimp only
    split_ifs <;> rfl

theorem descend_linked (h : Inv s roots role) {t t' : ℕ} {p : List (Fin 512)} {i : Fin 512}
    (ht : role t = .table r p) (hl : p.length < 3) (hu : UserPath (p ++ [i])) {flags phys : Word}
    (hd : descend s t i flags = some (t', phys, s')) :
    Linked s s' r [p ++ [i]] (if Missing s r (p ++ [i]) then 1 else 0) := by
  have hr := (h.forest.live ht).1
  have hlen : (p ++ [i]).length ≤ 3 := by
    rw [List.length_append, List.length_singleton]
    omega
  cases descend_cases hd with
  | follow hpres hs =>
    obtain ⟨hinv, ht', -, -⟩ := follow_spec h ht hl hu hpres hs
    have hhas : ¬ Missing s r (p ++ [i]) := fun hc ↦ (missing_iff h hr hu hlen).mp hc _ ht'
    have hpmm : s'.pmm = s.pmm := by rcases hs with rfl | rfl <;> rfl
    rw [if_neg hhas]
    refine ⟨by rw [hpmm]; rfl, hpmm, fun q huq hlq ↦ ?_⟩
    rw [missing_iff hinv hr huq hlq, ← missing_iff h hr huq hlq]
    refine ⟨fun hq ↦ ⟨hq, ?_⟩, And.left⟩
    rw [List.mem_singleton]
    rintro rfl
    exact hhas hq
  | fresh hnone pmm hav htk hne hs =>
    obtain ⟨hfl, hhuge⟩ := intermediateFlags_spec flags
    obtain ⟨hinv, -, -, -⟩ := fresh_spec h ht hl hu hfl hhuge hnone hav htk hs
    have hfree := h.free_of_available hav
    have hmissing : Missing s r (p ++ [i]) := by
      rw [Missing, tableAt_concat, h.forest.tableAt_of_role ht]
      exact entryNext_none.mpr hnone
    rw [if_pos hmissing]
    refine ⟨?_, ?_, fun q huq hlq ↦ ?_⟩
    · rw [hs]
      exact freeFrames_take hav htk
    · rw [descend_pmm hd, hnone]
      rfl
    · rw [missing_iff hinv hr huq hlq, missing_iff h hr huq hlq, List.mem_singleton]
      constructor
      · intro hq
        refine ⟨fun k hk ↦ hq k ?_, ?_⟩
        · rwa [update_of_ne]
          rintro rfl
          rw [hfree] at hk
          cases hk
        · rintro rfl
          exact hq _ (update_self _ _ _)
      · rintro ⟨hq, hne'⟩ k hk
        by_cases hkt : k = t'
        · subst hkt
          rw [update_self] at hk
          injection hk with _ hpath
          exact hne' hpath.symm
        · rw [update_of_ne hkt] at hk
          exact hq k hk

theorem descend_none (h : Inv s roots role) {t : ℕ} {p : List (Fin 512)} {i : Fin 512}
    (ht : role t = .table r p) {flags : Word} (hd : descend s t i flags = none) :
    Missing s r (p ++ [i]) ∧ freeFrames s.pmm = 0 := by
  unfold descend at hd
  dsimp only at hd
  split_ifs at hd with hpres huser hzero
  rw [Missing, tableAt_concat, h.forest.tableAt_of_role ht]
  exact ⟨entryNext_none.mpr (by simpa using hpres), freeFrames_eq_zero (allocPageTable_none hzero)⟩

end Levels

section Pages

variable {s s' : Vm} {roots : Set ℕ} {role : Roles} {pml4Phys v flags : Word}

theorem missingTables_page (s : Vm) (pml4Phys v : Word) :
    (missingTables s pml4Phys [v]).card =
      (if Missing s (pageOf pml4Phys) [pml4Index v] then 1 else 0) +
      ((if Missing s (pageOf pml4Phys) [pml4Index v, pdptIndex v] then 1 else 0) +
      (if Missing s (pageOf pml4Phys) [pml4Index v, pdptIndex v, pdIndex v] then 1 else 0)) := by
  have hset : ([v].flatMap tablePaths).toFinset = {[pml4Index v], [pml4Index v, pdptIndex v],
      [pml4Index v, pdptIndex v, pdIndex v]} := by simp [tablePaths]
  rw [missingTables, hset, Finset.card_filter, Finset.sum_insert (by simp),
    Finset.sum_insert (by simp), Finset.sum_singleton]

theorem vmmMapPage_linked (h : Inv s roots role) (hr : pageOf pml4Phys ∈ roots)
    (hv : (pml4Index v).val < 256) {f : ℕ} (hf : role f = .data) (hfl : MapFlags flags) {res : ℤ}
    (hmap : vmmMapPage s pml4Phys v (pageAddr f) flags = (res, s')) :
    (res = 0 ∧ Linked s s' (pageOf pml4Phys) (tablePaths v)
      (missingTables s pml4Phys [v]).card) ∨
    (res = -1 ∧ freeFrames s.pmm < (missingTables s pml4Phys [v]).card) := by
  obtain ⟨hu₄, hu₃, hu₂⟩ := userPath_steps hv
  rw [missingTables_page]
  simp only [vmmMapPage] at hmap
  have hroot := h.forest.root _ hr
  cases hd₄ : descend s (pageOf pml4Phys) (pml4Index v) flags with
  | none =>
    simp only [hd₄, Prod.mk.injEq] at hmap
    obtain ⟨hmiss, hzero⟩ := descend_none h hroot hd₄
    rw [List.nil_append] at hmiss
    refine .inr ⟨hmap.1.symm, ?_⟩
    rw [if_pos hmiss]
    omega
  | some r₄ =>
    obtain ⟨pdpt, newPdpt, s₁⟩ := r₄
    simp only [hd₄] at hmap
    obtain ⟨role₁, h₁, hk₁, -, hl₁⟩ := descend_spec h hroot (by simp) hu₄ hd₄
    have hlink₁ := descend_linked h hroot (by simp) hu₄ hd₄
    rw [List.nil_append] at hlink₁
    -- the levels below do not see the table just linked
    have hmiss₃ := hlink₁.tables _ hu₃ (by simp)
    have hmiss₂ := hlink₁.tables _ hu₂ (by simp)
    simp only [List.cons_append, List.nil_append, List.mem_singleton, List.cons.injEq,
      reduceCtorEq, and_false, not_false_eq_true, and_true] at hmiss₃ hmiss₂
    cases hd₃ : descend s₁ pdpt (pdptIndex v) flags with
    | none =>
      simp only [hd₃, Prod.mk.injEq] at hmap
      obtain ⟨hmiss, hzero⟩ := descend_none h₁ hl₁.table hd₃
      have hfew := hlink₁.frames
      rw [hzero] at hfew
      refine .inr ⟨hmap.1.symm, ?_⟩
      rw [if_pos (hmiss₃.mp hmiss)]
      omega
    | some r₃ =>
      obtain ⟨pd, newPd, s₂⟩ := r₃
      simp only [hd₃] at hmap
      obtain ⟨role₂, h₂, hk₂, -, hl₂⟩ := descend_spec h₁ hl₁.table (by simp) hu₃ hd₃
      have hlink₂ := descend_linked h₁ hl₁.table (by simp) hu₃ hd₃
      have hmiss₂' := hlink₂.tables _ hu₂ (by simp)
      simp only [List.cons_append, List.nil_append, List.mem_singleton, List.cons.injEq,
        reduceCtorEq, and_false, not_false_eq_true, and_true] at hlink₂ hmiss₂'
      rw [hmiss₂] at hmiss₂'
      simp only [hmiss₃] at hlink₂
      cases hd₂ : descend s₂ pd (pdIndex v) flags with
      | none =>
        simp only [hd₂, Prod.mk.injEq] at hmap
        obtain ⟨hmiss, hzero⟩ := descend_none h₂ hl₂.table hd₂
        have hfew := hlink₁.frames
        have hfew₂ := hlink₂.frames
        rw [hzero] at hfew₂
        refine .inr ⟨hmap.1.symm, ?_⟩
        rw [if_pos (hmiss₂'.mp hmiss)]
        omega
      | some r₂ =>
        obtain ⟨pt, newPt, s₃⟩ := r₂
        simp only [hd₂, Prod.mk.injEq] at hmap
        obtain ⟨role₃, h₃, hk₃, -, hl₃⟩ := descend_spec h₂ hl₂.table (by simp) hu₂ hd₂
        have hlink₃ := descend_linked h₂ hl₂.table (by simp) hu₂ hd₂
        simp only [List.cons_append, List.nil_append] at hlink₃
        simp only [hmiss₂'] at hlink₃
        obtain ⟨rfl, rfl⟩ := hmap
        refine .inl ⟨rfl, ?_⟩
        have hf₃ := hk₃.data.mpr (hk₂.data.mpr (hk₁.data.mpr hf))
        obtain ⟨h', -, -⟩ := writePage_spec h₃ (i := ptIndex v) hl₃.table rfl hf₃ hfl rfl
        have hleaf := Linked.of_tables h₃ h' hr (Nat.add_zero _).symm rfl fun _ _ ↦ Iff.rfl
        exact (hlink₁.trans (hlink₂.trans (hlink₃.trans hleaf)))

theorem mapFreshPage_linked (h : Inv s roots role) (hr : pageOf pml4Phys ∈ roots)
    (hv : (pml4Index v).val < 256) (hfl : MapFlags flags)
    {res : FreshPage} (hmap : mapFreshPage s pml4Phys v flags = (res, s')) :
    (res = .mapped ∧ Linked s s' (pageOf pml4Phys) (tablePaths v) (frameCost s pml4Phys [v])) ∨
    (res ≠ .mapped ∧ freeFrames s.pmm < frameCost s pml4Phys [v]) := by
  unfold frameCost
  rw [List.length_singleton]
  rcases mapFreshPage_cases hmap with ⟨rfl, -, hnone⟩ | ⟨f, s₁, code, s₂, htook, hcode, hres⟩
  · refine .inr ⟨by simp, ?_⟩
    rw [freeFrames_eq_zero hnone]
    omega
  obtain ⟨h₁, -, -⟩ := takePage_spec h htook
  have hfree := h.free_of_available htook.available
  have htake : Linked s s₁ (pageOf pml4Phys) [] 1 := by
    refine .of_tables h h₁ hr (freeFrames_take htook.available htook.takes) ?_ fun k q ↦
      update_eq_iff (by simp [hfree]) (by simp)
    rw [iterate_one, htook.alloc]
  -- the frame taken for the page is not a table
  have hsame : missingTables s₁ pml4Phys [v] = missingTables s pml4Phys [v] := by
    refine Finset.filter_congr fun q hq ↦ ?_
    obtain ⟨hu, hl⟩ := tablePaths_user hv (by simpa using hq)
    rw [htake.tables q hu hl, and_iff_left (by simp)]
  have hcost := vmmMapPage_linked h₁ hr hv (update_self _ _ _) hfl hcode
  rw [hsame] at hcost
  rcases hres with ⟨hc, rfl, -⟩ | ⟨hc, rfl, rfl⟩
  · obtain ⟨-, hfew⟩ := hcost.resolve_left fun h ↦ by omega
    refine .inr ⟨by simp, ?_⟩
    rw [htake.frames]
    omega
  · obtain ⟨-, hlink⟩ := hcost.resolve_right fun h ↦ by omega
    exact .inl ⟨rfl, htake.trans hlink⟩

theorem frameCost_cons {s₁ : Vm} {vs : List Word} {n : ℕ}
    (hlink : Linked s s₁ (pageOf pml4Phys) (tablePaths v) n)
    (hv : ∀ w ∈ v :: vs, (pml4Index w).val < 256) :
    frameCost s pml4Phys (v :: vs) = frameCost s pml4Phys [v] + frameCost s₁ pml4Phys vs := by
  have hmem : ∀ {s : Vm} {vs : List Word} {q}, q ∈ missingTables s pml4Phys vs ↔
      (∃ w ∈ vs, q ∈ tablePaths w) ∧ Missing s (pageOf pml4Phys) q := by
    intro s vs q
    rw [missingTables, Finset.mem_filter, List.mem_toFinset, List.mem_flatMap]
  have hunion : missingTables s pml4Phys (v :: vs) =
      (missingTables s pml4Phys [v]).disjUnion (missingTables s₁ pml4Phys vs) (by
        rw [Finset.disjoint_left]
        intro q hq hq₁
        obtain ⟨⟨w, hw, hpath⟩, -⟩ := hmem.mp hq
        rw [List.mem_singleton] at hw
        subst hw
        obtain ⟨hu, hl⟩ := tablePaths_user (hv w (by simp)) hpath
        exact ((hlink.tables q hu hl).mp (hmem.mp hq₁).2).2 hpath) := by
    ext q
    rw [Finset.mem_disjUnion, hmem, hmem, hmem]
    constructor
    · rintro ⟨⟨w, hw, hpath⟩, hmiss⟩
      by_cases hq : q ∈ tablePaths v
      · exact .inl ⟨⟨v, by simp, hq⟩, hmiss⟩
      · obtain ⟨hu, hl⟩ := tablePaths_user (hv w hw) hpath
        have hw' : w ∈ vs := (List.mem_cons.mp hw).resolve_left fun hc ↦ hq (hc ▸ hpath)
        exact .inr ⟨⟨w, hw', hpath⟩, (hlink.tables q hu hl).mpr ⟨hmiss, hq⟩⟩
    · rintro (⟨⟨w, hw, hpath⟩, hmiss⟩ | ⟨⟨w, hw, hpath⟩, hmiss⟩)
      · rw [List.mem_singleton] at hw
        exact ⟨⟨w, by simp [hw], hpath⟩, hmiss⟩
      · obtain ⟨hu, hl⟩ := tablePaths_user (hv w (by simp [hw])) hpath
        exact ⟨⟨w, by simp [hw], hpath⟩, ((hlink.tables q hu hl).mp hmiss).1⟩
  rw [frameCost, hunion, Finset.card_disjUnion, frameCost, frameCost, List.length_cons,
    List.length_singleton]
  omega

theorem mapsFresh_iff (h : Inv s roots role) (hr : pageOf pml4Phys ∈ roots) (hfl : MapFlags flags)
    (vs : List Word) (hv : ∀ v ∈ vs, (pml4Index v).val < 256) :
    (∃ s', MapsFresh pml4Phys flags vs s s') ↔ frameCost s pml4Phys vs ≤ freeFrames s.pmm := by
  induction vs generalizing s role with
  | nil =>
    refine iff_of_true ⟨s, .nil s⟩ ?_
    simp [frameCost, missingTables]
  | cons v vs ih =>
    have hvv := hv v (by simp)
    cases hmap : mapFreshPage s pml4Phys v flags with
    | mk res s₁ =>
      rcases mapFreshPage_linked h hr hvv hfl hmap with ⟨rfl, hlink⟩ | ⟨hres, hfew⟩
      · obtain ⟨role₁, h₁⟩ := FreshPages.of_page h hr hvv hfl hmap
        have hrest := ih h₁.inv fun w hw ↦ hv w (by simp [hw])
        rw [frameCost_cons hlink hv, hlink.frames, Nat.add_comm, Nat.add_le_add_iff_right, ← hrest]
        constructor
        · rintro ⟨s', hrun⟩
          cases hrun with
          | cons hfirst hrun =>
            rw [hmap] at hfirst
            obtain ⟨-, rfl⟩ := Prod.mk.inj hfirst
            exact ⟨s', hrun⟩
        · rintro ⟨s', hrun⟩
          exact ⟨s', .cons hmap hrun⟩
      · refine iff_of_false ?_ ?_
        · rintro ⟨s', hrun⟩
          cases hrun with
          | cons hfirst hrun =>
            rw [hmap] at hfirst
            exact hres (Prod.mk.inj hfirst).1
        · have hle : (missingTables s pml4Phys [v]).card ≤
              (missingTables s pml4Phys (v :: vs)).card := by
            refine Finset.card_le_card (Finset.filter_subset_filter _ fun q hq ↦ ?_)
            simp only [List.flatMap_cons, List.flatMap_nil, List.append_nil, List.mem_toFinset,
              List.mem_append] at hq ⊢
            exact .inl hq
          simp only [frameCost, List.length_cons, List.length_nil] at hfew ⊢
          omega

end Pages

end SeedOS.Process
