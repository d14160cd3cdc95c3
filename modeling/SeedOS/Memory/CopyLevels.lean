import SeedOS.Memory.CopyTree

namespace SeedOS.Memory

open Foundation Function

section Slot

variable {s s' : Vm} {n : ℕ} {i : Fin 512} {S D : ℕ}

theorem CopyDone.skip (hn : entryNext (s.mem S i) = none) (hready : CopyReady s n [i] S D) :
    CopyDone n [i] s s S D ∅ := by
  have hD : entryNext (s.mem D i) = none := hready.empty i (List.mem_singleton_self i)
  have hne : ∀ {p : Slots}, p.length = n + 1 → p ≠ [] := by
    rintro p hl rfl
    simp at hl
  refine ⟨by simp, by simp, fun _ hg ↦ hg, fun _ _ _ _ _ ↦ rfl, ?_, ?_, ?_, ?_, fun _ ↦ Iff.rfl, ?_⟩
  · intro p hp hl
    obtain ⟨p, rfl⟩ := hp.eq_cons (hne hl)
    rw [presentAt_absent hn]
    rfl
  · intro p hp hl
    obtain ⟨p, rfl⟩ := hp.eq_cons (hne hl)
    rw [presentAt_absent hn, presentAt_absent hD]
    rfl
  · intro p f hp hne _ hf
    obtain ⟨p, rfl⟩ := hp.eq_cons hne
    simp [tableAt, hD] at hf
  · intro p e hp _ he
    have hne : p ≠ [] := by
      rintro rfl
      simp [presentAt_nil] at he
    obtain ⟨p, rfl⟩ := hp.eq_cons hne
    rw [presentAt_absent hD] at he
    exact absurd he (by simp)
  · intro f
    rw [ncard_endingAt_none hn, Nat.add_zero, Nat.min_eq_right (s.count_le f), ite_self]

theorem CopyDone.leaf (hpres : hasFlag (s.mem S i) ptePresent = true)
    (hready : CopyReady s 0 [i] S D) : CopyDone 0 [i] s (copyLeaf S D s i) S D ∅ := by
  have hnext : entryNext (s.mem S i) = some (frameOf (s.mem S i)) :=
    entryNext_some.mpr ⟨hpres, rfl⟩
  have hmem : ∀ g j, (copyLeaf S D s i).mem g j =
      if (g = S ∨ g = D) ∧ j = i then cowEntry (s.mem S i) else s.mem g j := by
    intro g j
    rw [copyLeaf_eq, pageRef_mem, Vm.write_mem, Vm.write_mem]
    by_cases hj : j = i
    · by_cases hgS : g = S <;> by_cases hgD : g = D <;> simp [hj, hgS, hgD]
    · simp [hj]
  have hS : (copyLeaf S D s i).mem S i = cowEntry (s.mem S i) := by
    rw [hmem, if_pos ⟨.inl rfl, rfl⟩]
  have hD : (copyLeaf S D s i).mem D i = cowEntry (s.mem S i) := by
    rw [hmem, if_pos ⟨.inr rfl, rfl⟩]
  have hpmm : (copyLeaf S D s i).pmm = s.pmm := by rw [copyLeaf_eq, pageRef_pmm]; rfl
  have hcow : hasFlag (cowEntry (s.mem S i)) ptePresent = true :=
    (entryNext_some.mp ((cowEntry_next _).trans hnext)).1
  have hpath : ∀ {p : Slots}, Starts [i] p → p.length = 0 + 1 → p = [i] := by
    intro p hp hl
    obtain ⟨j, rfl⟩ := List.length_eq_one_iff.mp hl
    rw [List.mem_singleton.mp (starts_cons.mp hp)]
  refine ⟨by simp, by simp, fun g hg ↦ by rwa [hpmm] at hg, ?_, ?_, ?_, ?_, ?_, ?_, ?_⟩
  · intro g j _ htarget hlast
    rw [hmem, if_neg]
    rintro ⟨rfl | rfl, rfl⟩
    · exact hlast ⟨[], rfl, starts_cons.mpr (List.mem_singleton_self j), rfl⟩
    · exact htarget ⟨rfl, List.mem_singleton_self j⟩
  · intro p hp hl
    obtain rfl := hpath hp hl
    rw [presentAt_single, presentAt_single, hS, hcow, hpres]
    rfl
  · intro p hp hl
    obtain rfl := hpath hp hl
    rw [presentAt_single, presentAt_single, hD, hcow, hpres]
    rfl
  · intro p f _ hne hl
    exact absurd (List.length_eq_zero_iff.mp (Nat.le_zero.mp hl)) hne
  · intro p e _ hl he
    rw [List.length_eq_zero_iff.mp (Nat.le_zero.mp hl), presentAt_nil] at he
    exact absurd he (by simp)
  · intro f
    rw [copyLeaf_eq, pageRef_tracked]
    rfl
  · intro f
    have hlt := frameOf_lt (s.mem S i)
    rw [copyLeaf_eq, pageRef_count, pageOf_pageAddr (by omega), ncard_endingAt_leaf hnext]
    have hcount : ((s.write S i (cowEntry (s.mem S i))).write D i (cowEntry (s.mem S i))).count f =
        s.count f := rfl
    rw [hcount]
    have hle := s.count_le f
    by_cases ht : s.Tracked f
    · by_cases hf : frameOf (s.mem S i) = f
      · rw [if_pos ⟨hf.symm, ht⟩, if_pos ht, if_pos hf]
      · rw [if_neg fun hc ↦ hf hc.1.symm, if_pos ht, if_neg hf]
        omega
    · rw [if_neg fun hc ↦ ht hc.2, if_neg ht]

variable {s₁ : Vm} {g : ℕ}

theorem CopyReady.down (hready : CopyReady s (n + 1) [i] S D) (hnew : NewTable s s₁ S D g i)
    {c : ℕ} (hc : entryNext (s.mem S i) = some c) :
    CopyReady s₁ n (List.finRange 512) c g ∧
      Agree entryNext s.mem s₁.mem (List.finRange 512) n c := by
  have hgD : g ≠ D := fun hc ↦ hready.target (hc ▸ hnew.available)
  have hbelow : ∀ p, tableAt entryNext s.mem c p = tableAt entryNext s.mem S (i :: p) := by
    intro p
    rw [tableAt, hc]
    rfl
  have hstart : ∀ p, Starts [i] (i :: p) := fun p ↦ starts_cons.mpr (List.mem_singleton_self i)
  have hagree : Agree entryNext s.mem s₁.mem (List.finRange 512) n c := by
    intro q f j _ hl hf
    rw [hbelow] at hf
    have hfD : f ≠ D := fun hfD ↦ hready.apart (hstart q) (Nat.succ_le_succ hl) (hfD ▸ hf)
    have hfg : f ≠ g := fun hfg ↦
      hready.held (hstart q) (Nat.succ_le_succ hl) hf (hfg ▸ hnew.available)
    exact hnew.mem_other hfg fun hc ↦ hfD hc.1
  have htab : ∀ {p : Slots}, p.length ≤ n → tableAt entryNext s₁.mem c p =
      tableAt entryNext s.mem S (i :: p) := by
    intro p hl
    rw [hagree.tableAt_eq (fun j _ ↦ List.mem_finRange j) (by omega), hbelow]
  refine ⟨⟨fun {p q f} _ _ hlp hlq hf hf' ↦ ?_, fun {p f} _ hl hf ha ↦ ?_, fun ha ↦ ?_,
    fun {p} _ hl hf ↦ ?_, fun j _ ↦ ?_⟩, hagree⟩
  · rw [htab hlp] at hf
    rw [htab hlq] at hf'
    exact (List.cons.inj (hready.distinct (hstart p) (hstart q) (Nat.succ_le_succ hlp)
      (Nat.succ_le_succ hlq) hf hf')).2
  · rw [htab hl] at hf
    exact hready.held (hstart p) (Nat.succ_le_succ hl) hf (hnew.takes.available ha).1
  · exact (hnew.takes.available ha).2 rfl
  · rw [htab hl] at hf
    exact hready.held (hstart p) (Nat.succ_le_succ hl) hf hnew.available
  · rw [hnew.mem, if_neg fun hc ↦ hgD hc.1, if_pos rfl]
    exact entryNext_zero

section Down

variable {c : ℕ} {N : Set ℕ} (h : CopyDone n (List.finRange 512) s₁ s' c g N)
  (hready : CopyReady s (n + 1) [i] S D) (hnew : NewTable s s₁ S D g i)
include h hnew

theorem CopyDone.fresh_below : ∀ k ∈ insert g N, s.pmm.Available k := by
  rintro k (rfl | hk)
  · exact hnew.available
  · exact (hnew.takes.available (h.fresh k hk)).1

variable (hc : entryNext (s.mem S i) = some c)
include hready hc

theorem CopyDone.kept_below {k : ℕ} {j : Fin 512} (hN : k ∉ insert g N)
    (hlast : ¬ LastEntry s (n + 1) [i] S k j) : s'.mem k j = s₁.mem k j := by
  refine h.kept k j (fun hk ↦ hN (.inr hk)) (fun hk ↦ hN (.inl hk.1)) ?_
  rintro ⟨q, hl, hq, hf⟩
  rw [(hready.down hnew hc).2.tableAt_eq hq.of_concat (by omega)] at hf
  exact hlast ⟨i :: q, by simp [hl], starts_cons.mpr (List.mem_singleton_self i),
    by rw [tableAt, hc]; exact hf⟩

theorem CopyDone.source_link : s'.mem S i = s.mem S i := by
  have hS : ¬ s.pmm.Available S := hready.held starts_nil (Nat.zero_le _) rfl
  have hSg : S ≠ g := fun he ↦ hS (he ▸ hnew.available)
  have hSD : S ≠ D := fun he ↦ hready.apart starts_nil (Nat.zero_le _) (congrArg some he)
  rw [h.kept_below hready hnew hc (fun hk ↦ hS (h.fresh_below hnew S hk)) ?_,
    hnew.mem_other hSg fun hk ↦ hSD hk.1]
  rintro ⟨q, hl, hq, hf⟩
  have hnil := hready.distinct hq.of_concat starts_nil (by omega) (Nat.zero_le _) hf rfl
  simp [hnil] at hl

theorem CopyDone.copy_link : s'.mem D i = pageAddr g ||| (s.mem S i &&& ~~~pteAddrMask) := by
  rw [h.kept_below hready hnew hc (fun hk ↦ hready.target (h.fresh_below hnew D hk)) ?_, hnew.mem,
    if_pos ⟨rfl, rfl⟩]
  rintro ⟨q, hl, hq, hf⟩
  exact hready.apart hq.of_concat (by omega) hf

theorem CopyDone.copy_next : entryNext (s'.mem D i) = some g := by
  rw [h.copy_link hready hnew hc]
  exact entryNext_entry hnew.available.lt ⟨isFlags_rest _,
    by rw [hasFlag_rest _ _ (by decide), (entryNext_some.mp hc).1]⟩

theorem CopyDone.down : CopyDone (n + 1) [i] s s' S D (insert g N) := by
  obtain ⟨hready₁, hagree⟩ := hready.down hnew hc
  have hsource : entryNext (s'.mem S i) = some c := by rw [h.source_link hready hnew hc, hc]
  have hcopy := h.copy_next hready hnew hc
  have hall : ∀ p : Slots, Starts (List.finRange 512) p := fun p j _ ↦ List.mem_finRange j
  have hlong : ∀ {p : Slots}, Starts [i] p → p.length = n + 1 + 1 →
      ∃ p', p = i :: p' ∧ p' ≠ [] ∧ p'.length = n + 1 := by
    intro p hp hl
    obtain ⟨p, rfl⟩ := hp.eq_cons (by rintro rfl; simp at hl)
    rw [List.length_cons] at hl
    exact ⟨p, rfl, by rintro rfl; simp at hl, by omega⟩
  refine ⟨h.fresh_below hnew, ?_, fun k hk ↦ (hnew.takes.available (h.available k hk)).1, ?_, ?_, ?_,
    ?_, ?_, fun f ↦ ?_, ?_⟩
  · rintro k (rfl | hk)
    · exact fun ha ↦ hready₁.target (h.available k ha)
    · exact h.taken k hk
  · intro k j hN hD hl
    rw [h.kept_below hready hnew hc hN hl, hnew.mem_other (fun hk ↦ hN (.inl hk)) fun hk ↦
      hD ⟨hk.1, List.mem_singleton.mpr hk.2⟩]
  · intro p hp hl
    obtain ⟨p, rfl, hne, hl⟩ := hlong hp hl
    rw [presentAt_child hsource hne, presentAt_child hc hne, h.source p (hall p) hl,
      presentAt_congr hagree (hall p) (by omega)]
  · intro p hp hl
    obtain ⟨p, rfl, hne, hl⟩ := hlong hp hl
    rw [presentAt_child hcopy hne, presentAt_child hc hne, h.copy p (hall p) hl,
      presentAt_congr hagree (hall p) (by omega)]
  · intro p f hp hne hl hf
    obtain ⟨p, rfl⟩ := hp.eq_cons hne
    rw [tableAt, hcopy, Option.bind_some] at hf
    cases p with
    | nil => exact .inl (Option.some.inj hf).symm
    | cons j p => exact .inr (h.tables _ f (hall _) (by simp) (by simpa using hl) hf)
  · intro p e hp hl he
    have hne : p ≠ [] := by
      rintro rfl
      simp [presentAt_nil] at he
    obtain ⟨p, rfl⟩ := hp.eq_cons hne
    cases p with
    | nil =>
      rw [presentAt_single, if_pos (entryNext_some.mp hcopy).1] at he
      refine ⟨s.mem S i, by rw [presentAt_single, if_pos (entryNext_some.mp hc).1], ?_⟩
      rw [← Option.some.inj he, h.copy_link hready hnew hc]
      exact rest_entry hnew.available.lt (isFlags_rest _)
    | cons j p =>
      rw [presentAt_child hcopy (by simp)] at he
      rw [presentAt_child hc (by simp), ← presentAt_congr hagree (hall _) (by simp at hl ⊢; omega)]
      exact h.flags _ e (hall _) (by simpa using hl) he
  · rw [h.tracked, hnew.eq]
    rfl
  · intro f
    rw [h.count, endingAt_congr hagree, ncard_endingAt_child List.mem_finRange hc, hnew.eq]
    rfl

end Down

end Slot

section Loops

variable {s s' : Vm} {n : ℕ} {slots : Slots} {S D : ℕ}

theorem CopyReady.head {i : Fin 512} (hready : CopyReady s n (i :: slots) S D) :
    CopyReady s n [i] S D :=
  hready.mono fun _ hj ↦ List.mem_cons.mpr (.inl (List.mem_singleton.mp hj))

theorem copyLeaves_done (hnodup : slots.Nodup) (hready : CopyReady s 0 slots S D) :
    ∃ N, CopyDone 0 slots s (copyLeaves S D slots s) S D N := by
  induction slots generalizing s with
  | nil => exact ⟨∅, .nil 0 s S D⟩
  | cons i slots ih =>
    rw [copyLeaves]
    cases hpres : hasFlag (s.mem S i) ptePresent with
    | true =>
      rw [if_pos rfl]
      exact (CopyDone.leaf hpres hready.head).cons hnodup hready (ih (List.nodup_cons.mp hnodup).2)
    | false =>
      rw [if_neg (by simp)]
      exact (CopyDone.skip (entryNext_none.mpr hpres) hready.head).cons hnodup hready
        (ih (List.nodup_cons.mp hnodup).2)

theorem copyLoop_done {body : Vm → ℕ → ℕ → Bool × Vm}
    (hbody : ∀ {s s' : Vm} {S D : ℕ}, CopyReady s n (List.finRange 512) S D →
      body s S D = (true, s') → ∃ N, CopyDone n (List.finRange 512) s s' S D N)
    (hnodup : slots.Nodup) (hready : CopyReady s (n + 1) slots S D)
    (heq : copyLoop body S D slots s = (true, s')) :
    ∃ N, CopyDone (n + 1) slots s s' S D N := by
  induction slots generalizing s with
  | nil =>
    obtain rfl := (Prod.mk.inj heq).2
    exact ⟨∅, .nil _ s S D⟩
  | cons i slots ih =>
    have hSD : S ≠ D := fun he ↦ hready.apart starts_nil (Nat.zero_le _) (congrArg some he)
    cases copyLoop_cases hSD (hready.held starts_nil (Nat.zero_le _) rfl) heq with
    | absent hnone hrest =>
      exact (CopyDone.skip (entryNext_none.mpr hnone) hready.head).cons hnodup hready fun h ↦
        ih (List.nodup_cons.mp hnodup).2 h hrest
    | full hpres hfull hok hs => cases hok
    | stopped hpres g s₁ hnew hb hok => cases hok
    | next hpres g s₁ s₂ hnew hb hrest =>
      have hc := entryNext_some.mpr ⟨hpres, rfl⟩
      obtain ⟨N, hdone⟩ := hbody (hready.head.down hnew hc).1 hb
      exact (hdone.down hready.head hnew hc).cons hnodup hready fun h ↦
        ih (List.nodup_cons.mp hnodup).2 h hrest

theorem copyTables_done (hnodup : slots.Nodup) (hready : CopyReady s n slots S D)
    (heq : copyTables n slots s S D = (true, s')) : ∃ N, CopyDone n slots s s' S D N := by
  induction n generalizing s s' slots S D with
  | zero =>
    obtain rfl := (Prod.mk.inj heq).2
    exact copyLeaves_done hnodup hready
  | succ n ih => exact copyLoop_done (ih (List.nodup_finRange 512)) hnodup hready heq

end Loops

end SeedOS.Memory
