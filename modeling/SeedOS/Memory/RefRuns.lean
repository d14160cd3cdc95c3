import SeedOS.Foundation.Traced
import SeedOS.Memory.Page

namespace SeedOS.Memory

open Foundation Function

def pageUnrefTraced (s : Vm) (phys : Word) : Traced Word Vm :=
  match s.pageInfo with
  | none => pure s
  | some info =>
    let n := pageOf phys
    if s.maxPages ≤ n then pure s
    else if info n = 0#8 then pure s
    else if info n = 255#8 then pure s
    else
      let s := { s with pageInfo := some (update info n (info n - 1#8)) }
      if info n - 1#8 = 0#8 then .touch phys { s with pmm := pmmFree s.pmm phys } else pure s

section Unref

variable {s : Vm} {phys : Word}

theorem pageUnrefTraced_val : (pageUnrefTraced s phys).val = pageUnref s phys := by
  unfold pageUnrefTraced pageUnref
  cases s.pageInfo with
  | none => rfl
  | some info => simp

theorem pageUnrefTraced_of_one (h : s.count (pageOf phys) = 1) :
    (∀ f, (pageUnrefTraced s phys).val.Tracked f ↔ s.Tracked f) ∧
    (∀ f, (pageUnrefTraced s phys).val.count f = if f = pageOf phys then 0 else s.count f) ∧
    (pageUnrefTraced s phys).log = [phys] := by
  obtain ⟨hi, hm⟩ := tracked_of_count (show s.count (pageOf phys) ≠ 0 by omega)
  obtain ⟨info, hi⟩ := Option.isSome_iff_exists.mp hi
  have hone : info (pageOf phys) = 1#8 := by
    simp only [Vm.count, hi, Nat.not_le.mpr hm, if_false] at h
    exact BitVec.eq_of_toNat_eq h
  have hrun : pageUnrefTraced s phys = .touch phys { s with
      pageInfo := some (update info (pageOf phys) 0#8)
      pmm := pmmFree s.pmm phys } := by
    simp [pageUnrefTraced, hi, Nat.not_le.mpr hm, hone]
  rw [hrun]
  refine ⟨fun f ↦ by simp [Vm.Tracked, hi], fun f ↦ ?_, rfl⟩
  by_cases hf : f = pageOf phys
  · simp [Vm.count, hf]
  · simp [Vm.count, hi, hf]

theorem pageUnrefTraced_log_of_ne_one (h : s.count (pageOf phys) ≠ 1) :
    (pageUnrefTraced s phys).log = [] := by
  unfold pageUnrefTraced
  cases hi : s.pageInfo with
  | none => rfl
  | some info =>
    dsimp only
    split_ifs with hm h0 h255 hlast
    · rfl
    · rfl
    · rfl
    · refine absurd ?_ h
      simp only [Vm.count, hi, if_neg hm]
      rw [BitVec.sub_eq_iff_eq_add.mp hlast]
      rfl
    · rfl

theorem pageUnrefTraced_spec (s : Vm) (phys : Word) :
    (∀ f, (pageUnrefTraced s phys).val.Tracked f ↔ s.Tracked f) ∧
    (∀ f, (pageUnrefTraced s phys).val.count f =
      if f = pageOf phys ∧ s.count f ≠ 255 then s.count f - 1 else s.count f) ∧
    (pageUnrefTraced s phys).log = if s.count (pageOf phys) = 1 then [phys] else [] := by
  by_cases h : s.count (pageOf phys) = 1
  · obtain ⟨htracked, hcount, hlog⟩ := pageUnrefTraced_of_one h
    refine ⟨htracked, fun f ↦ ?_, by rw [hlog, if_pos h]⟩
    rw [hcount]
    by_cases hf : f = pageOf phys
    · rw [if_pos hf, hf, h, if_pos ⟨rfl, by decide⟩]
    · rw [if_neg hf, if_neg fun hc ↦ hf hc.1]
  · obtain ⟨-, -, -, htracked, hcount⟩ := pageUnref_of_ne_one s phys h
    rw [pageUnrefTraced_log_of_ne_one h, if_neg h, pageUnrefTraced_val]
    exact ⟨htracked, hcount, rfl⟩

end Unref

inductive RefCall
  | ref (phys : Word)
  | unref (phys : Word)

namespace RefCall

def exec (s : Vm) : RefCall → Traced Word Vm
  | .ref phys => pure (pageRef s phys)
  | .unref phys => pageUnrefTraced s phys

def refOn (f : ℕ) : RefCall → Bool
  | .ref phys => pageOf phys = f
  | .unref _ => false

def unrefOn (f : ℕ) : RefCall → Bool
  | .ref _ => false
  | .unref phys => pageOf phys = f

end RefCall

def refRun (s : Vm) : List RefCall → Traced Word Vm
  | [] => pure s
  | c :: calls => do
    let s ← c.exec s
    refRun s calls

def refs (f : ℕ) (calls : List RefCall) : ℕ := calls.countP (·.refOn f)
def unrefs (f : ℕ) (calls : List RefCall) : ℕ := calls.countP (·.unrefOn f)

/-- Never more references to frame `f` are dropped than there are, and the frame is left alone
when the last one is gone. -/
structure Referenced (f : ℕ) (calls : List RefCall) : Prop where
  le : ∀ pre, pre <+: calls → unrefs f pre ≤ 1 + refs f pre
  last : ∀ pre c, pre ++ [c] <+: calls → c.refOn f ∨ c.unrefOn f → unrefs f pre ≠ 1 + refs f pre

def freesOf (f : ℕ) (log : List Word) : ℕ := log.countP (pageOf · = f)

section Runs

variable {s : Vm} {f : ℕ} {calls : List RefCall} {c : RefCall}

theorem refRun_append (calls calls' : List RefCall) :
    (refRun s (calls ++ calls')).val = (refRun (refRun s calls).val calls').val ∧
      (refRun s (calls ++ calls')).log =
        (refRun s calls).log ++ (refRun (refRun s calls).val calls').log := by
  induction calls generalizing s with
  | nil => exact ⟨rfl, rfl⟩
  | cons c calls ih =>
    obtain ⟨hval, hlog⟩ := ih (s := (c.exec s).val)
    simp [refRun, Traced.val_bind, Traced.log_bind, hval, hlog]

theorem RefCall.exec_spec (c : RefCall) (hf : s.Tracked f) :
    (c.exec s).val.Tracked f ∧
      (c.exec s).val.count f =
        (if c.refOn f then min 255 (s.count f + 1)
        else if c.unrefOn f ∧ s.count f ≠ 255 then s.count f - 1 else s.count f) ∧
      freesOf f (c.exec s).log = if c.unrefOn f ∧ s.count f = 1 then 1 else 0 := by
  cases c with
  | ref phys =>
    refine ⟨(pageRef_tracked s phys f).mpr hf, ?_, by simp [exec, unrefOn, freesOf]⟩
    rw [exec, Traced.val_pure, pageRef_count]
    simp [refOn, unrefOn, hf, eq_comm]
  | unref phys =>
    obtain ⟨htracked, hcount, hlog⟩ := pageUnrefTraced_spec s phys
    refine ⟨(htracked f).mpr hf, ?_, ?_⟩
    · rw [exec, hcount]
      simp [refOn, unrefOn, eq_comm]
    · rw [exec, hlog]
      by_cases hp : pageOf phys = f
      · subst hp
        by_cases h1 : s.count (pageOf phys) = 1 <;> simp [unrefOn, freesOf, h1]
      · split_ifs <;> simp_all [unrefOn, freesOf]

/-- What the count of frame `f` says after a run: it is pinned and the frame was not freed, or
it is the number of references, and the frame was freed if that is 0. -/
structure RefCounted (f : ℕ) (calls : List RefCall) (r : Traced Word Vm) : Prop where
  tracked : r.val.Tracked f
  cases : r.val.count f = 255 ∧ freesOf f r.log = 0 ∨
    r.val.count f + unrefs f calls = 1 + refs f calls ∧
      freesOf f r.log = if r.val.count f = 0 then 1 else 0

theorem RefCall.not_both (c : RefCall) : ¬(c.refOn f = true ∧ c.unrefOn f = true) := by
  cases c <;> simp [refOn, unrefOn]

theorem RefCounted.step (hc : Referenced f (calls ++ [c]))
    (h : RefCounted f calls (refRun s calls)) :
    RefCounted f (calls ++ [c]) (refRun s (calls ++ [c])) := by
  obtain ⟨hval, hlog⟩ := refRun_append (s := s) calls [c]
  obtain ⟨htracked, hcount, hfrees⟩ := c.exec_spec h.tracked
  have hlast := hc.last calls c (List.prefix_refl _)
  have hboth := c.not_both (f := f)
  have hrefs : refs f (calls ++ [c]) = refs f calls + if c.refOn f then 1 else 0 := by
    simp [refs, List.countP_append, List.countP_singleton]
  have hunrefs : unrefs f (calls ++ [c]) = unrefs f calls + if c.unrefOn f then 1 else 0 := by
    simp [unrefs, List.countP_append, List.countP_singleton]
  have hsum : freesOf f (refRun s (calls ++ [c])).log =
      freesOf f (refRun s calls).log + if c.unrefOn f ∧ (refRun s calls).val.count f = 1 then 1
        else 0 := by
    rw [hlog, freesOf, List.countP_append, ← hfrees]
    simp [refRun, freesOf]
  refine ⟨hval ▸ htracked, ?_⟩
  rw [hval, hsum, hrefs, hunrefs, show (refRun (refRun s calls).val [c]).val.count f = _ from hcount]
  rcases h.cases with ⟨hpin, hfree⟩ | ⟨hexact, hfree⟩
  · refine .inl ⟨?_, ?_⟩
    · split_ifs <;> omega
    · rw [hfree, if_neg fun hu ↦ by omega]
  · have hle := (refRun s calls).val.count_le f
    cases hr : c.refOn f <;> cases hu : c.unrefOn f
    · simp only [Bool.false_eq_true, if_false, false_and, add_zero]
      exact .inr ⟨hexact, hfree⟩
    · -- an `unref`: the count was positive
      have hpos : (refRun s calls).val.count f ≠ 0 := by
        intro h0
        exact hlast (.inr hu) (by omega)
      simp only [Bool.false_eq_true, if_false, true_and, if_true]
      rw [if_neg hpos] at hfree
      split_ifs <;> omega
    · -- a `ref`, which may pin the frame
      have hpos : (refRun s calls).val.count f ≠ 0 := by
        intro h0
        exact hlast (.inl hr) (by omega)
      simp only [Bool.false_eq_true, if_false, false_and, if_true, add_zero]
      rw [if_neg hpos] at hfree
      rw [hfree]
      by_cases hlt : (refRun s calls).val.count f + 1 < 255
      · rw [Nat.min_eq_right (by omega), if_neg (by omega)]
        omega
      · exact .inl ⟨by omega, rfl⟩
    · exact absurd ⟨hr, hu⟩ hboth

theorem Referenced.of_prefix {pre : List RefCall} (h : Referenced f calls) (hpre : pre <+: calls) :
    Referenced f pre where
  le q hq := h.le q (hq.trans hpre)
  last q c hq := h.last q c (hq.trans hpre)

theorem refCounted_run (hf : s.Tracked f) (h1 : s.count f = 1) (hc : Referenced f calls) :
    RefCounted f calls (refRun s calls) := by
  induction calls using List.reverseRecOn with
  | nil =>
    refine ⟨hf, .inr ⟨?_, ?_⟩⟩
    · simp [refRun, refs, unrefs, h1]
    · simp [refRun, freesOf, h1]
  | append_singleton calls c ih =>
    exact .step hc (ih (hc.of_prefix (List.prefix_append calls [c])))

theorem refRun_pinned (hf : s.Tracked f) (hpin : s.count f = 255) (calls : List RefCall) :
    freesOf f (refRun s calls).log = 0 := by
  induction calls generalizing s with
  | nil => rfl
  | cons c calls ih =>
    obtain ⟨htracked, hcount, hfrees⟩ := c.exec_spec hf
    have hrest := ih htracked (by rw [hcount, hpin]; split_ifs <;> omega)
    rw [if_neg fun hu ↦ by omega] at hfrees
    rw [refRun, Traced.log_bind, freesOf, List.countP_append]
    exact Nat.add_eq_zero_iff.mpr ⟨hfrees, hrest⟩

theorem RefCounted.frees_of_pinned (h : RefCounted f calls (refRun s calls))
    (hpin : (refRun s calls).val.count f = 255) : freesOf f (refRun s calls).log = 0 := by
  rcases h.cases with ⟨-, hfree⟩ | ⟨-, hfree⟩
  · exact hfree
  · rw [hfree, hpin]
    rfl

theorem RefCounted.balanced (h : RefCounted f calls (refRun s calls))
    (hfree : freesOf f (c.exec (refRun s calls).val).log ≠ 0) :
    unrefs f (calls ++ [c]) = 1 + refs f (calls ++ [c]) := by
  obtain ⟨-, -, hfrees⟩ := c.exec_spec h.tracked
  obtain ⟨hu, h1⟩ : c.unrefOn f = true ∧ (refRun s calls).val.count f = 1 := by
    by_contra hno
    exact hfree (hfrees.trans (if_neg hno))
  have hr : c.refOn f = false := by
    rw [← Bool.not_eq_true]
    exact fun hr ↦ c.not_both ⟨hr, hu⟩
  rw [unrefs, refs, List.countP_append, List.countP_append, List.countP_singleton,
    List.countP_singleton, if_pos hu, hr]
  rcases h.cases with ⟨hpin, -⟩ | ⟨hexact, -⟩
  · omega
  · rw [h1, unrefs, refs] at hexact
    simp only [Bool.false_eq_true, if_false]
    omega

end Runs

/-- A frame whose count starts at 1 is freed once at most, when its last reference is dropped,
and never if its count was once 255. -/
theorem refcounts_never_free_referenced {s : Vm} {phys : Word} (hf : s.Tracked (pageOf phys))
    {calls : List RefCall} (hc : Referenced (pageOf phys) calls) :
    let start := pageSetRefcount s phys 1#8
    freesOf (pageOf phys) (refRun start calls).log ≤ 1 ∧
      (∀ pre c, pre ++ [c] <+: calls →
        freesOf (pageOf phys) (c.exec (refRun start pre).val).log ≠ 0 →
        unrefs (pageOf phys) (pre ++ [c]) = 1 + refs (pageOf phys) (pre ++ [c])) ∧
      ∀ pre, pre <+: calls → (refRun start pre).val.count (pageOf phys) = 255 →
        freesOf (pageOf phys) (refRun start calls).log = 0 := by
  intro start
  have htracked : start.Tracked (pageOf phys) :=
    (pageSetRefcount_tracked s phys 1#8 (pageOf phys)).mpr hf
  have h1 : start.count (pageOf phys) = 1 := by
    rw [pageSetRefcount_count, if_pos ⟨rfl, hf⟩]
    rfl
  have hcounted : ∀ pre, pre <+: calls → RefCounted (pageOf phys) pre (refRun start pre) :=
    fun pre hpre ↦ refCounted_run htracked h1 (hc.of_prefix hpre)
  refine ⟨?_, fun pre c hpre hfree ↦ ?_, fun pre hpre hpin ↦ ?_⟩
  · rcases (hcounted calls (List.prefix_refl _)).cases with ⟨-, hfree⟩ | ⟨-, hfree⟩
    · omega
    · rw [hfree]
      split_ifs <;> omega
  · exact (hcounted pre ((List.prefix_append pre [c]).trans hpre)).balanced hfree
  · obtain ⟨rest, rfl⟩ := hpre
    have hpre := hcounted pre (List.prefix_append pre rest)
    rw [(refRun_append pre rest).2, freesOf, List.countP_append]
    exact Nat.add_eq_zero_iff.mpr ⟨hpre.frees_of_pinned hpin, refRun_pinned hpre.tracked hpin rest⟩

def sixteenFrames : Vm where
  mem _ _ := 0#64
  pmm := ⟨fun _ ↦ 255#8, 16, 0#64, by decide⟩
  pageInfo := some fun _ ↦ 0#8
  maxPages := 16
  kernelPml4Phys := 0x1000#64

def sharedOnce : List RefCall :=
  [.ref 0x5000#64, .unref 0x6000#64, .unref 0x5000#64, .unref 0x5000#64]

theorem sharedOnce_referenced : Referenced 5 sharedOnce := by
  have hle : ∀ n ≤ 4, unrefs 5 (sharedOnce.take n) ≤ 1 + refs 5 (sharedOnce.take n) := by decide
  have hlast : ∀ n ≤ 3, unrefs 5 (sharedOnce.take n) ≠ 1 + refs 5 (sharedOnce.take n) := by decide
  refine ⟨fun pre hpre ↦ ?_, fun pre c hpre _ ↦ ?_⟩
  · rw [List.prefix_iff_eq_take.mp hpre]
    exact hle _ hpre.length_le
  · rw [List.prefix_iff_eq_take.mp ((List.prefix_append pre [c]).trans hpre)]
    have hlen := hpre.length_le
    rw [List.length_append, List.length_singleton] at hlen
    exact hlast _ (Nat.le_of_succ_le_succ hlen)

theorem refcounts_sharedOnce : sixteenFrames.Tracked (pageOf 0x5000#64) ∧
    Referenced (pageOf 0x5000#64) sharedOnce ∧
    freesOf (pageOf 0x5000#64) (refRun (pageSetRefcount sixteenFrames 0x5000#64 1#8)
      sharedOnce).log ≤ 1 :=
  have htracked : sixteenFrames.Tracked (pageOf 0x5000#64) := by decide
  ⟨htracked, sharedOnce_referenced,
    (refcounts_never_free_referenced htracked sharedOnce_referenced).1⟩

end SeedOS.Memory
