import SeedOS.System.TreeRuns

namespace SeedOS.System

open Foundation Memory Process Function

/-- Would `find_zombie_child` return this child once it has exited? -/
def mayReap (k : Kernel) (pid : Word) (child : Ptr) : Bool :=
  match k.modify child fun c ↦ { c with state := .zombie } with
  | none => false
  | some k => isZombieChild k pid child

def ReportsNoChild (fuel : ℕ) (k : Kernel) (p : Ptr) (pid : Word) (wnohang : Bool) : Prop :=
  sysWait4 fuel k p pid wnohang = some (some echild, k)

def HasChildren (k : Kernel) (p : Ptr) (cs : List Ptr) : Prop :=
  ∃ proc, k.pcbs p = some proc ∧ Chain k.siblingOf proc.children cs

/-- Every child in the later state is a child in the earlier one, under the same pid. -/
def NoNewChild (k k' : Kernel) (cs cs' : List Ptr) : Prop :=
  ∀ c ∈ cs', c ∈ cs ∧ (k'.pcbs c).map Pcb.pid = (k.pcbs c).map Pcb.pid

/-- `sys_wait4` decides with one notion of a child that matches `pid`. -/
structure OneNotion (k : Kernel) (p : Ptr) (pid : Word) (cs : List Ptr) : Prop where
  same : ∀ c ∈ cs, mayReap k pid c = isMatchingChild k pid c
  reports : ∀ fuel wnohang, cs.length < fuel →
    (ReportsNoChild fuel k p pid wnohang ↔ ∀ c ∈ cs, isMatchingChild k pid c = false)
  stays : ∀ fuel, cs.length < fuel → ReportsNoChild fuel k p pid true →
    ∀ k' cs' fuel', HasChildren k' p cs' → NoNewChild k k' cs cs' → cs'.length < fuel' →
      ReportsNoChild fuel' k' p pid true

section Match

variable {k k' : Kernel} {p c : Ptr} {pid : Word} {C : Pcb} {cs cs' : List Ptr} {fuel : ℕ}
  {wnohang : Bool}

theorem mayReap_eq (hc : k.pcbs c = some C) :
    mayReap k pid c = !(0 < pid.toInt && C.pid ≠ pid) := by
  rw [mayReap, modify_eq hc]
  simp only [isZombieChild, update_self, decide_true, Bool.and_true]

theorem isMatchingChild_eq (hc : k.pcbs c = some C) :
    isMatchingChild k pid c = (pid = -1#64 || 0 < pid.toInt && C.pid = pid) := by
  rw [isMatchingChild, hc]

theorem mayReap_eq_isMatchingChild (hc : k.pcbs c = some C) :
    mayReap k pid c = isMatchingChild k pid c ↔ pid = -1#64 ∨ 0 < pid.toInt := by
  rw [mayReap_eq hc, isMatchingChild_eq hc]
  by_cases hall : pid = -1#64
  · subst hall
    simp
  · by_cases hpos : 0 < pid.toInt
    · simp only [hall, hpos, decide_true, decide_false, Bool.true_and, Bool.false_or, or_true,
        iff_true]
      by_cases hpid : C.pid = pid
      · simp [hpid]
      · simp [hpid]
    · simp only [hall, hpos, decide_false, Bool.false_and, Bool.or_self, Bool.not_false, or_self,
        iff_false]
      decide

theorem isZombieChild_mayReap (hz : isZombieChild k pid c = true) : mayReap k pid c = true := by
  unfold isZombieChild at hz
  cases hc : k.pcbs c with
  | none => simp [hc] at hz
  | some C =>
    rw [hc] at hz
    rw [mayReap_eq hc]
    exact (Bool.and_eq_true_iff.mp hz).1

theorem HasChildren.pcb (h : HasChildren k p cs) (hc : c ∈ cs) : ∃ C, k.pcbs c = some C := by
  obtain ⟨proc, -, hchain⟩ := h
  obtain ⟨t, ht⟩ := hchain.node hc
  obtain ⟨C, hC, -⟩ := Option.map_eq_some_iff.mp ht
  exact ⟨C, hC⟩

theorem isMatchingChild_congr (h : (k'.pcbs c).map Pcb.pid = (k.pcbs c).map Pcb.pid) :
    isMatchingChild k' pid c = isMatchingChild k pid c := by
  unfold isMatchingChild
  cases hc : k.pcbs c with
  | none =>
    rw [hc, Option.map_none, Option.map_eq_none_iff] at h
    rw [h]
  | some C =>
    rw [hc, Option.map_some] at h
    obtain ⟨C', hC', hpid⟩ := Option.map_eq_some_iff.mp h
    rw [hC']
    simp only [hpid]

theorem processDestroy_gone (h : processDestroy fuel k c = some k') : k'.pcbs c = none := by
  simp only [processDestroy, Option.bind_eq_bind, Option.bind_eq_some_iff] at h
  obtain ⟨k₁, -, k₂, -, k₃, -, h⟩ := h
  rw [freeProcess] at h
  obtain ⟨C, -, rfl⟩ := Option.map_eq_some_iff.mp h
  exact update_self _ _ _

/-- With enough rounds for its loops, `sys_wait4` reports that there is no child exactly
if there is neither a zombie to reap nor a child to wait for. -/
theorem reportsNoChild_iff (h : HasChildren k p cs) (hfuel : cs.length < fuel) :
    ReportsNoChild fuel k p pid wnohang ↔
      ∀ c ∈ cs, isZombieChild k pid c = false ∧ isMatchingChild k pid c = false := by
  have hall := h
  obtain ⟨proc, hp, hchain⟩ := h
  rw [ReportsNoChild, sysWait4, hp]
  simp only [Option.bind_eq_bind, Option.bind_some, hchain.findNode_some _ hfuel]
  cases hz : cs.find? (isZombieChild k pid) with
  | some z =>
    have hmem := List.mem_of_find?_eq_some hz
    have htest := List.find?_some hz
    refine ⟨fun heq ↦ ?_, fun hnone ↦ ?_⟩
    · -- a zombie was reaped: its block is gone
      obtain ⟨C, hC⟩ := hall.pcb hmem
      simp only [hC, Option.bind_some, Option.bind_eq_some_iff] at heq
      obtain ⟨k₁, hk₁, heq⟩ := heq
      obtain rfl : k₁ = k := (Prod.mk.inj (Option.some.inj heq)).2
      rw [processDestroy_gone hk₁] at hC
      cases hC
    · rw [(hnone z hmem).1] at htest
      cases htest
  | none =>
    rw [List.find?_eq_none] at hz
    cases hm : cs.find? (isMatchingChild k pid) with
    | none =>
      rw [List.find?_eq_none] at hm
      simp only [true_iff]
      exact fun c hc ↦ ⟨Bool.eq_false_of_not_eq_true (hz c hc), Bool.eq_false_of_not_eq_true (hm c hc)⟩
    | some m =>
      have hmem := List.mem_of_find?_eq_some hm
      have htest := List.find?_some hm
      refine iff_of_false ?_ fun hnone ↦ ?_
      · cases wnohang with
        | true =>
          intro heq
          have hret := (Prod.mk.inj (Option.some.inj heq)).1
          exact absurd (Option.some.inj hret) (by decide)
        | false =>
          rw [modify_eq hp]
          intro heq
          have hret := (Prod.mk.inj (Option.some.inj heq)).1
          cases hret
      · rw [(hnone m hmem).2] at htest
        cases htest

/-- `sys_wait4` decides with one notion of a matching child exactly if it is asked for any
child or for a pid greater than zero, or there are no children. -/
theorem wait4_one_notion (h : HasChildren k p cs) :
    OneNotion k p pid cs ↔ pid = -1#64 ∨ 0 < pid.toInt ∨ cs = [] := by
  constructor
  · intro hone
    cases cs with
    | nil => exact .inr (.inr rfl)
    | cons c cs =>
      obtain ⟨C, hC⟩ := h.pcb List.mem_cons_self
      have hsame := (mayReap_eq_isMatchingChild hC).mp (hone.same c List.mem_cons_self)
      exact hsame.imp_right .inl
  · intro hpid
    have hagree : ∀ {k : Kernel} {cs : List Ptr}, HasChildren k p cs →
        (cs = [] ∨ pid = -1#64 ∨ 0 < pid.toInt) → ∀ c ∈ cs,
          mayReap k pid c = isMatchingChild k pid c := by
      intro k cs h hpid c hc
      obtain ⟨C, hC⟩ := h.pcb hc
      rw [mayReap_eq_isMatchingChild hC]
      rcases hpid with rfl | hpid
      · simp at hc
      · exact hpid
    have hreports : ∀ {k : Kernel} {cs : List Ptr} {fuel : ℕ} {wnohang : Bool}, HasChildren k p cs →
        (cs = [] ∨ pid = -1#64 ∨ 0 < pid.toInt) → cs.length < fuel →
        (ReportsNoChild fuel k p pid wnohang ↔ ∀ c ∈ cs, isMatchingChild k pid c = false) := by
      intro k cs fuel wnohang h hpid hfuel
      rw [reportsNoChild_iff h hfuel]
      refine forall₂_congr fun c hc ↦ ⟨And.right, fun hm ↦ ⟨?_, hm⟩⟩
      by_contra hz
      have hreap := isZombieChild_mayReap (Bool.eq_true_of_not_eq_false hz)
      rw [hagree h hpid c hc, hm] at hreap
      cases hreap
    have hpid' : cs = [] ∨ pid = -1#64 ∨ 0 < pid.toInt := by tauto
    refine ⟨hagree h hpid', fun fuel wnohang ↦ hreports h hpid', ?_⟩
    intro fuel hfuel hrep k' cs' fuel' h' hnew hfuel'
    have hpid'' : cs' = [] ∨ pid = -1#64 ∨ 0 < pid.toInt := by
      refine hpid'.imp_left fun hnil ↦ List.eq_nil_iff_forall_not_mem.mpr fun c hc ↦ ?_
      have := (hnew c hc).1
      simp [hnil] at this
    rw [hreports h' hpid'' hfuel']
    intro c hc
    rw [isMatchingChild_congr (hnew c hc).2]
    exact (hreports h hpid' hfuel).mp hrep c (hnew c hc).1

end Match

theorem startedKernel_children : HasChildren startedKernel initPtr [childPtr] := by
  have hinit : (startedKernel.pcbs initPtr).any fun proc ↦ proc.children = some childPtr := by
    decide +kernel
  have hchild : startedKernel.siblingOf childPtr = some none := by decide +kernel
  obtain ⟨proc, hproc, hchildren⟩ := (Option.any_eq_true ..).mp hinit
  refine ⟨proc, hproc, ?_⟩
  rw [of_decide_eq_true hchildren]
  exact .cons hchild .nil

theorem wait4_one_notion_started : OneNotion startedKernel initPtr (-1#64) [childPtr] :=
  (wait4_one_notion startedKernel_children).mpr (.inl rfl)

/-- Asked for pid 0, `sys_wait4` says that there is no such child while the child runs, and
reaps it when it has exited. -/
theorem wait4_reaps_after_echild :
    (sysWait4 2 startedKernel initPtr 0#64 true).map Prod.fst = some (some echild) ∧
    startedKernel.exec 1 (.exit childPtr 7#32) ≠ none ∧
    (sysWait4 2 zombieKernel initPtr 0#64 true).map Prod.fst = some (some 2#64) := by
  refine ⟨by decide +kernel, ?_, by decide +kernel⟩
  rw [← Option.isSome_iff_ne_none]
  decide +kernel

end SeedOS.System
