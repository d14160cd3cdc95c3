import SeedOS.System.WaitMatch
import SeedOS.System.WaitRuns

namespace SeedOS.System

open Foundation Memory Process Function

theorem afterScan_of_waitsFor {x : Point} {state : ProcState} {pid : Word}
    (hw : x.waitsFor state = some pid) :
    x.afterScan = some pid ∨ x = .asleep pid ∧ state = .sleeping := by
  cases x with
  | asleep pid' =>
    rw [Point.waitsFor] at hw
    split_ifs at hw with hs
    exact .inr ⟨by rw [Option.some.inj hw], hs⟩
  | _ => exact .inl hw

namespace WaitOk

variable {i p q : Ptr} {s s' : WaitSys} {k' : Kernel} {proc : Pcb} {fuel : ℕ}

theorem not_awaited (hp : s.kernel.pcbs p = some proc)
    (hpoint : s.point p = .wakeParent) (htime : s.inTime (.step p) = true)
    (hparent : proc.parent = some q) {pid : Word} (hscan : (s.point q).afterScan = some pid) :
    ¬ proc.view.Matches pid := by
  intro hm
  have hmatch := (isMatchingChild_iff hp).mpr hm
  simp [WaitSys.inTime, hpoint, WaitSys.wakesInTime, hp, hparent, WaitSys.awaited, hscan,
    hmatch] at htime

theorem wakeParent (h : WaitOk i s) (hp : s.kernel.pcbs p = some proc)
    (hpoint : s.point p = .wakeParent) (htime : s.inTime (.step p) = true)
    (heq : s.step fuel p = some s') : WaitOk i s' := by
  simp only [WaitSys.step, hp, hpoint, Option.bind_eq_bind, Option.bind_some,
    Option.bind_eq_some_iff, Option.some.injEq] at heq
  obtain ⟨k', hk, rfl⟩ := heq
  rcases wakeParent_cases hk with ⟨rfl, hasleep⟩ | ⟨q, Q, hparent, hQ, -, hmod⟩
  · refine h.halt hp hpoint fun q V pid hparent hV hw hm ↦ ?_
    obtain ⟨Q, hQ, rfl⟩ := pcb_of_view hV
    rcases afterScan_of_waitsFor hw with hscan | ⟨hpt, hsleeps⟩
    · exact not_awaited hp hpoint htime hparent hscan hm
    · have hwait : Q.waitPid = pid.setWidth 32 := h.alert.recorded q _ pid hV (.inr hpt)
      rcases hasleep q Q hparent hQ with hne | ⟨hany, hpid⟩
      · exact hne hsleeps
      · rcases hm with rfl | ⟨-, hm⟩
        · exact hany (by rw [hwait]; decide)
        · have hm' : proc.pid = pid := hm
          exact hpid (by rw [hwait, hm'])
  · have hpq : p ≠ q := by
      rintro rfl
      exact h.alert.proper p _ (view_eq hp) hparent
    have hwoken : WaitOk i ⟨k', s.point⟩ := by
      have hmodify := h.modify (x := s.point q) hQ hmod (fun _ ↦ ⟨rfl, rfl⟩) id
        (fun hf hqi ↦ h.childless q _ (view_eq hQ) (.inr hf) hqi)
      rw [update_eq_self] at hmodify
      exact hmodify (h.alert.wake (view_eq hQ))
    have hp' : k'.pcbs p = some proc := (modify_other hmod hpq).trans hp
    refine hwoken.halt hp' hpoint fun q' V pid hparent' hV hw hm ↦ ?_
    rw [hparent, Option.some.injEq] at hparent'
    subst hparent'
    rw [modify_tree hQ hmod] at hV
    dsimp only at hV
    rw [update_self, Option.some.injEq] at hV
    rcases afterScan_of_waitsFor hw with hscan | ⟨-, hrun⟩
    · exact not_awaited hp hpoint htime hparent hscan hm
    · rw [← hV] at hrun
      cases hrun

theorem fork (h : WaitOk i s) {blocks : ForkBlocks} (ha : s.Enabled (.fork p blocks))
    (heq : s.exec fuel (.fork p blocks) = some s') : WaitOk i s' := by
  obtain ⟨hpoint, hstarted, hblocks⟩ := ha
  obtain ⟨⟨r, k'⟩, hk, rfl⟩ := Option.map_eq_some_iff.mp heq
  obtain ⟨P, hP, hfresh⟩ := (Option.any_eq_true ..).mp hstarted
  obtain ⟨proc, hp, rfl⟩ := pcb_of_view hP
  have hpcb : ∀ c, blocks.pcb = some c → s.kernel.pcbs c = none := by
    intro c hc
    simpa [hc] using hblocks
  have hnone : ∀ c, blocks.pcb = some c → s.kernel.tree.view c = none := fun c hc ↦ by
    simp [Kernel.tree, hpcb c hc]
  obtain htree | ⟨c, pid, T, hb, hjoins, hend⟩ := sysFork_tree h.lists hpcb hk
  · dsimp only [WaitOk]
    rw [htree]
    cases hb : blocks.pcb with
    | none => exact h
    | some c => exact h.setPoint False.elim (h.alert.unused (hnone c hb))
  · simp only [WaitOk, hb]
    have hok := h.joins hjoins (by simp [Kernel.tree, hpcb c hb]) (hnone c hb) hP
      (by simpa using hfresh) hpoint
    obtain htree | hleaves := hend
    · exact htree ▸ hok
    · exact hok.leaves hleaves (hok.alert.ne_init (by rw [hjoins.view, update_self]) rfl)

theorem forkReturn (h : WaitOk i s) {canonical : Bool} (ha : s.Enabled (.forkReturn p canonical))
    (heq : s.exec fuel (.forkReturn p canonical) = some s') : WaitOk i s' := by
  obtain ⟨k', hk, rfl⟩ := Option.map_eq_some_iff.mp heq
  obtain ⟨P, hP, hfresh⟩ := (Option.any_eq_true ..).mp ha
  obtain ⟨proc, hp, rfl⟩ := pcb_of_view hP
  cases canonical with
  | true =>
    rw [forkChildUserReturn, if_pos rfl] at hk
    have hmodify := h.modify (x := s.point p) hp hk (fun _ ↦ ⟨rfl, rfl⟩) (fun hc ↦ by cases hc)
      (fun hf hpi ↦ h.childless p _ hP (.inr hf) hpi)
    rw [update_eq_self] at hmodify
    exact hmodify (h.alert.touch hP (fun _ ↦ rfl) rfl)
  | false =>
    rw [forkChildUserReturn, if_neg Bool.false_ne_true] at hk
    have hpi : p ≠ i := by
      rintro rfl
      obtain ⟨I, hI, -, hstarted⟩ := h.alert.init
      obtain rfl := Option.some.inj (hP.symm.trans hI)
      simp [hstarted] at hfresh
    obtain ⟨q, hparent⟩ : ∃ q, proc.parent = some q := by
      rw [← Option.ne_none_iff_exists']
      exact fun hnone ↦ hpi (h.alert.parented p _ hP hnone)
    exact h.reap hp hparent (h.childless p _ hP (.inl hfresh) hpi _ (tree_kin hp)) hk

theorem exec (h : WaitOk i s) {a : WaitAct} (ha : s.Enabled a) (htime : s.inTime a = true)
    (heq : s.exec fuel a = some s') : WaitOk i s' := by
  cases a with
  | fork p blocks => exact h.fork ha heq
  | forkReturn p canonical => exact h.forkReturn ha heq
  | wait4 p pid wnohang =>
    obtain ⟨P, hP, -⟩ := (Option.any_eq_true ..).mp ha.2
    obtain ⟨proc, hp, rfl⟩ := pcb_of_view hP
    rw [← Option.some.inj heq]
    exact h.leave hp (h.not_zombie hp (by simp [ha.1]) (by simp [ha.1]))
      (.inr (.inr ⟨pid, wnohang, rfl⟩))
  | exit p status =>
    obtain ⟨P, hP, -⟩ := (Option.any_eq_true ..).mp ha.2
    obtain ⟨proc, hp, rfl⟩ := pcb_of_view hP
    obtain ⟨k', hk, rfl⟩ := Option.map_eq_some_iff.mp heq
    have hleave := h.leave (x := .reparent) hp (h.not_zombie hp (by simp [ha.1]) (by simp [ha.1]))
      (.inr (.inl rfl))
    refine h.modify hp hk (fun _ ↦ ⟨rfl, rfl⟩) id False.elim ?_
    have hsame : update s.kernel.tree.view p (some proc.view) = s.kernel.tree.view := by
      rw [← view_eq hp, update_eq_self]
    exact hsame.symm ▸ hleave.alert
  | step p =>
    obtain ⟨proc, hp⟩ : ∃ proc, s.kernel.pcbs p = some proc := by
      cases hp : s.kernel.pcbs p with
      | none => simp [WaitSys.exec, WaitSys.step, hp] at heq
      | some proc => exact ⟨proc, rfl⟩
    cases hpoint : s.point p with
    | user => simp [WaitSys.exec, WaitSys.step, hp, hpoint] at heq
    | halted => simp [WaitSys.exec, WaitSys.step, hp, hpoint] at heq
    | scan pid wnohang => exact h.scan hp heq hpoint
    | check pid wnohang => exact h.check hp heq hpoint
    | record pid => exact h.record hp heq hpoint
    | sleep pid => exact h.sleep hp heq hpoint
    | asleep pid => exact h.asleep hp heq hpoint
    | reparent => exact h.reparent hp heq hpoint htime
    | becomeZombie => exact h.becomeZombie hp heq hpoint
    | wakeParent => exact h.wakeParent hp hpoint htime heq

end WaitOk

section Run

variable {k₀ k₁ : Kernel} {i : Ptr} {blocks : CreateBlocks} {s : WaitSys}

theorem waitOk_start (hboot : k₀.Boot)
    (heq : processCreate k₀ none blocks = some (some i, k₁)) : WaitOk i ⟨k₁, fun _ ↦ .user⟩ := by
  have hview := congrArg Tree.view (init_tree hboot heq)
  dsimp only at hview
  have honly : ∀ p P, k₁.tree.view p = some P →
      p = i ∧ P = ⟨.embryo, none, 1#64, -1#32, false⟩ := by
    intro p P hp
    rw [hview] at hp
    exact (update_some_cases hp).resolve_right (by simp)
  refine ⟨congrArg Tree.init (init_tree hboot heq), (init_ok hboot heq).toLists,
    fun p P hp _ hpi ↦ absurd (honly p P hp).1 hpi, ⟨_, by rw [hview, update_self], rfl, rfl⟩,
    fun p P hp _ ↦ (honly p P hp).1, fun p P hp ↦ ?_, fun p P hp hz ↦ ?_, by simp, by simp,
    fun p P pid _ hw ↦ by cases hw⟩
  · simp [(honly p P hp).2]
  · simp [(honly p P hp).2] at hz

/-- No lost child-exit wakeup: in every state that init and its descendants reach in time, a
process that sleeps in `sys_wait4` has no zombie child that it waits for, except one whose
`process_exit` is just about to wake it. -/
theorem sleeper_will_be_woken (hboot : k₀.Boot)
    (hinit : processCreate k₀ none blocks = some (some i, k₁))
    (hrun : WaitSys.RunsTo (fun s a ↦ s.Enabled a ∧ s.inTime a = true) ⟨k₁, fun _ ↦ .user⟩ s)
    {p : Ptr} {proc : Pcb} {pid : Word} (hp : s.kernel.pcbs p = some proc)
    (hsleeps : proc.state = .sleeping) (hpoint : s.point p = .asleep pid) :
    (pid = -1#64 ∨ 0 < pid.toInt) ∧ ∃ cs, HasChildren s.kernel p cs ∧
      ∀ c ∈ cs, isZombieChild s.kernel pid c = true → s.point c = .wakeParent := by
  have h : WaitOk i s := PartialRuns.invariant hrun (waitOk_start hboot hinit)
    fun s a s' hs ha heq ↦ hs.exec ha.1 ha.2 heq
  have hvalid := h.alert.valid p pid (.inr (.inr hpoint))
  obtain ⟨cs, hcs, -, hmem⟩ := h.lists.children hp
  refine ⟨hvalid, cs, ⟨proc, hp, hcs⟩, fun c hc hz ↦ ?_⟩
  obtain ⟨C, hC, hparent⟩ := (hmem c).mp hc
  obtain ⟨hzombie, hm⟩ := matches_of_isZombieChild hvalid hC hz
  refine h.alert.waits p _ pid (view_eq hp) ?_ c _ (view_eq hC) hparent hzombie hm
  rw [hpoint, Point.waitsFor]
  exact if_pos hsleeps

def waitStart : WaitSys := ⟨initKernel, fun _ ↦ .user⟩

/-- Init has a child that has started, and has called `sys_wait4` for any child. -/
def waitCalls : List (ℕ × WaitAct) :=
  [(0, .fork initPtr forkBlocks), (0, .forkReturn childPtr true), (0, .wait4 initPtr (-1#64) false)]

/-- Init goes to sleep, and the child has just become a zombie. -/
def sleepsFirst : List (ℕ × WaitAct) :=
  waitCalls ++ [(2, .step initPtr), (2, .step initPtr), (0, .step initPtr), (0, .step initPtr),
    (0, .exit childPtr 7#32), (0, .step childPtr), (0, .step childPtr)]

theorem sleeper_will_be_woken_init :
    ∃ s, WaitSys.RunsTo (fun s a ↦ s.Enabled a ∧ s.inTime a = true) waitStart s ∧
      isZombieChild s.kernel (-1#64) childPtr = true ∧
      ∃ cs, HasChildren s.kernel initPtr cs ∧
        ∀ c ∈ cs, isZombieChild s.kernel (-1#64) c = true → s.point c = .wakeParent := by
  have hcheck : (PartialRuns.replay (fun s (a : ℕ × WaitAct) ↦ WaitSys.exec a.1 s a.2)
      (fun s a ↦ s.Enabled a.2 ∧ s.inTime a.2 = true) waitStart sleepsFirst).any fun s ↦
        s.point initPtr = .asleep (-1#64) && isZombieChild s.kernel (-1#64) childPtr &&
        (s.kernel.pcbs initPtr).any (·.state = .sleeping) := by
    decide +kernel
  obtain ⟨s, hs, hcheck⟩ := (Option.any_eq_true ..).mp hcheck
  simp only [Bool.and_eq_true, decide_eq_true_eq] at hcheck
  obtain ⟨⟨hpoint, hz⟩, hstate⟩ := hcheck
  obtain ⟨proc, hp, hsleeps⟩ := (Option.any_eq_true ..).mp hstate
  have hrun := PartialRuns.of_replay hs
  exact ⟨s, hrun, hz, (sleeper_will_be_woken emptyKernel_boot initKernel_create hrun hp
    (of_decide_eq_true hsleeps) hpoint).2⟩

/-- The child exits after init has looked for zombies and before init sleeps. -/
def exitsBetween : List (ℕ × WaitAct) :=
  waitCalls ++ [(2, .step initPtr), (0, .exit childPtr 7#32), (0, .step childPtr),
    (0, .step childPtr), (0, .step childPtr), (2, .step initPtr), (0, .step initPtr),
    (0, .step initPtr)]

/-- Init sleeps for ever beside a zombie that it waits for. -/
theorem child_exit_wakeup_lost :
    ∃ s proc, WaitSys.RunsTo WaitSys.Enabled waitStart s ∧
      s.kernel.pcbs initPtr = some proc ∧ proc.state = .sleeping ∧
      s.point initPtr = .asleep (-1#64) ∧
      findNode s.kernel.siblingOf (isZombieChild s.kernel (-1#64)) 1 proc.children =
        some (some childPtr) ∧
      s.point childPtr = .halted := by
  have hcheck : (PartialRuns.replay (fun s (a : ℕ × WaitAct) ↦ WaitSys.exec a.1 s a.2)
      (fun s a ↦ s.Enabled a.2) waitStart exitsBetween).any fun s ↦
        s.point initPtr = .asleep (-1#64) && s.point childPtr = .halted &&
        (s.kernel.pcbs initPtr).any fun proc ↦ proc.state = .sleeping &&
          findNode s.kernel.siblingOf (isZombieChild s.kernel (-1#64)) 1 proc.children =
            some (some childPtr) := by
    decide +kernel
  obtain ⟨s, hs, hcheck⟩ := (Option.any_eq_true ..).mp hcheck
  simp only [Bool.and_eq_true, decide_eq_true_eq] at hcheck
  obtain ⟨⟨hpoint, hhalted⟩, hproc⟩ := hcheck
  obtain ⟨proc, hp, hproc⟩ := (Option.any_eq_true ..).mp hproc
  simp only [Bool.and_eq_true, decide_eq_true_eq] at hproc
  exact ⟨s, proc, PartialRuns.of_replay hs, hp, hproc.1, hpoint, hproc.2, hhalted⟩

end Run

end SeedOS.System
