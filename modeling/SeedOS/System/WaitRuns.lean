import SeedOS.System.WaitWakeup

namespace SeedOS.System

open Foundation Memory Process Function

/-- The lists of the processes are in order, those that have not started or have exited have no
children, and whoever waits will be woken. -/
structure Orderly (i : Ptr) (T : Tree) (point : Ptr → Point) : Prop where
  init : T.init = some i
  lists : T.Lists
  childless : ∀ p P, T.view p = some P → P.fresh = true ∨ (point p).Final → p ≠ i → T.Childless p
  alert : Alert i T.view point

abbrev WaitOk (i : Ptr) (s : WaitSys) : Prop := Orderly i s.kernel.tree s.point

namespace Orderly

variable {i p q c : Ptr} {T T' : Tree} {point : Ptr → Point} {x : Point} {V : View}
  (h : Orderly i T point)
include h

theorem setPoint (hfinal : x.Final → p ≠ i → T.Childless p)
    (halert : Alert i T.view (update point p x)) : Orderly i T (update point p x) := by
  refine ⟨h.init, h.lists, fun q Q hq hc hqi ↦ ?_, halert⟩
  by_cases hqp : q = p
  · subst hqp
    rw [update_self] at hc
    exact hc.elim (fun hf ↦ h.childless q Q hq (.inl hf) hqi) fun hf ↦ hfinal hf hqi
  · rw [update_of_ne hqp] at hc
    exact h.childless q Q hq hc hqi

theorem joins (hj : Joins T T' q c ⟨.runnable, some q, pid, -1#32, true⟩) (hc : T.kin c = none)
    (hnone : T.view c = none) (hq : T.view q = some V) (hlive : V.fresh = false)
    (hpoint : point q = .user) : Orderly i T' (update point c .user) := by
  refine ⟨hj.init.trans h.init, hj.lists, fun a A ha hf hai ↦ ?_, hj.view ▸ h.alert.add hnone hq⟩
  rw [hj.view] at ha
  rcases update_some_cases ha with ⟨rfl, -⟩ | ⟨hac, hA⟩
  · refine hj.childless ?_ fun A hA ↦ by simp [hc] at hA
    rintro rfl
    simp [hnone] at hq
  · rw [update_of_ne hac] at hf
    refine hj.childless ?_ (h.childless a A hA hf hai)
    -- the parent has started and is in its own code
    rintro rfl
    obtain rfl := Option.some.inj (hq.symm.trans hA)
    simp [hlive, hpoint, Point.Final] at hf

theorem leaves (hl : Leaves T T' c) (hci : c ≠ i) : Orderly i T' point := by
  refine ⟨hl.init.trans h.init, hl.lists, fun a A ha hf hai ↦ hl.childless ?_,
    hl.view ▸ h.alert.remove hci⟩
  rw [hl.view] at ha
  have hac : a ≠ c := by
    rintro rfl
    simp at ha
  rw [update_of_ne hac] at ha
  exact h.childless a A ha hf hai

end Orderly

section Matches

variable {k : Kernel} {p c : Ptr} {C : Pcb} {pid : Word}

theorem isMatchingChild_iff (hc : k.pcbs c = some C) :
    isMatchingChild k pid c = true ↔ C.view.Matches pid := by
  simp [isMatchingChild, hc, View.Matches, Pcb.view]

theorem isZombieChild_of_matches (hc : k.pcbs c = some C) (hz : C.state = .zombie)
    (hm : C.view.Matches pid) : isZombieChild k pid c = true := by
  rcases hm with rfl | ⟨_, hpid⟩
  · simp [isZombieChild, hc, hz]
  · have hpid' : C.pid = pid := hpid
    simp [isZombieChild, hc, hz, hpid']

theorem matches_of_isZombieChild (hvalid : pid = -1#64 ∨ 0 < pid.toInt) (hc : k.pcbs c = some C)
    (hz : isZombieChild k pid c = true) : C.state = .zombie ∧ C.view.Matches pid := by
  simp only [isZombieChild, hc, Bool.and_eq_true, decide_eq_true_eq] at hz
  refine ⟨hz.2, hvalid.imp_right fun hpos ↦ ⟨hpos, ?_⟩⟩
  have hpid : C.pid = pid := by simpa [hpos] using hz.1
  exact hpid

end Matches

namespace WaitOk

variable {i p : Ptr} {s s' : WaitSys} {k' : Kernel} {proc : Pcb} {f : Pcb → Pcb} {x : Point}
  {fuel : ℕ}

theorem adopts {c : Ptr} {C : Pcb} (hc : s.kernel.pcbs c = some C)
    (htime : s.adoptsInTime i c = true) (I : View) (pid : Word) (hi : s.kernel.tree.view i = some I)
    (hw : (s.point i).waitsFor I.state = some pid) (hz : C.state = .zombie)
    (hm : C.view.Matches pid) : s.point c = .wakeParent := by
  have hstate : C.view.state = .zombie := hz
  have hmatch := (isMatchingChild_iff hc).mpr hm
  have hview : s.kernel.view c = some C.view := view_eq hc
  have hi' : s.kernel.view i = some I := hi
  simpa [WaitSys.adoptsInTime, WaitSys.awaited, hview, hi', hw, hstate, hmatch] using htime

section

variable (h : WaitOk i s)
include h

theorem reap {c : Ptr} {C : Pcb} (hc : s.kernel.pcbs c = some C)
    (hparent : C.parent = some p) (hleaf : C.children = none)
    (hk : processDestroy fuel s.kernel c = some k') : WaitOk i ⟨k', s.point⟩ :=
  h.leaves (processDestroy_leaves h.lists hc hleaf hparent hk)
    (h.alert.ne_init (view_eq hc) hparent)

variable (hp : s.kernel.pcbs p = some proc)
include hp

theorem modify (hk : s.kernel.modify p f = some k')
    (hf : ∀ proc : Pcb, (f proc).next = proc.next ∧ (f proc).kin = proc.kin)
    (hfresh : (f proc).fresh = true → proc.fresh = true)
    (hfinal : x.Final → p ≠ i → s.kernel.tree.Childless p)
    (halert : Alert i (update s.kernel.tree.view p (some (f proc).view)) (update s.point p x)) :
    WaitOk i ⟨k', update s.point p x⟩ := by
  have htree := modify_view hp hk hf
  refine ⟨(congrArg Tree.init htree).trans h.init, htree ▸ ⟨h.lists.procs, h.lists.family⟩,
    fun q Q hq hc hqi ↦ ?_, htree ▸ halert⟩
  dsimp only at hq hc ⊢
  rw [htree] at hq ⊢
  rcases update_some_cases hq with ⟨rfl, rfl⟩ | ⟨hqp, hQ⟩
  · rw [update_self] at hc
    exact hc.elim (fun hf ↦ h.childless q _ (view_eq hp) (.inl (hfresh hf)) hqi)
      fun hf ↦ hfinal hf hqi
  · rw [update_of_ne hqp] at hc
    exact h.childless q Q hQ hc hqi

theorem not_zombie (hwake : s.point p ≠ .wakeParent) (hhalt : s.point p ≠ .halted) :
    proc.state ≠ .zombie := by
  intro hz
  exact (h.alert.zombie p _ (view_eq hp) hz).elim hwake hhalt

theorem leave (hz : proc.state ≠ .zombie)
    (hpt : x = .user ∨ x = .reparent ∨ ∃ pid wnohang, x = .scan pid wnohang) :
    WaitOk i (s.goto p x) := by
  refine h.setPoint (fun hf ↦ ?_) (h.alert.await (view_eq hp) hz (fun pid hpt' ↦ ?_) (fun pid ↦ ?_)
    fun pid hw ↦ ?_)
  all_goals rcases hpt with rfl | rfl | ⟨pid', wnohang, rfl⟩
  all_goals first | cases hf | cases hpt' | cases hw | simp

theorem endReparent (hz : proc.state ≠ .zombie)
    (hleaf : p ≠ i → proc.children = none) : WaitOk i (s.goto p .becomeZombie) := by
  refine h.setPoint (fun _ hpi K hK ↦ ?_) (h.alert.await (view_eq hp) hz (by simp) (by simp) ?_)
  · rw [tree_kin hp, Option.some.injEq] at hK
    exact hK ▸ hleaf hpi
  · intro pid hw
    cases hw

theorem halt (hpoint : s.point p = .wakeParent)
    (hnone : ∀ q Q pid, proc.parent = some q → s.kernel.tree.view q = some Q →
      (s.point q).waitsFor Q.state = some pid → ¬ proc.view.Matches pid) :
    WaitOk i (s.goto p .halted) := by
  have hfinal : (s.point p).Final := by rw [hpoint]; trivial
  have hmove := h.alert.move (V := proc.view) (x := .halted) (view_eq hp) rfl rfl id
    (fun _ ↦ .inr rfl) (by simp) (by simp) (fun pid hw ↦ by cases hw) fun _ ↦ .inr hnone
  rw [← view_eq hp, update_eq_self] at hmove
  exact h.setPoint (fun _ hpi ↦ h.childless p _ (view_eq hp) (.inr hfinal) hpi) hmove

variable {pid : Word} {wnohang : Bool} (heq : s.step fuel p = some s')
include heq

theorem scan (hpoint : s.point p = .scan pid wnohang) : WaitOk i s' := by
  have hz : proc.state ≠ .zombie := h.not_zombie hp (by simp [hpoint]) (by simp [hpoint])
  obtain ⟨cs, hcs, -, hmem⟩ := h.lists.children hp
  simp only [WaitSys.step, hp, hpoint, Option.bind_eq_bind, Option.bind_some,
    Option.bind_eq_some_iff] at heq
  obtain ⟨found, hfound, heq⟩ := heq
  have hfind := hcs.findNode_eq _ hfound
  cases hr : found with
  | some c =>
    rw [hr] at hfind heq
    simp only [Option.bind_eq_some_iff, Option.some.injEq] at heq
    obtain ⟨k', hk, rfl⟩ := heq
    obtain ⟨C, hC, hparent⟩ := (hmem c).mp (List.mem_of_find?_eq_some hfind.symm)
    have hzombie := List.find?_some hfind.symm
    simp only [isZombieChild, hC, Bool.and_eq_true, decide_eq_true_eq] at hzombie
    have hfinal : (s.point c).Final := by
      rcases h.alert.zombie c _ (view_eq hC) hzombie.2 with hpt | hpt
      · rw [hpt]; trivial
      · rw [hpt]; trivial
    have hleaf := h.childless c _ (view_eq hC) (.inr hfinal) (h.alert.ne_init (view_eq hC) hparent)
    have hleafC : C.children = none := hleaf C.kin (tree_kin hC)
    have hreap := h.reap hC hparent hleafC hk
    have hpc : p ≠ c := by
      rintro rfl
      exact h.alert.proper p _ (view_eq hC) hparent
    have hleaves := processDestroy_leaves h.lists hC hleafC hparent hk
    obtain ⟨P', hP', hviewP⟩ := pcb_of_view (k := k') (p := p) (V := proc.view)
      (by rw [hleaves.view, update_of_ne hpc, view_eq hp])
    exact hreap.leave hP' (by rw [show P'.state = proc.state from congrArg View.state hviewP]; exact hz)
      (.inl rfl)
  | none =>
    rw [hr] at hfind heq
    rw [← Option.some.inj heq]
    have hnone : ∀ c C, s.kernel.tree.view c = some C → C.parent = some p → C.state = .zombie →
        ¬ C.Matches pid := by
      intro c V hc hparent hzombie hm
      obtain ⟨C, hC, rfl⟩ := pcb_of_view hc
      have htest := List.find?_eq_none.mp hfind.symm c ((hmem c).mpr ⟨C, hC, hparent⟩)
      exact htest (isZombieChild_of_matches hC hzombie hm)
    refine h.setPoint False.elim (h.alert.await (view_eq hp) hz (by simp) (by simp) ?_)
    intro pid' hw c C hc hparent hzombie hm
    obtain rfl := Option.some.inj hw
    exact absurd hm (hnone c C hc hparent hzombie)

theorem check (hpoint : s.point p = .check pid wnohang) : WaitOk i s' := by
  have hz : proc.state ≠ .zombie := h.not_zombie hp (by simp [hpoint]) (by simp [hpoint])
  obtain ⟨cs, hcs, -, hmem⟩ := h.lists.children hp
  simp only [WaitSys.step, hp, hpoint, Option.bind_eq_bind, Option.bind_some,
    Option.bind_eq_some_iff] at heq
  obtain ⟨found, hfound, heq⟩ := heq
  have hfind := hcs.findNode_eq _ hfound
  cases hr : found with
  | none =>
    rw [hr] at heq
    rw [← Option.some.inj heq]
    exact h.leave hp hz (.inl rfl)
  | some c =>
    rw [hr] at hfind heq
    rw [← Option.some.inj heq]
    cases wnohang with
    | true => exact h.leave hp hz (.inl rfl)
    | false =>
      obtain ⟨C, hC, -⟩ := (hmem c).mp (List.mem_of_find?_eq_some hfind.symm)
      have hmatch := (isMatchingChild_iff hC).mp (List.find?_some hfind.symm)
      refine h.setPoint False.elim (h.alert.await (view_eq hp) hz ?_ (by simp) ?_)
      · intro pid' hpt
        have hpid : pid' = pid := by simpa using hpt.symm
        rw [hpid]
        exact hmatch.imp_right And.left
      · intro pid' hw
        exact h.alert.waits p _ pid' (view_eq hp) (by rw [hpoint]; exact hw)

theorem record (hpoint : s.point p = .record pid) : WaitOk i s' := by
  have hz : proc.state ≠ .zombie := h.not_zombie hp (by simp [hpoint]) (by simp [hpoint])
  simp only [WaitSys.step, hp, hpoint, Option.bind_eq_bind, Option.bind_some,
    Option.bind_eq_some_iff, Option.some.injEq] at heq
  obtain ⟨k', hk, rfl⟩ := heq
  refine h.modify hp hk (fun _ ↦ ⟨rfl, rfl⟩) id False.elim (h.alert.move (view_eq hp) rfl rfl id
    (fun hz' ↦ absurd hz' hz) ?_ ?_ ?_ fun hz' ↦ absurd hz' hz)
  · intro pid' hpt
    obtain rfl : pid = pid' := by simpa using hpt
    exact h.alert.valid p pid (.inl hpoint)
  · intro pid' hpt
    obtain rfl : pid = pid' := by simpa using hpt
    rfl
  · intro pid' hw
    exact h.alert.waits p _ pid' (view_eq hp) (by rw [hpoint]; exact hw)

theorem sleep (hpoint : s.point p = .sleep pid) : WaitOk i s' := by
  simp only [WaitSys.step, hp, hpoint, Option.bind_eq_bind, Option.bind_some,
    Option.bind_eq_some_iff, Option.some.injEq] at heq
  obtain ⟨k', hk, rfl⟩ := heq
  refine h.modify hp hk (fun _ ↦ ⟨rfl, rfl⟩) id False.elim (h.alert.move (view_eq hp) rfl rfl id
    (fun hz' ↦ by cases hz') ?_ ?_ ?_ fun hz' ↦ by cases hz')
  · intro pid' hpt
    obtain rfl : pid = pid' := by simpa using hpt
    exact h.alert.valid p pid (.inr (.inl hpoint))
  · intro pid' hpt
    obtain rfl : pid = pid' := by simpa using hpt
    exact h.alert.recorded p proc.view pid (view_eq hp) (.inl hpoint)
  · intro pid' hw
    exact h.alert.waits p _ pid' (view_eq hp) (by rw [hpoint]; exact hw)

theorem asleep (hpoint : s.point p = .asleep pid) : WaitOk i s' := by
  have hz : proc.state ≠ .zombie := h.not_zombie hp (by simp [hpoint]) (by simp [hpoint])
  simp only [WaitSys.step, hp, hpoint, Option.bind_eq_bind, Option.bind_some,
    Option.some.injEq] at heq
  rw [← heq]
  split_ifs
  · exact h
  · exact h.leave hp hz (.inr (.inr ⟨pid, false, rfl⟩))

theorem reparent (hpoint : s.point p = .reparent) (htime : s.inTime (.step p) = true) :
    WaitOk i s' := by
  have hz : proc.state ≠ .zombie := h.not_zombie hp (by simp [hpoint]) (by simp [hpoint])
  have hi : s.kernel.initProcess = some i := h.init
  simp only [WaitSys.step, hp, hpoint, hi, Option.bind_eq_bind, Option.bind_some] at heq
  cases hchild : proc.children with
  | none =>
    simp only [hchild, Option.some.injEq] at heq
    rw [← heq]
    exact h.endReparent hp hz fun _ ↦ hchild
  | some c =>
    simp only [hchild] at heq
    split_ifs at heq with hpi
    · rw [← Option.some.inj heq]
      exact h.endReparent hp hz fun hne ↦ absurd hpi hne
    · simp only [Option.bind_eq_some_iff, Option.some.injEq] at heq
      obtain ⟨k', hk, rfl⟩ := heq
      obtain ⟨I, hI, hroot, -⟩ := h.alert.init
      obtain ⟨C, hC, -, hci, hadopts⟩ :=
        reparent_adopts h.lists hp hchild ⟨I, hI, hroot⟩ hpi hk
      have htimely : s.adoptsInTime i c = true := by
        simpa [WaitSys.inTime, hpoint, hp, hi, hchild] using htime
      refine ⟨hadopts.init.trans h.init, hadopts.lists,
        fun q Q hq hf hqi ↦ hadopts.childless hqi ?_, ?_⟩
      · dsimp only at hq
        rw [hadopts.view] at hq
        rcases update_some_cases hq with ⟨rfl, rfl⟩ | ⟨_, hQ⟩
        · exact h.childless q _ (view_eq hC) hf hqi
        · exact h.childless q Q hQ hf hqi
      · dsimp only
        rw [hadopts.view]
        exact h.alert.adopt (view_eq hC) hci (adopts hC htimely)

theorem becomeZombie (hpoint : s.point p = .becomeZombie) : WaitOk i s' := by
  simp only [WaitSys.step, hp, hpoint, Option.bind_eq_bind, Option.bind_some,
    Option.bind_eq_some_iff, Option.some.injEq] at heq
  obtain ⟨k', hk, rfl⟩ := heq
  have hfinal : (s.point p).Final := by rw [hpoint]; trivial
  refine h.modify hp hk (fun _ ↦ ⟨rfl, rfl⟩) id
    (fun _ hpi ↦ h.childless p _ (view_eq hp) (.inr hfinal) hpi)
    (h.alert.move (view_eq hp) rfl rfl id (fun _ ↦ .inl rfl) (by simp) (by simp) ?_ fun _ ↦ .inl rfl)
  intro pid hw
  cases hw

end

end WaitOk

end SeedOS.System
