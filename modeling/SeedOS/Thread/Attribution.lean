import SeedOS.Thread.ForkKthread

namespace SeedOS.Thread

open Foundation Function

/-- The threads, and what the kernel keeps for the process that it takes to be running: the
current process, the page table root, the percpu kernel stack and `TSS.rsp0`. `process` says
whose user code a thread runs, `entry` which child it has still to take to user mode. -/
structure ProcSys where
  threads : Threads
  entry : ThreadPtr → Option ProcPtr
  process : ThreadPtr → Option ProcPtr
  inSyscall : ThreadPtr → Bool
  pml4Phys : ProcPtr → BitVec 64
  kernelStackTop : ProcPtr → BitVec 64
  currentProc : Option ProcPtr
  cr3 : BitVec 64
  kernelRsp : BitVec 64
  rsp0 : BitVec 64

inductive ProcAct
  | thread (a : ThreadAct)
  | create (p : ThreadPtr)
  | startInit (init : ProcPtr)
  | fork (child : ProcPtr) (p : ThreadPtr)
  | forkChildUserReturn (canonical : Bool)
  | destroy (p : ThreadPtr)
  | syscall
  | sysret

namespace ProcSys

/-- `process_set_current`, `gdt_set_tss_rsp0` and `vmm_switch_address_space`, and the way to
user mode. -/
def install (s : ProcSys) (proc : ProcPtr) : ProcSys :=
  { s with
    process := update s.process s.threads.current (some proc)
    inSyscall := update s.inSyscall s.threads.current false
    currentProc := some proc
    cr3 := s.pml4Phys proc
    kernelRsp := s.kernelStackTop proc
    rsp0 := s.kernelStackTop proc }

def addThread (s : ProcSys) (p : ThreadPtr) (entry : Option ProcPtr) : ProcSys :=
  { s with
    threads := kthreadCreate s.threads p
    entry := update s.entry p entry
    process := update s.process p none
    inSyscall := update s.inSyscall p false }

def exec (s : ProcSys) : ProcAct → Option ProcSys
  | .thread a => (s.threads.exec a).map fun t ↦ { s with threads := t }
  | .create p => some (s.addThread p none)
  | .startInit init => some (s.install init)
  | .fork child p => some (s.addThread p (some child))
  | .forkChildUserReturn canonical =>
    (s.entry s.threads.current).map fun child ↦
      let s' := { s with
        threads := s.threads.setState s.threads.current .exited
        entry := update s.entry s.threads.current none }
      if canonical then s'.install child else s'
  -- what `process_destroy` does to the thread of the process
  | .destroy p => some { s with threads := s.threads.setState p .exited }
  | .syscall => some { s with inSyscall := update s.inSyscall s.threads.current true }
  | .sysret => some { s with inSyscall := update s.inSyscall s.threads.current false }

/-- The thread that executes is in kernel code of its own or in a system call. -/
def InKernel (s : ProcSys) : Prop :=
  s.threads.loops s.threads.current = 0 ∧ s.entry s.threads.current = none ∧
    (s.process s.threads.current = none ∨ s.inSyscall s.threads.current = true)

instance decidableInKernel (s : ProcSys) : Decidable s.InKernel :=
  inferInstanceAs (Decidable (_ ∧ _ ∧ _))

/-- Interrupts come at any time, calls from kernel code. A thread with a child to take to user
mode makes no other call before. `start_init` is called for the first process, `sys_fork` in a
system call. -/
def Enabled (s : ProcSys) : ProcAct → Prop
  | .thread a => s.threads.Enabled a ∧ (a.IsInterrupt ∨ s.InKernel) ∧ a.IsPlain
  | .create p => s.InKernel ∧ p ∉ s.threads.list
  | .startInit _ => s.InKernel ∧ s.currentProc = none
  | .fork _ p => s.InKernel ∧ (s.process s.threads.current).isSome ∧ p ∉ s.threads.list
  | .forkChildUserReturn _ => s.threads.Enabled (.forkChildReturn true)
  | .destroy p => s.InKernel ∧ p ≠ genesis
  | .syscall => s.threads.loops s.threads.current = 0 ∧
    (s.process s.threads.current).isSome ∧ s.inSyscall s.threads.current = false
  | .sysret => s.InKernel ∧ (s.process s.threads.current).isSome

instance decidableEnabled (s : ProcSys) (a : ProcAct) : Decidable (s.Enabled a) := by
  cases a <;> unfold Enabled <;> infer_instance

/-- All that the kernel keeps is about this process. -/
structure Installed (s : ProcSys) (proc : ProcPtr) : Prop where
  current : s.currentProc = some proc
  space : s.cr3 = s.pml4Phys proc
  stack : s.kernelRsp = s.kernelStackTop proc
  rsp0 : s.rsp0 = s.kernelStackTop proc

/-- Whenever a system call is executed, it is one of the process that the kernel takes to be
running. -/
def Attributed (s : ProcSys) : Prop :=
  ∀ proc, s.process s.threads.current = some proc → s.inSyscall s.threads.current = true →
    s.Installed proc

/-- A child is taken to user mode only when every other thread that runs a process has
exited. -/
def Alone (s : ProcSys) : ProcAct → Prop
  | .forkChildUserReturn _ => ∀ q, q ≠ s.threads.current → (s.process q).isSome →
    s.threads.state q = .exited
  | _ => True

structure Start (s : ProcSys) : Prop extends s.threads.Start where
  entry : ∀ q, s.entry q = none
  process : ∀ q, s.process q = none
  currentProc : s.currentProc = none

end ProcSys

section Alive

variable {s s' : Threads} {a : ThreadAct}

/-- Only a thread that could run already, or did, can run after this step. -/
def NoneRevived (s s' : Threads) : Prop :=
  ∀ q, s'.state q ≠ .exited ∨ q = s'.current → s.state q ≠ .exited ∨ q = s.current

theorem Spares.noneRevived (h : Spares s s') : NoneRevived s s' := by
  rintro q (hq | rfl)
  · exact .inl fun he ↦ hq (h.stays q he)
  · exact h.chosen.symm.imp_right id

theorem call_noneRevived {x : ThreadState} {wakeTick : ThreadPtr → BitVec 64} (hm : Mortal s)
    (hx : x ≠ .exited) (h0 : s.loops s.current = 0)
    (heq : kthreadSchedule { s.setState s.current x with wakeTick := wakeTick } = some s') :
    NoneRevived s s' ∧ Mortal s' := by
  obtain ⟨t, ht⟩ : ∃ t, t = { s.setState s.current x with wakeTick := wakeTick } := ⟨_, rfl⟩
  rw [← ht] at heq
  have hstate : t.state = update s.state s.current x := by rw [ht]; rfl
  have hcur : t.current = s.current := by rw [ht]; rfl
  have hloops : t.loops t.current = 0 := by rw [ht]; exact h0
  have hgen : t.state genesis ≠ .exited := by
    rw [hstate, update_apply]
    split_ifs
    · exact hx
    · exact hm.genesis
  have hspares := schedule_spares (fun hne ↦ absurd hloops hne) heq
  refine ⟨fun q hq ↦ ?_, (hspares.step (a := .schedule) ⟨hgen, fun hne ↦ absurd hloops hne⟩).2⟩
  have hq' := hspares.noneRevived q hq
  rw [hstate, hcur, update_apply] at hq'
  split_ifs at hq' with hqc
  · exact .inr hqc
  · exact hq'

theorem marked_noneRevived {p : ThreadPtr} : NoneRevived s (s.setState p .exited) := by
  rintro q (hq | hq)
  · refine .inl fun he ↦ hq ?_
    simp only [Threads.setState, update_apply]
    split_ifs
    · rfl
    · exact he
  · exact .inr hq

theorem exit_noneRevived (hm : Mortal s) (hc : s.current ≠ genesis) :
    NoneRevived s (kthreadExit s) := by
  obtain ⟨t, hstate, hcur, -, -, hspares⟩ := exit_spares hm hc
  intro q hq
  rcases hspares.noneRevived q hq with hne | hq'
  · rw [hstate, update_apply] at hne
    split_ifs at hne with hqc
    · exact absurd rfl hne
    · exact .inl hne
  · rw [hq', hcur]
    exact .inl hm.genesis

theorem plain_noneRevived (hm : Mortal s) (ha : s.Enabled a) (hplain : a.IsPlain)
    (heq : s.exec a = some s') : NoneRevived s s' ∧ Mortal s' := by
  cases a with
  | create p => exact hplain.elim
  | forkChildReturn c => exact hplain.elim
  | destroy p => exact hplain.elim
  | sleep ms => exact call_noneRevived (x := .blocked) hm (by simp) ha heq
  | yield => exact call_noneRevived (x := .ready) hm (by simp) ha heq
  | block => exact call_noneRevived (x := .blocked) hm (by simp) ha heq
  | unblock p =>
    have hspares := Option.some.inj heq ▸ unblock_spares (p := p) ha
    exact ⟨hspares.noneRevived, (hspares.step (a := .schedule) hm).2⟩
  | schedule =>
    have hspares := schedule_spares hm.loops heq
    exact ⟨hspares.noneRevived, (hspares.step (a := .schedule) hm).2⟩
  | exit =>
    rw [← Option.some.inj heq]
    exact ⟨exit_noneRevived hm ha.2, (exit_stays (a := .exit) hm ha.2).2⟩
  | reap =>
    rw [← Option.some.inj heq]
    exact ⟨fun q ↦ id, hm.genesis, hm.loops⟩
  | preemptDisable =>
    rw [← Option.some.inj heq]
    exact ⟨fun q ↦ id, hm.genesis, hm.loops⟩
  | preemptEnable =>
    rw [← Option.some.inj heq]
    exact ⟨fun q ↦ id, hm.genesis, hm.loops⟩
  | tick =>
    have hspares := timer_spares hm.loops heq
    exact ⟨hspares.noneRevived, (hspares.step (a := .tick) hm).2⟩
  | interrupt =>
    rw [← Option.some.inj heq]
    have hspares := resume_spares hm.loops
    exact ⟨hspares.noneRevived, (hspares.step (a := .interrupt) hm).2⟩

end Alive

namespace ProcSys

variable {s s' s₀ : ProcSys}

/-- Every thread that can still run and runs a process runs the installed one. -/
structure Owned (s : ProcSys) : Prop where
  mortal : Mortal s.threads
  first : s.currentProc = none → ∀ q, s.process q = none
  installed : ∀ q proc, s.process q = some proc →
    s.threads.state q ≠ .exited ∨ q = s.threads.current → s.Installed proc

theorem Owned.thread (h : s.Owned) {a : ThreadAct} (ha : s.Enabled (.thread a)) {t : Threads}
    (heq : s.threads.exec a = some t) : ({ s with threads := t } : ProcSys).Owned := by
  obtain ⟨hrevived, hm⟩ := plain_noneRevived h.mortal ha.1 ha.2.2 heq
  refine ⟨hm, h.first, fun q proc hq hr ↦ ?_⟩
  obtain ⟨hcur, hspace, hstack, hrsp⟩ := h.installed q proc hq (hrevived q hr)
  exact ⟨hcur, hspace, hstack, hrsp⟩

theorem Owned.addThread (h : s.Owned) {p : ThreadPtr} (hp : p ∉ s.threads.list)
    (h0 : s.threads.loops s.threads.current = 0) (entry : Option ProcPtr) :
    (s.addThread p entry).Owned := by
  refine ⟨(create_stays (a := .create p) h.mortal h0 hp).2, fun hnone q ↦ ?_,
    fun q proc hq hr ↦ ?_⟩
  · have hold := h.first hnone q
    by_cases hqp : q = p
    · rw [hqp]
      exact update_self _ _ _
    · exact (update_of_ne hqp _ _).trans hold
  · have hqp : q ≠ p := by
      rintro rfl
      simp [ProcSys.addThread] at hq
    have hq' : s.process q = some proc := (update_of_ne hqp _ _).symm.trans hq
    have hstate : (kthreadCreate s.threads p).state q = s.threads.state q := update_of_ne hqp _ _
    have hr' : s.threads.state q ≠ .exited ∨ q = s.threads.current := by
      rw [← hstate]
      exact hr
    obtain ⟨hcur, hspace, hstack, hrsp⟩ := h.installed q proc hq' hr'
    exact ⟨hcur, hspace, hstack, hrsp⟩

theorem install_installed (s : ProcSys) (proc : ProcPtr) : (s.install proc).Installed proc :=
  ⟨rfl, rfl, rfl, rfl⟩

theorem Owned.install {proc : ProcPtr} (hm : Mortal s.threads)
    (halone : ∀ q, q ≠ s.threads.current → (s.process q).isSome → s.threads.state q = .exited) :
    (s.install proc).Owned := by
  refine ⟨hm, (fun hnone ↦ by cases hnone), fun q P hq hr ↦ ?_⟩
  by_cases hqc : q = s.threads.current
  · have hP : (s.install proc).process q = some proc := by
      rw [hqc]
      exact update_self _ _ _
    obtain rfl := Option.some.inj (hP.symm.trans hq)
    exact install_installed s proc
  · have hq' : s.process q = some P := (update_of_ne hqc _ _).symm.trans hq
    have hexited := halone q hqc (by rw [hq']; rfl)
    exact absurd hr (not_or.mpr ⟨not_not.mpr hexited, hqc⟩)

theorem Owned.exec (h : s.Owned) {a : ProcAct} (ha : s.Enabled a) (halone : s.Alone a)
    (heq : s.exec a = some s') : s'.Owned := by
  cases a with
  | thread a =>
    obtain ⟨t, ht, rfl⟩ := Option.map_eq_some_iff.mp heq
    exact h.thread ha ht
  | create p =>
    rw [← Option.some.inj heq]
    exact h.addThread ha.2 ha.1.1 none
  | startInit init =>
    rw [← Option.some.inj heq]
    refine Owned.install h.mortal fun q _ hq ↦ ?_
    simp [h.first ha.2 q] at hq
  | fork child p =>
    rw [← Option.some.inj heq]
    exact h.addThread ha.2.2 ha.1.1 (some child)
  | forkChildUserReturn canonical =>
    obtain ⟨child, _, rfl⟩ := Option.map_eq_some_iff.mp heq
    have hm := (exited_stays (a := .forkChildReturn true) h.mortal ha.1 ha.2).2
    cases canonical with
    | true =>
      refine Owned.install hm fun q hqc hq ↦ ?_
      have hexited := halone q hqc hq
      exact (update_of_ne hqc _ _).trans hexited
    | false =>
      refine ⟨hm, h.first, fun q proc hq hr ↦ ?_⟩
      obtain ⟨hcur, hspace, hstack, hrsp⟩ := h.installed q proc hq (marked_noneRevived q hr)
      exact ⟨hcur, hspace, hstack, hrsp⟩
  | destroy p =>
    rw [← Option.some.inj heq]
    refine ⟨(exited_stays (a := .destroy p) h.mortal ha.1.1 ha.2).2, h.first,
      fun q proc hq hr ↦ ?_⟩
    obtain ⟨hcur, hspace, hstack, hrsp⟩ := h.installed q proc hq (marked_noneRevived q hr)
    exact ⟨hcur, hspace, hstack, hrsp⟩
  | syscall | sysret =>
    rw [← Option.some.inj heq]
    refine ⟨h.mortal, h.first, fun q proc hq hr ↦ ?_⟩
    obtain ⟨hcur, hspace, hstack, hrsp⟩ := h.installed q proc hq hr
    exact ⟨hcur, hspace, hstack, hrsp⟩

/-- Process attribution, in every run in which a forked child is taken to user mode only when
no other process can run. -/
theorem syscalls_attributed (h₀ : s₀.Start)
    (hrun : PartialRuns ProcSys.exec (fun s a ↦ s.Enabled a ∧ s.Alone a) s₀ s) : s.Attributed := by
  have h : s.Owned := by
    refine PartialRuns.invariant hrun ⟨⟨?_, fun hne ↦ absurd ?_ hne⟩, fun _ ↦ h₀.process,
      fun q proc hq ↦ ?_⟩ fun s a s' hs ha heq ↦ hs.exec ha.1 ha.2 heq
    · simp [h₀.running]
    · rw [h₀.toStart.current, h₀.loops]
    · simp [h₀.process q] at hq
  exact fun proc hp _ ↦ h.installed _ proc hp (.inr rfl)

end ProcSys

section Small

def bootProcs : ProcSys where
  threads := bootThreads
  entry _ := none
  process _ := none
  inSyscall _ := false
  pml4Phys proc := proc + 0x1000#64
  kernelStackTop proc := proc + 0x4000#64
  currentProc := none
  cr3 := 0#64
  kernelRsp := 0#64
  rsp0 := 0#64

theorem bootProcs_start : bootProcs.Start :=
  ⟨bootThreads_start, fun _ ↦ rfl, fun _ ↦ rfl, rfl⟩

/-- Init calls the kernel. -/
theorem syscalls_attributed_init :
    ∃ s, bootProcs.exec (.startInit 100#64) = some s ∧ ∃ s', s.exec .syscall = some s' ∧
      s'.process s'.threads.current = some 100#64 ∧ s'.Attributed := by
  have hinit : (bootProcs.install 100#64).Enabled .syscall := by decide
  have hstart : PartialRuns ProcSys.exec (fun s a ↦ s.Enabled a ∧ s.Alone a) bootProcs
      (bootProcs.install 100#64) :=
    .step .refl (a := .startInit 100#64) ⟨by decide, trivial⟩ rfl
  have hrun := hstart.step (a := .syscall) ⟨hinit, trivial⟩ rfl
  exact ⟨_, rfl, _, rfl, rfl, ProcSys.syscalls_attributed bootProcs_start hrun⟩

/-- Init, which is process 100 on `genesis`, forks process 101 on thread 1. A tick runs the
child, the next one runs init again, and init calls the kernel. -/
def childPreempted : List ProcAct :=
  [.startInit 100#64, .syscall, .fork 101#64 1#64, .sysret, .thread .tick,
    .forkChildUserReturn true, .thread .tick, .syscall]

/-- The system call of init is attributed to its child. -/
theorem syscall_misattributed : bootProcs.Start ∧
    ∃ s, PartialRuns ProcSys.exec ProcSys.Enabled bootProcs s ∧
      s.process s.threads.current = some 100#64 ∧ s.inSyscall s.threads.current = true ∧
      s.currentProc = some 101#64 ∧ s.cr3 = s.pml4Phys 101#64 ∧
      s.kernelRsp = s.kernelStackTop 101#64 ∧ ¬ s.Attributed := by
  have hcheck : (PartialRuns.replay ProcSys.exec ProcSys.Enabled bootProcs childPreempted).any
      fun s ↦ s.process s.threads.current = some 100#64 && s.inSyscall s.threads.current &&
        s.currentProc = some 101#64 && s.cr3 = s.pml4Phys 101#64 &&
        s.kernelRsp = s.kernelStackTop 101#64 := by
    decide +kernel
  obtain ⟨s, hs, hcheck⟩ := (Option.any_eq_true ..).mp hcheck
  simp only [Bool.and_eq_true, decide_eq_true_eq] at hcheck
  obtain ⟨⟨⟨⟨hproc, hcall⟩, hcur⟩, hspace⟩, hstack⟩ := hcheck
  refine ⟨bootProcs_start, s, PartialRuns.of_replay hs, hproc, hcall, hcur, hspace, hstack,
    fun h ↦ ?_⟩
  have hwrong := hcur.symm.trans (h 100#64 hproc hcall).current
  exact absurd hwrong (by decide)

end Small

end SeedOS.Thread
