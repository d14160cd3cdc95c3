import SeedOS.Thread.Exited

namespace SeedOS.Thread

open Foundation Function

abbrev ProcPtr := BitVec 64

/-- A process has been forked and has not run yet, runs, or has exited. -/
inductive ProcPhase
  | forked | running | zombie
  deriving DecidableEq

/-- The threads and the processes they belong to. `entry` says which child a thread has
still to take to user mode, and `forks` which calls of `sys_fork` have created a kernel
thread and not yet recorded it: the thread that forks, the child and the thread's id. -/
structure ForkSys where
  threads : Threads
  id : ThreadPtr → BitVec 64
  nextThreadId : BitVec 64
  entry : ThreadPtr → Option ProcPtr
  procs : List ProcPtr
  phase : ProcPtr → ProcPhase
  kthread : ProcPtr → Option ThreadPtr
  forks : List (ThreadPtr × ProcPtr × BitVec 64)

def kthreadGetKthread (s : ForkSys) (kthreadId : BitVec 64) : Option ThreadPtr :=
  s.threads.list.find? fun p ↦ s.id p = kthreadId

/-- What can happen: acts of the threads, and the parts of `sys_fork`,
`fork_child_user_return`, `process_exit` and `sys_wait4` that concern kernel threads. -/
inductive ForkAct
  | thread (a : ThreadAct)
  | create (p : ThreadPtr)
  | fork (child : ProcPtr) (p : ThreadPtr)
  | assign (child : ProcPtr) (childTid : BitVec 64)
  | userReturn (canonical : Bool)
  | exitProcess (child : ProcPtr)
  | destroy (child : ProcPtr)

namespace ForkSys

def addThread (s : ForkSys) (p : ThreadPtr) (entry : Option ProcPtr) : ForkSys :=
  { s with
    threads := kthreadCreate s.threads p
    id := update s.id p s.nextThreadId
    nextThreadId := s.nextThreadId + 1#64
    entry := update s.entry p entry }

/-- What `process_destroy` does to the thread of the process: it writes to the block that
`kthread` points to, freed or not. -/
def markExited (s : ForkSys) (child : ProcPtr) : Threads :=
  match s.kthread child with
  | some q => s.threads.setState q .exited
  | none => s.threads

def exec (s : ForkSys) : ForkAct → Option ForkSys
  | .thread a => (s.threads.exec a).map fun t ↦ { s with threads := t }
  | .create p => some (s.addThread p none)
  | .fork child p =>
    some { s.addThread p (some child) with
      procs := child :: s.procs
      phase := update s.phase child .forked
      kthread := update s.kthread child none
      forks := (s.threads.current, child, s.nextThreadId) :: s.forks }
  | .assign child childTid =>
    some { s with
      kthread := update s.kthread child (kthreadGetKthread s childTid)
      forks := s.forks.erase (s.threads.current, child, childTid) }
  | .userReturn canonical =>
    (s.entry s.threads.current).map fun child ↦
      { s with
        threads := s.threads.setState s.threads.current .exited
        entry := update s.entry s.threads.current none
        phase := update s.phase child .running
        kthread := update s.kthread child none
        procs := if canonical then s.procs else s.procs.erase child }
  | .exitProcess child => some { s with phase := update s.phase child .zombie }
  | .destroy child =>
    some { s with
      threads := s.markExited child
      kthread := update s.kthread child none
      procs := s.procs.erase child }

end ForkSys

/-- Calls are made by a thread that executes, and a thread that has still to run
`fork_child_user_return` makes no other call before. `sys_wait4` destroys zombies. -/
def ForkSys.Enabled (s : ForkSys) : ForkAct → Prop
  | .thread a => s.threads.Enabled a ∧ a.IsPlain ∧
    (a.IsInterrupt ∨ s.entry s.threads.current = none)
  | .create p => s.threads.Enabled (.create p) ∧ s.entry s.threads.current = none
  | .fork child p => s.threads.Enabled (.create p) ∧ s.entry s.threads.current = none ∧
    child ∉ s.procs
  | .assign child childTid => s.threads.loops s.threads.current = 0 ∧
    (s.threads.current, child, childTid) ∈ s.forks
  | .userReturn _ => s.threads.Enabled (.forkChildReturn true)
  | .exitProcess child => child ∈ s.procs ∧ s.phase child = .running
  | .destroy child => s.threads.loops s.threads.current = 0 ∧ child ∈ s.procs ∧
    s.phase child = .zombie

instance ForkSys.decidableEnabled (s : ForkSys) (a : ForkAct) : Decidable (s.Enabled a) := by
  cases a <;> unfold ForkSys.Enabled <;> infer_instance

structure ForkSys.Start (s : ForkSys) : Prop extends s.threads.Start where
  entry : s.entry genesis = none
  procs : s.procs = []
  forks : s.forks = []

def KthreadsListed (s : ForkSys) : Prop :=
  ∀ c ∈ s.procs, ∀ q, s.kthread c = some q → q ∈ s.threads.list

/-- A child runs only once the fork that made it has recorded its kernel thread, and thread
ids that are in use are not given out again. -/
def ForkSys.Recorded (s : ForkSys) : ForkAct → Prop
  | .userReturn _ => ∀ child, s.entry s.threads.current = some child →
    ∀ f ∈ s.forks, f.2.1 ≠ child
  | .create _ | .fork _ _ => ∀ q ∈ s.threads.list, s.id q ≠ s.nextThreadId
  | _ => True

-- spelled out, as the search would find an enumeration of all pointers
instance ForkSys.decidableRecorded (s : ForkSys) (a : ForkAct) : Decidable (s.Recorded a) :=
  match a with
  | .userReturn _ => decidable_of_iff ((s.entry s.threads.current).all fun child ↦
    s.forks.all (·.2.1 ≠ child)) (by simp [Recorded, Option.all_eq_true])
  | .create _ | .fork _ _ => List.decidableBAll (fun q ↦ s.id q ≠ s.nextThreadId) s.threads.list
  | .thread _ | .assign _ _ | .exitProcess _ | .destroy _ => isTrue trivial

section Run

variable {s s' : ForkSys}

/-- The thread `q` has still to take the child `c` to user mode. -/
structure Backs (s : ForkSys) (c : ProcPtr) (q : ThreadPtr) : Prop where
  listed : q ∈ s.threads.list
  alive : s.threads.state q ≠ .exited
  entry : s.entry q = some c

/-- A process that points to a thread is the one that the thread has still to take to user
mode, and so is a child whose thread is not recorded yet. -/
structure Backed (s : ForkSys) : Prop where
  ids : ∀ p ∈ s.threads.list, ∀ q ∈ s.threads.list, s.id p = s.id q → p = q
  procs : s.procs.Nodup
  live : ∀ c ∈ s.procs, ∀ q, s.kthread c = some q → Backs s c q
  pending : ∀ f ∈ s.forks, f.2.1 ∈ s.procs ∧ s.phase f.2.1 = .forked ∧
    ∃ q, s.id q = f.2.2 ∧ Backs s f.2.1 q

theorem Backs.addThread {c : ProcPtr} {p q : ThreadPtr} {entry : Option ProcPtr} (h : Backs s c q)
    (hp : p ∉ s.threads.list) : Backs (s.addThread p entry) c q := by
  have hqp : q ≠ p := fun he ↦ hp (he ▸ h.listed)
  refine ⟨?_, ?_, ?_⟩
  · show q ∈ s.threads.list ++ [p]
    exact List.mem_append_left _ h.listed
  · simp only [ForkSys.addThread, kthreadCreate, Threads.setState, update_of_ne hqp]
    exact h.alive
  · simp only [ForkSys.addThread, update_of_ne hqp]
    exact h.entry

section

variable (h : Backed s)
include h

theorem Backed.thread {a : ThreadAct} (ha : s.Enabled (.thread a)) {t : Threads}
    (heq : s.threads.exec a = some t) : Backed { s with threads := t } := by
  obtain ⟨_, hplain, hcaller⟩ := ha
  obtain ⟨hsub, hkeep⟩ := plain_step hplain heq
  have hbacks : ∀ c q, Backs s c q → Backs { s with threads := t } c q := by
    intro c q hq
    have hx : a = .exit → q ≠ s.threads.current := by
      rintro rfl rfl
      have := hcaller.resolve_left id
      rw [hq.entry] at this
      simp at this
    obtain ⟨hm, ha⟩ := hkeep q hq.listed hq.alive hx
    exact ⟨hm, ha, hq.entry⟩
  refine ⟨fun p hp q hq ↦ h.ids p (hsub hp) q (hsub hq), h.procs,
    fun c hc q hq ↦ hbacks c q (h.live c hc q hq), fun f hf ↦ ?_⟩
  obtain ⟨hc, hphase, q, hid, hq⟩ := h.pending f hf
  exact ⟨hc, hphase, q, hid, hbacks _ q hq⟩

theorem addThread_ids {p : ThreadPtr} (entry : Option ProcPtr)
    (hid : ∀ q ∈ s.threads.list, s.id q ≠ s.nextThreadId) :
    ∀ x ∈ (s.addThread p entry).threads.list, ∀ y ∈ (s.addThread p entry).threads.list,
      (s.addThread p entry).id x = (s.addThread p entry).id y → x = y := by
  have hmem : ∀ x ∈ (s.addThread p entry).threads.list, x ≠ p → x ∈ s.threads.list := by
    intro x hx hxp
    have hx' : x ∈ s.threads.list ++ [p] := hx
    simpa [hxp] using hx'
  intro x hx y hy hxy
  simp only [ForkSys.addThread] at hxy
  by_cases hxp : x = p
  · by_cases hyp : y = p
    · rw [hxp, hyp]
    · rw [hxp, update_self, update_of_ne hyp] at hxy
      exact absurd hxy.symm (hid y (hmem y hy hyp))
  · by_cases hyp : y = p
    · rw [hyp, update_self, update_of_ne hxp] at hxy
      exact absurd hxy (hid x (hmem x hx hxp))
    · rw [update_of_ne hxp, update_of_ne hyp] at hxy
      exact h.ids x (hmem x hx hxp) y (hmem y hy hyp) hxy

theorem Backed.create {p : ThreadPtr} (hp : p ∉ s.threads.list)
    (hid : ∀ q ∈ s.threads.list, s.id q ≠ s.nextThreadId) : Backed (s.addThread p none) := by
  refine ⟨addThread_ids h none hid, h.procs, fun c hc q hq ↦ (h.live c hc q hq).addThread hp,
    fun f hf ↦ ?_⟩
  obtain ⟨hc, hphase, q, hq, hb⟩ := h.pending f hf
  refine ⟨hc, hphase, q, ?_, hb.addThread hp⟩
  have hqp : q ≠ p := fun he ↦ hp (he ▸ hb.listed)
  simp only [ForkSys.addThread, update_of_ne hqp]
  exact hq

theorem Backed.fork {child : ProcPtr} {p : ThreadPtr} (hp : p ∉ s.threads.list)
    (hchild : child ∉ s.procs) (hid : ∀ q ∈ s.threads.list, s.id q ≠ s.nextThreadId)
    (heq : s.exec (.fork child p) = some s') : Backed s' := by
  obtain rfl := Option.some.inj heq
  have hne : ∀ c ∈ s.procs, c ≠ child := fun c hc he ↦ hchild (he ▸ hc)
  have hold : ∀ c q, Backs s c q → Backs (s.addThread p (some child)) c q :=
    fun c q hq ↦ hq.addThread hp
  refine ⟨addThread_ids h (some child) hid, List.nodup_cons.mpr ⟨hchild, h.procs⟩, fun c hc q hq ↦ ?_,
    fun f hf ↦ ?_⟩
  · by_cases hcc : c = child
    · simp [hcc] at hq
    · have hc' := (List.mem_cons.mp hc).resolve_left hcc
      simp only [update_of_ne hcc] at hq
      obtain ⟨hl, ha, he⟩ := hold c q (h.live c hc' q hq)
      exact ⟨hl, ha, he⟩
  · rcases List.mem_cons.mp hf with rfl | hf
    · refine ⟨List.mem_cons_self, update_self _ _ _, p, ?_, ?_, ?_, ?_⟩
      · simp [ForkSys.addThread]
      · show p ∈ s.threads.list ++ [p]
        simp
      · simp [ForkSys.addThread, kthreadCreate, Threads.setState]
      · simp [ForkSys.addThread]
    · obtain ⟨hc, hphase, q, hq, hb⟩ := h.pending f hf
      have hqp : q ≠ p := fun he ↦ hp (he ▸ hb.listed)
      obtain ⟨hl, ha, he⟩ := hold _ q hb
      refine ⟨List.mem_cons_of_mem _ hc, ?_, q, ?_, hl, ha, he⟩
      · simp only [update_of_ne (hne _ hc)]
        exact hphase
      · simp only [ForkSys.addThread, update_of_ne hqp]
        exact hq

theorem Backed.assign {child : ProcPtr} {childTid : BitVec 64}
    (hf : (s.threads.current, child, childTid) ∈ s.forks)
    (heq : s.exec (.assign child childTid) = some s') : Backed s' := by
  obtain rfl := Option.some.inj heq
  refine ⟨h.ids, h.procs, fun c hc q hq ↦ ?_, fun f hf' ↦ ?_⟩
  · by_cases hcc : c = child
    · obtain ⟨_, _, q', hid, hb⟩ := h.pending _ hf
      simp only [hcc, update_self] at hq
      -- ids are unique, so the lookup finds the thread that the fork created
      have hq' : s.id q = childTid := by simpa using List.find?_some hq
      have hsame : q = q' :=
        h.ids q (List.mem_of_find?_eq_some hq) q' hb.listed (hq'.trans hid.symm)
      rw [hcc, hsame]
      exact ⟨hb.listed, hb.alive, hb.entry⟩
    · simp only [update_of_ne hcc] at hq
      obtain ⟨hl, ha, he⟩ := h.live c hc q hq
      exact ⟨hl, ha, he⟩
  · obtain ⟨hc, hphase, q, hid, hl, ha, he⟩ := h.pending f (List.mem_of_mem_erase hf')
    exact ⟨hc, hphase, q, hid, hl, ha, he⟩

theorem Backed.userReturn {canonical : Bool}
    (hrec : s.Recorded (.userReturn canonical)) (heq : s.exec (.userReturn canonical) = some s') :
    Backed s' := by
  obtain ⟨child, hchild, rfl⟩ := Option.map_eq_some_iff.mp heq
  have hforks := hrec child hchild
  have hsub : (if canonical then s.procs else s.procs.erase child).Sublist s.procs := by
    split_ifs
    · exact List.Sublist.refl _
    · exact List.erase_sublist
  -- another child's thread is not the one that runs
  have hbacks : ∀ c q, c ≠ child → Backs s c q → q ≠ s.threads.current := by
    rintro c q hc hb rfl
    rw [hb.entry] at hchild
    exact hc (Option.some.inj hchild)
  have hkeep : ∀ c q, c ≠ child → Backs s c q →
      q ∈ s.threads.list ∧ update s.threads.state s.threads.current .exited q ≠ .exited ∧
        update s.entry s.threads.current none q = some c := by
    intro c q hc hb
    have hq := hbacks c q hc hb
    rw [update_of_ne hq, update_of_ne hq]
    exact ⟨hb.listed, hb.alive, hb.entry⟩
  refine ⟨h.ids, hsub.nodup h.procs, fun c hc q hq ↦ ?_, fun f hf ↦ ?_⟩
  · by_cases hcc : c = child
    · simp [hcc] at hq
    · simp only [update_of_ne hcc] at hq
      obtain ⟨hl, ha, he⟩ := hkeep c q hcc (h.live c (hsub.subset hc) q hq)
      exact ⟨hl, ha, he⟩
  · obtain ⟨hc, hphase, q, hid, hb⟩ := h.pending f hf
    have hcc := hforks f hf
    obtain ⟨hl, ha, he⟩ := hkeep _ q hcc hb
    refine ⟨?_, ?_, q, hid, hl, ha, he⟩
    · dsimp only
      split_ifs
      · exact hc
      · exact (List.mem_erase_of_ne hcc).mpr hc
    · simp only [update_of_ne hcc]
      exact hphase

theorem Backed.exitProcess {child : ProcPtr} (hrun : s.phase child = .running) :
    Backed { s with phase := update s.phase child .zombie } := by
  refine ⟨h.ids, h.procs, fun c hc q hq ↦ ?_, fun f hf ↦ ?_⟩
  · obtain ⟨hl, ha, he⟩ := h.live c hc q hq
    exact ⟨hl, ha, he⟩
  · obtain ⟨hc, hphase, q, hid, hl, ha, he⟩ := h.pending f hf
    have hne : f.2.1 ≠ child := fun he ↦ by simp [he, hrun] at hphase
    refine ⟨hc, ?_, q, hid, hl, ha, he⟩
    simp only [update_of_ne hne]
    exact hphase

theorem Backed.destroy {child : ProcPtr} (hmem : child ∈ s.procs)
    (hz : s.phase child = .zombie) (heq : s.exec (.destroy child) = some s') : Backed s' := by
  obtain rfl := Option.some.inj heq
  have hlist : (s.markExited child).list = s.threads.list := by
    unfold ForkSys.markExited
    split <;> rfl
  -- the thread that is marked is the child's own
  have hkeep : ∀ c q, c ≠ child → Backs s c q →
      q ∈ (s.markExited child).list ∧ (s.markExited child).state q ≠ .exited := by
    intro c q hc hb
    refine ⟨hlist ▸ hb.listed, ?_⟩
    unfold ForkSys.markExited
    cases hk : s.kthread child with
    | none => exact hb.alive
    | some x =>
      have hqx : q ≠ x := by
        rintro rfl
        have := (h.live child hmem q hk).entry
        rw [hb.entry] at this
        exact hc (Option.some.inj this)
      simp only [Threads.setState, update_of_ne hqx]
      exact hb.alive
  refine ⟨?_, h.procs.erase _, fun c hc q hq ↦ ?_, fun f hf ↦ ?_⟩
  · dsimp only
    rw [hlist]
    exact h.ids
  · obtain ⟨hcc, hc'⟩ := (h.procs.mem_erase_iff).mp hc
    simp only [update_of_ne hcc] at hq
    have hb := h.live c hc' q hq
    obtain ⟨hl, ha⟩ := hkeep c q hcc hb
    exact ⟨hl, ha, hb.entry⟩
  · obtain ⟨hc, hphase, q, hid, hb⟩ := h.pending f hf
    have hne : f.2.1 ≠ child := fun he ↦ by simp [he, hz] at hphase
    obtain ⟨hl, ha⟩ := hkeep _ q hne hb
    exact ⟨(List.mem_erase_of_ne hne).mpr hc, hphase, q, hid, hl, ha, hb.entry⟩

theorem backed_step {a : ForkAct} (ha : s.Enabled a) (hrec : s.Recorded a)
    (heq : s.exec a = some s') : Backed s' := by
  cases a with
  | thread a =>
    obtain ⟨t, ht, rfl⟩ := Option.map_eq_some_iff.mp heq
    exact h.thread ha ht
  | create p => exact Option.some.inj heq ▸ h.create ha.1.2 hrec
  | fork child p => exact h.fork ha.1.2 ha.2.2 hrec heq
  | assign child childTid => exact h.assign ha.2 heq
  | userReturn canonical => exact h.userReturn hrec heq
  | exitProcess child => exact Option.some.inj heq ▸ h.exitProcess ha.2
  | destroy child => exact h.destroy ha.2.1 ha.2.2 heq

end

/-- A process never points at a freed kernel thread, in every run in which a child runs only
after the fork that made it has recorded its thread. -/
theorem kthreads_listed (s₀ s : ForkSys) (h₀ : s₀.Start)
    (hrun : PartialRuns ForkSys.exec (fun s a ↦ s.Enabled a ∧ s.Recorded a) s₀ s) :
    KthreadsListed s := by
  have hstart : Backed s₀ := by
    refine ⟨fun p hp q hq _ ↦ ?_, by simp [h₀.procs], by simp [h₀.procs], by simp [h₀.forks]⟩
    simp only [Threads.list, h₀.others, List.mem_singleton] at hp hq
    rw [hp, hq]
  have h : Backed s := PartialRuns.invariant hrun hstart
    fun s a s' hs ha heq ↦ backed_step hs ha.1 ha.2 heq
  exact fun c hc q hq ↦ (h.live c hc q hq).listed

end Run

def bootForks : ForkSys :=
  ⟨bootThreads, fun _ ↦ 0#64, 1#64, fun _ ↦ none, [], fun _ ↦ .forked, fun _ ↦ none, []⟩

theorem bootForks_start : bootForks.Start := ⟨bootThreads_start, rfl, rfl, rfl⟩

/-- The reaper is thread 1. Init forks process 100 and records the child's thread 2; that thread
runs, exits and leaves the CPU, and the reaper frees it. -/
def promptRecord : List ForkAct :=
  [.create 1#64, .fork 100#64 2#64, .assign 100#64 2#64, .thread .tick, .thread .yield,
    .userReturn true, .thread .tick, .thread .tick, .thread .reap]

theorem kthreads_listed_promptRecord :
    (∃ s, PartialRuns.replay ForkSys.exec (fun s a ↦ s.Enabled a ∧ s.Recorded a) bootForks
      (promptRecord.take 3) = some s ∧ s.kthread 100#64 = some 2#64 ∧ KthreadsListed s) ∧
    ∃ s, PartialRuns.replay ForkSys.exec (fun s a ↦ s.Enabled a ∧ s.Recorded a) bootForks
      promptRecord = some s ∧ 100#64 ∈ s.procs ∧ 2#64 ∉ s.threads.list ∧ KthreadsListed s := by
  have hrecorded : (PartialRuns.replay ForkSys.exec (fun s a ↦ s.Enabled a ∧ s.Recorded a) bootForks
      (promptRecord.take 3)).any (fun s ↦ s.kthread 100#64 = some 2#64) = true := by
    decide +kernel
  have hreaped : (PartialRuns.replay ForkSys.exec (fun s a ↦ s.Enabled a ∧ s.Recorded a) bootForks
      promptRecord).any (fun s ↦ 100#64 ∈ s.procs ∧ 2#64 ∉ s.threads.list) = true := by
    decide +kernel
  obtain ⟨s, hs, hk⟩ := (Option.any_eq_true ..).mp hrecorded
  obtain ⟨s', hs', hfreed⟩ := (Option.any_eq_true ..).mp hreaped
  rw [decide_eq_true_eq] at hk hfreed
  exact ⟨⟨s, hs, hk, kthreads_listed bootForks s bootForks_start (.of_replay hs)⟩, s', hs',
    hfreed.1, hfreed.2, kthreads_listed bootForks s' bootForks_start (.of_replay hs')⟩

/-- The child's thread runs before init has recorded it. -/
def lateRecord : List ForkAct :=
  [.create 1#64, .fork 100#64 2#64, .thread .tick, .thread .yield, .userReturn true,
    .thread .tick, .assign 100#64 2#64, .thread .tick, .thread .reap]

theorem kthread_dangles : bootForks.Start ∧
    ∃ s, PartialRuns ForkSys.exec ForkSys.Enabled bootForks s ∧ 100#64 ∈ s.procs ∧
      s.kthread 100#64 = some 2#64 ∧ 2#64 ∉ s.threads.list ∧ ¬ KthreadsListed s := by
  obtain ⟨s, hs⟩ := Option.isSome_iff_exists.mp
    (show (PartialRuns.replay ForkSys.exec ForkSys.Enabled bootForks lateRecord).isSome = true by
      decide)
  have hfacts : (PartialRuns.replay ForkSys.exec ForkSys.Enabled bootForks lateRecord).all
      (fun s ↦ 100#64 ∈ s.procs ∧ s.kthread 100#64 = some 2#64 ∧ 2#64 ∉ s.threads.list) = true := by
    decide
  rw [hs, Option.all_some, decide_eq_true_eq] at hfacts
  obtain ⟨hp, hk, hl⟩ := hfacts
  exact ⟨bootForks_start, s, .of_replay hs, hp, hk, hl, fun h ↦ hl (h _ hp _ hk)⟩

end SeedOS.Thread
