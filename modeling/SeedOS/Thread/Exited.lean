import SeedOS.Thread.Settled

namespace SeedOS.Thread

open Foundation Function

/-- In this step a thread that has exited stays so until it is freed, and the CPU does not
go to it. -/
def StaysExited (s : Threads) (a : ThreadAct) (s' : Threads) : Prop :=
  ∀ p ∈ s.list, s.state p = .exited →
    (p ∈ s'.list → s'.state p = .exited) ∧ (p ∉ s'.list → a = .reap) ∧
      (s'.current = p → s.current = p)

/-- A thread that has exited calls nothing that sets its state. -/
def Threads.Silent (s : Threads) : ThreadAct → Prop
  | .yield | .sleep _ | .block => s.state s.current ≠ .exited
  | _ => True

/-- The scheduler and the halting loop leave exited threads alone. -/
structure Spares (s s' : Threads) : Prop extends NoneEnters .exited s s' where
  stays : ∀ p, s.state p = .exited → s'.state p = .exited
  chosen : s'.current = s.current ∨ s.state s'.current ≠ .exited
  loops : s'.loops s'.current ≠ 0 → s'.state s'.current ≠ .exited

section Steps

variable {s s' : Threads}

/-- `genesis` has not exited, and no thread that has exited halts. -/
structure Mortal (s : Threads) : Prop where
  genesis : s.state genesis ≠ .exited
  loops : s.loops s.current ≠ 0 → s.state s.current ≠ .exited

theorem Spares.trans {t : Threads} (h : Spares s t) (h' : Spares t s') : Spares s s' where
  toNoneEnters := h.toNoneEnters.trans h'.toNoneEnters
  stays p hp := h'.stays p (h.stays p hp)
  chosen := by
    rcases h'.chosen with hc | hc
    · rw [hc]
      exact h.chosen
    · exact .inr fun he ↦ hc (h.stays _ he)
  loops := h'.loops

theorem exited_update {state : ThreadPtr → ThreadState} {q p : ThreadPtr} {x : ThreadState}
    (hq : state q ≠ .exited) (h : state p = .exited) : update state q x p = .exited := by
  rw [update_of_ne fun he : p = q ↦ hq (he ▸ h), h]

theorem resume_spares (h : s.loops s.current ≠ 0 → s.state s.current ≠ .exited) :
    Spares s (resume s) := by
  have hnone := resume_noneEnters exited_idle s
  have hw := wakeSleepers_exited s
  have hr := resume_cases s
  generalize resume s = r at hr hnone ⊢
  cases hr with
  | same h0 => exact ⟨hnone, fun _ ↦ id, .inl rfl, fun hne ↦ absurd h0 hne⟩
  | switch h0 t hb hready hmem =>
    have ht : (kthreadWakeSleepers s).state t ≠ .exited := by simp [hready]
    exact ⟨hnone, fun p hp ↦ exited_update ht ((hw p).mp hp), .inr fun he ↦ ht ((hw t).mp he),
      fun _ ↦ by simp⟩
  | halt h0 hb => exact ⟨hnone, fun p ↦ (hw p).mp, .inl rfl, fun _ he ↦ h h0 ((hw _).mpr he)⟩
  | leave h0 hb =>
    exact ⟨hnone, fun p hp ↦ exited_update (fun he ↦ h h0 ((hw _).mpr he)) ((hw p).mp hp), .inl rfl,
      fun _ ↦ by simp⟩

theorem exited_switched {q p : ThreadPtr} (hq : s.state q ≠ .exited) (h : s.state p = .exited) :
    switchedState s q p = .exited := by
  unfold switchedState
  split_ifs with hr
  · have hc : s.state s.current ≠ .exited := by simp [hr]
    exact exited_update (fun he ↦ hq (of_update (by simp) he)) (exited_update hc h)
  · exact exited_update hq h

theorem schedule_spares (h : s.loops s.current ≠ 0 → s.state s.current ≠ .exited)
    (heq : kthreadSchedule s = some s') : Spares s s' := by
  have hnone := schedule_noneEnters exited_idle heq
  have hw := wakeSleepers_exited s
  rcases kthreadSchedule_cases heq with ⟨_, rfl⟩ | hs
  · exact ⟨hnone, fun _ ↦ id, .inl rfl, h⟩
  · cases hs with
    | switch q hready hmem hne =>
      have hq : (kthreadWakeSleepers s).state q ≠ .exited := by simp [hready]
      refine ⟨hnone, fun p hp ↦ exited_switched hq ((hw p).mp hp), .inr fun he ↦ hq ((hw q).mp he),
        fun h0 ↦ ?_⟩
      simp at h0
    | halt hb =>
      refine ⟨hnone, fun p ↦ (hw p).mp, .inl rfl, fun _ ↦ ?_⟩
      dsimp only
      rw [hb]
      simp
    | stay hb =>
      exact ⟨hnone, fun p ↦ (hw p).mp, .inl rfl, fun h0 he ↦ h h0 ((hw _).mpr he)⟩

theorem timer_spares (h : s.loops s.current ≠ 0 → s.state s.current ≠ .exited)
    (heq : apicTimerHandler s = some s') : Spares s s' := by
  obtain ⟨t, ht, hs'⟩ := apicTimerHandler_cases heq
  have hw := wakeSleepers_exited { s with ticks := s.ticks + 1 }
  have hsw : Spares s (kthreadWakeSleepers { s with ticks := s.ticks + 1 }) :=
    ⟨⟨rfl, fun p ↦ (hw p).mpr⟩, fun p ↦ (hw p).mp, .inl rfl, fun h0 he ↦ h h0 ((hw _).mpr he)⟩
  have hst := hsw.trans (schedule_spares hsw.loops ht)
  rcases hs' with rfl | rfl
  · exact hst
  · exact hst.trans (resume_spares hst.loops)

/-- A thread that executes and has not exited changes its state, and perhaps its wake tick,
before it calls the scheduler. -/
theorem call_spares {x : ThreadState} {wakeTick : ThreadPtr → BitVec 64}
    (h0 : s.loops s.current = 0) (hc : s.state s.current ≠ .exited) (hx : x ≠ .exited)
    (heq : kthreadSchedule { s.setState s.current x with wakeTick := wakeTick } = some s') :
    Spares s s' := by
  have h₁ : Spares s { s.setState s.current x with wakeTick := wakeTick } :=
    ⟨⟨rfl, fun _ ↦ of_update hx⟩, fun _ ↦ exited_update hc, .inl rfl,
      fun hne ↦ absurd h0 hne⟩
  exact h₁.trans (schedule_spares h₁.loops heq)

theorem unblock_spares {p : ThreadPtr} (h0 : s.loops s.current = 0) :
    Spares s (kthreadUnblock s p) := by
  unfold kthreadUnblock
  split_ifs with hb
  · exact ⟨⟨rfl, fun _ ↦ of_update (by simp)⟩, fun _ ↦ exited_update (by simp [hb]),
      .inl rfl, fun hne ↦ absurd h0 hne⟩
  · exact ⟨⟨rfl, fun _ ↦ id⟩, fun _ ↦ id, .inl rfl, fun hne ↦ absurd h0 hne⟩

end Steps

/-- The acts that do not make a thread or mark one exited, other than the caller. -/
def ThreadAct.IsPlain : ThreadAct → Prop
  | .create _ | .forkChildReturn _ | .destroy _ => False
  | _ => True

instance (a : ThreadAct) : Decidable a.IsPlain :=
  match a with
  | .create _ | .forkChildReturn _ | .destroy _ => isFalse not_false
  | .sleep _ | .yield | .block | .unblock _ | .schedule | .exit | .reap | .preemptDisable
  | .preemptEnable | .tick | .interrupt => isTrue trivial

section Plain

variable {s s' : Threads} {a : ThreadAct}

theorem plain_step (ha : a.IsPlain) (heq : s.exec a = some s') :
    s'.list ⊆ s.list ∧ ∀ q ∈ s.list, s.state q ≠ .exited → (a = .exit → q ≠ s.current) →
      q ∈ s'.list ∧ s'.state q ≠ .exited := by
  have hof : NoneEnters .exited s s' → s'.list ⊆ s.list ∧ ∀ q ∈ s.list, s.state q ≠ .exited →
      (a = .exit → q ≠ s.current) → q ∈ s'.list ∧ s'.state q ≠ .exited := fun h ↦
    ⟨h.list ▸ List.Subset.refl _, fun q hq hne _ ↦ ⟨h.list ▸ hq, fun he ↦ hne (h.enters q he)⟩⟩
  have hcall : ∀ x wakeTick, x ≠ ThreadState.exited →
      kthreadSchedule { s.setState s.current x with wakeTick := wakeTick } = some s' →
      NoneEnters .exited s s' := by
    intro x wakeTick hx h
    refine NoneEnters.trans ?_ (schedule_noneEnters exited_idle h)
    exact ⟨rfl, fun _ ↦ of_update hx⟩
  cases a with
  | create p | forkChildReturn c | destroy p => exact ha.elim
  | sleep ms => exact hof (hcall .blocked _ (by simp) heq)
  | yield => exact hof (hcall .ready s.wakeTick (by simp) heq)
  | block => exact hof (hcall .blocked _ (by simp) heq)
  | unblock p =>
    obtain rfl := Option.some.inj heq
    refine hof ?_
    unfold kthreadUnblock
    split_ifs
    · exact ⟨rfl, fun _ ↦ of_update (by simp)⟩
    · exact ⟨rfl, fun _ ↦ id⟩
  | schedule => exact hof (schedule_noneEnters exited_idle heq)
  | exit =>
    obtain rfl := Option.some.inj heq
    have hr := resume_noneEnters exited_idle { s.setState s.current .exited with current := genesis }
    refine ⟨?_, fun q hq hne hc ↦ ⟨?_, fun he ↦ hne ?_⟩⟩
    · rw [kthreadExit, hr.list]
      exact List.Subset.refl _
    · rw [kthreadExit, hr.list]
      exact hq
    · have h := hr.enters q he
      simp only [Threads.setState, update_of_ne (hc rfl)] at h
      exact h
  | reap =>
    obtain rfl := Option.some.inj heq
    have hsub : (kthreadReap s).list.Sublist s.list := List.filter_sublist.cons_cons _
    refine ⟨hsub.subset, fun q hq hne _ ↦ ⟨?_, hne⟩⟩
    have hmem := List.mem_cons.mp hq
    simpa [kthreadReap, Threads.list, hne] using hmem
  | preemptDisable | preemptEnable =>
    obtain rfl := Option.some.inj heq
    exact hof ⟨rfl, fun _ ↦ id⟩
  | tick => exact hof (timer_noneEnters exited_idle heq)
  | interrupt => exact hof (Option.some.inj heq ▸ resume_noneEnters exited_idle s)

end Plain

section Run

variable {s s' : Threads} {a : ThreadAct}

theorem Spares.step (h : Spares s s') (hm : Mortal s) : StaysExited s a s' ∧ Mortal s' := by
  refine ⟨fun p hp he ↦ ⟨fun _ ↦ h.stays p he, fun hn ↦ absurd (h.list ▸ hp) hn, ?_⟩,
    fun he ↦ hm.genesis (h.enters _ he), h.loops⟩
  rintro rfl
  exact (h.chosen.resolve_right fun hne ↦ hne he).symm

theorem exited_stays {p : ThreadPtr} (hm : Mortal s) (h0 : s.loops s.current = 0)
    (hp : p ≠ genesis) : StaysExited s a (s.setState p .exited) ∧
      Mortal (s.setState p .exited) := by
  refine ⟨fun q hq he ↦ ⟨fun _ ↦ ?_, fun hn ↦ absurd hq hn, id⟩, ?_, fun hne ↦ absurd h0 hne⟩
  · simp only [Threads.setState, update_apply]
    split_ifs
    · rfl
    · exact he
  · simp only [Threads.setState, update_of_ne (Ne.symm hp)]
    exact hm.genesis

theorem exit_spares (hm : Mortal s) (hc : s.current ≠ genesis) : ∃ t : Threads,
    t.state = update s.state s.current .exited ∧ t.current = genesis ∧ t.list = s.list ∧
      t.state genesis ≠ .exited ∧ Spares t (kthreadExit s) := by
  have hgen : update s.state s.current .exited genesis ≠ .exited := by
    rw [update_of_ne (Ne.symm hc)]
    exact hm.genesis
  exact ⟨{ s.setState s.current .exited with current := genesis }, rfl, rfl, rfl, hgen,
    resume_spares fun _ ↦ hgen⟩

theorem exit_stays (hm : Mortal s) (hc : s.current ≠ genesis) :
    StaysExited s a (kthreadExit s) ∧ Mortal (kthreadExit s) := by
  obtain ⟨t, hstate, hcur, hlist, hgen, hr⟩ := exit_spares hm hc
  refine ⟨fun p hp he ↦ ?_, fun he ↦ hgen (hr.enters _ he), hr.loops⟩
  have he' : t.state p = .exited := by
    rw [hstate, update_apply]
    split_ifs
    · rfl
    · exact he
  refine ⟨fun _ ↦ hr.stays p he', fun hn ↦ absurd ?_ hn, ?_⟩
  · rw [hr.list, hlist]
    exact hp
  · rintro rfl
    rcases hr.chosen with hg | hne
    · rw [hg, hcur] at he'
      exact absurd he' hgen
    · exact absurd he' hne

theorem create_stays {p : ThreadPtr} (hm : Mortal s) (h0 : s.loops s.current = 0)
    (hp : p ∉ s.list) : StaysExited s a (kthreadCreate s p) ∧ Mortal (kthreadCreate s p) := by
  have hne : ∀ q ∈ s.list, q ≠ p := fun q hq he ↦ hp (he ▸ hq)
  have hlist : (kthreadCreate s p).list = s.list ++ [p] := rfl
  refine ⟨fun q hq he ↦ ⟨fun _ ↦ ?_, fun hn ↦ absurd ?_ hn, id⟩, ?_, fun hl ↦ absurd ?_ hl⟩
  · simp only [kthreadCreate, Threads.setState, update_of_ne (hne q hq)]
    exact he
  · rw [hlist]
    exact List.mem_append_left _ hq
  · simp only [kthreadCreate, Threads.setState, update_of_ne (hne genesis (by simp [Threads.list]))]
    exact hm.genesis
  · simp only [kthreadCreate, update_apply]
    split_ifs
    · rfl
    · exact h0

theorem stays_step (hm : Mortal s) (ha : s.Enabled a) (hs : s.Silent a)
    (heq : s.exec a = some s') : StaysExited s a s' ∧ Mortal s' := by
  cases a with
  | create p => exact Option.some.inj heq ▸ create_stays hm ha.1 ha.2
  | sleep ms => exact (call_spares (x := .blocked) ha hs (by simp) heq).step hm
  | yield => exact (call_spares (x := .ready) ha hs (by simp) heq).step hm
  | block => exact (call_spares (x := .blocked) ha hs (by simp) heq).step hm
  | unblock p => exact Option.some.inj heq ▸ (unblock_spares ha).step hm
  | schedule => exact (schedule_spares hm.loops heq).step hm
  | exit => exact Option.some.inj heq ▸ exit_stays hm ha.2
  | reap =>
    obtain rfl := Option.some.inj heq
    exact ⟨fun p _ he ↦ ⟨fun _ ↦ he, fun _ ↦ rfl, id⟩, hm.genesis, hm.loops⟩
  | preemptDisable | preemptEnable =>
    obtain rfl := Option.some.inj heq
    exact ⟨fun p hp he ↦ ⟨fun _ ↦ he, fun hn ↦ absurd hp hn, id⟩, hm.genesis, hm.loops⟩
  | forkChildReturn c => exact Option.some.inj heq ▸ exited_stays hm ha.1 ha.2
  | destroy p => exact Option.some.inj heq ▸ exited_stays hm ha.1 ha.2
  | tick => exact (timer_spares hm.loops heq).step hm
  | interrupt => exact Option.some.inj heq ▸ (resume_spares hm.loops).step hm

end Run

def forkChild : Threads :=
  ((kthreadCreate bootThreads 1#64).exec .tick).getD bootThreads

theorem forkChild_run {enabled : Threads → ThreadAct → Prop}
    (hcreate : enabled bootThreads (.create 1#64))
    (htick : enabled (kthreadCreate bootThreads 1#64) .tick) :
    PartialRuns Threads.exec enabled bootThreads forkChild :=
  PartialRuns.step_getD (PartialRuns.step .refl hcreate rfl) htick (by decide) _

theorem bootThreads_create : bootThreads.Enabled (.create 1#64) := ⟨by decide, by decide⟩

end SeedOS.Thread
