import SeedOS.Thread.Machine

namespace SeedOS.Thread

open Foundation Function

section Cases

variable {s s' : Threads}

/-- How a call of `kthread_schedule` ends after its wake scan. -/
inductive Scheduled (w : Threads) : Threads → Prop
  | switch (q : ThreadPtr) (hready : w.state q = .ready) (hmem : q ∈ w.list)
      (hne : q ≠ w.current) :
      Scheduled w
        { w with state := switchedState w q, loops := update w.loops q 0, current := q }
  | halt (hb : w.state w.current = .blocked) :
      Scheduled w { w with loops := update w.loops w.current (w.loops w.current + 1) }
  | stay (hb : w.state w.current ≠ .blocked) : Scheduled w w

theorem nextThread_found {q : ThreadPtr} (h : nextThread s = some q) (hq : q ≠ s.current) :
    s.state q = .ready ∧ q ∈ s.list := by
  unfold nextThread at h
  split_ifs at h with hc
  cases hf : (following s.list s.current).find? s.isReady with
  | some p =>
    simp only [hf, Option.some.injEq] at h
    subst h
    refine ⟨by simpa [Threads.isReady] using List.find?_some hf, ?_⟩
    rw [split_at hc]
    exact List.mem_append_right _ (List.mem_cons_of_mem _ (List.mem_of_find?_eq_some hf))
  | none =>
    simp only [hf] at h
    exact ⟨by simpa [hq, Threads.isReady] using List.find?_some h, List.mem_of_find?_eq_some h⟩

theorem kthreadSchedule_cases (heq : kthreadSchedule s = some s') :
    0 < s.preemptCount ∧ s' = s ∨ Scheduled (kthreadWakeSleepers s) s' := by
  unfold kthreadSchedule at heq
  split_ifs at heq with hp
  · exact .inl ⟨hp, (Option.some.inj heq).symm⟩
  · right
    dsimp only at heq
    cases hn : nextThread (kthreadWakeSleepers s) with
    | none => simp [hn] at heq
    | some q =>
      simp only [hn] at heq
      split_ifs at heq with hq hb
      · obtain ⟨hready, hmem⟩ := nextThread_found hn hq
        rw [switchTo_eq (noneDue_woken s)] at heq
        exact Option.some.inj heq ▸ .switch q hready hmem hq
      · exact Option.some.inj heq ▸ .halt hb
      · exact Option.some.inj heq ▸ .stay hb

inductive Resumed (s : Threads) : Threads → Prop
  | same (h0 : s.loops s.current = 0) : Resumed s s
  | switch (h0 : s.loops s.current ≠ 0) (t : ThreadPtr)
      (hb : (kthreadWakeSleepers s).state s.current = .blocked)
      (hready : (kthreadWakeSleepers s).state t = .ready) (hmem : t ∈ s.list) :
      Resumed s
        { kthreadWakeSleepers s with
          state := update (kthreadWakeSleepers s).state t .running
          loops := update (update s.loops s.current (s.loops s.current - 1)) t 0
          current := t }
  | halt (h0 : s.loops s.current ≠ 0)
      (hb : (kthreadWakeSleepers s).state s.current = .blocked) :
      Resumed s (kthreadWakeSleepers s)
  | leave (h0 : s.loops s.current ≠ 0)
      (hb : (kthreadWakeSleepers s).state s.current ≠ .blocked) :
      Resumed s
        { kthreadWakeSleepers s with
          state := update (kthreadWakeSleepers s).state s.current .running
          loops := update s.loops s.current 0 }

theorem resume_cases (s : Threads) : Resumed s (resume s) := by
  unfold resume
  split_ifs with h0
  · exact .same h0
  · dsimp only
    by_cases hb : (kthreadWakeSleepers s).state s.current = .blocked
    · rw [wakeSleepers_current, if_pos hb]
      cases hf : (kthreadWakeSleepers s).list.find? (kthreadWakeSleepers s).isReady with
      | some t =>
        exact .switch h0 t hb (by simpa [Threads.isReady] using List.find?_some hf)
          (List.mem_of_find?_eq_some hf)
      | none => exact .halt h0 hb
    · rw [wakeSleepers_current, if_neg hb]
      exact .leave h0 hb

/-- A timer interrupt: one scan with the new tick, a call of `kthread_schedule`, and, if
that call returns to the interrupted thread, what the thread does next. -/
theorem apicTimerHandler_cases (heq : apicTimerHandler s = some s') :
    ∃ t, kthreadSchedule (kthreadWakeSleepers { s with ticks := s.ticks + 1 }) = some t ∧
      (s' = t ∨ s' = resume t) := by
  unfold apicTimerHandler at heq
  dsimp only at heq
  split at heq
  · simp at heq
  · rename_i t ht
    refine ⟨t, ht, ?_⟩
    split_ifs at heq
    · exact .inr (Option.some.inj heq).symm
    · exact .inl (Option.some.inj heq).symm

end Cases

section States

variable {s : Threads} {q p : ThreadPtr}

theorem update_blocked_iff {state : ThreadPtr → ThreadState} {x : ThreadState}
    (hq : state q ≠ .blocked) (hx : x ≠ .blocked) :
    update state q x p = .blocked ↔ state p = .blocked := by
  by_cases hp : p = q
  · rw [hp, update_self]
    exact ⟨fun h ↦ absurd h hx, fun h ↦ absurd h hq⟩
  · rw [update_of_ne hp]

theorem switchedState_blocked_iff (hq : s.state q ≠ .blocked) :
    switchedState s q p = .blocked ↔ s.state p = .blocked := by
  refine ⟨of_switchedState blocked_idle, fun hp ↦ ?_⟩
  have hpq : p ≠ q := fun he ↦ hq (he ▸ hp)
  rw [switchedState, update_of_ne hpq]
  split_ifs with hr
  · rw [update_of_ne, hp]
    rintro rfl
    simp [hr] at hp
  · exact hp

end States

section NoneEnters

variable {s s' : Threads} {x : ThreadState}

/-- No thread comes or goes, and none enters the state `x`. -/
structure NoneEnters (x : ThreadState) (s s' : Threads) : Prop where
  list : s'.list = s.list
  enters : ∀ p, s'.state p = x → s.state p = x

theorem NoneEnters.trans {t : Threads} (h : NoneEnters x s t) (h' : NoneEnters x t s') :
    NoneEnters x s s' :=
  ⟨h'.list.trans h.list, fun p hp ↦ h.enters p (h'.enters p hp)⟩

theorem exited_idle : ThreadState.exited.Idle := ⟨by simp, by simp⟩

theorem wakeSleepers_noneEnters (hx : x.Idle) (s : Threads) :
    NoneEnters x s (kthreadWakeSleepers s) := by
  refine ⟨rfl, fun p hp ↦ ?_⟩
  simp only [kthreadWakeSleepers] at hp
  split_ifs at hp
  · exact absurd hp.symm hx.1
  · exact hp

theorem wakeSleepers_exited (s : Threads) (p : ThreadPtr) :
    s.state p = .exited ↔ (kthreadWakeSleepers s).state p = .exited := by
  simp only [kthreadWakeSleepers]
  split_ifs with h
  · have hb := (isDue_iff.mp h.2).1.1
    simp [hb]
  · rfl

theorem resume_noneEnters (hx : x.Idle) (s : Threads) : NoneEnters x s (resume s) := by
  have hw := wakeSleepers_noneEnters hx s
  have hr := resume_cases s
  generalize resume s = r at hr ⊢
  cases hr with
  | same h0 => exact ⟨rfl, fun _ ↦ id⟩
  | switch h0 t hb hready hmem =>
    exact ⟨rfl, fun p hp ↦ hw.enters p (of_update hx.2.symm hp)⟩
  | halt h0 hb => exact hw
  | leave h0 hb => exact ⟨rfl, fun p hp ↦ hw.enters p (of_update hx.2.symm hp)⟩

theorem schedule_noneEnters (hx : x.Idle) (heq : kthreadSchedule s = some s') :
    NoneEnters x s s' := by
  have hw := wakeSleepers_noneEnters hx s
  rcases kthreadSchedule_cases heq with ⟨_, rfl⟩ | hs
  · exact ⟨rfl, fun _ ↦ id⟩
  · cases hs with
    | switch q hready hmem hne => exact ⟨rfl, fun p hp ↦ hw.enters p (of_switchedState hx hp)⟩
    | halt hb => exact ⟨rfl, hw.enters⟩
    | stay hb => exact hw

theorem timer_noneEnters (hx : x.Idle) (heq : apicTimerHandler s = some s') :
    NoneEnters x s s' := by
  obtain ⟨t, ht, hs'⟩ := apicTimerHandler_cases heq
  have hw := wakeSleepers_noneEnters hx { s with ticks := s.ticks + 1 }
  have hsw : NoneEnters x s (kthreadWakeSleepers { s with ticks := s.ticks + 1 }) :=
    ⟨hw.list, hw.enters⟩
  have hst := hsw.trans (schedule_noneEnters hx ht)
  rcases hs' with rfl | rfl
  · exact hst
  · exact hst.trans (resume_noneEnters hx t)

end NoneEnters

section Settled

variable {s s' : Threads} {a : ThreadAct}

structure Listed (s : Threads) : Prop where
  nodup : s.list.Nodup
  current : s.current ∈ s.list
  alive : s.state s.current ≠ .exited
  root : s.state genesis ≠ .exited
  enabled : s.preemptCount = 0

/-- Between two steps a thread that executes is not blocked. -/
structure Settled (s : Threads) : Prop extends Listed s where
  awake : s.loops s.current = 0 → s.state s.current ≠ .blocked

theorem Threads.Start.settled (h : s.Start) : Settled s where
  nodup := by simp [Threads.list, h.others]
  current := by simp [Threads.list, h.current]
  alive := by simp [h.current, h.running]
  root := by simp [h.running]
  enabled := h.enabled
  awake _ := by simp [h.current, h.running]

theorem Listed.scan (h : Listed s) : Listed (kthreadWakeSleepers s) where
  nodup := h.nodup
  current := h.current
  alive he := h.alive ((wakeSleepers_exited s _).mpr he)
  root he := h.root ((wakeSleepers_exited s _).mpr he)
  enabled := h.enabled

theorem Listed.schedule (h : Listed s) (heq : kthreadSchedule s = some s') : Settled s' := by
  have hw := h.scan
  have hroot : s'.state genesis ≠ .exited := fun he ↦
    h.root ((schedule_noneEnters exited_idle heq).enters _ he)
  rcases kthreadSchedule_cases heq with ⟨hp, _⟩ | hs
  · exact absurd h.enabled (by omega)
  · cases hs with
    | switch q hready hmem hne =>
      exact ⟨⟨hw.nodup, hmem, by simp [switchedState], hroot, hw.enabled⟩,
        fun _ ↦ by simp [switchedState]⟩
    | halt hb =>
      exact ⟨⟨hw.nodup, hw.current, hw.alive, hroot, hw.enabled⟩, fun h0 ↦ by simp at h0⟩
    | stay hb => exact ⟨hw, fun _ ↦ hb⟩

theorem Listed.resume (h : Listed s)
    (hawake : s.loops s.current = 0 → s.state s.current ≠ .blocked) : Settled (resume s) := by
  have hw := h.scan
  have hroot : (Thread.resume s).state genesis ≠ .exited := fun he ↦
    h.root ((resume_noneEnters exited_idle s).enters _ he)
  have hr := resume_cases s
  generalize Thread.resume s = r at hr hroot ⊢
  cases hr with
  | same h0 => exact ⟨h, hawake⟩
  | switch h0 t hb hready hmem =>
    exact ⟨⟨hw.nodup, hmem, by simp, hroot, hw.enabled⟩, fun _ ↦ by simp⟩
  | halt h0 hb => exact ⟨hw, fun he ↦ absurd he h0⟩
  | leave h0 hb =>
    exact ⟨⟨hw.nodup, hw.current, by simp, hroot, hw.enabled⟩, fun _ ↦ by simp⟩

theorem Settled.timer (h : Settled s) (heq : apicTimerHandler s = some s') : Settled s' := by
  obtain ⟨t, ht, hs'⟩ := apicTimerHandler_cases heq
  have hl : Listed { s with ticks := s.ticks + 1 } := ⟨h.nodup, h.current, h.alive, h.root, h.enabled⟩
  have hq := hl.scan.schedule ht
  rcases hs' with rfl | rfl
  · exact hq
  · exact hq.toListed.resume hq.awake

theorem Settled.call (h : Settled s) {x : ThreadState} {wakeTick : ThreadPtr → BitVec 64}
    (hx : x ≠ .exited)
    (heq : kthreadSchedule { s.setState s.current x with wakeTick := wakeTick } = some s') :
    Settled s' := by
  refine Listed.schedule ?_ heq
  exact ⟨h.nodup, h.current, by simpa [Threads.setState] using hx,
    fun he ↦ h.root (of_update hx he), h.enabled⟩

theorem Settled.exit (h : Settled s) (hc : s.current ≠ genesis) (hg : s.state genesis ≠ .blocked) :
    Settled (kthreadExit s) := by
  have hstate : (s.setState s.current .exited).state genesis = s.state genesis :=
    update_of_ne (Ne.symm hc) _ _
  refine Listed.resume ⟨h.nodup, by simp [Threads.list], ?_, ?_, h.enabled⟩ fun _ ↦ ?_
  all_goals
    dsimp only
    rw [hstate]
  · exact h.root
  · exact h.root
  · exact hg

theorem Settled.create (h : Settled s) {p : ThreadPtr} (hp : p ∉ s.list) :
    Settled (kthreadCreate s p) := by
  have hlist : (kthreadCreate s p).list = s.list ++ [p] := rfl
  have hne : ∀ q ∈ s.list, q ≠ p := fun q hq he ↦ hp (he ▸ hq)
  have hcur := hne _ h.current
  refine ⟨⟨?_, ?_, ?_, ?_, h.enabled⟩, fun h0 ↦ ?_⟩
  · rw [hlist]
    exact List.nodup_append.mpr ⟨h.nodup, by simp, fun q hq r hr ↦ by
      rw [List.mem_singleton.mp hr]
      exact hne q hq⟩
  · rw [hlist]
    exact List.mem_append_left _ h.current
  · simp only [kthreadCreate, Threads.setState, update_of_ne hcur]
    exact h.alive
  · simp only [kthreadCreate, Threads.setState, update_of_ne (hne genesis List.mem_cons_self)]
    exact h.root
  · simp only [kthreadCreate, Threads.setState, update_of_ne hcur] at h0 ⊢
    exact h.awake h0

theorem unblock_fields (s : Threads) (p : ThreadPtr) :
    (kthreadUnblock s p).list = s.list ∧ (kthreadUnblock s p).current = s.current ∧
      (kthreadUnblock s p).wakeTick = s.wakeTick ∧ (kthreadUnblock s p).loops = s.loops ∧
      (kthreadUnblock s p).preemptCount = s.preemptCount := by
  unfold kthreadUnblock
  split_ifs <;> exact ⟨rfl, rfl, rfl, rfl, rfl⟩

theorem unblock_state {p q : ThreadPtr} (hq : q ≠ p) :
    (kthreadUnblock s p).state q = s.state q := by
  unfold kthreadUnblock
  split_ifs
  · exact update_of_ne hq _ _
  · rfl

theorem unblock_self (s : Threads) (p : ThreadPtr) :
    (kthreadUnblock s p).state p = if s.state p = .blocked then .ready else s.state p := by
  unfold kthreadUnblock
  split_ifs
  · exact update_self _ _ _
  · rfl

theorem Settled.unblock (h : Settled s) (p : ThreadPtr) : Settled (kthreadUnblock s p) := by
  obtain ⟨hlist, hcur, _, hloops, hp⟩ := unblock_fields s p
  have hstate : ∀ q x, x ≠ ThreadState.ready → (kthreadUnblock s p).state q = x →
      s.state q = x := by
    intro q x hx he
    by_cases hq : q = p
    · rw [hq, unblock_self] at he
      split_ifs at he
      · exact absurd he.symm hx
      · rw [hq, he]
    · rwa [unblock_state hq] at he
  refine ⟨⟨hlist ▸ h.nodup, ?_, ?_, fun he ↦ h.root (hstate _ _ (by simp) he), hp ▸ h.enabled⟩,
    fun h0 ↦ ?_⟩
  · rw [hcur, hlist]
    exact h.current
  · rw [hcur]
    exact fun he ↦ h.alive (hstate _ _ (by simp) he)
  · rw [hcur, hloops] at h0
    rw [hcur]
    exact fun he ↦ h.awake h0 (hstate _ _ (by simp) he)

theorem reap_sublist (s : Threads) : (kthreadReap s).list.Sublist s.list :=
  List.filter_sublist.cons_cons _

theorem Settled.reap (h : Settled s) : Settled (kthreadReap s) := by
  refine ⟨⟨(reap_sublist s).nodup h.nodup, ?_, h.alive, h.root, h.enabled⟩, h.awake⟩
  show s.current ∈ genesis :: s.others.filter fun p ↦ s.state p ≠ .exited
  have hmem := List.mem_cons.mp h.current
  have hne := h.alive
  simpa [hne] using hmem

def ThreadAct.IsOwn : ThreadAct → Prop
  | .create _ | .sleep _ | .yield | .schedule | .exit | .reap | .tick | .interrupt => True
  | _ => False

instance (a : ThreadAct) : Decidable a.IsOwn :=
  match a with
  | .create _ | .sleep _ | .yield | .schedule | .exit | .reap | .tick | .interrupt => isTrue trivial
  | .block | .unblock _ | .preemptDisable | .preemptEnable | .forkChildReturn _ | .destroy _ =>
    isFalse not_false

theorem settled_step (h : Settled s) (ha : s.Enabled a) (hown : a.IsOwn)
    (hexit : a = .exit → s.state genesis ≠ .blocked) (heq : s.exec a = some s') : Settled s' := by
  cases a with
  | create p => exact Option.some.inj heq ▸ h.create ha.2
  | sleep ms => exact h.call (x := .blocked) (by simp) heq
  | yield => exact h.call (x := .ready) (by simp) heq
  | schedule => exact h.toListed.schedule heq
  | exit => exact Option.some.inj heq ▸ h.exit ha.2 (hexit rfl)
  | reap => exact Option.some.inj heq ▸ h.reap
  | tick => exact h.timer heq
  | interrupt => exact Option.some.inj heq ▸ h.toListed.resume h.awake
  | block | unblock _ | preemptDisable | preemptEnable | forkChildReturn _ | destroy _ =>
    exact hown.elim

end Settled

end SeedOS.Thread
