import SeedOS.Thread.Waiting

namespace SeedOS.Thread

open Foundation Function

/-- A thread that is blocked in `mutex_lock` or `cond_wait` is on the queue it waits in, and
an unlock or a signal makes the first thread of the queue ready. -/
structure WakeupsKept (s : SyncSys) : Prop where
  queued : ∀ p ∈ s.threads.list, s.threads.state p = .blocked → s.pc p ≠ .run →
    ∃ q l, (s.pc p).queue = some q ∧ IsQueue s.next (s.queue q) l ∧ p ∈ l
  wakes : ∀ q p l, s.pc s.self = .run → IsQueue s.next (s.queue q) (p :: l) →
    (s.wakeOne q).threads.state p = .ready

/-- The timer does not fire between `preempt_enable` and `kthread_block`, and a thread exits
only while `genesis` is not blocked. -/
def SyncSys.BlocksAtOnce (s : SyncSys) (a : SyncAct) : Prop :=
  (a = .thread .tick → (s.pc s.self).atBlock = false) ∧ s.SparesGenesis a

section Blocked

variable {s s' : Threads} {p : ThreadPtr} {a : ThreadAct}

theorem own_blocked (hown : a.IsOwn) (heq : s.exec a = some s') (hp : p ∈ s'.list)
    (hnew : a ≠ .create p) (hother : ¬ a.IsInterrupt → p ≠ s.current) :
    p ∈ s.list ∧ (s'.state p = .blocked → s.state p = .blocked) := by
  have hof : NoneEnters .blocked s s' → p ∈ s.list ∧ (s'.state p = .blocked →
      s.state p = .blocked) := fun h ↦ ⟨h.list ▸ hp, h.enters p⟩
  have hcall : p ≠ s.current → ∀ x wakeTick,
      kthreadSchedule { s.setState s.current x with wakeTick := wakeTick } = some s' →
      p ∈ s.list ∧ (s'.state p = .blocked → s.state p = .blocked) := by
    intro hpc x wakeTick h
    have hs := schedule_noneEnters blocked_idle h
    refine ⟨hs.list ▸ hp, fun hb ↦ ?_⟩
    have := hs.enters p hb
    simp only [Threads.setState, update_of_ne hpc] at this
    exact this
  cases a with
  | create q =>
    obtain rfl := Option.some.inj heq
    have hpq : p ≠ q := fun he ↦ hnew (he ▸ rfl)
    have hmem : p ∈ s.list ++ [q] := hp
    rw [List.mem_append, List.mem_singleton] at hmem
    refine ⟨hmem.resolve_right hpq, fun hb ↦ ?_⟩
    simp only [kthreadCreate, Threads.setState, update_of_ne hpq] at hb
    exact hb
  | sleep ms => exact hcall (hother id) .blocked _ heq
  | yield => exact hcall (hother id) .ready s.wakeTick heq
  | schedule => exact hof (schedule_noneEnters blocked_idle heq)
  | exit =>
    obtain rfl := Option.some.inj heq
    have hr := resume_noneEnters blocked_idle
      { s.setState s.current .exited with current := genesis }
    refine ⟨hr.list ▸ hp, fun hb ↦ ?_⟩
    have := hr.enters p hb
    simp only [Threads.setState, update_of_ne (hother id)] at this
    exact this
  | reap =>
    obtain rfl := Option.some.inj heq
    exact ⟨(reap_sublist s).subset hp, id⟩
  | tick => exact hof (timer_noneEnters blocked_idle heq)
  | interrupt => exact hof (Option.some.inj heq ▸ resume_noneEnters blocked_idle s)
  | block | unblock _ | preemptDisable | preemptEnable | forkChildReturn _ | destroy _ =>
    exact hown.elim

end Blocked

structure Kept (s : SyncSys) (members : QueueId → List ThreadPtr) : Prop
    extends Waiting s members where
  entering : ∀ p ∈ s.threads.list, (s.pc p).atBlock = true →
    p = s.self ∧ s.threads.loops p = 0
  queued : ∀ p ∈ s.threads.list, s.pc p ≠ .run →
    s.threads.state p = .blocked ∨ (s.pc p).atBlock = true → ∃ q, p ∈ members q

namespace Kept

variable {s s' : SyncSys} {members : QueueId → List ThreadPtr} {q : QueueId} {p : ThreadPtr}

theorem wakeOne_frame (s : SyncSys) (q : QueueId) :
    (s.wakeOne q).pc = s.pc ∧ (s.wakeOne q).threads.list = s.threads.list ∧
      (s.wakeOne q).self = s.self ∧ (s.wakeOne q).threads.loops = s.threads.loops ∧
      ∀ p, (s.wakeOne q).threads.state p = .blocked → s.threads.state p = .blocked := by
  unfold SyncSys.wakeOne
  split
  · exact ⟨rfl, rfl, rfl, rfl, fun _ ↦ id⟩
  · next waiter next queue _ =>
    obtain ⟨hlist, hcur, _, hloops, _⟩ := unblock_fields s.threads waiter
    refine ⟨rfl, hlist, hcur, hloops, fun p hp ↦ ?_⟩
    by_cases hpw : p = waiter
    · subst hpw
      simp only [unblock_self] at hp
      split_ifs at hp with hb
      exact absurd hp hb
    · simpa only [unblock_state hpw] using hp

theorem wakeOne_ready (h : Waiting s members) {l : List ThreadPtr} (hm : members q = p :: l)
    (hb : (s.pc p).atBlock = false) : (s.wakeOne q).threads.state p = .ready := by
  have hd : Dormant s.threads p :=
    (h.waits q p (hm ▸ List.mem_cons_self)).asleep.resolve_left (by simp [hb])
  rw [h.wakeOne_cons hm]
  dsimp only
  rw [unblock_self, if_pos hd.1]

section

variable (h : Kept s members)
include h

theorem enqueue (hself : ∀ q, s.self ∉ members q)
    (h0 : s.threads.loops s.self = 0) {pc : Pc} (hq : pc.queue = some q)
    (hb : pc.atBlock = true) :
    Kept ((s.enqueue q).goto pc) (update members q (members q ++ [s.self])) := by
  refine ⟨h.toWaiting.enqueue hself hq hb, fun p hp hpb ↦ ?_, fun p hp hrun hpb ↦ ?_⟩
  · by_cases he : p = s.self
    · exact ⟨he, he ▸ h0⟩
    · rw [SyncSys.goto_pc_of_ne (s.enqueue q) pc he] at hpb
      exact h.entering p hp hpb
  · by_cases he : p = s.self
    · exact ⟨q, by simp [he]⟩
    · rw [SyncSys.goto_pc_of_ne (s.enqueue q) pc he] at hrun hpb
      obtain ⟨r, hr⟩ := h.queued p hp hrun hpb
      refine ⟨r, ?_⟩
      by_cases hrq : r = q
      · subst hrq
        rw [update_self]
        exact List.mem_append_left _ hr
      · rwa [update_of_ne hrq]

theorem wakeOne (hq : ∀ p ∈ members q, (s.pc p).atBlock = false) :
    Kept (s.wakeOne q) (update members q (members q).tail) := by
  obtain ⟨hpc, hlist, hself, hloops, hblocked⟩ := wakeOne_frame s q
  refine ⟨h.toWaiting.wakeOne q, ?_, ?_⟩
  · rw [hpc, hlist, hself, hloops]
    exact h.entering
  · intro p hp hrun hb
    rw [hpc] at hrun hb
    rw [hlist] at hp
    obtain ⟨r, hr⟩ := h.queued p hp hrun (hb.imp_left (hblocked p))
    refine ⟨r, ?_⟩
    by_cases hrq : r = q
    · subst hrq
      rw [update_self]
      cases hm : members r with
      | nil => simp [hm] at hr
      | cons t l =>
        have hpb := hq p hr
        rw [hm] at hr
        rcases List.mem_cons.mp hr with rfl | hl
        · rcases hb with hb | hb
          · simp [wakeOne_ready h.toWaiting hm hpb] at hb
          · simp [hpb] at hb
        · exact hl
    · rwa [update_of_ne hrq]

theorem none_entering (hrun : (s.pc s.self).atBlock = false) {p : ThreadPtr}
    (hp : p ∈ s.threads.list) : (s.pc p).atBlock = false := by
  cases hb : (s.pc p).atBlock with
  | false => rfl
  | true =>
    obtain ⟨rfl, _⟩ := h.entering p hp hb
    rw [hrun] at hb
    simp at hb

theorem members_entering (hrun : (s.pc s.self).atBlock = false) :
    ∀ p ∈ members q, (s.pc p).atBlock = false := fun p hp ↦
  h.none_entering hrun (h.waits q p hp).listed

theorem release (m : MutexPtr) : Kept (s.release m) members :=
  ⟨h.toWaiting.release m, h.entering, h.queued⟩

theorem block {retry : Pc} (hb : (s.pc s.self).atBlock = true)
    (hq : retry.queue = (s.pc s.self).queue) (hr : retry.atBlock = false)
    (heq : s.block retry = some s') : Kept s' members := by
  have hw := h.toWaiting.block hq heq
  obtain ⟨t, ht, rfl⟩ := Option.map_eq_some_iff.mp heq
  have hnone := schedule_noneEnters blocked_idle ht
  have hlist : t.list = s.threads.list := hnone.list
  refine ⟨hw, fun p hp hpb ↦ ?_, fun p hp hrun hpb ↦ ?_⟩
  · dsimp only at hp hpb
    by_cases he : p = s.self
    · rw [he, SyncSys.goto_pc_self, hr] at hpb
      simp at hpb
    · rw [SyncSys.goto_pc_of_ne _ _ he] at hpb
      exact absurd (h.entering p (hlist ▸ hp) hpb).1 he
  · dsimp only at hp hrun hpb
    rw [hlist] at hp
    by_cases he : p = s.self
    · subst he
      refine h.queued _ hp (fun hc ↦ ?_) (.inr hb)
      rw [hc] at hb
      simp [Pc.atBlock] at hb
    · rw [SyncSys.goto_pc_of_ne _ _ he] at hrun hpb
      refine h.queued p hp hrun (hpb.imp_left fun hbl ↦ ?_)
      have := hnone.enters p hbl
      simp only [Threads.setState] at this
      rwa [update_of_ne (show p ≠ s.threads.current from he)] at this

theorem acquire (hself : ∀ q, s.self ∉ members q) (m : MutexPtr) :
    Kept ((s.acquire m).goto .run) members := by
  have hrun : ((s.acquire m).goto .run).pc s.self = .run := SyncSys.goto_pc_self _ _
  refine ⟨h.toWaiting.acquire hself m, fun p hp hb ↦ ?_, fun p hp hr hb ↦ ?_⟩
  · by_cases he : p = s.self
    · rw [he, hrun] at hb
      simp [Pc.atBlock] at hb
    · rw [SyncSys.goto_pc_of_ne (s.acquire m) .run he] at hb
      exact h.entering p hp hb
  · by_cases he : p = s.self
    · exact absurd (he ▸ hrun) hr
    · rw [SyncSys.goto_pc_of_ne (s.acquire m) .run he] at hr hb
      exact h.queued p hp hr hb

theorem attempt (h0 : s.threads.loops s.self = 0)
    (hb : (s.pc s.self).atBlock = false) {m : MutexPtr} {pc : Pc}
    (hq : pc.queue = some (.mutex m)) (hpc : pc.atBlock = true) :
    ∃ members', Kept (s.attempt m pc) members' := by
  have hself : ∀ q, s.self ∉ members q := fun q ↦ h.self_notMem h0 hb
  unfold SyncSys.attempt
  split_ifs
  · exact ⟨_, h.enqueue hself h0 hq hpc⟩
  · exact ⟨_, h.acquire hself m⟩

theorem broadcast {fuel : ℕ} {c : CondPtr} (hrun : (s.pc s.self).atBlock = false)
    (heq : s.condBroadcast fuel c = some s') :
    ∃ members', Kept s' members' := by
  induction fuel generalizing s members with
  | zero => simp [SyncSys.condBroadcast] at heq
  | succ fuel ih =>
    rw [SyncSys.condBroadcast] at heq
    split_ifs at heq
    · exact ⟨members, Option.some.inj heq ▸ h⟩
    · obtain ⟨hpc, _, hself, _⟩ := wakeOne_frame s (.cond c)
      exact ih (h.wakeOne (h.members_entering hrun)) (by rwa [hpc, hself]) heq

theorem wait (h0 : s.threads.loops s.self = 0)
    (hb : (s.pc s.self).atBlock = false) (c : CondPtr) (m : MutexPtr) :
    ∃ members', Kept (s.condWait c m) members' := by
  have hself : ∀ q, s.self ∉ members q := fun q ↦ h.self_notMem h0 hb
  rw [SyncSys.condWait, Waiting.goto_wakeOne]
  have hq : Kept ((s.enqueue (.cond c)).goto (.waitBlock c m)) _ := h.enqueue hself h0 rfl rfl
  refine ⟨_, (hq.release m).wakeOne fun p hp ↦ ?_⟩
  rw [update_of_ne (by simp)] at hp
  have he : p ≠ s.self := fun he ↦ hself _ (he ▸ hp)
  show (((s.enqueue (.cond c)).goto (.waitBlock c m)).pc p).atBlock = false
  rw [SyncSys.goto_pc_of_ne (s.enqueue (.cond c)) _ he]
  exact h.members_entering hb p hp

theorem thread {a : ThreadAct} (ha : s.Enabled (.thread a))
    (hb : (s.pc s.self).atBlock = false)
    (hexit : a = .exit → s.threads.state genesis ≠ .blocked) {t : Threads}
    (heq : s.threads.exec a = some t) : Kept (s.thread a t) members := by
  have hw := h.toWaiting.thread ha hexit heq
  obtain ⟨_, hown, hcaller⟩ := ha
  have hthreads : (s.thread a t).threads = t := by cases a <;> rfl
  -- only a new thread is at another place, and it is in code of its own
  have hpc : ∀ p, (s.thread a t).pc p ≠ .run →
      a ≠ .create p ∧ (s.thread a t).pc p = s.pc p := by
    intro p hp
    cases a with
    | create r =>
      by_cases hr : p = r
      · subst hr
        exact absurd (update_self _ _ _) hp
      · exact ⟨fun he ↦ hr (ThreadAct.create.inj he).symm, update_of_ne hr _ _⟩
    | _ => exact ⟨by simp, rfl⟩
  have hback : ∀ p ∈ t.list, (s.thread a t).pc p ≠ .run →
      p ∈ s.threads.list ∧ (t.state p = .blocked → s.threads.state p = .blocked) := by
    intro p hp hrun
    refine own_blocked hown heq hp (hpc p hrun).1 fun hi he ↦ hrun ?_
    rw [(hpc p hrun).2, he]
    exact hcaller.resolve_left hi
  have hrun : ∀ p, ((s.thread a t).pc p).atBlock = true → (s.thread a t).pc p ≠ .run := by
    intro p hp hc
    rw [hc] at hp
    simp [Pc.atBlock] at hp
  refine ⟨hw, fun p hp hpb ↦ ?_, fun p hp hr hpb ↦ ?_⟩
  · rw [hthreads] at hp
    have hfalse := h.none_entering hb (hback p hp (hrun p hpb)).1
    rw [← (hpc p (hrun p hpb)).2, hpb] at hfalse
    simp at hfalse
  · rw [hthreads] at hp hpb
    obtain ⟨hmem, hblocked⟩ := hback p hp hr
    have hsame := (hpc p hr).2
    rw [hsame] at hr hpb
    exact h.queued p hmem hr (hpb.imp_left hblocked)

theorem proceed (h0 : s.threads.loops s.self = 0)
    (heq : s.proceed = some s') : ∃ members', Kept s' members' := by
  unfold SyncSys.proceed at heq
  split at heq
  case h_1 => simp at heq
  case h_2 m hpc => exact ⟨_, h.block (by rw [hpc]; rfl) (by rw [hpc]; rfl) rfl heq⟩
  case h_3 m hpc => exact Option.some.inj heq ▸ h.attempt h0 (by rw [hpc]; rfl) rfl rfl
  case h_4 c m hpc => exact ⟨_, h.block (by rw [hpc]; rfl) (by rw [hpc]; rfl) rfl heq⟩
  case h_5 c m hpc => exact Option.some.inj heq ▸ h.attempt h0 (by rw [hpc]; rfl) rfl rfl
  case h_6 m hpc => exact ⟨_, h.block (by rw [hpc]; rfl) (by rw [hpc]; rfl) rfl heq⟩
  case h_7 m hpc => exact Option.some.inj heq ▸ h.attempt h0 (by rw [hpc]; rfl) rfl rfl

theorem wakeupsKept : WakeupsKept s where
  queued p hp hb hrun := by
    obtain ⟨q, hq⟩ := h.queued p hp hrun (.inl hb)
    exact ⟨q, members q, (h.waits q p hq).queue, h.queues q, hq⟩
  wakes q p l hrun hq := by
    have hm : members q = p :: l := (h.queues q).unique hq
    have hfalse : (s.pc s.self).atBlock = false := by rw [hrun]; rfl
    exact wakeOne_ready h.toWaiting hm (h.members_entering hfalse p (hm ▸ List.mem_cons_self))

end

end Kept

section Run

variable {s s' : SyncSys} {members : QueueId → List ThreadPtr}

theorem kept_step (h : Kept s members) {a : SyncAct} (ha : s.Enabled a) (hs : s.BlocksAtOnce a)
    (heq : s.exec a = some s') : ∃ members', Kept s' members' := by
  have hfalse : s.pc s.self = .run → (s.pc s.self).atBlock = false := fun hrun ↦ by
    rw [hrun]
    rfl
  cases a with
  | thread a =>
    obtain ⟨t, ht, rfl⟩ := Option.map_eq_some_iff.mp heq
    have hexit : a = .exit → s.threads.state genesis ≠ .blocked := fun he ↦ by
      subst he
      exact hs.2
    cases hb : (s.pc s.self).atBlock with
    | false => exact ⟨members, h.thread ha hb hexit ht⟩
    | true =>
      -- of all interrupts only the timer could take the CPU away
      obtain ⟨_, h0⟩ := h.entering _ h.settled.current hb
      rcases ha.2.2 with hi | hrun
      · cases a with
        | tick => simp [hs.1 rfl] at hb
        | interrupt =>
          obtain rfl : s.threads = t := by
            rw [← Option.some.inj ht]
            exact (if_pos h0).symm
          exact ⟨members, h⟩
        | _ => exact hi.elim
      · simp [hfalse hrun] at hb
  | lock m => exact Option.some.inj heq ▸ h.attempt ha.1 (hfalse ha.2) rfl rfl
  | trylock m =>
    obtain rfl := Option.some.inj heq
    unfold SyncSys.mutexTrylock
    split_ifs
    · exact ⟨members, h⟩
    · exact ⟨members, h.toWaiting.congr rfl rfl rfl fun _ _ _ ↦ rfl, h.entering, h.queued⟩
  | unlock m =>
    exact Option.some.inj heq ▸ ⟨_, (h.release m).wakeOne (h.members_entering (hfalse ha.2))⟩
  | wait c m => exact Option.some.inj heq ▸ h.wait ha.1 (hfalse ha.2) c m
  | signal c => exact Option.some.inj heq ▸ ⟨_, h.wakeOne (h.members_entering (hfalse ha.2))⟩
  | broadcast c fuel => exact h.broadcast (hfalse ha.2) heq
  | proceed => exact h.proceed ha heq

theorem SyncSys.Start.kept (h : s.Start) : Kept s fun _ ↦ [] := by
  have hpc : ∀ p ∈ s.threads.list, s.pc p = .run := by
    intro p hp
    rw [Threads.list, h.others, List.mem_singleton] at hp
    rw [hp, h.pc]
  refine ⟨h.waiting, fun p hp hb ↦ ?_, fun p hp hr ↦ absurd (hpc p hp) hr⟩
  rw [hpc p hp] at hb
  simp [Pc.atBlock] at hb

end Run

instance (a : SyncAct) : Decidable (a = .thread .tick) :=
  match a with
  | .thread .tick => isTrue rfl
  | .thread (.create _) | .thread (.sleep _) | .thread .yield | .thread .block
  | .thread (.unblock _) | .thread .schedule | .thread .exit | .thread .reap
  | .thread .preemptDisable | .thread .preemptEnable | .thread (.forkChildReturn _)
  | .thread (.destroy _) | .thread .interrupt | .lock _ | .trylock _ | .unlock _ | .wait _ _
  | .signal _ | .broadcast _ _ | .proceed => isFalse (by simp)

instance (s : SyncSys) (a : SyncAct) : Decidable (s.BlocksAtOnce a) :=
  inferInstanceAs (Decidable (_ ∧ _))

/-- The timer fires when thread 1 has joined the queue of mutex 7 and has not blocked yet;
`genesis` unlocks the mutex, and thread 1 blocks. -/
def lateBlock : List SyncAct :=
  [.thread (.create 1#64), .lock 7#64, .thread .tick, .lock 7#64, .thread .tick, .unlock 7#64,
    .thread .tick, .proceed]

end SeedOS.Thread
