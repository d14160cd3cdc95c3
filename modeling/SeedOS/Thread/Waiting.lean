import SeedOS.Thread.WaitQueue

namespace SeedOS.Thread

open Foundation Function

section Waiting

def Pc.queue : Pc → Option QueueId
  | .run => none
  | .lockBlock m | .lockRetry m | .relockBlock m | .relockRetry m => some (.mutex m)
  | .waitBlock c _ | .waitRetry c _ => some (.cond c)

def Pc.atBlock : Pc → Bool
  | .lockBlock _ | .waitBlock _ _ | .relockBlock _ => true
  | _ => false

/-- A member of a queue: it is about to block, or it is blocked. -/
structure Waits (s : SyncSys) (q : QueueId) (p : ThreadPtr) : Prop where
  listed : p ∈ s.threads.list
  alive : s.threads.state p ≠ .exited
  queue : (s.pc p).queue = some q
  asleep : (s.pc p).atBlock = true ∨ Dormant s.threads p

structure Waiting (s : SyncSys) (members : QueueId → List ThreadPtr) : Prop where
  settled : Settled s.threads
  queues : ∀ q, IsQueue s.next (s.queue q) (members q)
  waits : ∀ q, ∀ p ∈ members q, Waits s q p

namespace Waiting

variable {s s' : SyncSys} {members : QueueId → List ThreadPtr} {q q' : QueueId} {p : ThreadPtr}

section

variable (h : Waiting s members)
include h

theorem apart (hq : p ∈ members q) (hq' : p ∈ members q') : q = q' := by
  have := (h.waits q p hq).queue
  rw [(h.waits q' p hq').queue] at this
  exact (Option.some.inj this).symm

theorem self_notMem (h0 : s.threads.loops s.self = 0)
    (hpc : (s.pc s.self).atBlock = false) : s.self ∉ members q := by
  intro hm
  rcases (h.waits q _ hm).asleep with hb | hd
  · simp [hpc] at hb
  · exact h.settled.awake h0 hd.1

theorem enqueue (hself : ∀ q, s.self ∉ members q) {pc : Pc}
    (hq : pc.queue = some q) (hb : pc.atBlock = true) :
    Waiting ((s.enqueue q).goto pc) (update members q (members q ++ [s.self])) := by
  refine ⟨h.settled, fun r ↦ ?_, fun r p hp ↦ ?_⟩
  · by_cases hr : r = q
    · subst hr
      simp only [SyncSys.goto, SyncSys.enqueue, update_self]
      exact (h.queues r).add (hself r)
    · simp only [SyncSys.goto, SyncSys.enqueue, update_of_ne hr]
      exact (h.queues q).add_other (h.queues r) (hself r) fun p hp hp' ↦ hr (h.apart hp' hp)
  · have hold : p ∈ members r → Waits ((s.enqueue q).goto pc) r p := by
      intro hm
      have hne : p ≠ s.self := fun he ↦ hself r (he ▸ hm)
      obtain ⟨hl, ha, hqu, has⟩ := h.waits r p hm
      have hpc : ((s.enqueue q).goto pc).pc p = s.pc p := SyncSys.goto_pc_of_ne _ _ hne
      rw [← hpc] at hqu has
      exact ⟨hl, ha, hqu, has⟩
    by_cases hr : r = q
    · subst hr
      rw [update_self, List.mem_append, List.mem_singleton] at hp
      rcases hp with hp | rfl
      · exact hold hp
      · have hself' : ((s.enqueue r).goto pc).pc s.self = pc := SyncSys.goto_pc_self _ _
        exact ⟨h.settled.current, h.settled.alive, by rw [hself', hq], .inl (by rw [hself', hb])⟩
    · rw [update_of_ne hr] at hp
      exact hold hp

theorem wakeOne_nil (hm : members q = []) : s.wakeOne q = s := by
  have hhead : (s.queue q).head = none := (h.queues q).head_eq_none.mpr hm
  simp [SyncSys.wakeOne, waitqRemove, hhead]

theorem wakeOne_cons {t : ThreadPtr} {l : List ThreadPtr} (hm : members q = t :: l) : s.wakeOne q =
      { s with
        next := update s.next t none
        queue := update s.queue q
          ⟨s.next t, if s.next t = none then none else (s.queue q).tail⟩
        threads := kthreadUnblock s.threads t } := by
  simp only [SyncSys.wakeOne, (hm ▸ h.queues q).remove.1]

theorem wakeOne (q : QueueId) : Waiting (s.wakeOne q) (update members q (members q).tail) := by
  cases hm : members q with
  | nil =>
    rw [h.wakeOne_nil hm, List.tail_nil, ← hm, update_eq_self]
    exact h
  | cons t l =>
    have hqueue := (hm ▸ h.queues q).remove.2
    have hnodup := (h.queues q).chain.nodup
    rw [hm] at hnodup
    have hmem : ∀ r p, p ∈ update members q l r → p ∈ members r ∧ p ≠ t := by
      intro r p hp
      by_cases hr : r = q
      · subst hr
        rw [update_self] at hp
        exact ⟨hm ▸ List.mem_cons_of_mem _ hp, fun he ↦ (List.nodup_cons.mp hnodup).1 (he ▸ hp)⟩
      · rw [update_of_ne hr] at hp
        exact ⟨hp, fun he ↦ hr (h.apart (he ▸ hp) (hm ▸ List.mem_cons_self))⟩
    rw [h.wakeOne_cons hm, List.tail_cons]
    refine ⟨h.settled.unblock t, fun r ↦ ?_, fun r p hp ↦ ?_⟩
    · by_cases hr : r = q
      · subst hr
        simp only [update_self]
        exact hqueue
      · simp only [update_of_ne hr]
        refine (h.queues r).congr fun p hp ↦ update_of_ne ?_ _ _
        exact (hmem r p (by rwa [update_of_ne hr])).2
    · obtain ⟨hp, hne⟩ := hmem r p hp
      obtain ⟨hl, ha, hqu, has⟩ := h.waits r p hp
      obtain ⟨hlist, _, hwake, _⟩ := unblock_fields s.threads t
      refine ⟨hlist ▸ hl, ?_, hqu, has.imp_right fun hd ↦ ⟨?_, hwake ▸ hd.2⟩⟩
      · dsimp only
        rwa [unblock_state hne]
      · dsimp only
        rw [unblock_state hne]
        exact hd.1

theorem congr (hthreads : s'.threads = s.threads)
    (hnext : s'.next = s.next) (hqueue : s'.queue = s.queue)
    (hpc : ∀ q, ∀ p ∈ members q, s'.pc p = s.pc p) : Waiting s' members := by
  refine ⟨hthreads ▸ h.settled, fun q ↦ ?_, fun q p hp ↦ ?_⟩
  · rw [hnext, hqueue]
    exact h.queues q
  · obtain ⟨hl, ha, hqu, has⟩ := h.waits q p hp
    refine ⟨hthreads ▸ hl, hthreads ▸ ha, ?_, ?_⟩
    · rwa [hpc q p hp]
    · rwa [hpc q p hp, hthreads]

theorem release (m : MutexPtr) : Waiting (s.release m) members :=
  h.congr rfl rfl rfl fun _ _ _ ↦ rfl

theorem block {retry : Pc} (hq : retry.queue = (s.pc s.self).queue)
    (heq : s.block retry = some s') : Waiting s' members := by
  obtain ⟨t, ht, rfl⟩ := Option.map_eq_some_iff.mp heq
  have hsettled : Settled t := h.settled.call (x := .blocked) (by simp) ht
  have hplain := (plain_step (a := .block) trivial ht).2
  refine ⟨hsettled, h.queues, fun r p hp ↦ ?_⟩
  obtain ⟨hl, ha, hqu, has⟩ := h.waits r p hp
  obtain ⟨hl', ha'⟩ := hplain p hl ha (by simp)
  unfold kthreadBlock at ht
  by_cases hself : p = s.self
  · refine ⟨hl', ha', ?_, .inr (Dormant.schedule ?_ ht)⟩
    · dsimp only
      rw [hself, SyncSys.goto_pc_self, hq, ← hself, hqu]
    · rw [hself]
      exact ⟨update_self _ _ _, update_self _ _ _⟩
  · have hpc := s.goto_pc_of_ne retry hself
    refine ⟨hl', ha', ?_, ?_⟩
    · dsimp only
      rwa [hpc]
    · dsimp only
      rw [hpc]
      refine has.imp_right fun hd ↦ Dormant.schedule ?_ ht
      constructor
      · exact (update_of_ne hself _ _).trans hd.1
      · exact (update_of_ne hself _ _).trans hd.2

theorem acquire (hself : ∀ q, s.self ∉ members q) (m : MutexPtr) :
    Waiting ((s.acquire m).goto .run) members := by
  refine h.congr rfl rfl rfl fun q p hp ↦ update_of_ne ?_ _ _
  rintro rfl
  exact hself q hp

theorem attempt (hself : ∀ q, s.self ∉ members q) {m : MutexPtr} {pc : Pc}
    (hq : pc.queue = some (.mutex m)) (hb : pc.atBlock = true) :
    ∃ members', Waiting (s.attempt m pc) members' := by
  unfold SyncSys.attempt
  split_ifs
  · exact ⟨_, h.enqueue hself hq hb⟩
  · exact ⟨_, h.acquire hself m⟩

end

theorem broadcast {fuel : ℕ} {c : CondPtr} (h : Waiting s members)
    (heq : s.condBroadcast fuel c = some s') : ∃ members', Waiting s' members' := by
  induction fuel generalizing s members with
  | zero => simp [SyncSys.condBroadcast] at heq
  | succ fuel ih =>
    rw [SyncSys.condBroadcast] at heq
    split_ifs at heq
    · exact ⟨members, Option.some.inj heq ▸ h⟩
    · exact ih (h.wakeOne _) heq

theorem broadcast_ends {c : CondPtr} {n : ℕ} (h : Waiting s members)
    (hn : (members (.cond c)).length = n) : (s.condBroadcast (n + 1) c).isSome = true := by
  induction n generalizing s members with
  | zero =>
    have hhead := (h.queues (.cond c)).head_eq_none.mpr (List.length_eq_zero_iff.mp hn)
    simp [SyncSys.condBroadcast, hhead]
  | succ n ih =>
    have hhead : (s.queue (.cond c)).head ≠ none := fun he ↦ by
      simp [(h.queues _).head_eq_none.mp he] at hn
    rw [SyncSys.condBroadcast, if_neg hhead]
    refine ih (h.wakeOne (.cond c)) ?_
    rw [update_self, List.length_tail, hn]
    rfl

theorem thread (h : Waiting s members) {a : ThreadAct} (ha : s.Enabled (.thread a))
    (hexit : a = .exit → s.threads.state genesis ≠ .blocked) {t : Threads}
    (heq : s.threads.exec a = some t) : Waiting (s.thread a t) members := by
  obtain ⟨ha, hown, hcaller⟩ := ha
  have hsettled : Settled t := settled_step h.settled ha hown hexit heq
  have hself : ∀ q, ∀ p ∈ members q, ¬ a.IsInterrupt → p ≠ s.threads.current := by
    rintro q p hp hi rfl
    have hrun := hcaller.resolve_left hi
    have hqu := (h.waits q _ hp).queue
    rw [SyncSys.self] at hrun
    simp [hrun, Pc.queue] at hqu
  have hwaits : ∀ q, ∀ p ∈ members q, p ∈ t.list ∧ t.state p ≠ .exited ∧
      (Dormant s.threads p → Dormant t p) := fun q p hp ↦
    own_step hown ha heq (h.waits q p hp).listed (h.waits q p hp).alive (hself q p hp)
  have hold : ∀ q, ∀ p ∈ members q, (s.thread a t).pc p = s.pc p ∧
      (s.thread a t).next p = s.next p := by
    intro q p hp
    cases a with
    | create r =>
      have hne : p ≠ r := fun he ↦ ha.2 (he ▸ (h.waits q p hp).listed)
      exact ⟨update_of_ne hne _ _, update_of_ne hne _ _⟩
    | _ => exact ⟨rfl, rfl⟩
  have hthreads : (s.thread a t).threads = t := by cases a <;> rfl
  have hqueue : (s.thread a t).queue = s.queue := by cases a <;> rfl
  refine ⟨by rwa [hthreads], fun q ↦ ?_, fun q p hp ↦ ?_⟩
  · rw [hqueue]
    exact (h.queues q).congr fun p hp ↦ (hold q p hp).2
  · obtain ⟨_, _, hqu, has⟩ := h.waits q p hp
    obtain ⟨hl, ha, hd⟩ := hwaits q p hp
    refine ⟨by rwa [hthreads], by rwa [hthreads], ?_, ?_⟩
    · rwa [(hold q p hp).1]
    · rw [(hold q p hp).1, hthreads]
      exact has.imp_right hd

theorem goto_wakeOne (s : SyncSys) (q : QueueId) (pc : Pc) :
    (s.wakeOne q).goto pc = (s.goto pc).wakeOne q := by
  unfold SyncSys.wakeOne SyncSys.goto SyncSys.self
  dsimp only
  split
  · rfl
  · dsimp only
    rw [(unblock_fields s.threads _).2.1]

theorem wait (h : Waiting s members) (hself : ∀ q, s.self ∉ members q) (c : CondPtr)
    (m : MutexPtr) :
    ∃ members', Waiting (s.condWait c m) members' := by
  rw [SyncSys.condWait, goto_wakeOne]
  have hq : Waiting ((s.enqueue (.cond c)).goto (.waitBlock c m)) _ := h.enqueue hself rfl rfl
  exact ⟨_, (hq.release m).wakeOne _⟩

end Waiting

end Waiting

section Run

variable {s s' : SyncSys}

/-- Every wait queue is a chain of different threads that ends in `NULL`, no thread is on
two of them, and `cond_broadcast` ends. -/
structure QueuesFormed (s : SyncSys) : Prop where
  chain : ∀ q, ∃ l, IsQueue s.next (s.queue q) l ∧ l.Nodup
  apart : ∀ q q' l l' p, IsQueue s.next (s.queue q) l → IsQueue s.next (s.queue q') l' →
    p ∈ l → p ∈ l' → q = q'
  broadcast : ∀ c, ∃ fuel, (s.condBroadcast fuel c).isSome = true

/-- A thread exits only while `genesis` is not blocked. -/
def SyncSys.SparesGenesis (s : SyncSys) : SyncAct → Prop
  | .thread .exit => s.threads.state genesis ≠ .blocked
  | _ => True

theorem Waiting.proceed {members : QueueId → List ThreadPtr} (h : Waiting s members)
    (h0 : s.threads.loops s.self = 0) (heq : s.proceed = some s') :
    ∃ members', Waiting s' members' := by
  have hself : (s.pc s.self).atBlock = false → ∀ q, s.self ∉ members q :=
    fun hb q ↦ h.self_notMem h0 hb
  unfold SyncSys.proceed at heq
  split at heq
  case h_1 => simp at heq
  case h_2 m hpc => exact ⟨members, h.block (by rw [hpc]; rfl) heq⟩
  case h_3 m hpc => exact Option.some.inj heq ▸ h.attempt (hself (by rw [hpc]; rfl)) rfl rfl
  case h_4 c m hpc => exact ⟨members, h.block (by rw [hpc]; rfl) heq⟩
  case h_5 c m hpc => exact Option.some.inj heq ▸ h.attempt (hself (by rw [hpc]; rfl)) rfl rfl
  case h_6 m hpc => exact ⟨members, h.block (by rw [hpc]; rfl) heq⟩
  case h_7 m hpc => exact Option.some.inj heq ▸ h.attempt (hself (by rw [hpc]; rfl)) rfl rfl

theorem waiting_step {members : QueueId → List ThreadPtr} (h : Waiting s members) {a : SyncAct}
    (ha : s.Enabled a) (hs : s.SparesGenesis a) (heq : s.exec a = some s') :
    ∃ members', Waiting s' members' := by
  have hself : s.threads.loops s.self = 0 ∧ s.pc s.self = .run → ∀ q, s.self ∉ members q :=
    fun hrun q ↦ h.self_notMem hrun.1 (by rw [hrun.2]; rfl)
  cases a with
  | thread a =>
    obtain ⟨t, ht, rfl⟩ := Option.map_eq_some_iff.mp heq
    exact ⟨members, h.thread ha (fun he ↦ by subst he; exact hs) ht⟩
  | lock m => exact Option.some.inj heq ▸ h.attempt (hself ha) rfl rfl
  | trylock m =>
    obtain rfl := Option.some.inj heq
    refine ⟨members, ?_⟩
    unfold SyncSys.mutexTrylock
    split_ifs
    · exact h
    · exact h.congr rfl rfl rfl fun _ _ _ ↦ rfl
  | unlock m => exact Option.some.inj heq ▸ ⟨_, (h.release m).wakeOne _⟩
  | wait c m => exact Option.some.inj heq ▸ h.wait (hself ha) c m
  | signal c => exact Option.some.inj heq ▸ ⟨_, h.wakeOne _⟩
  | broadcast c fuel => exact h.broadcast heq
  | proceed => exact h.proceed ha heq

theorem SyncSys.Start.waiting (h : s.Start) : Waiting s fun _ ↦ [] where
  settled := h.settled
  queues q := by
    rw [h.queue q]
    exact .empty
  waits q p hp := by simp at hp

theorem Waiting.formed {members : QueueId → List ThreadPtr} (h : Waiting s members) :
    QueuesFormed s where
  chain q := ⟨members q, h.queues q, (h.queues q).chain.nodup⟩
  apart q q' l l' p hl hl' hp hp' := by
    rw [hl.unique (h.queues q)] at hp
    rw [hl'.unique (h.queues q')] at hp'
    exact h.apart hp hp'
  broadcast c := ⟨_, h.broadcast_ends rfl⟩

theorem waiting_run (s₀ s : SyncSys) (h₀ : s₀.Start)
    (hrun : PartialRuns SyncSys.exec (fun s a ↦ s.Enabled a ∧ s.SparesGenesis a) s₀ s) :
    ∃ members, Waiting s members := by
  refine PartialRuns.invariant (I := fun s ↦ ∃ members, Waiting s members) hrun ⟨_, h₀.waiting⟩ ?_
  intro s a s' h ha heq
  obtain ⟨members, h⟩ := h
  exact waiting_step h ha.1 ha.2 heq

end Run

/-- Thread 1 locks mutex 7, and `genesis` tries to lock it and blocks. -/
def contend : List SyncAct :=
  [.thread (.create 1#64), .thread (.create 2#64), .thread .tick, .lock 7#64, .thread .tick,
    .thread .tick, .lock 7#64, .proceed]

instance (s : SyncSys) (a : SyncAct) : Decidable (s.SparesGenesis a) := by
  unfold SyncSys.SparesGenesis
  split <;> infer_instance

theorem not_isQueue_of_loop {next : WaitLinks} {q : WaitQueue} {p : ThreadPtr}
    (hhead : q.head = some p) (hloop : next p = some p) (l : List ThreadPtr) :
    ¬ IsQueue next q l := by
  intro h
  have hchain := h.chain
  rw [hhead] at hchain
  cases hc : hchain with
  | cons ha hl =>
    obtain rfl := Option.some.inj ha
    rw [hloop] at hl
    have := congrArg List.length (hchain.unique hl)
    simp at this

end SeedOS.Thread
