import SeedOS.Thread.Settled

namespace SeedOS.Thread

open Foundation Function

/-- The threads, and for each of them the tick at which its last `kthread_sleep` ends, if
that tick is a 64-bit number. -/
structure SleepSys where
  threads : Threads
  deadline : ThreadPtr → Option ℕ

def ceilTicks (ms : BitVec 64) : ℕ := (ms.toNat + 9) / 10

def SleepSys.newDeadline (s : SleepSys) (ms : BitVec 64) : Option ℕ :=
  if s.threads.ticks % 2 ^ 64 + ceilTicks ms < 2 ^ 64 then some (s.threads.ticks + ceilTicks ms)
  else none

def SleepSys.newDeadlines (s : SleepSys) : ThreadAct → ThreadPtr → Option ℕ
  | .create p => update s.deadline p none
  | .sleep ms => update s.deadline s.threads.current (s.newDeadline ms)
  | _ => s.deadline

def SleepSys.exec (s : SleepSys) (a : ThreadAct) : Option SleepSys :=
  (s.threads.exec a).map fun t ↦ ⟨t, s.newDeadlines a⟩

def SleepSys.Enabled (s : SleepSys) (a : ThreadAct) : Prop :=
  s.threads.Enabled a ∧ a.IsOwn

structure SleepSys.Start (s : SleepSys) : Prop extends s.threads.Start where
  deadline : ∀ p, s.deadline p = none

/-- No thread executes before its sleep is over, and a wake scan at any 64-bit tick from
then on makes it ready. -/
def SleepHonoured (s : SleepSys) : Prop :=
  ∀ p ∈ s.threads.list, ∀ d, s.deadline p = some d →
    (s.threads.Executes p → d ≤ s.threads.ticks) ∧
    (s.threads.state p = .blocked → ∀ n, d ≤ n → n / 2 ^ 64 = d / 2 ^ 64 →
      (kthreadWakeSleepers { s.threads with ticks := n }).state p = .ready)

/-- The rounding of the sleep time does not overflow, the tick at which the sleep ends is
not the number 0 that means no sleep, and a thread exits only while `genesis` is not
blocked. -/
def SleepSys.Sound (s : SleepSys) : ThreadAct → Prop
  | .sleep ms => ms.toNat + 9 < 2 ^ 64 ∧ ¬ (apicGetTicks s.threads = 0#64 ∧ ms = 0#64)
  | .exit => s.threads.state genesis ≠ .blocked
  | _ => True

section Ticks

variable {s t : Threads} {deadline : ThreadPtr → Option ℕ}

/-- What a wake scan may rely on: a thread that is not blocked has slept long enough, and a
blocked one has its end of sleep in its wake tick. -/
structure Timed (s : Threads) (deadline : ThreadPtr → Option ℕ) : Prop where
  early : ∀ p ∈ s.list, ∀ d, deadline p = some d → s.state p = .blocked ∨ d ≤ s.ticks
  asleep : ∀ p ∈ s.list, s.state p = .blocked → ∀ d, deadline p = some d →
    s.wakeTick p = BitVec.ofNat 64 d ∧ s.wakeTick p ≠ 0#64 ∧ s.ticks / 2 ^ 64 = d / 2 ^ 64

/-- What holds after a scan: the sleep of a blocked thread is not over. -/
structure Rested (s : Threads) (deadline : ThreadPtr → Option ℕ) : Prop extends
    Timed s deadline where
  later : ∀ p ∈ s.list, s.state p = .blocked → ∀ d, deadline p = some d → s.ticks < d

theorem ofNat_le_iff {m n : ℕ} (h : n / 2 ^ 64 = m / 2 ^ 64) :
    BitVec.ofNat 64 m ≤ BitVec.ofNat 64 n ↔ m ≤ n := by
  rw [BitVec.le_def, BitVec.toNat_ofNat, BitVec.toNat_ofNat]
  omega

theorem Timed.isDue_iff (h : Timed s deadline) {p : ThreadPtr} (hp : p ∈ s.list) {d : ℕ}
    (hb : s.state p = .blocked) (hd : deadline p = some d) : isDue s p = true ↔ d ≤ s.ticks := by
  obtain ⟨hw, hne, hblock⟩ := h.asleep p hp hb d hd
  rw [Thread.isDue_iff, Asleep, apicGetTicks]
  rw [hw] at hne ⊢
  rw [ofNat_le_iff hblock]
  exact ⟨fun hx ↦ hx.2, fun hx ↦ ⟨⟨hb, hne⟩, hx⟩⟩

theorem Timed.scan (h : Timed s deadline) : Rested (kthreadWakeSleepers s) deadline := by
  have hstate : ∀ p ∈ s.list, (kthreadWakeSleepers s).state p = .blocked →
      s.state p = .blocked ∧ isDue s p ≠ true := by
    intro p hp hb
    rw [wakeSleepers_state hp] at hb
    split_ifs at hb with hdue
    exact ⟨hb, hdue⟩
  refine ⟨⟨fun p hp d hd ↦ ?_, fun p hp hb d hd ↦ ?_⟩, fun p hp hb d hd ↦ ?_⟩
  all_goals rw [wakeSleepers_list] at hp
  · rcases h.early p hp d hd with hb | hle
    · rw [wakeSleepers_state hp]
      split_ifs with hdue
      · exact .inr ((h.isDue_iff hp hb hd).mp hdue)
      · exact .inl hb
    · exact .inr hle
  · obtain ⟨hb', hdue⟩ := hstate p hp hb
    have hwake : (kthreadWakeSleepers s).wakeTick p = s.wakeTick p := by
      simp [kthreadWakeSleepers, hdue]
    rw [hwake]
    exact h.asleep p hp hb' d hd
  · obtain ⟨hb', hdue⟩ := hstate p hp hb
    rw [Ne, h.isDue_iff hp hb' hd] at hdue
    exact Nat.lt_of_not_le hdue

theorem Rested.congr (h : Rested s deadline) (hlist : t.list = s.list) (hticks : t.ticks = s.ticks)
    (hwake : t.wakeTick = s.wakeTick)
    (hblocked : ∀ p ∈ s.list, t.state p = .blocked ↔ s.state p = .blocked) :
    Rested t deadline := by
  refine ⟨⟨fun p hp d hd ↦ ?_, fun p hp hb d hd ↦ ?_⟩, fun p hp hb d hd ↦ ?_⟩
  all_goals rw [hlist] at hp
  · rw [hblocked p hp, hticks]
    exact h.early p hp d hd
  · rw [hwake, hticks]
    exact h.asleep p hp ((hblocked p hp).mp hb) d hd
  · rw [hticks]
    exact h.later p hp ((hblocked p hp).mp hb) d hd

theorem Rested.tick (h : Rested s deadline) : Timed { s with ticks := s.ticks + 1 } deadline where
  early p hp d hd := (h.early p hp d hd).imp_right fun hle ↦ Nat.le_succ_of_le hle
  asleep p hp hb d hd := by
    obtain ⟨hw, hne, hblock⟩ := h.asleep p hp hb d hd
    have hlt := h.later p hp hb d hd
    exact ⟨hw, hne, by dsimp only; omega⟩

theorem Timed.schedule (h : Timed s deadline) (hp : s.preemptCount = 0)
    (heq : kthreadSchedule s = some t) : Rested t deadline := by
  have hscan := h.scan
  rcases kthreadSchedule_cases heq with ⟨hp', _⟩ | hs
  · omega
  · cases hs with
    | switch q hready hmem hne =>
      exact hscan.congr rfl rfl rfl fun p _ ↦ switchedState_blocked_iff (by simp [hready])
    | halt hb => exact hscan.congr rfl rfl rfl fun p _ ↦ Iff.rfl
    | stay hb => exact hscan

theorem Rested.resume (h : Rested s deadline) : Rested (resume s) deadline := by
  have hscan := h.toTimed.scan
  have hr := resume_cases s
  generalize Thread.resume s = r at hr ⊢
  cases hr with
  | same h0 => exact h
  | switch h0 t hb hready hmem =>
    exact hscan.congr rfl rfl rfl fun p _ ↦ update_blocked_iff (by simp [hready]) (by simp)
  | halt h0 hb => exact hscan
  | leave h0 hb => exact hscan.congr rfl rfl rfl fun p _ ↦ update_blocked_iff hb (by simp)

theorem Rested.timer (h : Rested s deadline) (hp : s.preemptCount = 0)
    (heq : apicTimerHandler s = some t) : Rested t deadline := by
  obtain ⟨u, hu, ht⟩ := apicTimerHandler_cases heq
  have hr := h.tick.scan.toTimed.schedule hp hu
  rcases ht with rfl | rfl
  · exact hr
  · exact hr.resume

end Ticks

section Run

variable {s s' : SleepSys}

/-- What holds between two steps. -/
structure Quiet (s : SleepSys) : Prop extends Settled s.threads, Rested s.threads s.deadline

theorem SleepSys.Start.quiet (h : s.Start) : Quiet s where
  toSettled := h.settled
  early p _ d hd := by simp [h.deadline] at hd
  asleep p _ _ d hd := by simp [h.deadline] at hd
  later p _ _ d hd := by simp [h.deadline] at hd

theorem sleep_wakeTick {t : Threads} {ms : BitVec 64} (h : ms.toNat + 9 < 2 ^ 64) :
    apicGetTicks t + (ms + 9#64) / 10#64 = BitVec.ofNat 64 (t.ticks + ceilTicks ms) := by
  apply BitVec.eq_of_toNat_eq
  simp only [apicGetTicks, BitVec.toNat_add, BitVec.toNat_udiv, BitVec.toNat_ofNat, ceilTicks,
    Nat.reducePow, Nat.reduceMod]
  omega

theorem newDeadline_some {ms : BitVec 64} {d : ℕ} (h : s.newDeadline ms = some d) :
    d = s.threads.ticks + ceilTicks ms ∧ s.threads.ticks % 2 ^ 64 + ceilTicks ms < 2 ^ 64 := by
  unfold SleepSys.newDeadline at h
  split_ifs at h with hlt
  exact ⟨(Option.some.inj h).symm, hlt⟩

theorem Quiet.sleep (h : Quiet s) {ms : BitVec 64} (hs : s.Sound (.sleep ms)) {t : Threads}
    (heq : kthreadSleep s.threads ms = some t) :
    Rested t (update s.deadline s.threads.current (s.newDeadline ms)) := by
  obtain ⟨hms, hzero⟩ := hs
  unfold kthreadSleep at heq
  refine Timed.schedule ⟨fun p hp d hd ↦ ?_, fun p hp hb d hd ↦ ?_⟩ ?_ heq
  · by_cases hc : p = s.threads.current
    · exact .inl (by simp [Threads.setState, hc])
    · rw [update_of_ne hc] at hd
      simp only [Threads.setState, update_of_ne hc]
      exact h.early p hp d hd
  · by_cases hc : p = s.threads.current
    · rw [hc, update_self] at hd
      obtain ⟨rfl, hlt⟩ := newDeadline_some hd
      simp only [Threads.setState, hc, update_self]
      rw [sleep_wakeTick hms]
      refine ⟨rfl, fun h0 ↦ hzero ?_, by omega⟩
      have h0' := congrArg BitVec.toNat h0
      rw [BitVec.toNat_ofNat, show (0#64).toNat = 0 from rfl] at h0'
      unfold ceilTicks at h0' hlt
      constructor
      · apply BitVec.eq_of_toNat_eq
        rw [apicGetTicks, BitVec.toNat_ofNat, show (0#64).toNat = 0 from rfl]
        omega
      · apply BitVec.eq_of_toNat_eq
        rw [show (0#64).toNat = 0 from rfl]
        omega
    · rw [update_of_ne hc] at hd
      simp only [Threads.setState, update_of_ne hc] at hb ⊢
      exact h.asleep p hp hb d hd
  · exact h.enabled

theorem Quiet.yield (h : Quiet s) (h0 : s.threads.loops s.threads.current = 0)
    {t : Threads} (heq : kthreadYield s.threads = some t) : Rested t s.deadline := by
  have hr : Rested (s.threads.setState s.threads.current .ready) s.deadline :=
    h.toRested.congr rfl rfl rfl fun p _ ↦ update_blocked_iff (h.awake h0) (by simp)
  exact hr.toTimed.schedule h.enabled heq

theorem Quiet.exit (h : Quiet s) (h0 : s.threads.loops s.threads.current = 0) :
    Rested (kthreadExit s.threads) s.deadline := by
  refine Rested.resume (h.toRested.congr rfl rfl rfl fun p _ ↦ ?_)
  exact update_blocked_iff (h.awake h0) (by simp)

theorem Quiet.create (h : Quiet s) (p : ThreadPtr) :
    Rested (kthreadCreate s.threads p) (update s.deadline p none) := by
  have hlist : (kthreadCreate s.threads p).list = s.threads.list ++ [p] := rfl
  have hold : ∀ q ∈ (kthreadCreate s.threads p).list, ∀ d, update s.deadline p none q = some d →
      q ∈ s.threads.list ∧ s.deadline q = some d ∧ q ≠ p := by
    intro q hq d hd
    by_cases hqp : q = p
    · simp [hqp] at hd
    · rw [update_of_ne hqp] at hd
      rw [hlist, List.mem_append, List.mem_singleton] at hq
      exact ⟨hq.resolve_right hqp, hd, hqp⟩
  refine ⟨⟨fun q hq d hd ↦ ?_, fun q hq hb d hd ↦ ?_⟩, fun q hq hb d hd ↦ ?_⟩
  all_goals
    obtain ⟨hq, hd, hqp⟩ := hold q hq d hd
    simp only [kthreadCreate, Threads.setState, update_of_ne hqp] at *
  · exact h.early q hq d hd
  · exact h.asleep q hq hb d hd
  · exact h.later q hq hb d hd

theorem Quiet.reap (h : Quiet s) : Rested (kthreadReap s.threads) s.deadline := by
  have hsub := (reap_sublist s.threads).subset
  exact ⟨⟨fun p hp ↦ h.early p (hsub hp), fun p hp ↦ h.asleep p (hsub hp)⟩,
    fun p hp ↦ h.later p (hsub hp)⟩

theorem quiet_step (h : Quiet s) {a : ThreadAct} (ha : s.Enabled a) (hs : s.Sound a)
    (heq : s.exec a = some s') : Quiet s' := by
  obtain ⟨t, ht, rfl⟩ := Option.map_eq_some_iff.mp heq
  obtain ⟨ha, hown⟩ := ha
  refine ⟨settled_step h.toSettled ha hown (fun he ↦ by subst he; exact hs) ht, ?_⟩
  cases a with
  | create p => exact Option.some.inj ht ▸ h.create p
  | sleep ms => exact h.sleep hs ht
  | yield => exact h.yield ha ht
  | schedule => exact h.toTimed.schedule h.enabled ht
  | exit => exact Option.some.inj ht ▸ h.exit ha.1
  | reap => exact Option.some.inj ht ▸ h.reap
  | tick => exact h.toRested.timer h.enabled ht
  | interrupt => exact Option.some.inj ht ▸ h.toRested.resume
  | block | unblock _ | preemptDisable | preemptEnable | forkChildReturn _ | destroy _ =>
    exact hown.elim

theorem Quiet.honoured (h : Quiet s) : SleepHonoured s := by
  refine fun p hp d hd ↦ ⟨fun hx ↦ ?_, fun hb n hn hblock ↦ ?_⟩
  · obtain ⟨rfl, h0⟩ := hx
    exact (h.early _ hp d hd).resolve_left (h.awake h0)
  · obtain ⟨hw, hne, _⟩ := h.asleep p hp hb d hd
    rw [wakeSleepers_state (show p ∈ Threads.list { s.threads with ticks := n } from hp), if_pos]
    refine isDue_iff.mpr ⟨⟨hb, hne⟩, ?_⟩
    show s.threads.wakeTick p ≤ BitVec.ofNat 64 n
    rw [hw]
    exact (ofNat_le_iff hblock).mpr hn

end Run

def initThreads : SleepSys where
  threads := bootThreads
  deadline _ := none

theorem initThreads_start : initThreads.Start := ⟨bootThreads_start, fun _ ↦ rfl⟩

def workerCreated : SleepSys := (initThreads.exec (.create 1#64)).getD initThreads

/-- With a worker created, `genesis` goes to sleep for a second. -/
def genesisAsleep : SleepSys := (workerCreated.exec (.sleep 1000#64)).getD initThreads

theorem genesisAsleep_run {enabled : SleepSys → ThreadAct → Prop}
    (hcreate : enabled initThreads (.create 1#64))
    (hsleep : enabled workerCreated (.sleep 1000#64)) :
    PartialRuns SleepSys.exec enabled initThreads genesisAsleep :=
  PartialRuns.step_getD (PartialRuns.step_getD .refl hcreate rfl _) hsleep (by decide) _

theorem initThreads_create : initThreads.Enabled (.create 1#64) :=
  ⟨⟨by decide, by decide⟩, trivial⟩

theorem workerCreated_sleep : workerCreated.Enabled (.sleep 1000#64) :=
  ⟨show workerCreated.threads.loops _ = 0 by decide, trivial⟩

end SeedOS.Thread
