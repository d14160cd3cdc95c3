import SeedOS.Thread.Sync

namespace SeedOS.Thread

open Foundation Function

/-- At most one thread holds the mutex, and the mutex says who. -/
structure Exclusive (s : SyncSys) (m : MutexPtr) : Prop where
  one : ∀ p q, s.holds m p = true → s.holds m q = true → p = q
  held : ∀ p, s.holds m p = true → s.mutex m = ⟨true, some p⟩
  free : (∀ p, s.holds m p = false) → s.mutex m = ⟨false, none⟩

def SyncSys.HolderReleases (s : SyncSys) : SyncAct → Prop
  | .unlock m | .wait _ m => s.holds m s.self = true
  | _ => True

section Frames

variable {s : SyncSys} {m : MutexPtr}

theorem Exclusive.congr (h : Exclusive s m) {s' : SyncSys} (hm : s'.mutex = s.mutex)
    (hh : s'.holds = s.holds) : Exclusive s' m := by
  obtain ⟨hone, hheld, hfree⟩ := h
  rw [← hm, ← hh] at *
  exact ⟨hone, hheld, hfree⟩

theorem wakeOne_mutex (s : SyncSys) (q : QueueId) :
    (s.wakeOne q).mutex = s.mutex ∧ (s.wakeOne q).holds = s.holds := by
  unfold SyncSys.wakeOne
  split <;> exact ⟨rfl, rfl⟩

theorem broadcast_mutex {fuel : ℕ} {c : CondPtr} {s' : SyncSys}
    (h : s.condBroadcast fuel c = some s') : s'.mutex = s.mutex ∧ s'.holds = s.holds := by
  induction fuel generalizing s with
  | zero => simp [SyncSys.condBroadcast] at h
  | succ fuel ih =>
    rw [SyncSys.condBroadcast] at h
    split_ifs at h
    · exact Option.some.inj h ▸ ⟨rfl, rfl⟩
    · obtain ⟨hm, hh⟩ := ih h
      obtain ⟨hm', hh'⟩ := wakeOne_mutex s (.cond c)
      exact ⟨hm.trans hm', hh.trans hh'⟩

theorem block_mutex {retry : Pc} {s' : SyncSys} (h : s.block retry = some s') :
    s'.mutex = s.mutex ∧ s'.holds = s.holds := by
  obtain ⟨t, _, rfl⟩ := Option.map_eq_some_iff.mp h
  exact ⟨rfl, rfl⟩

end Frames

section Steps

variable {s : SyncSys} {m m' : MutexPtr}

theorem Exclusive.acquire (h : Exclusive s m) (hfree : (s.mutex m').locked = false) :
    Exclusive (s.acquire m') m := by
  by_cases hm : m = m'
  · subst hm
    have hnone : ∀ p, s.holds m p = false := by
      intro p
      by_contra hp
      rw [h.held p (by simpa using hp)] at hfree
      simp at hfree
    have hself : ∀ p, (s.acquire m).holds m p = true ↔ p = s.self := by
      intro p
      simp only [SyncSys.acquire, update_self, update_apply]
      split_ifs with hp
      · simp [hp]
      · simp [hnone, hp]
    refine ⟨fun p q hp hq ↦ ?_, fun p hp ↦ ?_, fun hno ↦ ?_⟩
    · rw [(hself p).mp hp, (hself q).mp hq]
    · rw [(hself p).mp hp]
      exact update_self _ _ _
    · exact absurd ((hself s.self).mpr rfl) (by simp [hno])
  · refine ⟨?_, ?_, ?_⟩
    all_goals simp only [SyncSys.acquire, update_of_ne hm]
    · exact h.one
    · exact h.held
    · exact h.free

theorem Exclusive.release (h : Exclusive s m) (hheld : s.holds m' s.self = true) :
    Exclusive (s.release m') m := by
  by_cases hm : m = m'
  · subst hm
    have hnone : ∀ p, (s.release m).holds m p = false := by
      intro p
      simp only [SyncSys.release, update_self, update_apply]
      split_ifs with hp
      · rfl
      · by_contra hc
        exact hp (h.one p s.self (by simpa using hc) hheld)
    refine ⟨fun p q hp ↦ ?_, fun p hp ↦ ?_, fun _ ↦ update_self _ _ _⟩
    · simp [hnone] at hp
    · simp [hnone] at hp
  · refine ⟨?_, ?_, ?_⟩
    all_goals simp only [SyncSys.release, update_of_ne hm]
    · exact h.one
    · exact h.held
    · exact h.free

theorem Exclusive.wakeOne (h : Exclusive s m) (q : QueueId) : Exclusive (s.wakeOne q) m :=
  h.congr (wakeOne_mutex s q).1 (wakeOne_mutex s q).2

theorem Exclusive.attempt (h : Exclusive s m) (block : Pc) : Exclusive (s.attempt m' block) m := by
  unfold SyncSys.attempt
  split_ifs with hl
  · exact h.congr rfl rfl
  · exact (h.acquire (by simpa using hl)).congr rfl rfl

theorem Exclusive.proceed (h : Exclusive s m) {s' : SyncSys} (heq : s.proceed = some s') :
    Exclusive s' m := by
  unfold SyncSys.proceed at heq
  split at heq
  · simp at heq
  · exact h.congr (block_mutex heq).1 (block_mutex heq).2
  · exact Option.some.inj heq ▸ h.attempt _
  · exact h.congr (block_mutex heq).1 (block_mutex heq).2
  · exact Option.some.inj heq ▸ h.attempt _
  · exact h.congr (block_mutex heq).1 (block_mutex heq).2
  · exact Option.some.inj heq ▸ h.attempt _

theorem exclusive_step (h : Exclusive s m) {a : SyncAct} (ha : s.HolderReleases a) {s' : SyncSys}
    (heq : s.exec a = some s') : Exclusive s' m := by
  cases a with
  | thread a =>
    obtain ⟨t, _, rfl⟩ := Option.map_eq_some_iff.mp heq
    refine h.congr ?_ ?_ <;> cases a <;> rfl
  | lock m' => exact Option.some.inj heq ▸ h.attempt _
  | trylock m' =>
    obtain rfl := Option.some.inj heq
    unfold SyncSys.mutexTrylock
    split_ifs with hl
    · exact h
    · exact h.acquire (by simpa using hl)
  | unlock m' => exact Option.some.inj heq ▸ (h.release ha).wakeOne _
  | wait c m' =>
    obtain rfl := Option.some.inj heq
    have hq : Exclusive (s.enqueue (.cond c)) m := h.congr rfl rfl
    exact ((hq.release ha).wakeOne _).congr rfl rfl
  | signal c => exact Option.some.inj heq ▸ h.wakeOne _
  | broadcast c fuel => exact h.congr (broadcast_mutex heq).1 (broadcast_mutex heq).2
  | proceed => exact h.proceed heq

end Steps

/-- Mutual exclusion: if only holders release mutexes, then in every state between two
sections at most one thread holds a mutex, and the mutex is locked and owned by it, or not
locked and not owned if there is none. -/
theorem mutual_exclusion (s₀ s : SyncSys) (h₀ : s₀.Start)
    (hrun : PartialRuns SyncSys.exec (fun s a ↦ s.Enabled a ∧ s.HolderReleases a) s₀ s)
    (m : MutexPtr) : Exclusive s m := by
  refine PartialRuns.invariant (I := fun s ↦ Exclusive s m) hrun ⟨?_, ?_, fun _ ↦ h₀.mutex m⟩
    fun s a s' hs ha heq ↦ exclusive_step hs ha.2 heq
  · simp [h₀.holds]
  · simp [h₀.holds]

def bootSync : SyncSys where
  threads := bootThreads
  pc _ := .run
  next _ := none
  queue _ := ⟨none, none⟩
  mutex _ := ⟨false, none⟩
  holds _ _ := false

theorem bootSync_start : bootSync.Start :=
  ⟨bootThreads_start, rfl, fun _ ↦ rfl, fun _ ↦ rfl, fun _ _ ↦ rfl⟩

/-- Thread 1 tries to lock mutex 7 while `genesis` holds it, and again after `genesis` has unlocked
it. -/
def takeTurns : List SyncAct :=
  [.thread (.create 1#64), .lock 7#64, .thread .tick, .trylock 7#64, .thread .tick, .unlock 7#64,
    .thread .tick, .trylock 7#64]

instance SyncSys.decidableHolderReleases (s : SyncSys) (a : SyncAct) :
    Decidable (s.HolderReleases a) :=
  match a with
  | .unlock m | .wait _ m => instDecidableEqBool (s.holds m s.self) true
  | .thread _ | .lock _ | .trylock _ | .signal _ | .broadcast _ _ | .proceed => isTrue trivial

theorem mutual_exclusion_takeTurns : ∃ s,
    PartialRuns.replay SyncSys.exec (fun s a ↦ s.Enabled a ∧ s.HolderReleases a) bootSync
      takeTurns = some s ∧
      s.holds 7#64 genesis = false ∧ s.holds 7#64 1#64 = true ∧ Exclusive s 7#64 := by
  have hfacts : (PartialRuns.replay SyncSys.exec (fun s a ↦ s.Enabled a ∧ s.HolderReleases a)
      bootSync takeTurns).any
      (fun s ↦ s.holds 7#64 genesis = false ∧ s.holds 7#64 1#64 = true) = true := by
    decide +kernel
  obtain ⟨s, hs, hfacts⟩ := (Option.any_eq_true ..).mp hfacts
  rw [decide_eq_true_eq] at hfacts
  exact ⟨s, hs, hfacts.1, hfacts.2,
    mutual_exclusion bootSync s bootSync_start (.of_replay hs) 7#64⟩

end SeedOS.Thread
