import SeedOS.Thread.Kthread

namespace SeedOS.Thread

open Foundation Function

section Scan

variable {s : Threads} {p : ThreadPtr}

def Asleep (s : Threads) (p : ThreadPtr) : Prop := s.state p = .blocked ∧ s.wakeTick p ≠ 0#64

instance (s : Threads) (p : ThreadPtr) : Decidable (Asleep s p) :=
  inferInstanceAs (Decidable (_ ∧ _))

theorem isDue_iff : isDue s p = true ↔ Asleep s p ∧ s.wakeTick p ≤ apicGetTicks s := by
  simp [isDue, Asleep]

/-- The other threads of the list in the order in which the scheduler tries them. -/
def Threads.turn (s : Threads) : List ThreadPtr := cyclicAfter s.list s.current

theorem find_current_or (l : List ThreadPtr) (r : ThreadPtr → Bool) {a : ThreadPtr} (ha : a ∈ l) :
    l.find? (fun p ↦ p = a || r p) = some (((l.takeWhile (· ≠ a)).find? r).getD a) := by
  induction l with
  | nil => simp at ha
  | cons x l ih =>
    by_cases hx : x = a
    · simp [hx]
    · have hmem := ih ((List.mem_cons.mp ha).resolve_left (Ne.symm hx))
      cases hr : r x <;> simp [hx, hr, hmem]

theorem nextThread_eq (hc : s.current ∈ s.list) :
    nextThread s = some ((s.turn.find? s.isReady).getD s.current) := by
  rw [nextThread, if_pos hc, Threads.turn, cyclicAfter, List.find?_append]
  cases hf : (following s.list s.current).find? s.isReady with
  | some p => simp
  | none => simpa using find_current_or s.list s.isReady hc

@[simp]
theorem wakeSleepers_list : (kthreadWakeSleepers s).list = s.list := rfl

@[simp]
theorem wakeSleepers_current : (kthreadWakeSleepers s).current = s.current := rfl

theorem wakeSleepers_state (hp : p ∈ s.list) :
    (kthreadWakeSleepers s).state p = if isDue s p = true then .ready else s.state p := by
  simp [kthreadWakeSleepers, hp]

def NoneDue (s : Threads) : Prop := ∀ p ∈ s.list, isDue s p = false

theorem noneDue_woken (s : Threads) : NoneDue (kthreadWakeSleepers s) := by
  intro p hp
  have hstate := wakeSleepers_state (s := s) hp
  by_cases hd : isDue s p = true
  · rw [if_pos hd] at hstate
    simp [isDue, hstate]
  · have hsame : isDue (kthreadWakeSleepers s) p = isDue s p := by
      have hwake : (kthreadWakeSleepers s).wakeTick p = s.wakeTick p := by
        simp [kthreadWakeSleepers, hd]
      rw [isDue, isDue, hstate, if_neg hd, hwake]
      rfl
    rw [hsame]
    simpa using hd

theorem NoneDue.eq (h : NoneDue s) : kthreadWakeSleepers s = s := by
  have hf : ∀ p, ¬ (p ∈ s.list ∧ isDue s p = true) := fun p ⟨hp, hd⟩ ↦ by simp [h p hp] at hd
  simp [kthreadWakeSleepers, hf]

theorem NoneDue.of_blocked (h : NoneDue s) {s' : Threads} (hlist : s'.list = s.list)
    (hticks : s'.ticks = s.ticks) (hwake : s'.wakeTick = s.wakeTick)
    (hblocked : ∀ p, s'.state p = .blocked → s.state p = .blocked) : NoneDue s' := by
  intro p hp
  have hnot := h p (hlist ▸ hp)
  rw [← Bool.not_eq_true, isDue_iff] at hnot ⊢
  rintro ⟨⟨hb, hw⟩, hle⟩
  rw [hwake] at hw hle
  rw [apicGetTicks, hticks] at hle
  exact hnot ⟨⟨hblocked p hb, hw⟩, hle⟩

end Scan

section Switch

variable {s : Threads} {q : ThreadPtr}

theorem resume_running (h : NoneDue s) (hr : s.state s.current = .running) :
    resume s = { s with loops := update s.loops s.current 0 } := by
  by_cases h0 : s.loops s.current = 0
  · rw [resume, if_pos h0, ← h0, update_eq_self]
  · rw [resume, if_neg h0, h.eq]
    simp only [hr, reduceCtorEq, if_false]
    rw [← hr, update_eq_self]

/-- The states that a switch to `q` leaves behind. -/
def switchedState (s : Threads) (q : ThreadPtr) : ThreadPtr → ThreadState :=
  update (if s.state s.current = .running then update s.state s.current .ready else s.state) q
    .running

theorem of_update {state : ThreadPtr → ThreadState} {q p : ThreadPtr} {x y : ThreadState}
    (hxy : y ≠ x) (h : update state q y p = x) : state p = x := by
  rw [update_apply] at h
  split_ifs at h
  · exact absurd h hxy
  · exact h

def ThreadState.Idle (x : ThreadState) : Prop := x ≠ .ready ∧ x ≠ .running

theorem blocked_idle : ThreadState.blocked.Idle := ⟨by simp, by simp⟩

theorem of_switchedState {p : ThreadPtr} {x : ThreadState} (hx : x.Idle)
    (h : switchedState s q p = x) : s.state p = x := by
  have h' := of_update (Ne.symm hx.2) h
  split_ifs at h'
  · exact of_update (Ne.symm hx.1) h'
  · exact h'

theorem switchTo_eq (h : NoneDue s) : switchTo s q =
    { s with
      state := switchedState s q
      loops := update s.loops q 0
      current := q } := by
  refine resume_running (h.of_blocked rfl rfl rfl fun p ↦ of_switchedState blocked_idle) ?_
  exact update_self _ _ _

end Switch

section Spec

variable {s : Threads}

/-- One call with preemption enabled: the first ready thread in turn is switched to; if
there is none the current thread goes on, or begins to halt if it is blocked. -/
theorem kthreadSchedule_eq (hl : s.list.Nodup) (hc : s.current ∈ s.list)
    (hp : s.preemptCount = 0) :
    kthreadSchedule s = some
      (let w := kthreadWakeSleepers s
      match w.turn.find? w.isReady with
      | some q =>
        { w with state := switchedState w q, loops := update w.loops q 0, current := q }
      | none =>
        if w.state w.current = .blocked then
          { w with loops := update w.loops w.current (w.loops w.current + 1) }
        else w) := by
  have hp' : ¬ 0 < s.preemptCount := by omega
  have hnext := nextThread_eq (s := kthreadWakeSleepers s) hc
  rw [kthreadSchedule, if_neg hp']
  dsimp only
  rw [hnext]
  cases hf : (kthreadWakeSleepers s).turn.find? (kthreadWakeSleepers s).isReady with
  | some q =>
    have hne : q ≠ (kthreadWakeSleepers s).current :=
      ((mem_cyclicAfter hc hl).mp (List.mem_of_find?_eq_some hf)).2
    simp only [Option.getD_some, if_pos hne, switchTo_eq (noneDue_woken s)]
  | none =>
    simp only [Option.getD_none, ne_eq, not_true_eq_false, if_false]
    split_ifs <;> rfl

def Threads.FirstReady (s : Threads) (q : ThreadPtr) : Prop :=
  s.state q = .ready ∧ ∃ u v, s.turn = u ++ q :: v ∧ ∀ p ∈ u, s.state p ≠ .ready

/-- Between `s` and `w` exactly the sleepers that are due were made ready. -/
structure Woken (s w : Threads) : Prop where
  list : w.list = s.list
  current : w.current = s.current
  state : ∀ p ∈ s.list, w.state p =
    if Asleep s p ∧ s.wakeTick p ≤ apicGetTicks s then .ready else s.state p
  wakeTick : ∀ p ∈ s.list, ¬ (Asleep s p ∧ s.wakeTick p ≤ apicGetTicks s) →
    w.wakeTick p = s.wakeTick p

structure SwitchedTo (w : Threads) (q : ThreadPtr) (s' : Threads) : Prop where
  list : s'.list = w.list
  executes : s'.Executes q
  running : s'.state q = .running
  old : w.current ≠ q → s'.state w.current =
    if w.state w.current = .running then .ready else w.state w.current
  rest : ∀ p, p ≠ q → p ≠ w.current → s'.state p = w.state p

theorem woken (s : Threads) : Woken s (kthreadWakeSleepers s) where
  list := rfl
  current := rfl
  state p hp := by
    rw [wakeSleepers_state hp]
    exact if_congr isDue_iff rfl rfl
  wakeTick p hp hnot := by
    rw [← isDue_iff] at hnot
    simp [kthreadWakeSleepers, hnot]

theorem firstReady_iff {q : ThreadPtr} :
    s.FirstReady q ↔ s.turn.find? s.isReady = some q := by
  rw [List.find?_eq_some_iff_append]
  simp [Threads.FirstReady, Threads.isReady]

theorem switchedTo (w : Threads) (q : ThreadPtr) : SwitchedTo w q
    { w with state := switchedState w q, loops := update w.loops q 0, current := q } where
  list := rfl
  executes := ⟨rfl, update_self _ _ _⟩
  running := update_self _ _ _
  old hne := by
    simp only [switchedState, update_of_ne hne]
    split_ifs <;> simp
  rest p hq hc := by
    simp only [switchedState, update_of_ne hq]
    split_ifs
    · rw [update_of_ne hc]
    · rfl

end Spec

section Bypass

/-- The states in which `n` calls of `kthread_schedule` are made. Between two calls threads
may change their states, but the list stays, and so does the current thread. -/
def ScheduleCalls (c : ℕ → Threads) (n : ℕ) : Prop :=
  ∀ i < n, (c i).preemptCount = 0 ∧ ∃ s', kthreadSchedule (c i) = some s' ∧
    (c (i + 1)).list = s'.list ∧ (c (i + 1)).current = s'.current

variable {c : ℕ → Threads} {n : ℕ} {x : ThreadPtr}

theorem schedule_closer {s s' : Threads} (hl : s.list.Nodup) (hc : s.current ∈ s.list)
    (hp : s.preemptCount = 0) (hx : x ∈ s.list) (hr : s.state x = .ready) (hxc : s.current ≠ x)
    (heq : kthreadSchedule s = some s') :
    s'.list = s.list ∧ s'.current ∈ s.list ∧ (s'.current ≠ x →
      (cyclicAfter s.list s'.current).idxOf x < (cyclicAfter s.list s.current).idxOf x) := by
  have hr' : (kthreadWakeSleepers s).isReady x = true := by
    rw [Threads.isReady, wakeSleepers_state hx, hr, ite_self, decide_eq_true_eq]
  have hmem : x ∈ (kthreadWakeSleepers s).turn := (mem_cyclicAfter hc hl).mpr ⟨hx, Ne.symm hxc⟩
  rw [kthreadSchedule_eq hl hc hp] at heq
  obtain rfl := Option.some.inj heq
  cases hf : (kthreadWakeSleepers s).turn.find? (kthreadWakeSleepers s).isReady with
  | none =>
    have := List.find?_eq_none.mp hf x hmem
    exact absurd hr' this
  | some q =>
    simp only [hf]
    refine ⟨rfl, ((mem_cyclicAfter hc hl).mp (List.mem_of_find?_eq_some hf)).1, fun hne ↦ ?_⟩
    exact closer_of_find hc hl hx (Ne.symm hxc) hr' hf hne

theorem bypass_bound (hl : (c 0).list.Nodup) (hc : (c 0).current ∈ (c 0).list)
    (hx : x ∈ (c 0).list) (hcalls : ScheduleCalls c n)
    (hr : ∀ i < n, (∀ j ≤ i, (c j).current ≠ x) → (c i).state x = .ready) (i : ℕ) (hi : i ≤ n)
    (hnot : ∀ j ≤ i, (c j).current ≠ x) :
    (c i).list = (c 0).list ∧ (c i).current ∈ (c 0).list ∧
      (cyclicAfter (c 0).list (c i).current).idxOf x + i + 2 ≤ (c 0).list.length := by
  induction i with
  | zero =>
    have hmem := (mem_cyclicAfter hc hl).mpr ⟨hx, Ne.symm (hnot 0 le_rfl)⟩
    have hlt := List.idxOf_lt_length_of_mem hmem
    have hlen := length_cyclicAfter hc
    exact ⟨rfl, hc, by omega⟩
  | succ i ih =>
    obtain ⟨hlist, hmem, hbound⟩ := ih (by omega) fun j hj ↦ hnot j (by omega)
    obtain ⟨hp, s', hs', hlist', hcur'⟩ := hcalls i hi
    have hready := hr i hi fun j hj ↦ hnot j (by omega)
    have hclose := schedule_closer (hlist ▸ hl) (hlist ▸ hmem) hp (hlist ▸ hx) hready
      (hnot i (by omega)) hs'
    rw [hlist, ← hcur'] at hclose
    have hlt := hclose.2.2 (hnot (i + 1) le_rfl)
    exact ⟨hlist'.trans hclose.1, hclose.2.1, by omega⟩

end Bypass

/-- Round-robin with bounded bypass. A call wakes the sleepers that are due and goes to the
first other thread that is ready, or else stays with a current thread that is not blocked;
and a thread that stays ready becomes current within as many calls as there are other
threads. -/
theorem round_robin (s : Threads) (hl : s.list.Nodup) (hc : s.current ∈ s.list) :
    (s.preemptCount = 0 → ∃ w, Woken s w ∧
      (∀ q, w.FirstReady q → ∃ s', kthreadSchedule s = some s' ∧ SwitchedTo w q s') ∧
      ((∃ p ∈ w.list, p ≠ w.current ∧ w.state p = .ready) → ∃ q, w.FirstReady q) ∧
      ((∀ p ∈ w.list, p ≠ w.current → w.state p ≠ .ready) → w.state w.current ≠ .blocked →
        kthreadSchedule s = some w)) ∧
    ∀ (c : ℕ → Threads) (x : ThreadPtr), c 0 = s → x ∈ s.list →
      ScheduleCalls c (s.list.length - 1) →
      (∀ i < s.list.length - 1, (∀ j ≤ i, (c j).current ≠ x) → (c i).state x = .ready) →
      ∃ i ≤ s.list.length - 1, (c i).current = x := by
  refine ⟨fun hp ↦ ⟨kthreadWakeSleepers s, woken s, fun q hq ↦ ?_, fun ⟨p, hm, hne, hr⟩ ↦ ?_,
    fun hnone hb ↦ ?_⟩, fun c x h0 hx hcalls hr ↦ ?_⟩
  · rw [kthreadSchedule_eq hl hc hp]
    simp only [firstReady_iff.mp hq]
    exact ⟨_, rfl, switchedTo _ q⟩
  · obtain ⟨q, hq⟩ := Option.isSome_iff_exists.mp <| List.find?_isSome.mpr
      ⟨p, (mem_cyclicAfter hc hl).mpr ⟨hm, hne⟩, show (kthreadWakeSleepers s).isReady p = true by
        simpa [Threads.isReady] using hr⟩
    exact ⟨q, firstReady_iff.mpr hq⟩
  · have hf : (kthreadWakeSleepers s).turn.find? (kthreadWakeSleepers s).isReady = none := by
      refine List.find?_eq_none.mpr fun p hm ↦ ?_
      obtain ⟨hm, hne⟩ := (mem_cyclicAfter hc hl).mp hm
      simpa [Threads.isReady] using hnone p hm hne
    rw [kthreadSchedule_eq hl hc hp]
    simp only [hf, if_neg hb]
  · subst h0
    by_contra hnot
    push Not at hnot
    have := bypass_bound hl hc hx hcalls hr _ le_rfl hnot
    omega

def threeThreads : Threads where
  others := [1#64, 2#64]
  state p := if p = genesis then .running else .ready
  wakeTick _ := 0#64
  loops _ := 0
  current := genesis
  preemptCount := 0
  ticks := 0

def threeCalls : ℕ → Threads
  | 0 => threeThreads
  | i + 1 => (kthreadSchedule (threeCalls i)).getD threeThreads

theorem round_robin_three : ∃ i ≤ 2, (threeCalls i).current = 2#64 := by
  refine (round_robin threeThreads (by decide) (by decide)).2 threeCalls 2#64 rfl (by decide)
    (fun i hi ↦ ?_) fun i hi hnot ↦ ?_
  · have hsome : ∀ i < 2, (threeCalls i).preemptCount = 0 ∧
        (kthreadSchedule (threeCalls i)).isSome = true := by decide
    obtain ⟨s', hs'⟩ := Option.isSome_iff_exists.mp (hsome i hi).2
    refine ⟨(hsome i hi).1, s', hs', ?_⟩
    rw [threeCalls, hs']
    exact ⟨rfl, rfl⟩
  · have hready : ∀ i < 2, (threeCalls i).state 2#64 = .ready := by decide
    exact hready i hi

end SeedOS.Thread
