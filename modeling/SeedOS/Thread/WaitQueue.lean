import SeedOS.Foundation.Chain
import SeedOS.Thread.Exited
import SeedOS.Thread.MutualExclusion

namespace SeedOS.Thread

open Foundation Function

section Queue

variable {next : WaitLinks} {q q' : WaitQueue} {l l' : List ThreadPtr} {t : ThreadPtr}

/-- A queue with the members `l`: a chain that ends in `NULL`, of which `wait_tail` is the
last thread. -/
structure IsQueue (next : WaitLinks) (q : WaitQueue) (l : List ThreadPtr) : Prop where
  chain : Chain (fun p ↦ some (next p)) q.head l
  tail : q.tail = l.getLast?

theorem IsQueue.empty : IsQueue next ⟨none, none⟩ [] := ⟨.nil, rfl⟩

theorem IsQueue.unique (h : IsQueue next q l) (h' : IsQueue next q l') : l = l' :=
  h.chain.unique h'.chain

theorem IsQueue.congr (h : IsQueue next q l) {next' : WaitLinks}
    (hn : ∀ p ∈ l, next' p = next p) : IsQueue next' q l :=
  ⟨h.chain.congr fun p hp ↦ by rw [hn p hp], h.tail⟩

theorem IsQueue.add (h : IsQueue next q l) (ht : t ∉ l) :
    IsQueue (waitqAdd next q t).1 (waitqAdd next q t).2 (l ++ [t]) := by
  unfold waitqAdd
  rcases List.eq_nil_or_concat' l with rfl | ⟨pre, a, rfl⟩
  · have htail : q.tail = none := h.tail
    simp only [htail]
    exact ⟨.cons (by simp) .nil, rfl⟩
  · have htail : q.tail = some a := by rw [h.tail]; simp
    have hnodup := h.chain.nodup
    have hta : t ≠ a := fun he ↦ ht (by simp [he])
    simp only [htail]
    refine ⟨h.chain.concat (fun b hb ↦ ?_) ?_ ?_, by simp⟩
    · have hba : b ≠ a := fun he ↦ by
        rw [he] at hb
        exact (List.nodup_append.mp hnodup).2.2 a hb a (by simp) rfl
      have hbt : b ≠ t := fun he ↦ ht (by simp [← he, hb])
      rw [update_of_ne hba, update_of_ne hbt]
    · rw [update_self]
    · rw [update_of_ne hta, update_self]

theorem IsQueue.add_other (h : IsQueue next q l) (h' : IsQueue next q' l') (ht : t ∉ l')
    (hd : ∀ p ∈ l, p ∉ l') : IsQueue (waitqAdd next q t).1 q' l' := by
  refine h'.congr fun p hp ↦ ?_
  have hpt : p ≠ t := fun he ↦ ht (he ▸ hp)
  unfold waitqAdd
  cases htail : q.tail with
  | none => exact update_of_ne hpt _ _
  | some a =>
    have ha : a ∈ l := by
      rw [h.tail] at htail
      exact List.mem_of_getLast? htail
    have hpa : p ≠ a := fun he ↦ hd a ha (he ▸ hp)
    dsimp only
    rw [update_of_ne hpa, update_of_ne hpt]

theorem IsQueue.remove (h : IsQueue next q (t :: l)) :
    waitqRemove next q = (some t, update next t none,
      ⟨next t, if next t = none then none else q.tail⟩) ∧
    IsQueue (update next t none) ⟨next t, if next t = none then none else q.tail⟩ l := by
  have hnodup := h.chain.nodup
  obtain ⟨hchain, htail⟩ := h
  have hhead : q.head = some t := by
    cases hq : q.head with
    | none =>
      rw [hq] at hchain
      exact absurd hchain.eq_nil (by simp)
    | some a =>
      rw [hq] at hchain
      cases hchain
      rfl
  refine ⟨by simp [waitqRemove, hhead], ?_, ?_⟩
  · rw [hhead] at hchain
    cases hchain with
    | cons ha hl =>
      rw [← Option.some.inj ha] at hl
      refine hl.congr fun p hp ↦ ?_
      rw [update_of_ne fun he : p = t ↦ (List.nodup_cons.mp hnodup).1 (he ▸ hp)]
  · rw [hhead] at hchain
    cases hchain with
    | cons ha hl =>
      rw [← Option.some.inj ha] at hl
      cases l with
      | nil =>
        cases hn : next t with
        | none => simp
        | some b =>
          rw [hn] at hl
          cases hl
      | cons b l =>
        have hne : next t ≠ none := fun hn ↦ by
          rw [hn] at hl
          exact absurd hl.eq_nil (by simp)
        rw [if_neg hne, htail, List.getLast?_cons_cons]

theorem IsQueue.head_eq_none (h : IsQueue next q l) : q.head = none ↔ l = [] := by
  constructor
  · intro hq
    have hchain := h.chain
    rw [hq] at hchain
    exact hchain.eq_nil
  · rintro rfl
    have hchain := h.chain
    cases hq : q.head with
    | none => rfl
    | some a =>
      rw [hq] at hchain
      cases hchain

end Queue

section Dormant

variable {s s' : Threads} {p : ThreadPtr} {a : ThreadAct}

def Dormant (s : Threads) (p : ThreadPtr) : Prop := s.state p = .blocked ∧ s.wakeTick p = 0#64

theorem Dormant.scan (h : Dormant s p) : Dormant (kthreadWakeSleepers s) p := by
  have hdue : isDue s p = false := by simp [isDue, h.2]
  constructor
  · simp [kthreadWakeSleepers, hdue, h.1]
  · simp [kthreadWakeSleepers, hdue, h.2]

theorem Dormant.schedule (h : Dormant s p) (heq : kthreadSchedule s = some s') : Dormant s' p := by
  have hw := h.scan
  rcases kthreadSchedule_cases heq with ⟨_, rfl⟩ | hs
  · exact h
  · cases hs with
    | switch q hready hmem hne =>
      exact ⟨(switchedState_blocked_iff (by simp [hready])).mpr hw.1, hw.2⟩
    | halt hb => exact hw
    | stay hb => exact hw

theorem Dormant.resume (h : Dormant s p) : Dormant (resume s) p := by
  have hw := h.scan
  have hr := resume_cases s
  generalize Thread.resume s = r at hr ⊢
  cases hr with
  | same h0 => exact h
  | switch h0 t hb hready hmem =>
    exact ⟨(update_blocked_iff (by simp [hready]) (by simp)).mpr hw.1, hw.2⟩
  | halt h0 hb => exact hw
  | leave h0 hb => exact ⟨(update_blocked_iff hb (by simp)).mpr hw.1, hw.2⟩

theorem Dormant.timer (h : Dormant s p) (heq : apicTimerHandler s = some s') : Dormant s' p := by
  obtain ⟨t, ht, hs'⟩ := apicTimerHandler_cases heq
  have ht' : Dormant t p :=
    (Dormant.scan (s := { s with ticks := s.ticks + 1 }) h).schedule ht
  rcases hs' with rfl | rfl
  · exact ht'
  · exact ht'.resume

theorem Dormant.setState (h : Dormant s p) {q : ThreadPtr} {x : ThreadState} (hp : p ≠ q) :
    Dormant (s.setState q x) p :=
  ⟨by simp only [Threads.setState, update_of_ne hp]; exact h.1, h.2⟩

theorem own_step (hown : a.IsOwn) (ha : s.Enabled a) (heq : s.exec a = some s')
    (hp : p ∈ s.list) (halive : s.state p ≠ .exited) (hother : ¬ a.IsInterrupt → p ≠ s.current) :
    p ∈ s'.list ∧ s'.state p ≠ .exited ∧ (Dormant s p → Dormant s' p) := by
  have hplain : ∀ hpl : a.IsPlain, (a = .exit → p ≠ s.current) →
      p ∈ s'.list ∧ s'.state p ≠ .exited := fun hpl hx ↦ (plain_step hpl heq).2 p hp halive hx
  cases a with
  | create q =>
    obtain rfl := Option.some.inj heq
    have hpq : p ≠ q := fun he ↦ ha.2 (he ▸ hp)
    refine ⟨List.mem_append_left [q] hp, ?_, fun hd ↦ ⟨?_, ?_⟩⟩
    · simp only [kthreadCreate, Threads.setState, update_of_ne hpq]
      exact halive
    · simp only [kthreadCreate, Threads.setState, update_of_ne hpq]
      exact hd.1
    · simp only [kthreadCreate, Threads.setState, update_of_ne hpq]
      exact hd.2
  | sleep ms =>
    obtain ⟨hl, hx⟩ := hplain trivial (by simp)
    refine ⟨hl, hx, fun hd ↦ Dormant.schedule ?_ heq⟩
    have hpc := hother id
    constructor
    · simp only [Threads.setState, update_of_ne hpc]
      exact hd.1
    · simp only [Threads.setState, update_of_ne hpc]
      exact hd.2
  | yield =>
    obtain ⟨hl, hx⟩ := hplain trivial (by simp)
    exact ⟨hl, hx, fun hd ↦ (hd.setState (hother id)).schedule heq⟩
  | schedule =>
    obtain ⟨hl, hx⟩ := hplain trivial (by simp)
    exact ⟨hl, hx, fun hd ↦ hd.schedule heq⟩
  | exit =>
    obtain ⟨hl, hx⟩ := hplain trivial fun _ ↦ hother id
    obtain rfl := Option.some.inj heq
    have hset : Dormant s p →
        Dormant { s.setState s.current .exited with current := genesis } p :=
      fun hd ↦ (hd.setState (hother id) : Dormant (s.setState s.current .exited) p)
    exact ⟨hl, hx, fun hd ↦ (hset hd).resume⟩
  | reap =>
    obtain ⟨hl, hx⟩ := hplain trivial (by simp)
    obtain rfl := Option.some.inj heq
    exact ⟨hl, hx, id⟩
  | tick =>
    obtain ⟨hl, hx⟩ := hplain trivial (by simp)
    exact ⟨hl, hx, fun hd ↦ hd.timer heq⟩
  | interrupt =>
    obtain ⟨hl, hx⟩ := hplain trivial (by simp)
    obtain rfl := Option.some.inj heq
    exact ⟨hl, hx, fun hd ↦ hd.resume⟩
  | block | unblock _ | preemptDisable | preemptEnable | forkChildReturn _ | destroy _ =>
    exact hown.elim

end Dormant

end SeedOS.Thread
