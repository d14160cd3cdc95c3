import SeedOS.System.WaitSteps

namespace SeedOS.System

open Foundation Memory Process Function

def View.Matches (C : View) (pid : Word) : Prop := pid = -1#64 ∨ 0 < pid.toInt ∧ C.pid = pid

/-- What the processes know of each other. The last field is the one that matters: whoever waits
for a zombie will be woken by it. -/
structure Alert (i : Ptr) (view : Ptr → Option View) (point : Ptr → Point) : Prop where
  init : ∃ I, view i = some I ∧ I.parent = none ∧ I.fresh = false
  parented : ∀ p P, view p = some P → P.parent = none → p = i
  proper : ∀ p P, view p = some P → P.parent ≠ some p
  zombie : ∀ p P, view p = some P → P.state = .zombie → point p = .wakeParent ∨ point p = .halted
  valid : ∀ p pid, point p = .record pid ∨ point p = .sleep pid ∨ point p = .asleep pid →
    pid = -1#64 ∨ 0 < pid.toInt
  recorded : ∀ p P pid, view p = some P → point p = .sleep pid ∨ point p = .asleep pid →
    P.waitPid = pid.setWidth 32
  waits : ∀ p P pid, view p = some P → (point p).waitsFor P.state = some pid →
    ∀ c C, view c = some C → C.parent = some p → C.state = .zombie → C.Matches pid →
      point c = .wakeParent

namespace Alert

variable {i p q c : Ptr} {view : Ptr → Option View} {point : Ptr → Point} {P V C : View}
  {x : Point}

section

variable (h : Alert i view point)
include h

theorem ne_init (hc : view c = some C) (hq : C.parent = some q) : c ≠ i := by
  rintro rfl
  obtain ⟨I, hI, hroot, -⟩ := h.init
  rw [hI, Option.some.injEq] at hc
  simp [← hc, hroot] at hq

theorem remove (hci : c ≠ i) : Alert i (update view c none) point := by
  have hsome : ∀ {a A}, update view c none a = some A → view a = some A := by
    intro a A ha
    have hac : a ≠ c := by
      rintro rfl
      simp at ha
    rwa [update_of_ne hac] at ha
  refine ⟨?_, fun p P hp ↦ h.parented p P (hsome hp), fun p P hp ↦ h.proper p P (hsome hp),
    fun p P hp ↦ h.zombie p P (hsome hp), h.valid, fun p P pid hp ↦ h.recorded p P pid (hsome hp),
    fun p P pid hp hw c C hc ↦ h.waits p P pid (hsome hp) hw c C (hsome hc)⟩
  obtain ⟨I, hI, hroot⟩ := h.init
  exact ⟨I, by rw [update_of_ne hci.symm, hI], hroot⟩

theorem put (hinit : p = i → V.parent = none ∧ V.fresh = false)
    (hroot : V.parent = none → p = i) (hproper : V.parent ≠ some p)
    (hzombie : V.state = .zombie → x = .wakeParent ∨ x = .halted)
    (hvalid : ∀ pid, x = .record pid ∨ x = .sleep pid ∨ x = .asleep pid →
      pid = -1#64 ∨ 0 < pid.toInt)
    (hrecorded : ∀ pid, x = .sleep pid ∨ x = .asleep pid → V.waitPid = pid.setWidth 32)
    (hwaits : ∀ pid, x.waitsFor V.state = some pid → ∀ c C, c ≠ p → view c = some C →
      C.parent = some p → C.state = .zombie → C.Matches pid → point c = .wakeParent)
    (hawaited : V.state = .zombie → x = .wakeParent ∨ ∀ q Q pid, q ≠ p → V.parent = some q →
      view q = some Q → (point q).waitsFor Q.state = some pid → ¬ V.Matches pid) :
    Alert i (update view p (some V)) (update point p x) := by
  refine ⟨?_, fun a A ha hnone ↦ ?_, fun a A ha hself ↦ ?_, fun a A ha hz ↦ ?_,
    fun a pid hpt ↦ ?_, fun a A pid ha hpt ↦ ?_, fun a A pid ha hw c C hc hC hz hm ↦ ?_⟩
  · by_cases hip : i = p
    · subst hip
      exact ⟨V, update_self _ _ _, hinit rfl⟩
    · obtain ⟨I, hI, hroot⟩ := h.init
      exact ⟨I, by rw [update_of_ne hip, hI], hroot⟩
  · rcases update_some_cases ha with ⟨rfl, rfl⟩ | ⟨hap, hA⟩
    · exact hroot hnone
    · exact h.parented a A hA hnone
  · rcases update_some_cases ha with ⟨rfl, rfl⟩ | ⟨hap, hA⟩
    · exact hproper hself
    · exact h.proper a A hA hself
  · rcases update_some_cases ha with ⟨rfl, rfl⟩ | ⟨hap, hA⟩
    · rw [update_self]
      exact hzombie hz
    · rw [update_of_ne hap]
      exact h.zombie a A hA hz
  · by_cases hap : a = p
    · rw [hap, update_self] at hpt
      exact hvalid pid hpt
    · rw [update_of_ne hap] at hpt
      exact h.valid a pid hpt
  · rcases update_some_cases ha with ⟨rfl, rfl⟩ | ⟨hap, hA⟩
    · rw [update_self] at hpt
      exact hrecorded pid hpt
    · rw [update_of_ne hap] at hpt
      exact h.recorded a A pid hA hpt
  · rcases update_some_cases ha with ⟨rfl, rfl⟩ | ⟨hap, hA⟩
    · -- `p` is the one that waits
      rw [update_self] at hw
      rcases update_some_cases hc with ⟨rfl, rfl⟩ | ⟨hca, hc'⟩
      · exact absurd hC hproper
      · rw [update_of_ne hca]
        exact hwaits pid hw c C hca hc' hC hz hm
    · rw [update_of_ne hap] at hw
      rcases update_some_cases hc with ⟨rfl, rfl⟩ | ⟨hca, hc'⟩
      · -- `p` is the zombie
        rw [update_self]
        exact (hawaited hz).resolve_right fun hnone ↦ hnone a A pid hap hC hA hw hm
      · rw [update_of_ne hca]
        exact h.waits a A pid hA hw c C hc' hC hz hm

theorem move (hp : view p = some P) (hparent : V.parent = P.parent)
    (hpid : V.pid = P.pid) (hfresh : P.fresh = false → V.fresh = false)
    (hzombie : V.state = .zombie → x = .wakeParent ∨ x = .halted)
    (hvalid : ∀ pid, x = .record pid ∨ x = .sleep pid ∨ x = .asleep pid →
      pid = -1#64 ∨ 0 < pid.toInt)
    (hrecorded : ∀ pid, x = .sleep pid ∨ x = .asleep pid → V.waitPid = pid.setWidth 32)
    (hwaits : ∀ pid, x.waitsFor V.state = some pid → ∀ c C, view c = some C →
      C.parent = some p → C.state = .zombie → C.Matches pid → point c = .wakeParent)
    (hawaited : V.state = .zombie → x = .wakeParent ∨ ∀ q Q pid, P.parent = some q →
      view q = some Q → (point q).waitsFor Q.state = some pid → ¬ P.Matches pid) :
    Alert i (update view p (some V)) (update point p x) := by
  refine h.put ?_ (fun hnone ↦ h.parented p P hp (hparent.symm.trans hnone))
    (fun hself ↦ h.proper p P hp (hparent.symm.trans hself)) hzombie hvalid hrecorded
    (fun pid hw c C _ ↦ hwaits pid hw c C) fun hz ↦ (hawaited hz).imp_right ?_
  · rintro rfl
    obtain ⟨I, hI, hroot, hstarted⟩ := h.init
    obtain rfl := Option.some.inj (hp.symm.trans hI)
    exact ⟨hparent.trans hroot, hfresh hstarted⟩
  · intro hnone q Q pid _ hq hQ hw hm
    exact hnone q Q pid (hparent.symm.trans hq) hQ hw
      (hm.imp_right fun hm ↦ ⟨hm.1, hpid.symm.trans hm.2⟩)

theorem await (hp : view p = some P) (hz : P.state ≠ .zombie)
    (hvalid : ∀ pid, x = .record pid → pid = -1#64 ∨ 0 < pid.toInt)
    (hrecorded : ∀ pid, x ≠ .sleep pid ∧ x ≠ .asleep pid)
    (hwaits : ∀ pid, x.waitsFor P.state = some pid → ∀ c C, view c = some C →
      C.parent = some p → C.state = .zombie → C.Matches pid → point c = .wakeParent) :
    Alert i view (update point p x) := by
  have hmove := h.move (V := P) (x := x) hp rfl rfl id (fun hz' ↦ absurd hz' hz)
    (fun pid hpt ↦ ?_) (fun pid hpt ↦ ?_) hwaits fun hz' ↦ absurd hz' hz
  · rwa [← hp, update_eq_self] at hmove
  · rcases hpt with hpt | hpt | hpt
    · exact hvalid pid hpt
    · exact absurd hpt (hrecorded pid).1
    · exact absurd hpt (hrecorded pid).2
  · rcases hpt with hpt | hpt
    · exact absurd hpt (hrecorded pid).1
    · exact absurd hpt (hrecorded pid).2

theorem touch (hp : view p = some P)
    (hfresh : P.fresh = false → V.fresh = false) (hsame : V = { P with fresh := V.fresh }) :
    Alert i (update view p (some V)) point := by
  have hmove := h.move (V := V) (x := point p) hp (by rw [hsame]) (by rw [hsame]) hfresh
    (fun hz ↦ h.zombie p P hp (by rw [hsame] at hz; exact hz)) (h.valid p)
    (fun pid hpt ↦ by rw [hsame]; exact h.recorded p P pid hp hpt)
    (fun pid hw ↦ h.waits p P pid hp (by rw [hsame] at hw; exact hw)) fun hz ↦ ?_
  · rwa [update_eq_self] at hmove
  · rw [or_iff_not_imp_left]
    intro hpt q Q pid hparent hq hw hm
    rw [hsame] at hz
    exact hpt (h.waits q Q pid hq hw p P hp hparent hz hm)

theorem wake (hp : view p = some P) :
    Alert i (update view p (some { P with state := .runnable })) point := by
  have hmove := h.move (V := { P with state := .runnable }) (x := point p) hp rfl rfl id
    (fun hz ↦ by cases hz) (h.valid p) (fun pid ↦ h.recorded p P pid hp) (fun pid hw ↦ ?_)
    fun hz ↦ by cases hz
  · rwa [update_eq_self] at hmove
  · refine h.waits p P pid hp ?_
    cases hpt : point p
    all_goals simp_all [Point.waitsFor]

theorem unused (hc : view c = none) : Alert i view (update point c .user) := by
  have hne : ∀ {a A}, view a = some A → a ≠ c := by
    rintro a A ha rfl
    simp [hc] at ha
  refine ⟨h.init, h.parented, h.proper, fun a A ha hz ↦ ?_, fun a pid hpt ↦ ?_,
    fun a A pid ha hpt ↦ ?_, fun a A pid ha hw b B hb hB hz hm ↦ ?_⟩
  · rw [update_of_ne (hne ha)]
    exact h.zombie a A ha hz
  · by_cases hac : a = c
    · simp [hac] at hpt
    · rw [update_of_ne hac] at hpt
      exact h.valid a pid hpt
  · rw [update_of_ne (hne ha)] at hpt
    exact h.recorded a A pid ha hpt
  · rw [update_of_ne (hne ha)] at hw
    rw [update_of_ne (hne hb)]
    exact h.waits a A pid ha hw b B hb hB hz hm

theorem add (hc : view c = none) (hq : view q = some P) {pid : Word} :
    Alert i (update view c (some ⟨.runnable, some q, pid, -1#32, true⟩))
      (update point c .user) := by
  refine h.put ?_ nofun ?_ nofun (by simp) (by simp) nofun nofun
  · rintro rfl
    obtain ⟨I, hI, -⟩ := h.init
    simp [hc] at hI
  · intro hself
    obtain rfl := Option.some.inj hself
    simp [hc] at hq

theorem adopt (hc : view c = some C) (hci : c ≠ i)
    (htime : ∀ I pid, view i = some I → (point i).waitsFor I.state = some pid →
      C.state = .zombie → C.Matches pid → point c = .wakeParent) :
    Alert i (update view c (some { C with parent := some i })) point := by
  have hput := h.put (V := { C with parent := some i }) (x := point c)
    (fun he ↦ absurd he hci) nofun (fun hself ↦ hci (Option.some.inj hself).symm)
    (h.zombie c C hc) (h.valid c) (fun pid ↦ h.recorded c C pid hc)
    (fun pid hw b B _ ↦ h.waits c C pid hc hw b B) fun hz ↦ ?_
  · rwa [update_eq_self] at hput
  · rw [or_iff_not_imp_left]
    intro hpt q I pid _ hq hI hw hm
    obtain rfl := Option.some.inj hq
    exact hpt (htime I pid hI hw hz hm)

end

end Alert

end SeedOS.System
