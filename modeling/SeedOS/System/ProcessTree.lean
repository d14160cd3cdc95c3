import SeedOS.Foundation.Family
import SeedOS.System.Kernel

namespace SeedOS.System

open Foundation Memory Process Function

structure Mark where
  state : ProcState
  fresh : Bool

/-- What `sys_wait4` and `process_exit` read of a process, apart from its lists, and whether
it has started. -/
structure View where
  state : ProcState
  parent : Option Ptr
  pid : Word
  waitPid : BitVec 32
  fresh : Bool

def View.mark (V : View) : Mark := ⟨V.state, V.fresh⟩

/-- What the kernel's lists and parent pointers say about the processes. -/
structure Tree where
  next : Ptr → Option (Option Ptr)
  list : Option Ptr
  kin : Ptr → Option (Kin Ptr)
  view : Ptr → Option View
  init : Option Ptr

def Mark.Live (m : Mark) : Prop := m.state ≠ .zombie ∧ m.fresh = false

/-- A process that has exited, or not started, has no children; init has not exited;
and all processes but init have a parent. -/
structure Tame (i : Option Ptr) (p : Ptr) (P : Kin Ptr) (m : Mark) : Prop where
  zombie : m.state = .zombie → i ≠ some p → P.children = none
  fresh : m.fresh = true → P.children = none ∧ m.state ≠ .zombie ∧ i ≠ some p
  init : i = some p → m.state ≠ .zombie
  root : P.parent = none → i = some p

/-- The process list holds every process once, and the children lists and the parent
pointers agree. -/
structure Tree.Lists (T : Tree) : Prop where
  procs : ∃ ps, Chain T.next T.list ps ∧ ∀ p, p ∈ ps ↔ (T.kin p).isSome
  family : Family T.kin

structure Tree.Ok (T : Tree) : Prop extends T.Lists where
  tame : ∀ p P V, T.kin p = some P → T.view p = some V → Tame T.init p P V.mark
  init : ∃ i V, T.init = some i ∧ T.view i = some V ∧ V.parent = none

structure Joins (T T' : Tree) (q c : Ptr) (V : View) : Prop where
  lists : T'.Lists
  view : T'.view = update T.view c (some V)
  init : T'.init = T.init
  new : ∃ C, T'.kin c = some C ∧ C.parent = some q ∧ C.children = none
  kin : ∀ a A, a ≠ c → T'.kin a = some A → ∃ A₀, T.kin a = some A₀ ∧ A.parent = A₀.parent ∧
    (a ≠ q → A.children = A₀.children)

structure Leaves (T T' : Tree) (c : Ptr) : Prop where
  lists : T'.Lists
  view : T'.view = update T.view c none
  init : T'.init = T.init
  kin : ∀ a A, T'.kin a = some A → ∃ A₀, T.kin a = some A₀ ∧ A.parent = A₀.parent ∧
    (A₀.children = none → A.children = none)

structure Adopts (T T' : Tree) (i c : Ptr) (V : View) : Prop where
  lists : T'.Lists
  view : T'.view = update T.view c (some { V with parent := some i })
  init : T'.init = T.init
  kin : ∀ a A, T'.kin a = some A → ∃ A₀, T.kin a = some A₀ ∧
    (A.parent = none → A₀.parent = none) ∧ (a ≠ i → A₀.children = none → A.children = none)

def Tree.Childless (T : Tree) (p : Ptr) : Prop := ∀ P, T.kin p = some P → P.children = none

section Childless

variable {T T' : Tree} {q c i a : Ptr} {V : View}

theorem Joins.childless (hj : Joins T T' q c V) (haq : a ≠ q) (ha : T.Childless a) :
    T'.Childless a := by
  intro A hA
  by_cases hac : a = c
  · obtain ⟨C, hC, -, hleaf⟩ := hj.new
    rw [← hac, hA, Option.some.injEq] at hC
    exact hC ▸ hleaf
  · obtain ⟨A₀, hA₀, -, hkids⟩ := hj.kin a A hac hA
    exact (hkids haq).trans (ha A₀ hA₀)

theorem Leaves.childless (hl : Leaves T T' c) (ha : T.Childless a) : T'.Childless a := by
  intro A hA
  obtain ⟨A₀, hA₀, -, hkids⟩ := hl.kin a A hA
  exact hkids (ha A₀ hA₀)

theorem Adopts.childless (hadopts : Adopts T T' i c V) (hai : a ≠ i) (ha : T.Childless a) :
    T'.Childless a := by
  intro A hA
  obtain ⟨A₀, hA₀, -, hkids⟩ := hadopts.kin a A hA
  exact hkids hai (ha A₀ hA₀)

end Childless

section Tame

variable {i : Option Ptr} {p : Ptr} {P P' : Kin Ptr} {m : Mark}

theorem Tame.mono (h : Tame i p P m) (hkids : P.children = none → P'.children = none)
    (hroot : P'.parent = none → P.parent = none) : Tame i p P' m :=
  ⟨fun hz hi ↦ hkids (h.zombie hz hi), fun hf ↦ ⟨hkids (h.fresh hf).1, (h.fresh hf).2⟩, h.init,
    fun hp ↦ h.root (hroot hp)⟩

theorem Tame.live (h : Tame i p P m) (hm : m.Live) (hroot : P'.parent = none → P.parent = none) :
    Tame i p P' m :=
  ⟨fun hz ↦ absurd hz hm.1, fun hf ↦ by simp [hm.2] at hf, h.init, fun hp ↦ h.root (hroot hp)⟩

theorem Tame.init_live (h : Tame (some p) p P m) : m.Live := by
  refine ⟨h.init rfl, ?_⟩
  cases hf : m.fresh with
  | false => rfl
  | true => exact absurd rfl (h.fresh hf).2.2

end Tame

namespace Tree

variable {T T' : Tree} {p q c i : Ptr} {P Q C I : Kin Ptr} {V V' : View}

theorem Lists.joins (h : T.Lists) (hc : T.kin c = none) (hq : T.kin q = some Q) (V : View) :
    Joins T { T with
      next := update T.next c (some T.list)
      list := some c
      kin := update (update T.kin c (some ⟨some q, none, Q.children⟩)) q
        (some { Q with children := some c })
      view := update T.view c (some V) } q c V := by
  have hqc : q ≠ c := by
    rintro rfl
    simp [hc] at hq
  obtain ⟨ps, hps, hmem⟩ := h.procs
  refine ⟨⟨⟨c :: ps, .cons (update_self ..) (hps.congr fun a ha ↦ update_of_ne ?_ _ _), fun a ↦ ?_⟩,
    h.family.addChild hc hq⟩, rfl, rfl,
    ⟨_, (update_of_ne hqc.symm _ _).trans (update_self ..), rfl, rfl⟩, fun a A hac ha ↦ ?_⟩
  · rintro rfl
    simpa [hc] using (hmem a).mp ha
  · dsimp only
    by_cases hac : a = c
    · subst hac
      simp [update_of_ne hqc.symm]
    · rw [List.mem_cons, or_iff_right hac, hmem, update_apply, update_of_ne hac]
      split_ifs with haq
      · simp [haq, hq]
      · rfl
  · rcases update_some_cases ha with ⟨rfl, rfl⟩ | ⟨-, ha⟩
    · exact ⟨Q, hq, rfl, fun hne ↦ absurd rfl hne⟩
    · rw [update_of_ne hac] at ha
      exact ⟨A, ha, rfl, fun _ ↦ rfl⟩

theorem Lists.leaves (h : T.Lists) (hc : T.kin c = some C) (hleaf : C.children = none)
    (hparent : C.parent = some q) (hq : T.kin q = some Q) {pre post : List Ptr}
    (hcs : Chain (siblings T.kin) Q.children (pre ++ c :: post)) {pre' post' : List Ptr}
    (hps : Chain T.next T.list (pre' ++ c :: post')) {n : Option Ptr} (hn : T.next c = some n) :
    Leaves T { T with
      next := update (fun a ↦ if slotAfter .head pre' = .link a then some n else T.next a) c none
      list := if slotAfter .head pre' = .head then n else T.list
      kin := update (setSlot T.kin q (slotAfter .head pre) C.sibling) c none
      view := update T.view c none } c := by
  have hsome : ∀ a, (setSlot T.kin q (slotAfter .head pre) C.sibling a).isSome =
      (T.kin a).isSome := fun a ↦ by
    simpa using congrArg Option.isSome (setSlot_parent T.kin q (slotAfter .head pre) C.sibling a)
  refine ⟨⟨?_, h.family.removeLeaf hc hleaf hparent hq hcs⟩, rfl, rfl, fun a A ha ↦ ?_⟩
  · obtain ⟨ps, hps', hmem⟩ := h.procs
    obtain rfl := hps'.unique hps
    have hnd := hps.nodup
    rw [List.nodup_append, List.nodup_cons] at hnd
    obtain ⟨_, ⟨hcpost, _⟩, hdisj⟩ := hnd
    have hne : ∀ {a}, a ∈ pre' ++ post' → a ≠ c := by
      rintro a ha rfl
      exact (List.mem_append.mp ha).elim (fun ha ↦ hdisj a ha a List.mem_cons_self rfl) hcpost
    refine ⟨pre' ++ post', ?_, fun a ↦ ?_⟩
    · refine hps.unlink .head hn (by simp) ?_ (fun a ha hs ↦ ?_) fun a ha hs ↦ ?_
      · simp only [Chain.slotAfter_eq_head, true_and]
      · dsimp only
        rw [update_of_ne (hne (List.mem_append_left _ ha)), if_pos hs]
      · dsimp only
        rw [update_of_ne (hne ha), if_neg hs]
    · dsimp only
      by_cases hac : a = c
      · subst hac
        rw [update_self]
        exact ⟨fun ha ↦ absurd rfl (hne ha), by simp⟩
      · rw [update_of_ne hac, hsome, ← hmem]
        simp [hac]
  · dsimp only at ha
    have hac : a ≠ c := by
      rintro rfl
      simp at ha
    rw [update_of_ne hac] at ha
    have hkids := setSlot_children T.kin q (slotAfter .head pre) C.sibling a
    have hpar := setSlot_parent T.kin q (slotAfter .head pre) C.sibling a
    rw [ha, Option.map_some] at hkids hpar
    obtain ⟨A₀, hA₀, hpar₀⟩ := Option.map_eq_some_iff.mp hpar.symm
    refine ⟨A₀, hA₀, hpar₀.symm, fun hnone ↦ ?_⟩
    rw [if_neg, hA₀, Option.map_some, Option.some.injEq] at hkids
    · exact hkids.trans hnone
    · -- the parent has a child
      rintro ⟨-, rfl⟩
      rw [hq, Option.some.injEq] at hA₀
      rw [hA₀, hnone] at hcs
      simpa using hcs.eq_nil

theorem Lists.adopts (h : T.Lists) (hp : T.kin p = some P) (hchild : P.children = some c)
    (hc : T.kin c = some C) (hI : T.kin i = some I) (hpi : p ≠ i) (hci : c ≠ i) (V : View) :
    Adopts T { T with
      kin := update (update (update T.kin p (some { P with children := C.sibling })) c
        (some { C with parent := some i, sibling := I.children })) i
        (some { I with children := some c })
      view := update T.view c (some { V with parent := some i }) } i c V := by
  have hkin : ∀ a A, update (update (update T.kin p (some { P with children := C.sibling })) c
      (some { C with parent := some i, sibling := I.children })) i
      (some { I with children := some c }) a = some A → ∃ A₀, T.kin a = some A₀ ∧
      (A.parent = none → A₀.parent = none) ∧ (a ≠ i → A₀.children = none → A.children = none) := by
    intro a A ha
    rcases update_some_cases ha with ⟨rfl, rfl⟩ | ⟨-, ha⟩
    · exact ⟨I, hI, id, fun hne ↦ absurd rfl hne⟩
    rcases update_some_cases ha with ⟨rfl, rfl⟩ | ⟨-, ha⟩
    · exact ⟨C, hc, nofun, fun _ ↦ id⟩
    rcases update_some_cases ha with ⟨rfl, rfl⟩ | ⟨-, ha⟩
    · exact ⟨P, hp, id, fun _ hnone ↦ by simp [hchild] at hnone⟩
    · exact ⟨A, ha, id, fun _ ↦ id⟩
  obtain ⟨ps, hps, hmem⟩ := h.procs
  refine ⟨⟨⟨ps, hps, fun a ↦ (hmem a).trans ⟨fun ha ↦ ?_, fun ha ↦ ?_⟩⟩,
    h.family.moveFirst hp hchild hc hI hpi hci⟩, rfl, rfl, hkin⟩
  · simp only [update_apply]
    split_ifs
    all_goals first | rfl | exact ha
  · obtain ⟨A, hA⟩ := Option.isSome_iff_exists.mp ha
    obtain ⟨A₀, hA₀, -⟩ := hkin a A hA
    rw [hA₀]
    rfl

namespace Ok

theorem single (hlist : T.list = some i) (hnext : T.next i = some none)
    (hkin : T.kin i = some ⟨none, none, none⟩) (hother : ∀ p, p ≠ i → T.kin p = none)
    (hinit : T.init = some i) (hview : T.view i = some V) (hroot : V.parent = none)
    (hlive : V.mark.Live) : T.Ok := by
  have hall : ∀ {p P}, T.kin p = some P → p = i ∧ P = ⟨none, none, none⟩ := by
    intro p P hp
    by_cases hpi : p = i
    · subst hpi
      rw [hkin, Option.some.injEq] at hp
      exact ⟨rfl, hp.symm⟩
    · simp [hother p hpi] at hp
  refine ⟨⟨⟨[i], hlist ▸ .cons hnext .nil, fun p ↦ ?_⟩, ⟨fun q Q hq ↦ ?_, fun c C q hc hC ↦ ?_⟩⟩,
    fun p P W hp hW ↦ ?_, i, V, hinit, hview, hroot⟩
  · by_cases hpi : p = i
    · subst hpi; simp [hkin]
    · simp [hpi, hother p hpi]
  · obtain ⟨_, rfl⟩ := hall hq
    refine ⟨[], .nil, fun c ↦ ⟨by simp, ?_⟩⟩
    rintro ⟨C, hc, hC⟩
    simp [(hall hc).2] at hC
  · simp [(hall hc).2] at hC
  · obtain ⟨rfl, rfl⟩ := hall hp
    rw [hview, Option.some.injEq] at hW
    subst hW
    exact ⟨fun _ _ ↦ rfl, fun hf ↦ by simp [hlive.2] at hf, fun _ ↦ hlive.1, fun _ ↦ hinit⟩

theorem setView (h : T.Ok) (hp : T.kin p = some P) (hV : T.view p = some V)
    (hparent : V'.parent = V.parent) (htame : Tame T.init p P V'.mark) :
    ({ T with view := update T.view p (some V') } : Tree).Ok := by
  refine ⟨⟨h.procs, h.family⟩, fun a A W ha hW ↦ ?_, ?_⟩
  · rcases update_some_cases hW with ⟨rfl, rfl⟩ | ⟨-, hW⟩
    · dsimp only at ha
      rw [hp, Option.some.injEq] at ha
      exact ha ▸ htame
    · exact h.tame a A W ha hW
  · obtain ⟨i, I, hi, hI, hroot⟩ := h.init
    by_cases hip : i = p
    · subst hip
      rw [hV, Option.some.injEq] at hI
      exact ⟨i, V', hi, update_self .., hparent.trans (hI ▸ hroot)⟩
    · exact ⟨i, I, hi, (update_of_ne hip _ _).trans hI, hroot⟩

theorem joins (h : T.Ok) (hj : Joins T T' q c V) (hnone : T.view c = none)
    (hlive : ∀ W, T.view q = some W → W.mark.Live) (hz : V.state ≠ .zombie) : T'.Ok := by
  obtain ⟨i, I, hi, hI, hroot⟩ := h.init
  have hic : i ≠ c := by
    rintro rfl
    simp [hnone] at hI
  have hinit : T.init ≠ some c := by
    rw [hi]
    exact fun he ↦ hic (Option.some.inj he)
  refine ⟨hj.lists, fun a A W ha hW ↦ ?_, i, I, hj.init.trans hi,
    by rw [hj.view, update_of_ne hic, hI], hroot⟩
  rw [hj.view] at hW
  rw [hj.init]
  rcases update_some_cases hW with ⟨rfl, rfl⟩ | ⟨hac, hW⟩
  · obtain ⟨C, hC, hparent, hleaf⟩ := hj.new
    rw [hC, Option.some.injEq] at ha
    subst ha
    exact ⟨fun hz' ↦ absurd hz' hz, fun _ ↦ ⟨hleaf, hz, hinit⟩, fun hi ↦ absurd hi hinit,
      fun hp ↦ by simp [hparent] at hp⟩
  · obtain ⟨A₀, hA₀, hparent, hkids⟩ := hj.kin a A hac ha
    have htame := h.tame a A₀ W hA₀ hW
    by_cases haq : a = q
    · exact htame.live (hlive W (haq ▸ hW)) hparent.symm.trans
    · exact htame.mono (hkids haq).trans hparent.symm.trans

theorem leaves (h : T.Ok) (hl : Leaves T T' c) (hV : T.view c = some V)
    (hparent : V.parent ≠ none) :
    T'.Ok := by
  obtain ⟨i, I, hi, hI, hroot⟩ := h.init
  have hic : i ≠ c := by
    rintro rfl
    rw [hV, Option.some.injEq] at hI
    exact hparent (hI ▸ hroot)
  refine ⟨hl.lists, fun a A W ha hW ↦ ?_, i, I, hl.init.trans hi,
    by rw [hl.view, update_of_ne hic, hI], hroot⟩
  have hac : a ≠ c := by
    rintro rfl
    simp [hl.view] at hW
  rw [hl.view, update_of_ne hac] at hW
  obtain ⟨A₀, hA₀, hparent', hkids⟩ := hl.kin a A ha
  rw [hl.init]
  exact (h.tame a A₀ W hA₀ hW).mono hkids hparent'.symm.trans

theorem adopts (h : T.Ok) (ha : Adopts T T' i c V) (hi : T.init = some i) (hci : c ≠ i)
    (hV : T.view c = some V) : T'.Ok := by
  obtain ⟨i', I, hi', hI, hroot⟩ := h.init
  obtain rfl := Option.some.inj (hi.symm.trans hi')
  refine ⟨ha.lists, fun a A W hA hW ↦ ?_, i, I, ha.init.trans hi,
    by rw [ha.view, update_of_ne hci.symm, hI], hroot⟩
  obtain ⟨A₀, hA₀, hroot', hkids⟩ := ha.kin a A hA
  obtain ⟨W₀, hW₀, hmark⟩ : ∃ W₀, T.view a = some W₀ ∧ W₀.mark = W.mark := by
    rw [ha.view] at hW
    rcases update_some_cases hW with ⟨rfl, rfl⟩ | ⟨-, hW⟩
    · exact ⟨V, hV, rfl⟩
    · exact ⟨W, hW, rfl⟩
  have htame := h.tame a A₀ W₀ hA₀ hW₀
  rw [ha.init, ← hmark]
  by_cases hai : a = i
  · subst hai
    rw [hi] at htame ⊢
    exact htame.live htame.init_live hroot'
  · exact htame.mono (hkids hai) hroot'

end Ok

end Tree

end SeedOS.System
