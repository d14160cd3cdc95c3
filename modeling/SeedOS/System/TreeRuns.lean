import SeedOS.System.TreeView

namespace SeedOS.System

open Foundation Memory Process Function

section Joining

variable {k k' : Kernel} {p q c : Ptr} {Q C : Pcb}

theorem linkChild_tree (hq : k.pcbs q = some Q) (hc : k.pcbs c = some C) (hqc : q ≠ c)
    (heq : linkChild k q c = some k') :
    k'.tree = { k.tree with
      kin := update (update k.tree.kin c (some ⟨C.parent, C.children, Q.children⟩)) q
        (some ⟨Q.parent, some c, Q.sibling⟩) } := by
  simp only [linkChild, hq, Option.bind_eq_bind, Option.bind_some, Option.bind_eq_some_iff] at heq
  obtain ⟨k₁, h₁, h₂⟩ := heq
  have hq₁ : k₁.pcbs q = some Q := (modify_other h₁ hqc).trans hq
  rw [modify_kin hq₁ h₂ fun _ ↦ ⟨rfl, rfl⟩, modify_kin hc h₁ fun _ ↦ ⟨rfl, rfl⟩]
  rfl

theorem processAdd_tree (heq : processAdd k c = some k') :
    k'.tree = { k.tree with
      next := update k.tree.next c (some k.tree.list)
      list := some c } := by
  simp only [processAdd, Option.bind_eq_bind, Option.bind_eq_some_iff] at heq
  obtain ⟨k₁, h₁, heq⟩ := heq
  obtain ⟨C, hc, _⟩ := Option.map_eq_some_iff.mp h₁
  have htree := modify_next hc h₁ fun _ ↦ ⟨rfl, rfl⟩
  cases heq
  show { k₁.tree with list := some c } = _
  rw [htree]
  rfl

theorem link_joins {T : Tree} (h : T.Lists) (hnew : T.kin c = none) (hq : (T.kin q).isSome)
    {n : Option (Option Ptr)} {s : Option Ptr} {V : View} (hk : k.tree = { T with
      next := update T.next c n
      kin := update T.kin c (some ⟨some q, none, s⟩)
      view := update T.view c (some V) })
    {k₁ : Kernel} (hlink : linkChild k q c = some k₁) (hadd : processAdd k₁ c = some k') :
    Joins T k'.tree q c V := by
  obtain ⟨Q, hQ⟩ := Option.isSome_iff_exists.mp hq
  have hqc : q ≠ c := by
    rintro rfl
    simp [hnew] at hQ
  obtain ⟨procQ, hprocQ, hkinQ⟩ : ∃ proc, k.pcbs q = some proc ∧ proc.kin = Q :=
    pcb_of_kin (by rw [hk]; exact (update_of_ne hqc _ _).trans hQ)
  obtain ⟨procC, hprocC, hkinC⟩ : ∃ proc, k.pcbs c = some proc ∧ proc.kin = ⟨some q, none, s⟩ :=
    pcb_of_kin (by rw [hk]; exact update_self ..)
  obtain ⟨hpar, hkids, _⟩ := Kin.mk.inj hkinC
  have hjoins := h.joins hnew hQ V
  rw [processAdd_tree hadd, linkChild_tree hprocQ hprocC hqc hlink, hk, hpar, hkids]
  simp only [update_idem]
  rw [← hkinQ] at hjoins
  exact hjoins

end Joining

section Leaving

variable {k k' : Kernel} {p q c : Ptr} {Q C : Pcb} {fuel : ℕ}

theorem unlinkFromParent_tree (hc : k.pcbs c = some C) (hparent : C.parent = some q)
    (hq : k.pcbs q = some Q) {pre post : List Ptr}
    (hcs : Chain k.siblingOf Q.children (pre ++ c :: post))
    (heq : unlinkFromParent fuel k c = some k') :
    k'.tree = { k.tree with kin := setSlot k.tree.kin q (slotAfter .head pre) C.sibling } := by
  have hcpre : c ∉ pre := fun hin ↦ by
    have hnd := hcs.nodup
    rw [List.nodup_append] at hnd
    exact hnd.2.2 c hin c List.mem_cons_self rfl
  simp only [unlinkFromParent, hc, hparent, unlinkChild, hq, Option.bind_eq_bind,
    Option.bind_some, Option.bind_eq_some_iff] at heq
  obtain ⟨r, hr, heq⟩ := heq
  rw [hcs.findSlot_eq hcpre hr] at heq
  exact setChildSlot_tree heq

theorem unlinkProcess_tree (hc : k.pcbs c = some C) {pre post : List Ptr}
    (hps : Chain k.nextOf k.processList (pre ++ c :: post))
    (heq : unlinkProcess fuel k c = some k') :
    k'.tree = { k.tree with
      list := if slotAfter .head pre = .head then C.next else k.tree.list
      next := fun a ↦ if slotAfter .head pre = .link a then some C.next else k.tree.next a } := by
  have hcpre : c ∉ pre := fun hin ↦ by
    have hnd := hps.nodup
    rw [List.nodup_append] at hnd
    exact hnd.2.2 c hin c List.mem_cons_self rfl
  simp only [unlinkProcess, hc, Option.bind_eq_bind, Option.bind_some,
    Option.bind_eq_some_iff] at heq
  obtain ⟨r, hr, heq⟩ := heq
  rw [hps.findSlot_eq hcpre hr] at heq
  exact setProcessSlot_tree heq

theorem processDestroy_leaves (h : k.tree.Lists) (hc : k.pcbs c = some C)
    (hleaf : C.children = none) (hparent : C.parent = some q)
    (heq : processDestroy fuel k c = some k') : Leaves k.tree k'.tree c := by
  have hkin := tree_kin hc
  obtain ⟨Q', hQ'⟩ := Option.isSome_iff_exists.mp (h.family.parent c _ q hkin hparent).1
  obtain ⟨Q, hq, rfl⟩ := pcb_of_kin hQ'
  obtain ⟨cs, hcs, hmem⟩ := h.family.children q _ hQ'
  obtain ⟨pre, post, rfl⟩ := List.append_of_mem ((hmem c).mpr ⟨_, hkin, hparent⟩)
  obtain ⟨ps, hps, hmem'⟩ := h.procs
  obtain ⟨pre', post', rfl⟩ := List.append_of_mem ((hmem' c).mpr (by rw [hkin]; rfl))
  simp only [processDestroy, Option.bind_eq_bind, Option.bind_eq_some_iff] at heq
  obtain ⟨k₁, h₁, k₂, h₂, k₃, h₃, h₄⟩ := heq
  have ht₁ := unlinkFromParent_tree hc hparent hq (siblings_kin k ▸ hcs) h₁
  have hnext₁ : k₁.tree.next = k.tree.next := by rw [ht₁]
  have hlist₁ : k₁.tree.list = k.tree.list := by rw [ht₁]
  obtain ⟨C₁, hC₁, hn⟩ : ∃ C₁, k₁.pcbs c = some C₁ ∧ C₁.next = C.next :=
    Option.map_eq_some_iff.mp ((congrFun hnext₁ c).trans (tree_next hc))
  have ht₂ := unlinkProcess_tree hC₁ (show Chain k₁.tree.next k₁.tree.list _ from by
    rw [hnext₁, hlist₁]; exact hps) h₂
  obtain ⟨C₂, hC₂, -⟩ : ∃ C₂, k₂.pcbs c = some C₂ ∧ C₂.view = C.view :=
    pcb_of_view (by rw [ht₂, ht₁, view_eq hc])
  obtain ⟨C₃, -, hk⟩ := Option.map_eq_some_iff.mp h₄
  have htree : k'.tree = ({ k₃ with pcbs := update k₃.pcbs c none } : Kernel).tree := by
    rw [← hk]
    rfl
  rw [htree, tree_update, closeFds_sameTree hC₂ h₃, ht₂, hnext₁, hlist₁, ht₁, hn]
  exact h.leaves hkin hleaf hparent hQ' hcs hps (tree_next hc)

theorem processDestroy_ok (h : k.tree.Ok) (hc : k.pcbs c = some C) (hleaf : C.children = none)
    (hinit : k.initProcess ≠ some c) (heq : processDestroy fuel k c = some k') : k'.tree.Ok := by
  have hparent : C.parent ≠ none :=
    fun hnone ↦ hinit ((h.tame c _ _ (tree_kin hc) (view_eq hc)).root hnone)
  obtain ⟨q, hq⟩ := Option.ne_none_iff_exists'.mp hparent
  exact h.leaves (processDestroy_leaves h.toLists hc hleaf hq heq) (view_eq hc) hparent

end Leaving

def Kernel.Live (k : Kernel) (p : Ptr) : Prop := ∃ proc, k.pcbs p = some proc ∧ proc.mark.Live

section Lifecycle

variable {k k' : Kernel} {p q : Ptr} {fuel : ℕ} {r : Word}

theorem Kernel.Live.isSome (h : k.Live q) : (k.tree.kin q).isSome := by
  obtain ⟨proc, hp, _⟩ := h
  rw [tree_kin hp]
  rfl

theorem Kernel.Live.mark (h : k.Live q) (V : View) (hV : k.tree.view q = some V) :
    V.mark.Live := by
  obtain ⟨proc, hp, hlive⟩ := h
  rw [view_eq hp, Option.some.injEq] at hV
  exact hV ▸ hlive

theorem destroyFresh_ok (h : k.tree.Ok) {C : Pcb} (hc : k.pcbs p = some C)
    (hfresh : C.fresh = true) (heq : processDestroy fuel k p = some k') : k'.tree.Ok := by
  obtain ⟨hleaf, _, hinit⟩ := (h.tame p _ _ (tree_kin hc) (view_eq hc)).fresh hfresh
  exact processDestroy_ok h hc hleaf hinit heq

theorem processCreate_ok (h : k.tree.Ok) {blocks : CreateBlocks}
    (hpcb : ∀ p, blocks.pcb = some p → k.pcbs p = none) (hpid : k.nextPid ≠ 1#64)
    (hq : k.Live q) {r : Option Ptr} (heq : processCreate k (some q) blocks = some (r, k')) :
    k'.tree.Ok := by
  obtain ⟨-, vm, pid, init, rfl, hinit⟩ | ⟨c, pml4Phys, vm, k₀, k₁, k₂, k₃, k₄, -, hb, rfl, h₁, h₂,
    h₃, h₄, h₅⟩ := processCreate_cases heq
  · rw [hinit hpid]
    exact h
  rw [if_neg hpid] at h₁
  have hnew : k.tree.kin c = none := by simp [Kernel.tree, hpcb c hb]
  have htree := (((openStdio_sameTree h₃).trans (openStdio_sameTree h₂)).trans
    (openStdio_sameTree h₁)).trans (tree_update { k with nextPid := _, vm := _ } c _)
  exact h.joins (link_joins h.toLists hnew hq.isSome htree h₄ h₅)
    (by simp [Kernel.tree, hpcb c hb]) hq.mark (by simp [Pcb.view])

theorem sysFork_tree (h : k.tree.Lists) {blocks : ForkBlocks}
    (hpcb : ∀ c, blocks.pcb = some c → k.pcbs c = none)
    (heq : sysFork fuel k p blocks = some (r, k')) : k'.tree = k.tree ∨
      ∃ c pid T, blocks.pcb = some c ∧ Joins k.tree T p c ⟨.runnable, some p, pid, -1#32, true⟩ ∧
        (k'.tree = T ∨ Leaves T k'.tree c) := by
  obtain ⟨proc, hp, ⟨-, rfl, -⟩ | ⟨c, dst, vm, hb, -, -, ⟨-, -, rfl⟩ | ⟨k₀, k₁, k₂, k₃, -, rfl, h₁,
    h₂, h₃, hend⟩⟩⟩ := sysFork_cases heq
  · exact .inl rfl
  · exact .inl rfl
  have hnew : k.tree.kin c = none := by simp [Kernel.tree, hpcb c hb]
  have htree := (refFds_sameTree h₁).trans (tree_update { k with nextPid := _, vm := _ } c _)
  have hjoins := link_joins h hnew (by simp [tree_kin hp]) htree h₂ h₃
  refine .inr ⟨c, k.nextPid, k₃.tree, hb, hjoins, ?_⟩
  obtain ⟨-, rfl⟩ | ⟨-, -, h₄⟩ := hend
  · exact .inl rfl
  · obtain ⟨K, hK, hparent, hleaf⟩ := hjoins.new
    obtain ⟨C, hC, rfl⟩ := pcb_of_kin hK
    exact .inr (processDestroy_leaves hjoins.lists hC hleaf hparent h₄)

theorem sysFork_ok (h : k.tree.Ok) {blocks : ForkBlocks}
    (hpcb : ∀ c, blocks.pcb = some c → k.pcbs c = none) (hp : k.Live p)
    (heq : sysFork fuel k p blocks = some (r, k')) : k'.tree.Ok := by
  obtain htree | ⟨c, pid, T, hb, hjoins, hend⟩ := sysFork_tree h.toLists hpcb heq
  · exact htree ▸ h
  have hok := h.joins hjoins (by simp [Kernel.tree, hpcb c hb]) hp.mark (by simp)
  obtain htree | hleaves := hend
  · exact htree ▸ hok
  · exact hok.leaves hleaves (by rw [hjoins.view, update_self]) (by simp)

theorem forkChildUserReturn_ok (h : k.tree.Ok) {C : Pcb} (hc : k.pcbs p = some C)
    (hfresh : C.fresh = true) {canonical : Bool}
    (heq : forkChildUserReturn fuel k p canonical = some k') : k'.tree.Ok := by
  cases canonical with
  | true =>
    rw [forkChildUserReturn, if_pos rfl] at heq
    obtain ⟨_, hz, hi⟩ := (h.tame p _ _ (tree_kin hc) (view_eq hc)).fresh hfresh
    rw [modify_view hc heq fun _ ↦ ⟨rfl, rfl⟩]
    exact h.setView (tree_kin hc) (view_eq hc) rfl ⟨fun hz' ↦ absurd hz' hz, nofun,
      fun hi' ↦ absurd hi' hi, (h.tame p _ _ (tree_kin hc) (view_eq hc)).root⟩
  | false => exact destroyFresh_ok h hc hfresh heq

theorem reparent_adopts (h : k.tree.Lists) {i c : Ptr} {P : Pcb} (hp : k.pcbs p = some P)
    (hchild : P.children = some c) (hroot : ∃ I, k.tree.view i = some I ∧ I.parent = none)
    (hpi : p ≠ i) (heq : reparent k p i c = some k') : ∃ C, k.pcbs c = some C ∧
      C.parent = some p ∧ c ≠ i ∧ Adopts k.tree k'.tree i c C.view := by
  simp only [reparent, Option.bind_eq_bind, Option.bind_eq_some_iff] at heq
  obtain ⟨C, hC, k₁, h₁, I, hI₁, k₂, h₂, h₃⟩ := heq
  obtain ⟨K, post, hK, hparent, -, hpc⟩ := h.family.first (tree_kin hp) hchild
  rw [tree_kin hC, Option.some.injEq] at hK
  subst hK
  have hci : c ≠ i := by
    rintro rfl
    obtain ⟨V, hV, hnone⟩ := hroot
    obtain rfl := Option.some.inj ((view_eq hC).symm.trans hV)
    cases hparent.symm.trans hnone
  have hC₁ : k₁.pcbs c = some C := (modify_other h₁ hpc.symm).trans hC
  have hI : k.pcbs i = some I := (modify_other h₁ hpi.symm).symm.trans hI₁
  have hI₂ : k₂.pcbs i = some I := (modify_other h₂ hci.symm).trans hI₁
  have htree := modify_kin hI₂ h₃ fun _ ↦ ⟨rfl, rfl⟩
  rw [modify_tree hC₁ h₂, modify_kin hp h₁ fun _ ↦ ⟨rfl, rfl⟩] at htree
  have hnext : update k.tree.next c (some C.next) = k.tree.next := by
    rw [← tree_next hC, update_eq_self]
  refine ⟨C, hC, hparent, hci, ?_⟩
  rw [htree]
  dsimp only
  rw [hnext]
  exact h.adopts (tree_kin hp) hchild (tree_kin hC) (tree_kin hI) hpi hci C.view

theorem reparentAll_ok (h : k.tree.Ok) {i : Ptr} (hi : k.tree.init = some i) (hpi : p ≠ i)
    (heq : reparentAll p i fuel k = some k') : k'.tree.Ok ∧ k'.tree.init = some i ∧
      k'.tree.view p = k.tree.view p ∧ ∃ P, k'.pcbs p = some P ∧ P.children = none := by
  induction fuel generalizing k with
  | zero => simp [reparentAll] at heq
  | succ fuel ih =>
    simp only [reparentAll, Option.bind_eq_bind, Option.bind_eq_some_iff] at heq
    obtain ⟨P, hP, heq⟩ := heq
    split at heq
    · rename_i hnone
      cases heq
      exact ⟨h, hi, rfl, P, hP, hnone⟩
    · rename_i c hchild
      simp only [Option.bind_eq_some_iff] at heq
      obtain ⟨k₁, h₁, heq⟩ := heq
      obtain ⟨i', I, hi', hI, hroot⟩ := h.init
      obtain rfl := Option.some.inj (hi.symm.trans hi')
      obtain ⟨C, hC, hparent, hci, hadopts⟩ :=
        reparent_adopts h.toLists hP hchild ⟨I, hI, hroot⟩ hpi h₁
      obtain ⟨hok, hinit, hview, hP'⟩ := ih (h.adopts hadopts hi hci (view_eq hC))
        (hadopts.init.trans hi) heq
      have hpc : p ≠ c := fun he ↦ (h.family.parent c _ p (tree_kin hC) hparent).2 he
      refine ⟨hok, hinit, hview.trans ?_, hP'⟩
      rw [hadopts.view, update_of_ne hpc]

theorem wakeParent_ok (h : k.tree.Ok) {P : Pcb} (heq : wakeParent k P = some k') :
    k'.tree.Ok := by
  obtain ⟨rfl, -⟩ | ⟨q, Q, -, hQ, -, heq⟩ := wakeParent_cases heq
  · exact h
  · rw [modify_view hQ heq fun _ ↦ ⟨rfl, rfl⟩]
    have htame := h.tame q _ _ (tree_kin hQ) (view_eq hQ)
    exact h.setView (tree_kin hQ) (view_eq hQ) rfl ⟨nofun, fun hf ↦
      ⟨(htame.fresh hf).1, nofun, (htame.fresh hf).2.2⟩, fun _ ↦ nofun, htame.root⟩

theorem processExit_ok (h : k.tree.Ok) (hp : k.Live p) (hinit : k.initProcess ≠ some p)
    {status : BitVec 32} (heq : processExit fuel k p status = some k') : k'.tree.Ok := by
  simp only [processExit, Option.bind_eq_bind, Option.bind_eq_some_iff] at heq
  obtain ⟨k₁, h₁, k₂, h₂, k₃, h₃, P₃, hP₃, heq⟩ := heq
  have htree₁ : k₁.tree = k.tree := by
    obtain ⟨P, hP, rfl⟩ := Option.map_eq_some_iff.mp h₁
    exact tree_same hP rfl rfl rfl
  obtain ⟨i, _, hi, _⟩ := h.init
  have hpi : p ≠ i := by
    rintro rfl
    exact hinit hi
  have hi₁ : k₁.initProcess = some i := (congrArg Tree.init htree₁).trans hi
  simp only [reparentChildren, hi₁, if_neg hpi] at h₂
  obtain ⟨hok, hinit₂, hview, P, hP, hleaf⟩ := reparentAll_ok (htree₁ ▸ h) hi₁ hpi h₂
  have hlive : P.mark.Live := hp.mark P.view (by rw [← htree₁, ← hview, view_eq hP])
  have htame := hok.tame p _ _ (tree_kin hP) (view_eq hP)
  refine wakeParent_ok (k := k₃) ?_ heq
  rw [modify_view hP h₃ fun _ ↦ ⟨rfl, rfl⟩]
  refine hok.setView (tree_kin hP) (view_eq hP) rfl ⟨fun _ _ ↦ hleaf, fun hf ↦ ?_, fun hi' ↦ ?_,
    htame.root⟩
  · exact absurd (hlive.2.symm.trans hf) Bool.false_ne_true
  · rw [hinit₂, Option.some.injEq] at hi'
    exact absurd hi'.symm hpi

theorem sysWait4_ok (h : k.tree.Ok) (hp : k.Live p) {pid : Word} {wnohang : Bool}
    {r : Option Word} (heq : sysWait4 fuel k p pid wnohang = some (r, k')) : k'.tree.Ok := by
  obtain ⟨P, hP, hlive⟩ := hp
  obtain ⟨P', hP', hcase⟩ := sysWait4_cases heq
  obtain rfl := Option.some.inj (hP.symm.trans hP')
  obtain ⟨c, C, hfound, hC, h₁⟩ | rfl | h₁ := hcase
  · obtain ⟨cs, hcs, hmem⟩ := h.family.children p _ (tree_kin hP)
    rw [siblings_kin] at hcs
    have hfind := hcs.findNode_eq _ hfound
    have hz : C.state = .zombie := by
      have htest := List.find?_some hfind.symm
      simp only [isZombieChild, hC, Bool.and_eq_true, decide_eq_true_eq] at htest
      exact htest.2
    have htame := h.tame c _ _ (tree_kin hC) (view_eq hC)
    have hinit : k.initProcess ≠ some c := fun hi ↦ htame.init hi hz
    exact processDestroy_ok h hC (htame.zombie hz hinit) hinit h₁
  · exact h
  · rw [modify_view hP h₁ fun _ ↦ ⟨rfl, rfl⟩]
    have htame := h.tame p _ _ (tree_kin hP) (view_eq hP)
    exact h.setView (tree_kin hP) (view_eq hP) rfl ⟨nofun, fun hf ↦
      absurd (hlive.2.symm.trans hf) Bool.false_ne_true, fun _ ↦ nofun, htame.root⟩

end Lifecycle

section Run

variable {k₀ k₁ k k' : Kernel} {i : Ptr} {blocks : CreateBlocks}

theorem init_tree (hboot : k₀.Boot) (heq : processCreate k₀ none blocks = some (some i, k₁)) :
    k₁.tree = ⟨update k₀.nextOf i (some none), some i,
      update (fun _ ↦ none) i (some ⟨none, none, none⟩),
      update (fun _ ↦ none) i (some ⟨.embryo, none, 1#64, -1#32, false⟩), some i⟩ := by
  obtain ⟨hret, -⟩ | ⟨c, pml4Phys, vm, k₂, k₃, k₄, k₅, k₆, hret, -, rfl, h₃, h₄, h₅, h₆, h₇⟩ :=
    processCreate_cases heq
  · cases hret
  obtain rfl := Option.some.inj hret
  obtain rfl := Option.some.inj h₆
  rw [hboot.nextPid, if_pos rfl] at h₃
  have htree := (((openStdio_sameTree h₅).trans (openStdio_sameTree h₄)).trans
    (openStdio_sameTree h₃)).trans (tree_update { k₀ with
      nextPid := _, vm := _, initProcess := some i } i _)
  rw [processAdd_tree h₇, htree]
  simp only [Kernel.tree, hboot.pcbs, hboot.processList, update_idem, Option.map_none]
  rfl

theorem init_ok (hboot : k₀.Boot) (heq : processCreate k₀ none blocks = some (some i, k₁)) :
    k₁.tree.Ok := by
  rw [init_tree hboot heq]
  exact .single rfl (by simp) (by simp) (fun p hp ↦ by simp [hp]) rfl
    (V := ⟨.embryo, none, 1#64, -1#32, false⟩) (by simp) rfl ⟨nofun, rfl⟩

/-- A process acts while it runs; a child that has not started returns from the fork or
is aborted; and init, the first process, does not exit. Blocks for new processes are
not in use, and the process identifiers have not come round to that of init. -/
def TreeActs (k : Kernel) : KernelAct → Prop
  | .memory _ => True
  | .create current blocks => (∀ p, blocks.pcb = some p → k.pcbs p = none) ∧
      k.nextPid ≠ 1#64 ∧ ∃ q, current = some q ∧ k.Live q
  | .open p _ _ | .close p _ | .wait4 p _ _ => k.Live p
  | .fork p blocks => k.Live p ∧ ∀ c, blocks.pcb = some c → k.pcbs c = none
  | .forkReturn p _ => ∃ proc, k.pcbs p = some proc ∧ proc.fresh = true
  | .exit p _ => k.Live p ∧ k.initProcess ≠ some p
  | .destroy _ => False

theorem exec_treeOk (h : k.tree.Ok) {a : KernelAct} (ha : TreeActs k a) {fuel : ℕ}
    (heq : k.exec fuel a = some k') : k'.tree.Ok := by
  cases a with
  | memory vm =>
    cases heq
    exact h
  | create current blocks =>
    obtain ⟨⟨r, k''⟩, hcall, rfl⟩ := Option.map_eq_some_iff.mp heq
    obtain ⟨hpcb, hpid, q, rfl, hq⟩ := ha
    exact processCreate_ok h hpcb hpid hq hcall
  | «open» p early blocks =>
    obtain ⟨⟨r, k''⟩, hcall, rfl⟩ := Option.map_eq_some_iff.mp heq
    exact sysOpen_sameTree hcall ▸ h
  | close p fd =>
    obtain ⟨⟨r, k''⟩, hcall, rfl⟩ := Option.map_eq_some_iff.mp heq
    exact sysClose_sameTree hcall ▸ h
  | fork p blocks =>
    obtain ⟨⟨r, k''⟩, hcall, rfl⟩ := Option.map_eq_some_iff.mp heq
    exact sysFork_ok h ha.2 ha.1 hcall
  | forkReturn p canonical =>
    obtain ⟨C, hc, hfresh⟩ := ha
    exact forkChildUserReturn_ok h hc hfresh heq
  | exit p status => exact processExit_ok h ha.1 ha.2 heq
  | wait4 p pid wnohang =>
    obtain ⟨⟨r, k''⟩, hcall, rfl⟩ := Option.map_eq_some_iff.mp heq
    exact sysWait4_ok h ha hcall
  | destroy p => exact ha.elim

theorem Tree.Lists.children (h : k.tree.Lists) {q : Ptr} {Q : Pcb} (hq : k.pcbs q = some Q) :
    ∃ cs, Chain k.siblingOf Q.children cs ∧ cs.Nodup ∧
      ∀ c, c ∈ cs ↔ ∃ C, k.pcbs c = some C ∧ C.parent = some q := by
  obtain ⟨cs, hcs, hmem⟩ := h.family.children q _ (tree_kin hq)
  refine ⟨cs, siblings_kin k ▸ hcs, hcs.nodup, fun c ↦ (hmem c).trans ⟨?_, ?_⟩⟩
  · rintro ⟨C', hC', hparent⟩
    obtain ⟨C, hC, rfl⟩ := pcb_of_kin hC'
    exact ⟨C, hC, hparent⟩
  · rintro ⟨C, hC, hparent⟩
    exact ⟨_, tree_kin hC, hparent⟩

theorem Tree.Lists.parent_isSome (h : k.tree.Lists) {c q : Ptr} {C : Pcb} (hc : k.pcbs c = some C)
    (hparent : C.parent = some q) : (k.pcbs q).isSome := by
  simpa [Kernel.tree] using (h.family.parent c _ q (tree_kin hc) hparent).1

/-- Process tree consistency, in every state that the processes reach once init has been
created: the process list holds each process once; each children list holds once each
process of which it is the parent, which is itself in the process list; zombies other
than init have no children; and a zombie is in the children list of exactly one process. -/
theorem process_tree_consistent (hboot : k₀.Boot)
    (hinit : processCreate k₀ none blocks = some (some i, k₁)) (hrun : KernelRuns TreeActs k₁ k) :
    (∃ ps, Chain k.nextOf k.processList ps ∧ ps.Nodup ∧ ∀ p, p ∈ ps ↔ (k.pcbs p).isSome) ∧
    (∀ q Q, k.pcbs q = some Q → ∃ cs, Chain k.siblingOf Q.children cs ∧ cs.Nodup ∧
      ∀ c, c ∈ cs ↔ ∃ C, k.pcbs c = some C ∧ C.parent = some q) ∧
    (∀ c C q, k.pcbs c = some C → C.parent = some q → (k.pcbs q).isSome) ∧
    (∀ p P, k.pcbs p = some P → P.state = .zombie → k.initProcess ≠ some p →
      P.children = none) ∧
    ∀ c C, k.pcbs c = some C → C.state = .zombie →
      ∃! q, ∃ Q cs, k.pcbs q = some Q ∧ Chain k.siblingOf Q.children cs ∧ c ∈ cs := by
  have h : k.tree.Ok := PartialRuns.invariant (I := fun k ↦ k.tree.Ok) hrun
    (init_ok hboot hinit) fun k a k' hk ha heq ↦ exec_treeOk hk ha heq
  refine ⟨?_, fun q Q hq ↦ h.children hq, fun c C q hc hparent ↦ h.parent_isSome hc hparent,
    fun p P hp hz hi ↦ (h.tame p _ _ (tree_kin hp) (view_eq hp)).zombie hz hi, ?_⟩
  · obtain ⟨ps, hps, hmem⟩ := h.procs
    exact ⟨ps, hps, hps.nodup, fun p ↦ (hmem p).trans (by simp [Kernel.tree])⟩
  · intro c C hc hz
    have htame := h.tame c _ _ (tree_kin hc) (view_eq hc)
    obtain ⟨q, hparent⟩ : ∃ q, C.parent = some q := by
      rw [← Option.ne_none_iff_exists']
      exact fun hnone ↦ htame.init (htame.root hnone) hz
    obtain ⟨Q, hQ⟩ := Option.isSome_iff_exists.mp (h.parent_isSome hc hparent)
    obtain ⟨cs, hcs, _, hmem⟩ := h.children hQ
    refine ⟨q, ⟨Q, cs, hQ, hcs, (hmem c).mpr ⟨C, hc, hparent⟩⟩, ?_⟩
    rintro q' ⟨Q', cs', hQ', hcs', hc'⟩
    obtain ⟨cs'', hcs'', _, hmem'⟩ := h.children hQ'
    rw [hcs'.unique hcs''] at hc'
    obtain ⟨C', hC', hparent'⟩ := (hmem' c).mp hc'
    rw [hc, Option.some.injEq] at hC'
    rw [← hC', hparent, Option.some.injEq] at hparent'
    exact hparent'.symm

theorem initKernel_create :
    processCreate emptyKernel none initBlocks = some (some initPtr, initKernel) := by
  have hexec := initKernel_eq
  rw [Kernel.exec] at hexec
  obtain ⟨⟨r, k⟩, hcreate, hk⟩ := Option.map_eq_some_iff.mp hexec
  have hret : (processCreate emptyKernel none initBlocks).any (·.1 = some initPtr) := by
    decide +kernel
  rw [hcreate, Option.any_some, decide_eq_true_eq] at hret
  rw [hcreate, ← hk, ← hret]

def startedKernel : Kernel := (forkedKernel.exec 0 (.forkReturn childPtr true)).getD initKernel

def zombieKernel : Kernel := (startedKernel.exec 1 (.exit childPtr 7#32)).getD initKernel

theorem live_of_decide {p : Ptr}
    (h : (k.pcbs p).any fun proc ↦ proc.state ≠ .zombie && !proc.fresh) : k.Live p := by
  obtain ⟨proc, hp, h⟩ := (Option.any_eq_true ..).mp h
  simp only [Bool.and_eq_true, decide_eq_true_eq, Bool.not_eq_true'] at h
  exact ⟨proc, hp, h⟩

theorem zombieKernel_run : KernelRuns TreeActs initKernel zombieKernel := by
  have hfork : TreeActs initKernel (.fork initPtr forkBlocks) := by
    refine ⟨live_of_decide (by decide +kernel), fun c hc ↦ ?_⟩
    rw [← Option.some.inj hc]
    exact Option.isNone_iff_eq_none.mp (by decide +kernel)
  have hstart : TreeActs forkedKernel (.forkReturn childPtr true) := by
    have hfresh : (forkedKernel.pcbs childPtr).any (·.fresh) := by decide +kernel
    exact (Option.any_eq_true ..).mp hfresh
  have hexit : TreeActs startedKernel (.exit childPtr 7#32) :=
    ⟨live_of_decide (by decide +kernel), by decide +kernel⟩
  have hrun₀ : KernelRuns TreeActs initKernel initKernel := .refl
  have hrun₁ : KernelRuns TreeActs initKernel forkedKernel :=
    PartialRuns.step_getD hrun₀ (a := (0, .fork initPtr forkBlocks)) hfork (by decide +kernel) _
  have hrun₂ : KernelRuns TreeActs initKernel startedKernel :=
    PartialRuns.step_getD hrun₁ (a := (0, .forkReturn childPtr true)) hstart (by decide +kernel) _
  exact PartialRuns.step_getD hrun₂ (a := (1, .exit childPtr 7#32)) hexit (by decide +kernel) _

theorem process_tree_consistent_zombie :
    (zombieKernel.pcbs childPtr).any (·.state = .zombie) ∧
    ∀ c C, zombieKernel.pcbs c = some C → C.state = .zombie →
      ∃! q, ∃ Q cs, zombieKernel.pcbs q = some Q ∧
        Chain zombieKernel.siblingOf Q.children cs ∧ c ∈ cs := by
  exact ⟨by decide +kernel,
    (process_tree_consistent emptyKernel_boot initKernel_create zombieKernel_run).2.2.2.2⟩

end Run

end SeedOS.System
