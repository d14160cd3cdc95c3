import SeedOS.System.Processes

namespace SeedOS.System

open Foundation Memory Process Function

/-- The invariant of the memory system: distinct address spaces, and one role for
every frame. -/
structure SysInv (s : Sys) : Prop where
  nodup : s.spaces.Nodup
  aligned : ∀ p ∈ s.procs, p.pml4Phys = pageAddr (pageOf p.pml4Phys)
  alignedCopies : ∀ d ∈ s.partialCopies, d = pageAddr (pageOf d)
  frames : ∃ role, Inv s.vm s.roots role ∧ ∀ f, role f = .reserved ↔ f ∈ s.kernel

section Basics

variable {s : Sys} {p : Proc} {pid : Word}

theorem mem_of_find (h : s.find pid = some p) : p ∈ s.procs := List.mem_of_find?_eq_some h

theorem root_of_proc (h : p ∈ s.procs) : pageOf p.pml4Phys ∈ s.roots :=
  List.mem_append_left _ (List.mem_map_of_mem h)

theorem on_cases (f : Proc → Sys) {P : Sys → Prop} (hnone : P s)
    (hsome : ∀ p, s.find pid = some p → P (f p)) : P (s.on pid f) := by
  unfold Sys.on
  cases h : s.find pid with
  | none => exact hnone
  | some p => exact hsome p h

theorem update_spaces (s : Sys) (p p' : Proc) (h : p'.pml4Phys = p.pml4Phys) :
    (s.update p p').spaces = s.spaces := by
  have hmap : (s.update p p').procs.map (fun q ↦ pageOf q.pml4Phys) =
      s.procs.map fun q ↦ pageOf q.pml4Phys := by
    simp only [Sys.update, List.map_map]
    refine List.map_congr_left fun q _ ↦ ?_
    by_cases hq : q = p
    · simp [hq, h]
    · simp [hq]
  simp only [Sys.spaces, hmap]
  rfl

end Basics

namespace SysInv

variable {s : Sys}

theorem of_boot (h : Boot s) : SysInv s := by
  classical
  have hspaces : s.spaces = [] := by simp [Sys.spaces, h.procs, h.partialCopies]
  have hroots : s.roots = ∅ := by simp [Sys.roots, hspaces]
  refine ⟨by simp [hspaces], by simp [h.procs], by simp [h.partialCopies],
    fun f ↦ if s.vm.pmm.Available f then .free else .reserved, ?_, fun f ↦ ?_⟩
  · rw [hroots]
    exact Inv.of_empty fun p f hp hf ↦ (h.kernel f).mp (h.tables p f hp hf)
  · dsimp only
    rw [h.kernel]
    split_ifs with hav <;> simp [hav]

theorem kernelHeap (h : SysInv s) {vm : Vm} {taken : Set ℕ} (hk : KernelHeap s vm taken) :
    SysInv { s with vm := vm, kernel := s.kernel ∪ taken } := by
  classical
  obtain ⟨role, hinv, hker⟩ := h.frames
  have hfree : ∀ f ∈ taken, role f = .free := fun f hf ↦ hinv.free_of_available (hk.available f hf)
  have hother : ∀ {f x}, x ≠ .reserved → x ≠ .free →
      ((if f ∈ taken then .reserved else role f) = x ↔ role f = x) := by
    intro f x hx hx'
    split_ifs with hf
    · constructor
      · intro he; exact absurd he.symm hx
      · intro he; exact absurd (he.symm.trans (hfree f hf)) hx'
    · exact Iff.rfl
  have hmem : ∀ {f x}, role f = x → x ≠ .reserved → x ≠ .free → vm.mem f = s.vm.mem f := by
    intro f x hf hx hx'
    refine hk.mem f (fun hc ↦ ?_) fun hc ↦ ?_
    · exact hx (hf.symm.trans ((hker f).mpr hc))
    · exact hx' (hf.symm.trans (hfree f hc))
  have howned : ∀ {f}, s.vm.pmm.Owned f → vm.pmm.Owned f := fun ho ↦
    ⟨ho.1, hk.total ▸ ho.2.1, (hk.used _).mpr (.inl ho.2.2)⟩
  have hav : ∀ {f}, vm.pmm.Available f → s.vm.pmm.Available f ∧ f ∉ taken := by
    intro f hf
    refine ⟨⟨hf.1, hk.total ▸ hf.2.1, ?_⟩, fun hc ↦ ?_⟩
    · by_contra hu
      have := (hk.used f).mpr (.inl (by simpa using hu))
      simp [hf.2.2] at this
    · have := (hk.used f).mpr (.inr hc)
      simp [hf.2.2] at this
  refine ⟨h.nodup, h.aligned, h.alignedCopies,
    fun f ↦ if f ∈ taken then .reserved else role f, ?_, fun f ↦ ?_⟩
  · refine ⟨?_, ?_, ?_, ?_, ?_, ?_⟩
    · have hf : UserForest vm.mem s.roots role :=
        hinv.forest.congr fun hf i ↦ by rw [hmem hf (by simp) (by simp)]
      exact hf.congr_role (hother (by simp) (by simp)) fun ht hp hn ↦
        (hother (by simp) (by simp)).mpr (hf.leaf ht hp hn)
    · rintro f (hf | ⟨r, p, hf⟩)
      · exact howned (hinv.owned (.inl ((hother (by simp) (by simp)).mp hf)))
      · exact howned (hinv.owned_table ((hother (by simp) (by simp)).mp hf))
    · intro f hf hfa
      obtain ⟨hfa, hft⟩ := hav hfa
      rw [if_neg hft] at hf
      exact hinv.held hf hfa
    · intro f r p i hf
      have hf' := (hother (by simp) (by simp)).mp hf
      rw [hmem hf' (by simp) (by simp)]
      exact hinv.plain hf'
    · intro r hr i hi
      change vm.mem r i = vm.mem (pageOf vm.kernelPml4Phys) i
      rw [hk.kernel, hk.pml4, hmem (hinv.forest.root r hr) (by simp) (by simp)]
      exact hinv.kernelHalf r hr i hi
    · intro p f hp hf
      change tableAt kernelNext vm.mem (pageOf vm.kernelPml4Phys) p = some f at hf
      rw [hk.kernel] at hf
      rcases hk.tables p f hp hf with hf | hf
      · split_ifs
        · rfl
        · exact (hker f).mpr hf
      · rw [if_pos hf]
  · change (if f ∈ taken then Role.reserved else role f) = .reserved ↔ f ∈ s.kernel ∪ taken
    split_ifs with hf
    · simp [hf]
    · simp [hf, hker]

theorem addSpace (h : SysInv s) {vm : Vm} {phys : Word} {procs : List Proc}
    {copies : List Word}
    (hspaces : (procs.map (fun p ↦ pageOf p.pml4Phys) ++ copies.map pageOf).Perm
      (pageOf phys :: s.spaces))
    (haligned : ∀ p ∈ procs, p ∈ s.procs ∨ p.pml4Phys = phys)
    (hcopies : ∀ d ∈ copies, d ∈ s.partialCopies ∨ d = phys)
    (hphys : phys = pageAddr (pageOf phys)) (hnew : pageOf phys ∉ s.roots)
    (hinv : ∃ role, Inv vm (insert (pageOf phys) s.roots) role ∧
      ∀ f, role f = .reserved ↔ f ∈ s.kernel) {nextPid : Word} :
    SysInv { s with vm := vm, procs := procs, partialCopies := copies, nextPid := nextPid } := by
  refine ⟨?_, ?_, ?_, ?_⟩
  · refine hspaces.nodup_iff.mpr (List.nodup_cons.mpr ⟨hnew, h.nodup⟩)
  · intro p hp
    rcases haligned p hp with hp | hp
    · exact h.aligned p hp
    · rw [hp]; exact hphys
  · intro d hd
    rcases hcopies d hd with hd | hd
    · exact h.alignedCopies d hd
    · rw [hd]; exact hphys
  · have hroots : Sys.roots { s with vm := vm, procs := procs, partialCopies := copies, nextPid := nextPid } =
        insert (pageOf phys) s.roots := by
      ext r
      exact hspaces.mem_iff.trans List.mem_cons
    rw [hroots]
    exact hinv

theorem removeSpace (h : SysInv s) {phys : Word} {procs : List Proc} {copies : List Word}
    (hphys : phys = pageAddr (pageOf phys))
    (hspaces : (pageOf phys ::
      (procs.map (fun p ↦ pageOf p.pml4Phys) ++ copies.map pageOf)).Perm s.spaces)
    (hprocs : ∀ p ∈ procs, p ∈ s.procs) (hcopies : ∀ d ∈ copies, d ∈ s.partialCopies)
    (hsole : ∀ σ : Site, σ.Valid s.roots → σ.root = pageOf phys → Sole s.vm s.roots σ) :
    SysInv { s with
      vm := vmmFreeUserAddressSpace s.vm phys, procs := procs, partialCopies := copies } := by
  obtain ⟨role, hinv, hker⟩ := h.frames
  have hmem : pageOf phys ∈ s.roots := hspaces.mem_iff.mp List.mem_cons_self
  obtain ⟨role', hinv', hres⟩ := vmmFreeUserAddressSpace_spec hinv hphys hmem (by
    intro σ σ' hσ hσ' hr hr' f hf hf'
    exact hr' (hsole σ hσ hr σ' hσ' f hf hf' ▸ hr))
  have hnodup := hspaces.nodup_iff.mpr h.nodup
  refine ⟨(List.nodup_cons.mp hnodup).2, fun p hp ↦ h.aligned p (hprocs p hp),
    fun d hd ↦ h.alignedCopies d (hcopies d hd), role', ?_, fun f ↦ (hres f).trans (hker f)⟩
  have hroots : Sys.roots { s with
      vm := vmmFreeUserAddressSpace s.vm phys, procs := procs, partialCopies := copies } =
      s.roots \ {pageOf phys} := by
    ext r
    constructor
    · intro hr
      refine ⟨hspaces.mem_iff.mp (List.mem_cons_of_mem _ hr), ?_⟩
      rintro rfl
      exact (List.nodup_cons.mp hnodup).1 hr
    · rintro ⟨hr, hne⟩
      exact (List.mem_cons.mp (hspaces.mem_iff.mpr hr)).resolve_left hne
  rw [hroots]
  exact hinv'

end SysInv

/-- No step gives back a frame that a page outside what it unmaps still maps. -/
def ReleasesSole (s : Sys) : Act → Prop
  | .brk pid addr => ∀ p, s.find pid = some p → ∀ v,
    brkReleases p.brkStart p.brk addr v → Sole s.vm s.roots (siteOf (pageOf p.pml4Phys) v)
  | .munmap pid addr len => ∀ p, s.find pid = some p → ∀ v,
    munmapReleases addr len v → Sole s.vm s.roots (siteOf (pageOf p.pml4Phys) v)
  | .destroy pid => ∀ p, s.find pid = some p → ∀ σ : Site, σ.Valid s.roots →
    σ.root = pageOf p.pml4Phys → Sole s.vm s.roots σ
  | .forkUndo dst => dst ∈ s.partialCopies → ∀ σ : Site, σ.Valid s.roots →
    σ.root = pageOf dst → Sole s.vm s.roots σ
  | _ => True

/-- What a step does that works inside one address space or on a process's own data. -/
structure LocalStep (s s' : Sys) : Prop where
  spaces : s'.spaces = s.spaces
  copies : s'.partialCopies = s.partialCopies
  kernel : s'.kernel = s.kernel
  aligned : ∀ p' ∈ s'.procs, ∃ p ∈ s.procs, p'.pml4Phys = p.pml4Phys
  progress : ∀ role, Inv s.vm s.roots role → ∃ role', Progress s.roots s.vm s'.vm role role'

namespace LocalStep

variable {s s' : Sys}

theorem roots (h : LocalStep s s') : s'.roots = s.roots := by
  rw [Sys.roots, h.spaces]
  rfl

theorem refl (s : Sys) : LocalStep s s :=
  ⟨rfl, rfl, rfl, fun p hp ↦ ⟨p, hp, rfl⟩, fun _ hinv ↦ ⟨_, .refl hinv⟩⟩

theorem of_progress {vm : Vm} (mmapNext : Word)
    (hp : ∀ role, Inv s.vm s.roots role → ∃ role', Progress s.roots s.vm vm role role') :
    LocalStep s { s with vm := vm, mmapNext := mmapNext } :=
  ⟨rfl, rfl, rfl, fun p hp ↦ ⟨p, hp, rfl⟩, hp⟩

theorem update (h : LocalStep s s') {p p' : Proc} (hp : p'.pml4Phys = p.pml4Phys)
    (hmem : p ∈ s'.procs) : LocalStep s (s'.update p p') where
  spaces := (update_spaces s' p p' hp).trans h.spaces
  copies := h.copies
  kernel := h.kernel
  aligned q hq := by
    obtain ⟨q', hq', rfl⟩ := List.mem_map.mp hq
    split_ifs with hc
    · rw [hp]
      exact h.aligned p hmem
    · exact h.aligned q' hq'
  progress := h.progress

theorem inv (hl : LocalStep s s') (h : SysInv s) : SysInv s' := by
  obtain ⟨role, hinv, hker⟩ := h.frames
  obtain ⟨role', hprog⟩ := hl.progress role hinv
  refine ⟨hl.spaces ▸ h.nodup, fun p hp ↦ ?_, hl.copies ▸ h.alignedCopies, role', ?_, ?_⟩
  · obtain ⟨q, hq, hpq⟩ := hl.aligned p hp
    rw [hpq]
    exact h.aligned q hq
  · rw [hl.roots]
    exact hprog.inv
  · rw [hl.kernel]
    exact fun f ↦ hprog.reserved.trans (hker f)

end LocalStep

def Act.IsLocal : Act → Prop
  | .elfLoad _ _ _ | .setupStack _ _ _ _ | .start _ | .write _ _ _ | .cowFault _ _ | .brk _ _
  | .mmap _ _ _ _ _ _ | .munmap _ _ _ | .exit _ => True
  | _ => False

section Steps

variable {s : Sys}

theorem exec_local (a : Act) (ha : a.IsLocal) (hen : Enabled s a) (huser : InUserHalf s a)
    (hsole : ReleasesSole s a) : LocalStep s (exec s a) := by
  cases a with
  | elfLoad pid data size =>
    refine on_cases _ (.refl s) fun p hp ↦ ?_
    have hmem := mem_of_find hp
    have hprog := LocalStep.of_progress s.mmapNext fun role hinv ↦
      elfLoad_progress hinv (root_of_proc hmem) data size noInfo huser
    dsimp only
    split_ifs
    · exact hprog
    · exact hprog.update rfl hmem
  | setupStack pid argv envp info =>
    refine on_cases _ (.refl s) fun p hp ↦ ?_
    exact .of_progress _ fun role hinv ↦
      elfSetupStack_progress hinv (root_of_proc (mem_of_find hp)) hen
  | start pid =>
    exact on_cases _ (.refl s) fun p hp ↦ (LocalStep.refl s).update rfl (mem_of_find hp)
  | write pid va b =>
    refine on_cases _ (.refl s) fun p hp ↦ ?_
    exact .of_progress _ fun role hinv ↦
      userWrite_progress hinv (root_of_proc (mem_of_find hp)) huser b
  | cowFault pid va =>
    refine on_cases _ (.refl s) fun p hp ↦ ?_
    exact .of_progress _ fun role hinv ↦
      handleCowFault_progress hinv (root_of_proc (mem_of_find hp)) huser
  | brk pid addr =>
    refine on_cases _ (.refl s) fun p hp ↦ ?_
    have hmem := mem_of_find hp
    have hprog := LocalStep.of_progress s.mmapNext fun role hinv ↦
      sysBrk_progress hinv (root_of_proc hmem) (fun v hv ↦ huser p hp v (.inl hv))
        (fun v hv ↦ ⟨huser p hp v (.inr hv), hsole p hp v hv⟩)
    cases hb : sysBrk s.vm p.pml4Phys p.brkStart p.brk addr with
    | mk ret rest =>
      rw [hb] at hprog
      exact hprog.update rfl hmem
  | mmap pid addr len prot flags fd =>
    refine on_cases _ (.refl s) fun p hp ↦ ?_
    exact .of_progress _ fun role hinv ↦
      sysMmap_progress hinv (root_of_proc (mem_of_find hp)) prot huser
  | munmap pid addr len =>
    refine on_cases _ (.refl s) fun p hp ↦ ?_
    exact .of_progress _ fun role hinv ↦
      sysMunmap_progress hinv (root_of_proc (mem_of_find hp))
        fun v hv ↦ ⟨huser v hv, hsole p hp v hv⟩
  | exit pid =>
    exact on_cases _ (.refl s) fun p hp ↦ (LocalStep.refl s).update rfl (mem_of_find hp)
  | _ => exact ha.elim

theorem create_inv (h : SysInv s) : SysInv (exec s .create) := by
  obtain ⟨role, hinv, hker⟩ := h.frames
  simp only [exec]
  cases hc : vmmCreateAddressSpace s.vm with
  | mk phys vm =>
    by_cases hne : phys = 0#64
    · subst hne
      rw [if_pos rfl, vmmCreateAddressSpace_zero hc]
      exact h
    · rw [if_neg hne]
      obtain ⟨hphys, role', hinv', hkeeps, hnew, _, _⟩ := vmmCreateAddressSpace_spec hinv hc hne
      refine h.addSpace (.refl _) ?_ (fun d hd ↦ .inl hd) hphys hnew
        ⟨role', hinv', fun f ↦ hkeeps.reserved.trans (hker f)⟩
      intro q hq
      rcases List.mem_cons.mp hq with rfl | hq
      · exact .inr rfl
      · exact .inl hq

theorem fork_inv (h : SysInv s) {p : Proc} (hp : p ∈ s.procs) : SysInv (s.fork p) := by
  unfold Sys.fork
  obtain ⟨role, hinv, hker⟩ := h.frames
  cases hc : cowCopy s.vm p.pml4Phys with
  | mk dst rest =>
    obtain ⟨ok, vm⟩ := rest
    have hstable : CopyStable (insert (pageOf dst) s.roots) (pageOf p.pml4Phys) (pageOf dst)
        fun _ _ ↦ True := ⟨fun _ _ _ _ _ _ _ ↦ trivial, fun _ _ _ _ _ _ ↦ trivial⟩
    rcases cowCopy_spec hinv (root_of_proc hp) hc hstable
      (fun _ _ _ _ _ _ ↦ trivial) with ⟨rfl, rfl⟩ | ⟨hdst, hne, hnew, role', hinv', _, hkeeps⟩
    · simpa using h
    · have hframes : ∃ role, Inv vm (insert (pageOf dst) s.roots) role ∧
          ∀ f, role f = .reserved ↔ f ∈ s.kernel :=
        ⟨role', hinv', fun f ↦ hkeeps.reserved.trans (hker f)⟩
      simp only [if_neg hne]
      cases ok with
      | true =>
        refine h.addSpace (.refl _) ?_ (fun d hd ↦ .inl hd) hdst hnew hframes
        intro q hq
        rcases List.mem_cons.mp hq with rfl | hq
        · exact .inr rfl
        · exact .inl hq
      | false =>
        refine h.addSpace List.perm_middle (fun q hq ↦ .inl hq) ?_ hdst hnew hframes
        intro d hd
        rcases List.mem_cons.mp hd with rfl | hd
        · exact .inr rfl
        · exact .inl hd

theorem exec_inv (h : SysInv s) (a : Act) (hen : Enabled s a) (huser : InUserHalf s a)
    (hsole : ReleasesSole s a) : SysInv (exec s a) := by
  cases a with
  | kernelHeap vm taken => exact h.kernelHeap hen
  | create => exact create_inv h
  | fork pid => exact on_cases s.fork h fun p hp ↦ fork_inv h (mem_of_find hp)
  | forkUndo dst =>
    simp only [exec]
    split_ifs with hmem
    · refine h.removeSpace (h.alignedCopies dst hmem) ?_ (fun p hp ↦ hp)
        (fun d hd ↦ List.mem_of_mem_erase hd) (hsole hmem)
      refine List.perm_middle.symm.trans (List.Perm.append_left _ ?_)
      exact ((List.perm_cons_erase hmem).map pageOf).symm
    · exact h
  | destroy pid =>
    refine on_cases _ h fun p hp ↦ ?_
    have hmem := mem_of_find hp
    refine h.removeSpace (h.aligned p hmem) ?_ (fun q hq ↦ List.mem_of_mem_erase hq)
      (fun d hd ↦ hd) (hsole p hp)
    exact (((List.perm_cons_erase hmem).map fun q ↦ pageOf q.pml4Phys).append_right _).symm
  | _ =>
    refine LocalStep.inv (exec_local _ ?_ hen huser hsole) h
    trivial

end Steps

/-- Frame `f` is referenced by a present entry in the user half of a live process's
page tables, as a table or as a page. -/
def Sys.Maps (s : Sys) (f : ℕ) : Prop :=
  ∃ p ∈ s.procs, ∃ q : List (Fin 512), UserPath q ∧ q ≠ [] ∧ q.length ≤ 4 ∧
    tableAt entryNext s.vm.mem (pageOf p.pml4Phys) q = some f

/-- Frames in use are marked in the bitmap, and `pmm_alloc` hands out none of them. -/
def FramesUsed (s : Sys) : Prop :=
  ∀ f, s.Maps f → bitmapIsUsed s.vm.pmm.bitmap f = true ∧ (pmmAlloc s.vm.pmm).1 ≠ pageAddr f

theorem SysInv.framesUsed {s : Sys} (h : SysInv s) : FramesUsed s := by
  rintro f ⟨p, hp, q, hu, _, hl, hq⟩
  obtain ⟨role, hinv, _⟩ := h.frames
  have howned := hinv.owned_of_reached (root_of_proc hp) ⟨q, hu, hl, hq⟩
  have hlt := howned.lt
  refine ⟨howned.2.2, fun hc ↦ ?_⟩
  rcases pmmAlloc_cases s.vm.pmm with ⟨ha, _⟩ | ⟨g, pmm, ha, hav, _⟩
  · rw [ha] at hc
    exact pageAddr_ne_zero howned.1 (by omega) hc.symm
  · have hglt := hav.lt
    rw [ha] at hc
    obtain rfl := pageAddr_injective (by omega) (by omega) hc
    exact howned.not_available hav

/-- Frame lifetime: as long as no step releases a frame that another page maps, the
frames of live processes stay allocated. -/
theorem frame_lifetime (s₀ s : Sys) (hboot : Boot s₀)
    (hrun : Runs exec (fun s a ↦ Enabled s a ∧ InUserHalf s a ∧ ReleasesSole s a) s₀ s) :
    FramesUsed s :=
  (hrun.invariant (SysInv.of_boot hboot)
    fun _ a h ha ↦ exec_inv h a ha.1 ha.2.1 ha.2.2).framesUsed

section Example

def created : Sys := exec bootSys .create

def mapped : Sys := exec created (.mmap 1#64 0#64 4096#64 protWrite mapAnonymous (-1#64))

def forked : Sys := exec mapped (.fork 1#64)

theorem mapped_userHalf : InUserHalf created
    (.mmap 1#64 0#64 4096#64 protWrite mapAnonymous (-1#64)) := by
  rintro v ⟨_, k, hk, rfl⟩
  have hone : (pagesUpTo 4096#64).toNat = 1 := by decide
  obtain rfl : k = 0 := by omega
  decide

theorem munmap_userHalf (s : Sys) (pid : Word) :
    InUserHalf s (.munmap pid userMmapStart 4096#64) := by
  rintro v ⟨_, k, hk, rfl⟩
  have hone : (pagesUpTo 4096#64).toNat = 1 := by decide
  obtain rfl : k = 0 := by omega
  decide

theorem states_procs :
    created.procs = [⟨1#64, 0x3000#64, 0#64, 0#64, .embryo⟩] ∧
    mapped.procs = [⟨1#64, 0x3000#64, 0#64, 0#64, .embryo⟩] ∧
    forked.procs = [⟨2#64, 0x8000#64, 0#64, 0#64, .runnable⟩,
      ⟨1#64, 0x3000#64, 0#64, 0#64, .embryo⟩] := by decide +kernel

theorem created_alive : ∀ p, created.find 1#64 = some p → p.state ≠ .zombie :=
  state_ne_of_check (by rw [Sys.find, states_procs.1]; decide)

theorem mapped_alive : ∀ p, mapped.find 1#64 = some p → p.state ≠ .zombie :=
  state_ne_of_check (by rw [Sys.find, states_procs.2.1]; decide)

theorem forked_procs : forked.procs = [⟨2#64, 0x8000#64, 0#64, 0#64, .runnable⟩,
    ⟨1#64, 0x3000#64, 0#64, 0#64, .embryo⟩] := states_procs.2.2

theorem forked_alive : ∀ p, forked.find 2#64 = some p → p.state ≠ .zombie :=
  state_ne_of_check (by rw [Sys.find, forked_procs]; decide)

/-- A process maps a page and forks; its child unmaps the page. The frame goes back
to the allocator while the parent's page table still points to it. -/
theorem shared_frame_released :
    Boot bootSys ∧
    Runs exec (fun s a ↦ Enabled s a ∧ InUserHalf s a) bootSys
      (exec forked (.munmap 2#64 userMmapStart 4096#64)) ∧
    ¬ FramesUsed (exec forked (.munmap 2#64 userMmapStart 4096#64)) := by
  refine ⟨bootSys_boot, ?_, fun hc ↦ ?_⟩
  · have h₁ : Runs exec (fun s a ↦ Enabled s a ∧ InUserHalf s a) bootSys created :=
      Runs.step .refl ⟨trivial, trivial⟩
    have h₂ := h₁.step (a := .mmap 1#64 0#64 4096#64 protWrite mapAnonymous (-1#64))
      ⟨created_alive, mapped_userHalf⟩
    have h₃ := h₂.step (a := .fork 1#64) ⟨mapped_alive, trivial⟩
    exact h₃.step ⟨forked_alive, munmap_userHalf _ _⟩
  · have hstate : ⟨1#64, 0x3000#64, 0#64, 0#64, .embryo⟩ ∈
          (exec forked (.munmap 2#64 userMmapStart 4096#64)).procs ∧
        tableAt entryNext (exec forked (.munmap 2#64 userMmapStart 4096#64)).vm.mem
          (pageOf 0x3000#64) [0, 4, 0, 0] = some 4 ∧
        bitmapIsUsed (exec forked (.munmap 2#64 userMmapStart 4096#64)).vm.pmm.bitmap 4 = false := by
      decide +kernel
    obtain ⟨hproc, hleaf, hfree⟩ := hstate
    obtain ⟨hused, _⟩ := hc 4 ⟨_, hproc, [0, 4, 0, 0], by simp [UserPath], by simp, by simp, hleaf⟩
    rw [hfree] at hused
    exact Bool.false_ne_true hused

theorem mapped_sole (p : Proc) (hp : mapped.find 1#64 = some p) (v : Word)
    (hv : munmapReleases userMmapStart 4096#64 v) :
    Sole mapped.vm mapped.roots (siteOf (pageOf p.pml4Phys) v) := by
  obtain ⟨_, k, hk, rfl⟩ := hv
  have hone : (pagesUpTo 4096#64).toNat = 1 := by decide
  obtain rfl : k = 0 := by omega
  have hfind : created.find 1#64 = some p := hp
  have hinv : SysInv created := exec_inv (.of_boot bootSys_boot) .create trivial trivial trivial
  obtain ⟨role, hinv, _⟩ := hinv.frames
  have hroot := root_of_proc (mem_of_find hfind)
  obtain ⟨role', hprog⟩ := sysMmap_progress hinv hroot protWrite mapped_userHalf
  have hp' : p = ⟨1#64, 0x3000#64, 0#64, 0#64, .embryo⟩ :=
    Option.some.inj (hfind.symm.trans (by rw [Sys.find, states_procs.1]; decide))
  have hsole := hprog.sole (siteOf (pageOf p.pml4Phys) (rangePage userMmapStart 0))
    (siteOf_valid hroot (by decide)) fun σ' _ f hf _ ↦ by
      rw [hp'] at hf
      exact absurd hf (by rw [show entryNext _ = none by decide +kernel]; simp)
  have hvm : mapped.vm = (sysMmap created.vm p.pml4Phys created.mmapNext 0#64 4096#64 protWrite
      mapAnonymous (-1#64)).2.2 := by
    rw [mapped, exec, Sys.on, hfind]
  rw [hvm]
  exact hsole

/-- A process maps a page and unmaps it again. -/
theorem frame_lifetime_unmapped :
    Boot bootSys ∧
    Runs exec (fun s a ↦ Enabled s a ∧ InUserHalf s a ∧ ReleasesSole s a) bootSys
      (exec mapped (.munmap 1#64 userMmapStart 4096#64)) ∧
    FramesUsed (exec mapped (.munmap 1#64 userMmapStart 4096#64)) := by
  have hrun : Runs exec (fun s a ↦ Enabled s a ∧ InUserHalf s a ∧ ReleasesSole s a) bootSys
      (exec mapped (.munmap 1#64 userMmapStart 4096#64)) := by
    have h₁ : Runs exec (fun s a ↦ Enabled s a ∧ InUserHalf s a ∧ ReleasesSole s a) bootSys
        created := Runs.step .refl ⟨trivial, trivial, trivial⟩
    have h₂ := h₁.step (a := .mmap 1#64 0#64 4096#64 protWrite mapAnonymous (-1#64))
      ⟨created_alive, mapped_userHalf, trivial⟩
    exact h₂.step ⟨mapped_alive, munmap_userHalf _ _, mapped_sole⟩
  exact ⟨bootSys_boot, hrun, frame_lifetime _ _ bootSys_boot hrun⟩

end Example

end SeedOS.System
