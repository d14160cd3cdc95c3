import SeedOS.Process.Sharing
import SeedOS.System.FrameLifetime

namespace SeedOS.System

open Foundation Memory Process Function

def Act.IsSetup : Act → Prop
  | .kernelHeap _ _ | .create | .elfLoad _ _ _ | .setupStack _ _ _ _ | .start _ | .brk _ _
  | .mmap _ _ _ _ _ _ => True
  | _ => False

/-- A fork whose copy succeeds, a write to user memory, or a step of the kernel heap, which has no
part in the counts of the frames. -/
def CowStep (s : Sys) : Act → Prop
  | .kernelHeap vm taken => Enabled s (.kernelHeap vm taken) ∧ SameInfo s.vm vm
  | .fork pid => Enabled s (.fork pid) ∧ ∀ p, s.find pid = some p →
    (cowCopy s.vm p.pml4Phys).1 ≠ 0#64 ∧ (cowCopy s.vm p.pml4Phys).2.1 = true
  | .write pid va b => Enabled s (.write pid va b) ∧ InUserHalf s (.write pid va b)
  | _ => False

def Sys.pageFrames (s : Sys) : Set ℕ :=
  {f | ∃ σ : Site, σ.Valid s.roots ∧ entryNext (leafEntry s.vm.mem σ) = some f}

/-- No write faults on a COW page whose frame the start state already mapped while
the count of that frame is 1. -/
def OwnersCounted (start s : Sys) : Act → Prop
  | .write pid va _ => ∀ p, s.find pid = some p → ∀ f,
    entryNext (leafEntry s.vm.mem (siteOf (pageOf p.pml4Phys) va)) = some f →
    hasFlag (leafEntry s.vm.mem (siteOf (pageOf p.pml4Phys) va)) pteCow = true →
    f ∈ start.pageFrames → s.vm.count f ≠ 1
  | _ => True

def Isolated (s : Sys) (pid va : Word) (b : BitVec 8) : Prop :=
  ∀ p, s.find pid = some p → ∀ q ∈ s.procs, q ≠ p → ∀ va', (pml4Index va').val < 256 →
    userRead (exec s (.write pid va b)).vm q.pml4Phys va' = userRead s.vm q.pml4Phys va'

section Setup

variable {s : Sys}

theorem KernelHeap.leaves (h : SysInv s) {vm : Vm} {taken : Set ℕ} (hk : KernelHeap s vm taken) :
    SameLeaves s.vm vm s.roots := by
  obtain ⟨role, hinv, hker⟩ := h.frames
  have hmem : ∀ {t r p}, role t = .table r p → vm.mem t = s.vm.mem t := by
    intro t r p ht
    refine hk.mem t (fun hc ↦ ?_) fun hc ↦ ?_
    · rw [(hker t).mpr hc] at ht
      simp at ht
    · rw [hinv.free_of_available (hk.available t hc)] at ht
      simp at ht
  intro σ hσ
  have htable : tableAt entryNext vm.mem σ.root σ.path =
      tableAt entryNext s.vm.mem σ.root σ.path := by
    refine tableAt_congr _ _ fun q f i hq hf ↦ ?_
    have hlen := hq.length_le
    rw [List.length_append, hσ.length] at hlen
    have hu : UserPath q := by
      intro j hj
      obtain ⟨rest, hrest⟩ := hq
      refine hσ.user j ?_
      rw [← hrest, List.append_assoc, List.head?_append, hj]
      rfl
    rw [hmem ((hinv.tableAt_iff hσ.root hu (by omega)).mp hf)]
  unfold leafEntry
  rw [htable]
  cases ht : tableAt entryNext s.vm.mem σ.root σ.path with
  | none => rfl
  | some t =>
    dsimp only
    rw [hmem ((hinv.tableAt_iff hσ.root hσ.user hσ.length.le).mp ht)]

def AllSole (s : Sys) : Prop := ∀ σ : Site, σ.Valid s.roots → Sole s.vm s.roots σ

theorem AllSole.releasesSole (h : AllSole s) {a : Act} (ha : a.IsSetup) (huser : InUserHalf s a) :
    ReleasesSole s a := by
  cases a with
  | brk pid addr =>
    intro p hp v hv
    exact h _ (siteOf_valid (root_of_proc (mem_of_find hp)) (huser p hp v (.inr hv)))
  | kernelHeap | create | elfLoad | setupStack | start | mmap => trivial
  | _ => exact ha.elim

theorem AllSole.of_local {s' : Sys} (h : AllSole s) (hinv : SysInv s) (hl : LocalStep s s') :
    AllSole s' := by
  obtain ⟨role, hinv, _⟩ := hinv.frames
  obtain ⟨role', hprog⟩ := hl.progress role hinv
  intro σ hσ
  rw [hl.roots] at hσ ⊢
  exact hprog.sole σ hσ (h σ hσ)

theorem AllSole.create (h : AllSole s) (hinv : SysInv s) : AllSole (exec s .create) := by
  obtain ⟨role, hinv, _⟩ := hinv.frames
  simp only [exec]
  cases hc : vmmCreateAddressSpace s.vm with
  | mk phys vm =>
    by_cases hne : phys = 0#64
    · subst hne
      rw [if_pos rfl, vmmCreateAddressSpace_zero hc]
      exact h
    · rw [if_neg hne]
      obtain ⟨_, role', _, _, _, hsame, hzero⟩ := vmmCreateAddressSpace_spec hinv hc hne
      have hold : ∀ σ : Site, σ.Valid (insert (pageOf phys) s.roots) → ∀ f,
          entryNext (leafEntry vm.mem σ) = some f → σ.Valid s.roots := by
        intro σ hσ f hf
        refine ⟨hσ.root.resolve_left fun hc ↦ ?_, hσ.user, hσ.length⟩
        rw [hzero σ hσ hc, entryNext_zero] at hf
        simp at hf
      have hroots : ∀ {σ : Site}, σ.Valid (Sys.roots { s with
          vm := vm
          procs := ⟨s.nextPid, phys, 0#64, 0#64, .embryo⟩ :: s.procs
          nextPid := s.nextPid + 1#64 }) → σ.Valid (insert (pageOf phys) s.roots) := by
        intro σ hσ
        exact ⟨List.mem_cons.mp hσ.root, hσ.user, hσ.length⟩
      intro σ hσ σ' hσ' f hf hf'
      have hv := hold σ (hroots hσ) f hf
      have hv' := hold σ' (hroots hσ') f hf'
      exact (h σ hv).congr hv hsame σ' hv' f hf hf'

theorem setup_allSole {s₀ s₁ : Sys} (hboot : Boot s₀)
    (hrun : Runs exec (fun s a ↦ a.IsSetup ∧ Enabled s a ∧ InUserHalf s a) s₀ s₁) :
    SysInv s₁ ∧ AllSole s₁ := by
  refine hrun.invariant (I := fun s ↦ SysInv s ∧ AllSole s) ⟨.of_boot hboot, fun σ hσ ↦ ?_⟩
    fun s a h ha ↦ ?_
  · have hroot := hσ.root
    simp [Sys.roots, Sys.spaces, hboot.procs, hboot.partialCopies] at hroot
  · obtain ⟨hinv, hall⟩ := h
    obtain ⟨hsetup, hen, huser⟩ := ha
    have hsole := hall.releasesSole hsetup huser
    refine ⟨exec_inv hinv a hen huser hsole, ?_⟩
    cases a with
    | kernelHeap vm taken =>
      intro σ hσ
      exact (hall σ hσ).congr hσ (KernelHeap.leaves hinv hen)
    | create => exact hall.create hinv
    | elfLoad | setupStack | start | brk | mmap =>
      refine hall.of_local hinv (exec_local _ ?_ hen huser hsole)
      trivial
    | _ => exact hsetup.elim

theorem AllSole.shared (h : AllSole s) : Shared s.pageFrames s.roots s.vm := by
  refine ⟨fun σ hσ _ ↦ h σ hσ, fun f hf _ ↦ .inr ?_⟩
  have hempty : pagesOf s.vm s.roots f = ∅ := by
    ext σ
    simp only [Set.mem_empty_iff_false, iff_false]
    exact fun hσ ↦ hf ⟨σ, hσ.1, hσ.2⟩
  rw [hempty, Set.encard_empty]
  exact zero_le

end Setup

section Steps

variable {s start : Sys}

theorem fork_shared (h : SysInv s) {O : Set ℕ} (hs : Shared O s.roots s.vm) {p : Proc}
    (hp : p ∈ s.procs) : Shared O (s.fork p).roots (s.fork p).vm := by
  unfold Sys.fork
  obtain ⟨role, hinv, _⟩ := h.frames
  cases hc : cowCopy s.vm p.pml4Phys with
  | mk dst rest =>
    obtain ⟨ok, vm⟩ := rest
    rcases cowCopy_spec hinv (root_of_proc hp) hc Shared.copyStable
      (fun _ _ hsame hzero hinfo hmax ↦ hs.newSpace hsame hzero ⟨hinfo, hmax⟩) with
      ⟨rfl, rfl⟩ | ⟨_, hne, _, role', _, hshared, _⟩
    · simpa using hs
    · simp only [if_neg hne]
      cases ok with
      | true =>
        have hroots : ∀ nextPid, Sys.roots { s with
            vm := vm
            procs := { p with pid := s.nextPid, pml4Phys := dst, state := .runnable } :: s.procs
            nextPid := nextPid } = insert (pageOf dst) s.roots := fun _ ↦ by
          ext r
          exact List.mem_cons
        rw [if_pos rfl, hroots]
        exact hshared
      | false =>
        have hroots : Sys.roots { s with vm := vm, partialCopies := dst :: s.partialCopies } =
            insert (pageOf dst) s.roots := by
          ext r
          exact List.perm_middle.mem_iff.trans List.mem_cons
        rw [if_neg (by simp), hroots]
        exact hshared

theorem write_shared (h : SysInv s) (hs : Shared start.pageFrames s.roots s.vm) {pid va : Word}
    {b : BitVec 8} (hstep : CowStep s (.write pid va b))
    (hcount : OwnersCounted start s (.write pid va b)) :
    Shared start.pageFrames (exec s (.write pid va b)).roots (exec s (.write pid va b)).vm ∧
      Isolated s pid va b := by
  obtain ⟨role, hinv, _⟩ := h.frames
  have hexec : exec s (.write pid va b) =
      s.on pid fun p ↦ { s with vm := userWrite s.vm p.pml4Phys va b } := rfl
  rw [Isolated, hexec, Sys.on]
  cases hfind : s.find pid with
  | none => exact ⟨hs, fun p hp ↦ by simp at hp⟩
  | some p =>
    have hmem := mem_of_find hfind
    obtain ⟨hs', hread⟩ := userWrite_shared hinv hs (root_of_proc hmem) hstep.2 b
      (hcount p hfind)
    refine ⟨hs', fun p' hp' q hq hne va' hv' ↦ ?_⟩
    obtain rfl := Option.some.inj hp'
    refine hread _ va' (root_of_proc hq) (fun hc ↦ hne ?_) hv'
    exact List.inj_on_of_nodup_map h.nodup.of_append_left hq hmem hc

end Steps

/-- Copy-on-write isolation, as long as no fault misjudges a frame of the start state. -/
theorem cow_isolation (s₀ start s : Sys) (pid va : Word) (b : BitVec 8) (hboot : Boot s₀)
    (hsetup : Runs exec (fun s a ↦ a.IsSetup ∧ Enabled s a ∧ InUserHalf s a) s₀ start)
    (hrun : Runs exec (fun s a ↦ CowStep s a ∧ OwnersCounted start s a) start s)
    (hstep : CowStep s (.write pid va b)) (hcount : OwnersCounted start s (.write pid va b)) :
    Isolated s pid va b := by
  obtain ⟨hinv₁, hall⟩ := setup_allSole hboot hsetup
  have hreach : SysInv s ∧ Shared start.pageFrames s.roots s.vm := by
    refine hrun.invariant (I := fun s ↦ SysInv s ∧ Shared start.pageFrames s.roots s.vm)
      ⟨hinv₁, hall.shared⟩ fun t a h ha ↦ ?_
    obtain ⟨hinv, hs⟩ := h
    obtain ⟨hcow, hcount⟩ := ha
    cases a with
    | kernelHeap vm taken =>
      exact ⟨exec_inv hinv _ hcow.1 trivial trivial,
        hs.congr (KernelHeap.leaves hinv hcow.1) hcow.2⟩
    | fork pid =>
      exact ⟨exec_inv hinv _ hcow.1 trivial trivial,
        on_cases (P := fun t' ↦ Shared start.pageFrames t'.roots t'.vm) t.fork hs
          fun p hp ↦ fork_shared hinv hs (mem_of_find hp)⟩
    | write pid va b =>
      exact ⟨exec_inv hinv _ hcow.1 hcow.2 trivial, (write_shared hinv hs hcow hcount).1⟩
    | _ => exact hcow.elim
  exact (write_shared hreach.1 hreach.2 hstep hcount).2

section Example

theorem mapped_setup :
    Runs exec (fun s a ↦ a.IsSetup ∧ Enabled s a ∧ InUserHalf s a) bootSys mapped := by
  have hcreated : Runs exec (fun s a ↦ a.IsSetup ∧ Enabled s a ∧ InUserHalf s a) bootSys
      created := Runs.step .refl ⟨trivial, trivial, trivial⟩
  exact hcreated.step ⟨trivial, created_alive, mapped_userHalf⟩

theorem copied_of_procs {s : Sys} {p : Proc} (h : (s.fork p).procs ≠ s.procs) :
    (cowCopy s.vm p.pml4Phys).1 ≠ 0#64 ∧ (cowCopy s.vm p.pml4Phys).2.1 = true := by
  rw [Sys.fork] at h
  cases hc : cowCopy s.vm p.pml4Phys with
  | mk dst rest =>
    obtain ⟨ok, vm⟩ := rest
    rw [hc] at h
    dsimp only at h
    split at h
    · exact absurd rfl h
    next hne =>
      split at h
      · exact ⟨hne, ‹_›⟩
      · exact absurd rfl h

theorem fork_cowStep {s : Sys} {pid : Word} (halive : ∀ p, s.find pid = some p → p.state ≠ .zombie)
    (h : (exec s (.fork pid)).procs ≠ s.procs) : CowStep s (.fork pid) := by
  refine ⟨halive, fun p hp ↦ copied_of_procs ?_⟩
  rw [exec, Sys.on, hp] at h
  exact h

def forkedTwice : Sys := exec forked (.fork 1#64)

theorem forkedTwice_parent :
    forkedTwice.procs = [⟨3#64, 0xc000#64, 0#64, 0#64, .runnable⟩,
      ⟨2#64, 0x8000#64, 0#64, 0#64, .runnable⟩, ⟨1#64, 0x3000#64, 0#64, 0#64, .embryo⟩] ∧
    entryNext (leafEntry forkedTwice.vm.mem (siteOf 3 userMmapStart)) = some 4 ∧
    forkedTwice.vm.count 4 = 2 := by decide +kernel

theorem forked_step : CowStep mapped (.fork 1#64) := by
  refine fork_cowStep mapped_alive ?_
  rw [← forked, forked_procs, states_procs.2.1]
  decide

theorem userMmapStart_user : (pml4Index userMmapStart).val < 256 := by decide

theorem forked_write : CowStep forked (.write 1#64 userMmapStart 1#8) :=
  ⟨state_ne_of_check (by rw [Sys.find, forked_procs]; decide), userMmapStart_user⟩

/-- After one fork the shared frame has count 1, so the parent's write goes to the
frame that the child reads. -/
theorem write_reaches_child :
    Boot bootSys ∧
    Runs exec (fun s a ↦ a.IsSetup ∧ Enabled s a ∧ InUserHalf s a) bootSys mapped ∧
    Runs exec CowStep mapped forked ∧ CowStep forked (.write 1#64 userMmapStart 1#8) ∧
    ¬ Isolated forked 1#64 userMmapStart 1#8 := by
  refine ⟨bootSys_boot, mapped_setup, Runs.step .refl forked_step, forked_write, fun hc ↦ ?_⟩
  have hread := hc ⟨1#64, 0x3000#64, 0#64, 0#64, .embryo⟩
    (by rw [Sys.find, forked_procs]; decide) ⟨2#64, 0x8000#64, 0#64, 0#64, .runnable⟩
    (by rw [forked_procs]; simp) (by decide) userMmapStart userMmapStart_user
  exact absurd hread (by decide +kernel)

/-- With two children the count is 2, and the parent's write gets a copy of its own. -/
theorem cow_isolation_forkedTwice :
    Boot bootSys ∧
    Runs exec (fun s a ↦ a.IsSetup ∧ Enabled s a ∧ InUserHalf s a) bootSys mapped ∧
    Runs exec (fun s a ↦ CowStep s a ∧ OwnersCounted mapped s a) mapped forkedTwice ∧
    Isolated forkedTwice 1#64 userMmapStart 1#8 := by
  obtain ⟨hprocs, hframe, hcount⟩ := forkedTwice_parent
  have hforked : Runs exec (fun s a ↦ CowStep s a ∧ OwnersCounted mapped s a) mapped forked :=
    Runs.step .refl ⟨forked_step, trivial⟩
  have htwice : Runs exec (fun s a ↦ CowStep s a ∧ OwnersCounted mapped s a) mapped
      forkedTwice := by
    refine hforked.step ⟨fork_cowStep forked_write.1 ?_, trivial⟩
    rw [← forkedTwice, hprocs, forked_procs]
    decide
  have hparent : ∀ p, forkedTwice.find 1#64 = some p →
      p.state ≠ .zombie ∧ p.pml4Phys = 0x3000#64 := by
    intro p hp
    rw [Sys.find, hprocs] at hp
    obtain rfl := Option.some.inj hp
    decide
  refine ⟨bootSys_boot, mapped_setup, htwice, cow_isolation _ _ _ _ _ _ bootSys_boot mapped_setup
    htwice ⟨fun p hp ↦ (hparent p hp).1, userMmapStart_user⟩ fun p hp f hf _ _ ↦ ?_⟩
  rw [(hparent p hp).2] at hf
  obtain rfl : 4 = f := Option.some.inj (hframe.symm.trans hf)
  rw [hcount]
  decide

end Example

end SeedOS.System
