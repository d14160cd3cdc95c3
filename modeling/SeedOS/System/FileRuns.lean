import SeedOS.System.KernelCases
import SeedOS.System.OpenFiles

namespace SeedOS.System

open Foundation Memory Process Function

/-- The descriptor tables and the open files are the same, and no process is new. -/
structure SameFiles (k k' : Kernel) : Prop where
  table : k'.table = k.table
  files : k'.files = k.files
  log : k'.log = k.log
  dom : ∀ p, (k'.pcbs p).isSome → (k.pcbs p).isSome

namespace SameFiles

variable {k k' k'' : Kernel}

theorem refl (k : Kernel) : SameFiles k k := ⟨rfl, rfl, rfl, fun _ ↦ id⟩

theorem trans (h : SameFiles k k') (h' : SameFiles k' k'') : SameFiles k k'' :=
  ⟨h'.table.trans h.table, h'.files.trans h.files, h'.log.trans h.log,
    fun p hp ↦ h.dom p (h'.dom p hp)⟩

theorem modify {p : Ptr} {f : Pcb → Pcb} (hf : ∀ proc, (f proc).fdTable = proc.fdTable)
    (heq : k.modify p f = some k') : SameFiles k k' := by
  obtain ⟨proc, hp, rfl⟩ := Option.map_eq_some_iff.mp heq
  refine ⟨?_, rfl, rfl, isSome_of_update hp⟩
  rw [table_update, hf, ← table_of_some hp, update_eq_self]

end SameFiles

section Links

variable {k k' : Kernel} {p parent : Ptr} {fuel : ℕ}

theorem unlinkChild_same (heq : unlinkChild fuel k parent p = some k') : SameFiles k k' := by
  simp only [unlinkChild, Option.bind_eq_bind, Option.bind_eq_some_iff] at heq
  obtain ⟨proc, _, head, _, slot, _, heq⟩ := heq
  cases slot with
  | none => exact Option.some.inj heq ▸ .refl k
  | some slot =>
    cases slot with
    | head => exact .modify (by intro; rfl) heq
    | link a => exact .modify (by intro; rfl) heq

theorem unlinkProcess_same (heq : unlinkProcess fuel k p = some k') : SameFiles k k' := by
  simp only [unlinkProcess, Option.bind_eq_bind, Option.bind_eq_some_iff] at heq
  obtain ⟨proc, _, slot, _, heq⟩ := heq
  cases slot with
  | none => exact Option.some.inj heq ▸ .refl k
  | some slot =>
    cases slot with
    | head => exact Option.some.inj heq ▸ ⟨rfl, rfl, rfl, fun _ ↦ id⟩
    | link a => exact .modify (by intro; rfl) heq

theorem unlinkFromParent_same (heq : unlinkFromParent fuel k p = some k') : SameFiles k k' := by
  simp only [unlinkFromParent, Option.bind_eq_bind, Option.bind_eq_some_iff] at heq
  obtain ⟨proc, _, heq⟩ := heq
  split at heq
  · exact Option.some.inj heq ▸ .refl k
  · exact unlinkChild_same heq

theorem linkChild_same (heq : linkChild k parent p = some k') : SameFiles k k' := by
  simp only [linkChild, Option.bind_eq_bind, Option.bind_eq_some_iff] at heq
  obtain ⟨head, _, k₁, h₁, heq⟩ := heq
  exact (SameFiles.modify (by intro; rfl) h₁).trans (.modify (by intro; rfl) heq)

theorem processAdd_same (heq : processAdd k p = some k') : SameFiles k k' := by
  simp only [processAdd, Option.bind_eq_bind, Option.bind_eq_some_iff] at heq
  obtain ⟨k₁, h₁, heq⟩ := heq
  exact (SameFiles.modify (by intro; rfl) h₁).trans
    (Option.some.inj heq ▸ ⟨rfl, rfl, rfl, fun _ ↦ id⟩)

theorem reparent_same {init child : Ptr} (heq : reparent k p init child = some k') :
    SameFiles k k' := by
  simp only [reparent, Option.bind_eq_bind, Option.bind_eq_some_iff] at heq
  obtain ⟨c, _, k₁, h₁, i, _, k₂, h₂, heq⟩ := heq
  exact ((SameFiles.modify (by intro; rfl) h₁).trans (.modify (by intro; rfl) h₂)).trans
    (.modify (by intro; rfl) heq)

theorem reparentAll_same {init : Ptr} (heq : reparentAll p init fuel k = some k') :
    SameFiles k k' := by
  induction fuel generalizing k with
  | zero => simp [reparentAll] at heq
  | succ fuel ih =>
    simp only [reparentAll, Option.bind_eq_bind, Option.bind_eq_some_iff] at heq
    obtain ⟨proc, _, heq⟩ := heq
    split at heq
    · exact Option.some.inj heq ▸ .refl k
    · obtain ⟨k₁, h₁, heq⟩ := Option.bind_eq_some_iff.mp heq
      exact (reparent_same h₁).trans (ih heq)

theorem wakeParent_same {proc : Pcb} (heq : wakeParent k proc = some k') : SameFiles k k' := by
  obtain ⟨rfl, -⟩ | ⟨q, Q, -, -, -, heq⟩ := wakeParent_cases heq
  · exact .refl k'
  · exact .modify (by intro; rfl) heq

theorem linkToParent_same {current : Option Ptr} (heq : linkToParent k current p = some k') :
    SameFiles k k' := by
  cases current with
  | none => exact Option.some.inj heq ▸ .refl k
  | some parent => exact linkChild_same heq

theorem reparentChildren_same (heq : reparentChildren fuel k p = some k') : SameFiles k k' := by
  unfold reparentChildren at heq
  split at heq
  · exact Option.some.inj heq ▸ .refl k
  · split_ifs at heq
    · exact Option.some.inj heq ▸ .refl k
    · exact reparentAll_same heq

theorem processExit_same {status : BitVec 32} (heq : processExit fuel k p status = some k') :
    SameFiles k k' := by
  simp only [processExit, Option.bind_eq_bind, Option.bind_eq_some_iff] at heq
  obtain ⟨k₁, h₁, k₂, h₂, k₃, h₃, proc, _, heq⟩ := heq
  exact (((SameFiles.modify (by intro; rfl) h₁).trans (reparentChildren_same h₂)).trans
    (.modify (by intro; rfl) h₃)).trans (wakeParent_same heq)

theorem freeProcess_same (hrow : ∀ i, k.table p i = none) (heq : freeProcess k p = some k') :
    SameFiles k k' := by
  obtain ⟨proc, hp, rfl⟩ := Option.map_eq_some_iff.mp heq
  refine ⟨funext fun q ↦ funext fun i ↦ ?_, rfl, rfl, fun q hq ↦ ?_⟩
  · by_cases hq : q = p
    · rw [hq, hrow]
      simp [Kernel.table]
    · simp [Kernel.table, hq]
  · have hqp : q ≠ p := by rintro rfl; simp at hq
    dsimp only at hq
    rwa [update_of_ne hqp] at hq

end Links

section Steps

/-- Every count agrees with the tables, and the blocks of the processes lie apart. -/
structure FilesOk (k : Kernel) : Prop where
  counted : Counted k.table k.files
  spaced : Spaced k

/-- What a step did to the files of `k`: those whose last entry it removed were closed
and freed, once each, and no other. -/
def Released (k k' : Kernel) : Prop :=
  ∃ evs, k'.log = k.log ++ evs ∧ ∀ f, (k.files f).isSome →
    evs.count (.close f) = (if uses k'.table f = 0 then 1 else 0) ∧
    evs.count (.kfree f) = if uses k'.table f = 0 then 1 else 0

variable {k k' k₁ : Kernel} {p : Ptr} {fuel : ℕ}

theorem Spaced.of_dom (h : Spaced k) (hdom : ∀ q, (k'.pcbs q).isSome → (k.pcbs q).isSome) :
    Spaced k' :=
  ⟨fun q hq ↦ h.inHeap q (hdom q hq), fun q r hq hr ↦ h.apart q r (hdom q hq) (hdom r hr)⟩

theorem FilesOk.same (h : FilesOk k) (hs : SameFiles k k') : FilesOk k' where
  counted := by rw [hs.table, hs.files]; exact h.counted
  spaced := h.spaced.of_dom hs.dom

theorem released_of_keep (h : FilesOk k') (hlog : k'.log = k.log)
    (hdom : ∀ f, (k.files f).isSome → (k'.files f).isSome) : Released k k' := by
  refine ⟨[], by rw [hlog, List.append_nil], fun f hf ↦ ?_⟩
  rw [if_neg (h.counted.used (hdom f hf))]
  exact ⟨rfl, rfl⟩

theorem FilesOk.step_same (h : FilesOk k) (hs : SameFiles k k') : FilesOk k' ∧ Released k k' :=
  ⟨h.same hs, released_of_keep (h.same hs) hs.log fun f hf ↦ by rw [hs.files]; exact hf⟩

theorem released_of_closes (hc : Closes k₁ k' k'.table) (hlog : k₁.log = k.log)
    (hdom : ∀ f, (k.files f).isSome → (k₁.files f).isSome) : Released k k' := by
  obtain ⟨evs, heq, hevs⟩ := hc.log
  refine ⟨evs, by rw [heq, hlog], fun f hf ↦ ?_⟩
  have := hevs f
  simp only [hdom f hf, true_and] at this
  exact this

theorem Closes.same {k₂ : Kernel} (hs : SameFiles k k₁) (hc : Closes k₁ k₂ k₂.table)
    (hs' : SameFiles k₂ k') : Closes k k' k'.table := by
  obtain ⟨hfiles, evs, hlog, hevs⟩ := hc
  simp only [hs.files] at hfiles hevs
  rw [hs'.table]
  exact ⟨hs'.files ▸ hfiles, evs, by rw [hs'.log, hlog, hs.log], hevs⟩

theorem processDestroy_files (h : FilesOk k) (heq : processDestroy fuel k p = some k') :
    FilesOk k' ∧ Closes k k' k'.table := by
  simp only [processDestroy, Option.bind_eq_bind, Option.bind_eq_some_iff] at heq
  obtain ⟨k₁, h₁, k₂, h₂, k₃, h₃, h₄⟩ := heq
  have hs := (unlinkFromParent_same h₁).trans (unlinkProcess_same h₂)
  have hok := h.same hs
  obtain ⟨hc, hcl, -, hrow, hdom⟩ := closeFds_spec hok.counted (few_of_spaced hok.spaced) h₃
  have hok₃ : FilesOk k₃ := ⟨hc, hok.spaced.of_dom hdom⟩
  have hs' := freeProcess_same (fun i ↦ hrow i (.inl (List.mem_finRange i))) h₄
  exact ⟨hok₃.same hs', .same hs hcl hs'⟩

theorem sysClose_files (h : FilesOk k) {fd : Word} {ret : Word}
    (heq : sysClose k p fd = some (ret, k')) : FilesOk k' ∧ Released k k' := by
  simp only [sysClose, Option.bind_eq_bind, Option.bind_eq_some_iff] at heq
  obtain ⟨proc, hp, heq⟩ := heq
  by_cases hfd : fd.toNat < 256
  · simp only [hfd, dif_pos] at heq
    cases hf : proc.fdTable ⟨fd.toNat, hfd⟩ with
    | none =>
      simp only [hf, Option.some.injEq, Prod.mk.injEq] at heq
      exact heq.2 ▸ h.step_same (.refl k)
    | some f =>
      have hentry : k.table p ⟨fd.toNat, hfd⟩ = some f := by rw [table_of_some hp, hf]
      obtain ⟨files, log, hclose, hc, hcl⟩ :=
        vfsClose_spec h.counted (few_of_spaced h.spaced) hentry
      simp only [hf, hclose, Option.bind_some,
        modify_eq (k := { k with files := files, log := log }) hp, Option.some.injEq,
        Prod.mk.injEq] at heq
      obtain ⟨_, rfl⟩ := heq
      have htab := table_setFd (k := { k with files := files, log := log }) hp
        ⟨fd.toNat, hfd⟩ none
      refine ⟨⟨?_, h.spaced.of_dom (isSome_of_update hp)⟩, ?_⟩
      · rw [htab]
        exact hc
      · refine released_of_closes (k := k) ?_ rfl fun f hf ↦ hf
        rw [htab]
        exact ⟨hcl.files, hcl.log⟩
  · simp only [hfd, dif_neg, not_false_eq_true, Option.some.injEq, Prod.mk.injEq] at heq
    exact heq.2 ▸ h.step_same (.refl k)

theorem Counted.install {proc : Pcb} (h : Counted k.table k.files) (hp : k.pcbs p = some proc)
    {i : Fin 256} (hi : proc.fdTable i = none) {f : Ptr} (hf : k.files f = none) (ops : FileOps) :
    Counted (setEntry k.table p i (some f)) (update k.files f (some ⟨1#32, some ops⟩)) :=
  h.add (by rw [table_of_some hp, hi]) rfl (by rw [h.uses_none hf])

theorem sysOpen_files (h : FilesOk k) {early : Option Word} {blocks : OpenBlocks}
    (hnew : ∀ f, blocks.file = some f → k.files f = none) {ret : Word}
    (heq : sysOpen k p early blocks = some (ret, k')) : FilesOk k' ∧ Released k k' := by
  obtain rfl | ⟨f, hblock, hk'⟩ := sysOpen_cases heq
  · exact h.step_same (.refl k')
  have hf := hnew f hblock
  obtain rfl | ⟨proc, fd, hp, hfree, rfl⟩ := hk'
  · -- the file goes back before it had an entry, and has no close handler yet
    rw [← hf, update_eq_self]
    refine ⟨⟨h.counted, h.spaced.of_dom fun _ hq ↦ hq⟩, [.kfree f], rfl, fun g hg ↦ ?_⟩
    have hgf : f ≠ g := by rintro rfl; simp [hf] at hg
    have hused : uses ({ k with log := k.log ++ [.kfree f] } : Kernel).table g ≠ 0 := h.counted.used hg
    rw [if_neg hused]
    simp [hgf]
  · have htab := table_setFd
      (k := { k with files := update k.files f (some ⟨1#32, some .ext2⟩) }) hp fd (some f)
    have hok : FilesOk { k with
        files := update k.files f (some ⟨1#32, some .ext2⟩)
        pcbs := update k.pcbs p (some (setFd fd (some f) proc)) } := by
      refine ⟨?_, h.spaced.of_dom (isSome_of_update hp)⟩
      rw [htab]
      exact h.counted.install hp hfree hf .ext2
    refine ⟨hok, released_of_keep hok rfl fun g hg ↦ ?_⟩
    by_cases hgf : g = f
    · subst hgf; simp
    · simpa [hgf] using hg

structure NewPcb (k : Kernel) (p : Ptr) : Prop where
  new : k.pcbs p = none
  inHeap : InHeap p
  apart : ∀ q, (k.pcbs q).isSome → Apart p q

theorem Spaced.insert (h : Spaced k) (hp : NewPcb k p)
    (hdom : ∀ q, (k'.pcbs q).isSome → q = p ∨ (k.pcbs q).isSome) : Spaced k' := by
  refine ⟨fun q hq ↦ ?_, fun q r hq hr hne ↦ ?_⟩
  · rcases hdom q hq with rfl | hq
    · exact hp.inHeap
    · exact h.inHeap q hq
  · rcases hdom q hq with rfl | hq <;> rcases hdom r hr with rfl | hr
    · exact absurd rfl hne
    · exact hp.apart r hr
    · exact (hp.apart q hq).symm
    · exact h.apart q r hq hr hne

theorem table_of_none (hp : k.pcbs p = none) (i : Fin 256) : k.table p i = none := by
  simp [Kernel.table, hp]

theorem openStdio_files (h : FilesOk k) {proc : Pcb} (hp : k.pcbs p = some proc) {i : Fin 256}
    (hi : proc.fdTable i = none) {block : Option Ptr}
    (hnew : ∀ f, block = some f → k.files f = none) (heq : openStdio k p i block = some k') :
    FilesOk k' ∧ k'.log = k.log ∧
      (∀ f, (k'.files f).isSome ↔ (k.files f).isSome ∨ block = some f) ∧
      k'.pcbs = update k.pcbs p (some (setFd i block proc)) := by
  cases block with
  | none =>
    simp only [openStdio, ttyOpen, modify_eq hp, Option.some.injEq] at heq
    obtain rfl := heq
    have htab := table_setFd hp i none
    have hsame : setEntry k.table p i none = k.table := by
      rw [setEntry, table_of_some hp, ← hi, update_eq_self, ← table_of_some hp, update_eq_self]
    refine ⟨⟨?_, h.spaced.of_dom (isSome_of_update hp)⟩, rfl, by simp, rfl⟩
    rw [htab, hsame]
    exact h.counted
  | some f =>
    simp only [openStdio, ttyOpen,
      modify_eq (k := { k with files := update k.files f (some ⟨1#32, some .tty⟩) }) hp,
      Option.some.injEq] at heq
    obtain rfl := heq
    have htab := table_setFd
      (k := { k with files := update k.files f (some ⟨1#32, some .tty⟩) }) hp i (some f)
    refine ⟨⟨?_, h.spaced.of_dom (isSome_of_update hp)⟩, rfl, fun g ↦ ?_, rfl⟩
    · rw [htab]
      exact h.counted.install hp hi (hnew f rfl) .tty
    · by_cases hgf : g = f
      · subst hgf; simp
      · simp [hgf, Ne.symm hgf]

/-- The blocks that `process_create` gets for the three terminals are new. -/
structure NewStdio (k : Kernel) (blocks : CreateBlocks) : Prop where
  stdin : ∀ f, blocks.stdin = some f → k.files f = none
  stdout : ∀ f, blocks.stdout = some f → k.files f = none ∧ blocks.stdin ≠ some f
  stderr : ∀ f, blocks.stderr = some f →
    k.files f = none ∧ blocks.stdin ≠ some f ∧ blocks.stdout ≠ some f

theorem processCreate_files (h : FilesOk k) {current : Option Ptr} {blocks : CreateBlocks}
    (hpcb : ∀ p, blocks.pcb = some p → NewPcb k p) (hstdio : NewStdio k blocks)
    {ret : Option Ptr} (heq : processCreate k current blocks = some (ret, k')) :
    FilesOk k' ∧ Released k k' := by
  obtain ⟨-, vm, pid, init, rfl, -⟩ | ⟨p, pml4Phys, vm, k₀, k₁, k₂, k₃, k₄, -, hblock, hk₀, h₁, h₂,
    h₃, h₄, h₅⟩ := processCreate_cases heq
  · exact h.step_same ⟨rfl, rfl, rfl, fun _ ↦ id⟩
  have hp := hpcb p hblock
  obtain ⟨proc, hproc⟩ : ∃ proc : Pcb, proc = ⟨k.nextPid, .embryo, pml4Phys, fun _ ↦ none,
    current, none, none, 0#32, -1#32, none, false⟩ := ⟨_, rfl⟩
  rw [← hproc] at hk₀
  have htab : k₀.table = k.table := by
    have hupd : k₀.table = update k.table p proc.fdTable := by
      rw [hk₀]
      exact table_update k p proc
    have hrow : proc.fdTable = k.table p := by
      funext i
      rw [table_of_none hp.new, hproc]
    rw [hupd, hrow, update_eq_self]
  have hok₀ : FilesOk k₀ := by
    refine ⟨by rw [htab, hk₀]; exact h.counted, h.spaced.insert hp fun q hq ↦ ?_⟩
    by_cases hqp : q = p
    · exact .inl hqp
    · rw [hk₀] at hq
      exact .inr (by simpa [hqp] using hq)
  have hp₀ : k₀.pcbs p = some proc := by rw [hk₀]; exact update_self _ _ _
  have hf₀ : k₀.files = k.files := by rw [hk₀]
  obtain ⟨hok₁, hlog₁, hdom₁, hpcbs₁⟩ := openStdio_files hok₀ hp₀ (by rw [hproc])
    (fun f hf ↦ by rw [hf₀]; exact hstdio.stdin f hf) h₁
  have hnone : ∀ {k : Kernel} {f : Ptr}, ¬ (k.files f).isSome → k.files f = none :=
    fun hc ↦ by simpa using hc
  obtain ⟨hok₂, hlog₂, hdom₂, hpcbs₂⟩ := openStdio_files hok₁
    (by rw [hpcbs₁]; exact update_self _ _ _) (by simp [setFd, hproc])
    (fun f hf ↦ hnone (by
      obtain ⟨hn, hne⟩ := hstdio.stdout f hf
      rw [hdom₁, hf₀, hn]
      simpa using hne)) h₂
  obtain ⟨hok₃, hlog₃, hdom₃, _⟩ := openStdio_files hok₂
    (by rw [hpcbs₂]; exact update_self _ _ _) (by simp [setFd, hproc])
    (fun f hf ↦ hnone (by
      obtain ⟨hn, hne, hne'⟩ := hstdio.stderr f hf
      rw [hdom₂, hdom₁, hf₀, hn]
      simpa using ⟨hne, hne'⟩)) h₃
  have hs := (linkToParent_same h₄).trans (processAdd_same h₅)
  refine ⟨hok₃.same hs, released_of_keep (hok₃.same hs) ?_ fun f hf ↦ ?_⟩
  · rw [hs.log, hlog₃, hlog₂, hlog₁, hk₀]
  · rw [hs.files, hdom₃, hdom₂, hdom₁, hf₀]
    exact .inl (.inl (.inl hf))

theorem sysFork_files (h : FilesOk k) {blocks : ForkBlocks}
    (hpcb : ∀ c, blocks.pcb = some c → NewPcb k c) {ret : Word}
    (heq : sysFork fuel k p blocks = some (ret, k')) : FilesOk k' ∧ Released k k' := by
  obtain ⟨proc, hp, ⟨-, rfl, -⟩ | ⟨child, pml4Phys, vm, hblock, -, -, ⟨-, -, rfl⟩ | ⟨k₀, k₁, k₂, k₃,
    -, hk₀, h₁, h₂, h₃, hend⟩⟩⟩ := sysFork_cases heq
  · exact h.step_same (.refl k')
  · exact h.step_same ⟨rfl, rfl, rfl, fun _ ↦ id⟩
  have hc := hpcb child hblock
  have hf₀ : k₀.files = k.files := by rw [hk₀]
  obtain ⟨files, href, hcount, hdom⟩ := refFds_spec (k := k₀) (T := k.table) proc.fdTable
    child (List.finRange 256) (List.nodup_finRange 256) (hf₀ ▸ h.counted)
    (fun i _ ↦ table_of_none hc.new i) (fun i f hf ↦ by
      rw [hf₀]
      exact h.counted.entry p i f (by rw [table_of_some hp, hf]))
  obtain rfl := Option.some.inj (h₁.symm.trans href)
  have htab : ({ k₀ with files := files } : Kernel).table =
      fillRow k.table child proc.fdTable (List.finRange 256) := by
    have hupd : ({ k₀ with files := files } : Kernel).table =
        update k.table child proc.fdTable := by
      rw [hk₀]
      exact table_update k child (childPcb proc p k.nextPid pml4Phys)
    rw [hupd]
    funext q i
    by_cases hq : q = child
    · subst hq; simp [fillRow]
    · simp [fillRow, hq]
  have hok₁ : FilesOk { k₀ with files := files } := by
    refine ⟨by rw [htab]; exact hcount, h.spaced.insert hc fun q hq ↦ ?_⟩
    by_cases hqc : q = child
    · exact .inl hqc
    · rw [hk₀] at hq
      exact .inr (by simpa [hqc] using hq)
  have hs := (linkChild_same h₂).trans (processAdd_same h₃)
  have hok₃ := hok₁.same hs
  have hlog₃ : k₃.log = k.log := by rw [hs.log, hk₀]
  have hdom₃ : ∀ f, (k.files f).isSome → (k₃.files f).isSome := fun f hf ↦ by
    rw [hs.files]
    exact (hdom f).mpr (hf₀ ▸ hf)
  obtain ⟨-, rfl⟩ | ⟨-, -, h₄⟩ := hend
  · exact ⟨hok₃, released_of_keep hok₃ hlog₃ hdom₃⟩
  · obtain ⟨hok, hcl⟩ := processDestroy_files hok₃ h₄
    exact ⟨hok, released_of_closes hcl hlog₃ hdom₃⟩

def NewBlocks (k : Kernel) : KernelAct → Prop
  | .create _ blocks => (∀ p, blocks.pcb = some p → NewPcb k p) ∧ NewStdio k blocks
  | .open _ _ blocks => ∀ f, blocks.file = some f → k.files f = none
  | .fork _ blocks => ∀ c, blocks.pcb = some c → NewPcb k c
  | _ => True

theorem FilesOk.destroy (h : FilesOk k) (heq : processDestroy fuel k p = some k') :
    FilesOk k' ∧ Released k k' := by
  obtain ⟨hok, hcl⟩ := processDestroy_files h heq
  exact ⟨hok, released_of_closes hcl rfl fun _ hf ↦ hf⟩

theorem exec_files (h : FilesOk k) {a : KernelAct} (hnew : NewBlocks k a)
    (heq : k.exec fuel a = some k') : FilesOk k' ∧ Released k k' := by
  cases a with
  | memory vm => exact Option.some.inj heq ▸ h.step_same ⟨rfl, rfl, rfl, fun _ ↦ id⟩
  | create current blocks =>
    obtain ⟨⟨ret, _⟩, hr, rfl⟩ := Option.map_eq_some_iff.mp heq
    exact processCreate_files h hnew.1 hnew.2 hr
  | «open» p early blocks =>
    obtain ⟨⟨ret, _⟩, hr, rfl⟩ := Option.map_eq_some_iff.mp heq
    exact sysOpen_files h hnew hr
  | close p fd =>
    obtain ⟨⟨ret, _⟩, hr, rfl⟩ := Option.map_eq_some_iff.mp heq
    exact sysClose_files h hr
  | fork p blocks =>
    obtain ⟨⟨ret, _⟩, hr, rfl⟩ := Option.map_eq_some_iff.mp heq
    exact sysFork_files h hnew hr
  | forkReturn p canonical =>
    simp only [Kernel.exec, forkChildUserReturn] at heq
    split_ifs at heq
    · exact h.step_same (.modify (by intro; rfl) heq)
    · exact h.destroy heq
  | exit p status => exact h.step_same (processExit_same heq)
  | wait4 p pid wnohang =>
    obtain ⟨⟨ret, _⟩, hr, rfl⟩ := Option.map_eq_some_iff.mp heq
    obtain ⟨proc, -, ⟨c, C, -, -, h₁⟩ | rfl | h₁⟩ := sysWait4_cases hr
    · exact h.destroy h₁
    · exact h.step_same (.refl _)
    · exact h.step_same (.modify (by intro; rfl) h₁)
  | destroy p => exact h.destroy heq

end Steps

section Run

variable {k₀ k : Kernel}

theorem FilesOk.of_boot (h : k₀.Boot) : FilesOk k₀ where
  counted :=
    ⟨fun p i f hf ↦ by simp [table_of_none (h.pcbs p) i] at hf,
      fun f v hv ↦ by simp [h.files f] at hv, fun f v hv ↦ by simp [h.files f] at hv⟩
  spaced := ⟨fun p hp ↦ by simp [h.pcbs p] at hp, fun p q hp ↦ by simp [h.pcbs p] at hp⟩

theorem FilesOk.refcount (h : FilesOk k) {f : Ptr} {v : VfsFile} (hv : k.files f = some v) :
    v.refcount.toInt = uses k.table f := by
  have hfew := few_of_spaced h.spaced f
  rw [(h.counted.count f v hv).1,
    BitVec.toInt_eq_toNat_of_lt (by rw [BitVec.toNat_ofNat]; omega), BitVec.toNat_ofNat]
  omega

/-- Open-file reference counting: in every state that the processes reach, each file
counts the descriptors that refer to it, no descriptor refers to a file that is gone,
and the next step closes and frees exactly the files whose last descriptor it removes. -/
theorem open_files_counted (hboot : k₀.Boot) (hrun : KernelRuns NewBlocks k₀ k) :
    (∀ f v, k.files f = some v → v.refcount.toInt = uses k.table f) ∧
    (∀ p i f, k.table p i = some f → (k.files f).isSome) ∧
    ∀ a fuel k', NewBlocks k a → k.exec fuel a = some k' →
      ∃ evs, k'.log = k.log ++ evs ∧ ∀ f, (k.files f).isSome →
        evs.count (.close f) = (if uses k'.table f = 0 then 1 else 0) ∧
        evs.count (.kfree f) = if uses k'.table f = 0 then 1 else 0 := by
  have h : FilesOk k := PartialRuns.invariant hrun (.of_boot hboot)
    fun k a k' hk ha heq ↦ (exec_files hk ha heq).1
  exact ⟨fun f v hv ↦ h.refcount hv, h.counted.entry, fun a fuel k' ha heq ↦ (exec_files h ha heq).2⟩

theorem initKernel_run : KernelRuns NewBlocks emptyKernel initKernel := by
  refine PartialRuns.step .refl (a := (0, .create none initBlocks)) ⟨?_, ?_⟩ initKernel_eq
  · intro p hp
    obtain rfl := Option.some.inj hp
    exact ⟨rfl, by decide, fun q hq ↦ by simp [emptyKernel] at hq⟩
  · exact ⟨fun _ _ ↦ rfl, fun f hf ↦ ⟨rfl, fun hc ↦ absurd (hc.trans hf.symm) (by decide)⟩,
      fun f hf ↦ ⟨rfl, fun hc ↦ absurd (hc.trans hf.symm) (by decide),
        fun hc ↦ absurd (hc.trans hf.symm) (by decide)⟩⟩

theorem initKernel_pcbs {q : Ptr} (hq : q ≠ initPtr) : initKernel.pcbs q = none := by
  have hne : q ≠ 0xFFFFFFFF00001000#64 := hq
  unfold initKernel Kernel.exec processCreate initBlocks
  dsimp only
  cases vmmCreateAddressSpace emptyKernel.vm with
  | mk pml4Phys vm =>
    by_cases hz : pml4Phys = 0#64
    · simp [hz, emptyKernel]
    · simp [hz, emptyKernel, openStdio, ttyOpen, Kernel.modify, linkToParent, processAdd,
        update_of_ne hne]

theorem initKernel_child : NewPcb initKernel childPtr := by
  refine ⟨initKernel_pcbs (by decide), by decide, fun q hq ↦ ?_⟩
  by_cases hinit : q = initPtr
  · rw [hinit]
    exact .inr (by decide)
  · simp [initKernel_pcbs hinit] at hq

/-- Init forks, closes its standard input and opens a file. -/
def sharedKernel : Kernel :=
  (((forkedKernel.exec 0 (.close initPtr 0#64)).getD initKernel).exec 0
    (.open initPtr none fileBlocksOf)).getD initKernel

theorem sharedKernel_run : KernelRuns NewBlocks emptyKernel sharedKernel := by
  have hforked : KernelRuns NewBlocks emptyKernel forkedKernel :=
    PartialRuns.step_getD initKernel_run (a := (0, .fork initPtr forkBlocks))
      (fun c hc ↦ Option.some.inj hc ▸ initKernel_child) (by decide +kernel) _
  refine PartialRuns.step_getD (PartialRuns.step_getD hforked (a := (0, .close initPtr 0#64)) trivial
    (by decide +kernel) _) (a := (0, .open initPtr none fileBlocksOf)) (fun f hf ↦ ?_)
    (by decide +kernel) _
  rw [← Option.some.inj hf]
  exact Option.isNone_iff_eq_none.mp (by decide +kernel)

/-- The child has the three terminals, init the last two of them and the file. -/
theorem open_files_counted_shared :
    (sharedKernel.files 0xFFFFFFFF00008000#64).any (·.refcount = 1#32) ∧
    (sharedKernel.files 0xFFFFFFFF00008040#64).any (·.refcount = 2#32) ∧
    (sharedKernel.files filePtr).any (·.refcount = 1#32) ∧
    ∀ f v, sharedKernel.files f = some v → v.refcount.toInt = uses sharedKernel.table f :=
  ⟨by decide +kernel, by decide +kernel, by decide +kernel,
    (open_files_counted emptyKernel_boot sharedKernel_run).1⟩

end Run

end SeedOS.System
