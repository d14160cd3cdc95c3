import SeedOS.Memory.MapPage

namespace SeedOS.Process

open Foundation Memory Function

/-- How an attempt to add one zeroed page to an address space ends. -/
inductive FreshPage
  | mapped
  | noMemory
  | mapFailed (code : ℤ)
  deriving DecidableEq

/-- The block shared by `sys_brk`, `sys_mmap`, `elf_load` and `elf_setup_stack`:
take a frame, zero it, map it at `vaddr`, and give it back if the mapping fails. -/
def mapFreshPage (s : Vm) (pml4Phys vaddr flags : Word) : FreshPage × Vm :=
  match pmmAlloc s.pmm with
  | (phys, pmm) =>
    if phys = 0#64 then (.noMemory, { s with pmm := pmm })
    else
      let s := { s with pmm := pmm }.fill (pageOf phys) fun _ ↦ 0#64
      match vmmMapPage s pml4Phys vaddr phys flags with
      | (res, s) =>
        if res < 0 then (.mapFailed res, { s with pmm := pmmFree s.pmm phys })
        else (.mapped, s)

/-- `s'` has a zeroed frame `f` that `s` had free. -/
structure TookPage (s s' : Vm) (f : ℕ) : Prop where
  available : s.pmm.Available f
  takes : s.pmm.Takes s'.pmm f
  alloc : pmmAlloc s.pmm = (pageAddr f, s'.pmm)
  eq : s' = { s with pmm := s'.pmm }.fill f fun _ ↦ 0#64

theorem mapFreshPage_cases {s s' : Vm} {pml4Phys v flags : Word} {res : FreshPage}
    (heq : mapFreshPage s pml4Phys v flags = (res, s')) :
    (res = .noMemory ∧ s' = s ∧ ∀ f, ¬ s.pmm.Available f) ∨
    ∃ f s₁ code s₂, TookPage s s₁ f ∧ vmmMapPage s₁ pml4Phys v (pageAddr f) flags = (code, s₂) ∧
      ((code < 0 ∧ res = .mapFailed code ∧ s' = { s₂ with pmm := pmmFree s₂.pmm (pageAddr f) }) ∨
        (0 ≤ code ∧ res = .mapped ∧ s' = s₂)) := by
  unfold mapFreshPage at heq
  rcases pmmAlloc_cases s.pmm with ⟨ha, hnone⟩ | ⟨f, pmm, ha, hav, -, htotal, -, hused⟩
  · simp only [ha, if_true, Prod.mk.injEq] at heq
    exact .inl ⟨heq.1.symm, heq.2.symm, hnone⟩
  · have hlt : f < 2 ^ 52 := by
      have := hav.lt
      omega
    simp only [ha, if_neg (pageAddr_ne_zero hav.1 hlt), pageOf_pageAddr hlt] at heq
    obtain ⟨s₁, hs₁⟩ : ∃ s₁, s₁ = { s with pmm := pmm }.fill f fun _ ↦ 0#64 := ⟨_, rfl⟩
    have hpmm : s₁.pmm = pmm := by rw [hs₁]; rfl
    have htook : TookPage s s₁ f :=
      ⟨hav, hpmm ▸ ⟨htotal, hused⟩, by rw [ha, hpmm], hs₁.trans (by rw [hpmm])⟩
    rw [← hs₁] at heq
    cases hmap : vmmMapPage s₁ pml4Phys v (pageAddr f) flags with
    | mk code s₂ =>
      simp only [hmap] at heq
      refine .inr ⟨f, s₁, code, s₂, htook, hmap, ?_⟩
      split_ifs at heq with hc
      · exact .inl ⟨hc, (Prod.mk.inj heq).1.symm, (Prod.mk.inj heq).2.symm⟩
      · exact .inr ⟨not_lt.mp hc, (Prod.mk.inj heq).1.symm, (Prod.mk.inj heq).2.symm⟩

/-- The loops that map `n` pages from index `i` on. When one cannot be mapped they stop, after
`undo` has taken back what was mapped before. -/
def mapLoop (pml4Phys flags : Word) (vaddr : ℕ → Word) (undo : ℕ → Vm → Vm) :
    ℕ → ℕ → Vm → Bool × Vm
  | 0, _, s => (true, s)
  | n + 1, i, s =>
    match mapFreshPage s pml4Phys (vaddr i) flags with
    | (.mapped, s) => mapLoop pml4Phys flags vaddr undo n (i + 1) s
    | (_, s) => (false, undo i s)

theorem mapLoop_keeps {P : ℕ → Vm → Prop} {Q : Vm → Prop} {s : Vm} {pml4Phys flags : Word}
    {vaddr : ℕ → Word} {undo : ℕ → Vm → Vm} (n i : ℕ)
    (hstep : ∀ k res s s', i ≤ k → k < i + n → P k s →
      mapFreshPage s pml4Phys (vaddr k) flags = (res, s') →
      (res = .mapped → P (k + 1) s') ∧ (res ≠ .mapped → Q (undo k s')))
    (hend : ∀ s, P (i + n) s → Q s) (h : P i s) :
    Q (mapLoop pml4Phys flags vaddr undo n i s).2 := by
  induction n generalizing i s with
  | zero => exact hend s h
  | succ n ih =>
    rw [mapLoop]
    cases hm : mapFreshPage s pml4Phys (vaddr i) flags with
    | mk res s₁ =>
      obtain ⟨hmapped, hfailed⟩ := hstep i res s s₁ le_rfl (by omega) h hm
      cases res with
      | mapped =>
        refine ih (i + 1) (fun k res s s' hk hk' ↦ hstep k res s s' (by omega) (by omega)) ?_
          (hmapped rfl)
        rwa [Nat.add_right_comm]
      | noMemory => exact hfailed nofun
      | mapFailed code => exact hfailed nofun

/-- The body of the release loops of `sys_brk` and `sys_munmap`. -/
def releasePage (s : Vm) (pml4Phys vaddr : Word) : Vm :=
  let phys := vmmGetPhysical s pml4Phys vaddr
  if phys = 0#64 then s
  else
    let s := (vmmUnmapPage s pml4Phys vaddr).2
    { s with pmm := pmmFree s.pmm phys }

def releaseLoop (body : Vm → Word → Vm) (vaddr : ℕ → Word) : ℕ → ℕ → Vm → Vm
  | 0, _, s => s
  | n + 1, i, s => releaseLoop body vaddr n (i + 1) (body s (vaddr i))

def enomem : Word := -12#64
def einval : Word := -22#64
def enosys : Word := -38#64

section Brk

def brkGrow (pml4Phys : Word) : ℕ → ℕ → Vm → Bool × Vm :=
  mapLoop pml4Phys (ptePresent ||| pteWritable ||| pteUser) pageAddr fun _ s ↦ s

def brkShrink (pml4Phys : Word) : ℕ → ℕ → Vm → Vm :=
  releaseLoop (fun s v ↦ releasePage s pml4Phys v) pageAddr

def pagesUpTo (addr : Word) : Word := (addr + 4096#64 - 1#64) / 4096#64

def sysBrk (s : Vm) (pml4Phys brkStart oldBrk brk : Word) : Word × Word × Vm :=
  if brk = 0#64 then (oldBrk, oldBrk, s)
  else if brk < brkStart then (oldBrk, oldBrk, s)
  else
    let oldPages := (pagesUpTo oldBrk).toNat
    let newPages := (pagesUpTo brk).toNat
    if oldPages < newPages then
      match brkGrow pml4Phys (newPages - oldPages) oldPages s with
      | (true, s) => (brk, brk, s)
      | (false, s) => (oldBrk, oldBrk, s)
    else if newPages < oldPages then
      (brk, brk, brkShrink pml4Phys (oldPages - newPages) newPages s)
    else (brk, brk, s)

def brkMaps (brkStart oldBrk brk v : Word) : Prop :=
  brk ≠ 0#64 ∧ ¬ brk < brkStart ∧ ∃ page, (pagesUpTo oldBrk).toNat ≤ page ∧
    page < (pagesUpTo brk).toNat ∧ v = pageAddr page

def brkReleases (brkStart oldBrk brk v : Word) : Prop :=
  brk ≠ 0#64 ∧ ¬ brk < brkStart ∧ ∃ page, (pagesUpTo brk).toNat ≤ page ∧
    page < (pagesUpTo oldBrk).toNat ∧ v = pageAddr page

end Brk

section Mmap

def mapFixed : Word := 0x10#64
def mapAnonymous : Word := 0x20#64
def protWrite : Word := 0x2#64
def protExec : Word := 0x4#64
def userMmapStart : Word := 0x100000000#64

def rangePage (addr : Word) (i : ℕ) : Word := addr + BitVec.ofNat 64 i * 4096#64

/-- One iteration of the clean-up loop of `sys_mmap`. Unlike the other release
loops it unmaps the page before it tests the frame. -/
def mmapUndoPage (s : Vm) (pml4Phys v : Word) : Vm :=
  let p := vmmGetPhysical s pml4Phys v
  let s := (vmmUnmapPage s pml4Phys v).2
  if p = 0#64 then s else { s with pmm := pmmFree s.pmm p }

def mmapUndo (pml4Phys mapAddr : Word) : ℕ → ℕ → Vm → Vm :=
  releaseLoop (fun s v ↦ mmapUndoPage s pml4Phys v) (rangePage mapAddr)

def mmapPages (pml4Phys mapAddr pageFlags : Word) : ℕ → ℕ → Vm → Bool × Vm :=
  mapLoop pml4Phys pageFlags (rangePage mapAddr) fun i s ↦ mmapUndo pml4Phys mapAddr i 0 s

def mmapPageFlags (prot : Word) : Word :=
  let flags := ptePresent ||| pteUser
  let flags := if hasFlag prot protWrite then flags ||| pteWritable else flags
  if hasFlag prot protExec then flags else flags ||| pteNx

def mmapFixed (addr flags : Word) : Prop := addr ≠ 0#64 ∧ hasFlag flags mapFixed = true

instance (addr flags : Word) : Decidable (mmapFixed addr flags) :=
  inferInstanceAs (Decidable (_ ∧ _))

def mmapReject (addr len flags fd : Word) : Option Word :=
  if len = 0#64 then some einval
  else if hasFlag flags mapAnonymous = false ∨ fd ≠ -1#64 then some enosys
  else if mmapFixed addr flags ∧ addr &&& 0xFFF#64 ≠ 0#64 then some einval
  else none

/-- Where `sys_mmap` maps: the address asked for, or the next one of the bump allocator. -/
def mmapAddr (mmapNext addr flags : Word) : Word :=
  if mmapFixed addr flags then addr else mmapNext

def sysMmap (s : Vm) (pml4Phys mmapNext addr len prot flags fd : Word) : Word × Word × Vm :=
  match mmapReject addr len flags fd with
  | some err => (err, mmapNext, s)
  | none =>
    let numPages := pagesUpTo len
    let mapAddr := mmapAddr mmapNext addr flags
    let mmapNext := if mmapFixed addr flags then mmapNext else mmapNext + numPages * 4096#64
    match mmapPages pml4Phys mapAddr (mmapPageFlags prot) numPages.toNat 0 s with
    | (true, s) => (mapAddr, mmapNext, s)
    | (false, s) => (enomem, mmapNext, s)

def mmapMaps (mmapNext addr len flags fd v : Word) : Prop :=
  mmapReject addr len flags fd = none ∧
    ∃ k < (pagesUpTo len).toNat, v = rangePage (mmapAddr mmapNext addr flags) k

def munmapPages (pml4Phys addr : Word) : ℕ → ℕ → Vm → Vm :=
  releaseLoop (fun s v ↦ releasePage s pml4Phys v) (rangePage addr)

def munmapReject (addr len : Word) : Option Word :=
  if addr &&& 0xFFF#64 ≠ 0#64 then some einval
  else if len = 0#64 then some einval
  else none

def sysMunmap (s : Vm) (pml4Phys addr len : Word) : Word × Vm :=
  match munmapReject addr len with
  | some err => (err, s)
  | none => (0#64, munmapPages pml4Phys addr (pagesUpTo len).toNat 0 s)

def munmapReleases (addr len v : Word) : Prop :=
  munmapReject addr len = none ∧ ∃ k < (pagesUpTo len).toNat, v = rangePage addr k

end Mmap

end SeedOS.Process
