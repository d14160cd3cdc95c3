import SeedOS.System.Conservation

namespace SeedOS.System

open Foundation Memory Process Function

section Registers

def canonicalAddr (a : Word) : Bool := (a <<< 16).sshiftRight 16 = a

def userRflagsAllowed : Word := 0x0ED5#64
def userRflagsRequired : Word := 0x0202#64

def sanitizeUserRflags (rflags : Word) : Word :=
  rflags &&& userRflagsAllowed ||| userRflagsRequired

structure UserRegs where
  rax : Word
  rdi : Word
  rsi : Word
  rdx : Word
  r10 : Word
  r8 : Word
  r9 : Word
  rcx : Word
  r11 : Word
  rsp : Word

/-- The `syscall` instruction at `va`: it is two bytes long. -/
def syscallInstruction (regs : UserRegs) (va rflags : Word) : UserRegs :=
  { regs with rcx := va + 2#64, r11 := rflags }

/-- What `syscall_entry` leaves on the kernel stack for `syscall_dispatch`: a
`syscall_frame_t`, and above it the saved flags and the saved instruction pointer. -/
structure SyscallStack where
  nr : Word
  arg1 : Word
  arg2 : Word
  arg3 : Word
  arg4 : Word
  arg5 : Word
  arg6 : Word
  rflags : Word
  rip : Word

def UserRegs.push (regs : UserRegs) : SyscallStack :=
  ⟨regs.rax, regs.rdi, regs.rsi, regs.rdx, regs.r10, regs.r8, regs.r9, regs.r11, regs.rcx⟩

/-- The end of `syscall_entry`, when the handler returned `ret` and the percpu slot holds
`userRsp`. -/
def SyscallStack.pop (stack : SyscallStack) (ret userRsp : Word) : UserRegs where
  rax := ret
  rdi := stack.arg1
  rsi := stack.arg2
  rdx := stack.arg3
  r10 := stack.arg4
  r8 := stack.arg5
  r9 := stack.arg6
  rcx := stack.rip
  r11 := sanitizeUserRflags stack.rflags
  rsp := userRsp

/-- The registers with which `syscall_entry` executes `sysretq`. -/
def syscallEntry (regs : UserRegs) (ret userRsp : Word) : UserRegs := regs.push.pop ret userRsp

/-- The user state that `syscall_dispatch` saves in the process block, and that a
fork copies to the child. -/
structure UserState where
  userRip : Word
  userRflags : Word
  userRsp : Word

def syscallSnapshot (stack : SyscallStack) (userRsp : Word) : UserState :=
  ⟨stack.rip, sanitizeUserRflags stack.rflags, userRsp⟩

/-- The registers with which `fork_child_user_return` executes `sysretq`, unless it
kills the child. -/
def forkChildSysret (child : UserState) : Option UserRegs :=
  if !canonicalAddr child.userRip || !canonicalAddr child.userRsp then none
  else some ⟨0#64, 0#64, 0#64, 0#64, 0#64, 0#64, 0#64, child.userRip, child.userRflags,
    child.userRsp⟩

theorem forkChildSysret_canonical {child : UserState} {regs : UserRegs}
    (h : forkChildSysret child = some regs) : canonicalAddr regs.rcx = true := by
  unfold forkChildSysret at h
  split_ifs at h with hc
  obtain rfl := Option.some.inj h
  simp only [Bool.or_eq_true, Bool.not_eq_true', not_or, Bool.not_eq_false] at hc
  exact hc.1

theorem canonicalAddr_iff (a : Word) :
    canonicalAddr a = true ↔ a.toNat < 2 ^ 47 ∨ 2 ^ 64 - 2 ^ 47 ≤ a.toNat := by
  have hlt := a.isLt
  rw [canonicalAddr, decide_eq_true_eq, ← BitVec.toInt_inj, BitVec.toInt_sshiftRight,
    BitVec.toInt_eq_toNat_cond, BitVec.toInt_eq_toNat_cond, BitVec.toNat_shiftLeft,
    Nat.shiftLeft_eq, Int.shiftRight_eq_div_pow]
  omega

end Registers

section Layout

/-- Some entry of the page walk for `va` forbids to execute the page. -/
def executeDisabled (s : Vm) (pml4Phys va : Word) : Bool :=
  let e₄ := s.mem (pageOf pml4Phys) (pml4Index va)
  let e₃ := s.mem (frameOf e₄) (pdptIndex va)
  let e₂ := s.mem (frameOf e₃) (pdIndex va)
  let e₁ := s.mem (frameOf e₂) (ptIndex va)
  hasFlag e₄ pteNx || hasFlag e₃ pteNx ||
    !hasFlag e₃ pteHuge && (hasFlag e₂ pteNx || !hasFlag e₂ pteHuge && hasFlag e₁ pteNx)

/-- A byte of an instruction that user code executes, unless the fetch faults. -/
def userFetch (s : Vm) (pml4Phys va : Word) : Option (BitVec 8) :=
  if canonicalAddr va && !executeDisabled s pml4Phys va then userRead s pml4Phys va else none

def SyscallAt (s : Vm) (pml4Phys va : Word) : Prop :=
  userFetch s pml4Phys va = some 0x0F#8 ∧ userFetch s pml4Phys (va + 1#64) = some 0x05#8

/-- Both ways back from any system call execute `sysretq` with a canonical address only. -/
def SysretsCanonical (s : Vm) (pml4Phys : Word) : Prop :=
  ∀ va, SyscallAt s pml4Phys va → ∀ (regs : UserRegs) (rflags ret userRsp : Word),
    let entry := syscallInstruction regs va rflags
    canonicalAddr (syscallEntry entry ret userRsp).rcx = true ∧
      ∀ child, forkChildSysret (syscallSnapshot entry.push userRsp) = some child →
        canonicalAddr child.rcx = true

def lastUserPage : ℕ := 0x7FFFFFFFF

theorem userFetch_some {s : Vm} {pml4Phys va : Word} {b : BitVec 8}
    (h : userFetch s pml4Phys va = some b) :
    canonicalAddr va = true ∧ ∃ t, translate s pml4Phys va = some t := by
  unfold userFetch userRead at h
  split_ifs at h with hc
  rw [Bool.and_eq_true] at hc
  cases ht : translate s pml4Phys va with
  | none => simp [ht] at h
  | some t => exact ⟨hc.1, t, rfl⟩

theorem SyscallAt.canonical_or_last {s : Vm} {pml4Phys va : Word} (h : SyscallAt s pml4Phys va) :
    canonicalAddr (va + 2#64) = true ∨ va.toNat = 0x7FFFFFFFFFFE := by
  obtain ⟨hva, _⟩ := userFetch_some h.1
  obtain ⟨hva', _⟩ := userFetch_some h.2
  have hlt := va.isLt
  rw [canonicalAddr_iff] at hva hva' ⊢
  rw [BitVec.toNat_add, show (1#64).toNat = 1 from rfl] at hva'
  rw [BitVec.toNat_add, show (2#64).toNat = 2 from rfl]
  omega

end Layout

section Bare

/-- The last page of the user half is not mapped, and no page of this address space
shares its frame with another page. -/
structure Bare (roots : Set ℕ) (pml4Phys : Word) (s : Vm) : Prop where
  inv : ∃ role, Inv s roots role
  sole : ∀ σ : Site, σ.Valid roots → σ.root = pageOf pml4Phys → Sole s roots σ
  last : ∀ va, UserAddress va → pageOf va = lastUserPage → Unmapped s pml4Phys va

namespace Bare

variable {s s' : Vm} {roots : Set ℕ} {pml4Phys v : Word}

theorem step {role role' : Roles} (h : Bare roots pml4Phys s) (hr : pageOf pml4Phys ∈ roots)
    (hp : Progress roots s s' role role')
    (hleaf : ∀ σ : Site, σ.Valid roots → leafEntry s'.mem σ = leafEntry s.mem σ ∨
      leafEntry s'.mem σ = 0#64 ∨ ∃ v, UserAddress v ∧ pageOf v ≠ lastUserPage ∧
        σ = siteOf (pageOf pml4Phys) v) : Bare roots pml4Phys s' where
  inv := ⟨role', hp.inv⟩
  sole σ hσ hroot := hp.sole σ hσ (h.sole σ hσ hroot)
  last va hva hlast := by
    have hnone := h.last va hva hlast
    unfold Unmapped at hnone ⊢
    rcases hleaf _ (siteOf_valid hr hva.pml4Index_lt) with hsame | hzero | ⟨v, hv, hne, hsite⟩
    · rw [hsame, hnone]
    · rw [hzero, entryNext_zero]
    · exact absurd (hlast ▸ ((siteOf_inj hva hv _ _).mp hsite).2.symm) hne

section

variable (h : Bare roots pml4Phys s) (hr : pageOf pml4Phys ∈ roots)
include h hr

theorem mapFreshPage {flags : Word}
    (hv : UserAddress v) (hne : pageOf v ≠ lastUserPage) (hfl : MapFlags flags) :
    Bare roots pml4Phys (mapFreshPage s pml4Phys v flags).2 := by
  obtain ⟨role, hinv⟩ := h.inv
  obtain ⟨role', hprog, _⟩ :=
    mapFreshPage_progress hinv hr hv.pml4Index_lt hfl Prod.mk.eta.symm
  obtain ⟨_, _, _, hres⟩ := mapFreshPage_spec hinv hr hv.pml4Index_lt hfl Prod.mk.eta.symm
  refine h.step hr hprog fun σ hσ ↦ ?_
  rcases hres with ⟨_, f, _, _, _, hleaf⟩ | ⟨_, hsame⟩
  · by_cases hsite : σ = siteOf (pageOf pml4Phys) v
    · exact .inr (.inr ⟨v, hv, hne, hsite⟩)
    · exact .inl (by rw [hleaf σ hσ, if_neg hsite])
  · exact .inl (hsame σ hσ)

theorem unmapped_leaf (hv : UserAddress v) (σ : Site) (hσ : σ.Valid roots) :
    leafEntry (vmmUnmapPage s pml4Phys v).2.mem σ = leafEntry s.mem σ ∨
      leafEntry (vmmUnmapPage s pml4Phys v).2.mem σ = 0#64 := by
  obtain ⟨role, hinv⟩ := h.inv
  obtain ⟨_, _, _, hleaf⟩ := vmmUnmapPage_spec hinv hr hv.pml4Index_lt Prod.mk.eta.symm
  rw [hleaf σ hσ]
  split_ifs
  · exact .inr rfl
  · exact .inl rfl

theorem releasePage (hv : UserAddress v) : Bare roots pml4Phys (releasePage s pml4Phys v) := by
  obtain ⟨role, hinv⟩ := h.inv
  obtain ⟨role', hprog⟩ := releasePage_progress hinv hr hv.pml4Index_lt
    (h.sole _ (siteOf_valid hr hv.pml4Index_lt) rfl)
  refine h.step hr hprog fun σ hσ ↦ ?_
  unfold Process.releasePage
  dsimp only
  split_ifs
  · exact .inl rfl
  · exact (h.unmapped_leaf hr hv σ hσ).imp_right .inl

theorem mmapUndoPage (hv : UserAddress v) : Bare roots pml4Phys (mmapUndoPage s pml4Phys v) := by
  obtain ⟨role, hinv⟩ := h.inv
  obtain ⟨role', hprog⟩ := mmapUndoPage_progress hinv hr hv.pml4Index_lt
    (h.sole _ (siteOf_valid hr hv.pml4Index_lt) rfl)
  refine h.step hr hprog fun σ hσ ↦ ?_
  unfold Process.mmapUndoPage
  dsimp only
  split_ifs <;> exact (h.unmapped_leaf hr hv σ hσ).imp_right .inl

theorem pokeByte (hv : UserAddress v) (b : BitVec 8) :
    Bare roots pml4Phys (pokeByte pml4Phys v b s).2 := by
  obtain ⟨role, hinv⟩ := h.inv
  unfold Process.pokeByte
  by_cases hz : vmmGetPhysical s pml4Phys (alignDown v) = 0#64
  · simp only [hz, if_true]
    exact h
  · simp only [hz, if_false]
    have hdata := frame_data hinv hr (alignDown_user hv) hz
    exact h.step hr (writeByte_progress hinv hdata (v &&& 0xFFF#64).toNat b) fun σ hσ ↦
      .inl (writeByte_leaves hinv hdata _ b σ hσ)

end

theorem create {role : Roles} (hinv : Inv s roots role) {phys : Word}
    (heq : vmmCreateAddressSpace s = (phys, s')) (hne : phys ≠ 0#64) :
    Bare (insert (pageOf phys) roots) phys s' := by
  obtain ⟨_, role', hinv', _, _, _, hempty⟩ := vmmCreateAddressSpace_spec hinv heq hne
  refine ⟨⟨role', hinv'⟩, fun σ hσ hroot σ' _ f hf _ ↦ ?_, fun va hva _ ↦ ?_⟩
  · rw [hempty σ hσ hroot, entryNext_zero] at hf
    simp at hf
  · rw [Unmapped, hempty _ (siteOf_valid (Set.mem_insert _ _) hva.pml4Index_lt) rfl,
      entryNext_zero]

theorem sysretsCanonical (h : Bare roots pml4Phys s) (hr : pageOf pml4Phys ∈ roots) :
    SysretsCanonical s pml4Phys := by
  intro va hva regs rflags ret userRsp
  refine ⟨?_, fun child hchild ↦ forkChildSysret_canonical hchild⟩
  refine hva.canonical_or_last.resolve_right fun hlast ↦ ?_
  obtain ⟨role, hinv⟩ := h.inv
  have huser : UserAddress va := by
    unfold UserAddress userSpaceTop
    omega
  obtain ⟨_, t, ht⟩ := userFetch_some hva.1
  obtain ⟨f, hf, _⟩ := translate_user hinv hr huser.pml4Index_lt ht
  have hnone := h.last va huser (by rw [pageOf, hlast, lastUserPage])
  rw [Unmapped, hf] at hnone
  simp at hnone

end Bare

end Bare

def Space.SparesLast (s : Space) (c : SpaceCall) : Prop :=
  ∀ v, s.Maps c v → pageOf v ≠ lastUserPage

/-- Every `sysretq` is canonical: whatever pages below the last page of the user half a
process has mapped, from wherever it makes a system call, both ways back to user mode
return to a canonical address. -/
theorem sysret_canonical {vm₀ : Vm} {roots : Set ℕ} {role : Roles} (hinv : Inv vm₀ roots role)
    {phys : Word} {vm₁ : Vm} (hcreate : vmmCreateAddressSpace vm₀ = (phys, vm₁))
    (hne : phys ≠ 0#64) {brkStart brk mmapNext : Word} {s : Space}
    (hrun : Runs Space.call (fun s c ↦ s.Enabled c ∧ s.SparesLast c)
      ⟨vm₁, phys, brkStart, brk, mmapNext⟩ s) : SysretsCanonical s.vm s.pml4Phys := by
  have hroot : pageOf phys ∈ insert (pageOf phys) roots := Set.mem_insert _ _
  have h : s.pml4Phys = phys ∧ Bare (insert (pageOf phys) roots) phys s.vm := by
    refine Runs.invariant (I := fun s ↦ s.pml4Phys = phys ∧ Bare _ phys s.vm) hrun
      ⟨rfl, .create hinv hcreate hne⟩ fun s c hs hc ↦ ?_
    obtain ⟨hphys, hbare⟩ := hs
    refine ⟨by rw [← hphys]; cases c <;> rfl, ?_⟩
    have huser := hc.1.user
    rw [← hphys] at hroot hbare ⊢
    have hsteps : LoopKeeps s.pml4Phys (s.Maps c) (s.Visits c) fun _ ↦ Bare _ s.pml4Phys :=
      { map := fun h hv _ hfl hm ↦ by
          have h' := h.mapFreshPage hroot (huser _ (.inl hv)) (hc.2 _ hv) hfl
          rw [hm] at h'
          exact ⟨fun _ ↦ h', fun _ ↦ ⟨_, Set.Subset.rfl, h'⟩⟩
        undo := fun h hv _ ↦
          ⟨_, Set.Subset.rfl, h.mmapUndoPage hroot (huser _ (.inl hv))⟩
        release := fun h hv ↦ ⟨∅, h.releasePage hroot (huser _ (.inr hv))⟩ }
    obtain ⟨-, h⟩ := Space.call_keeps hsteps
      (fun v b hv ↦ ⟨∅, hbare.pokeByte hroot (huser v (.inr hv)) b⟩) hc.1 hbare
    exact h
  rw [h.1]
  exact h.2.sysretsCanonical hroot

/-- A writable and executable page, and a system call in its last two bytes. -/
def codePage (addr : Word) : SpaceCall :=
  .mmap addr 0x1000#64 (protWrite ||| protExec) (mapFixed ||| mapAnonymous) (-1#64)

def codeBytes (addr : Word) : Space :=
  ((firstSpace.call (codePage addr)).call (.poke (addr + 0xFFE#64) 0x0F#8)).call
    (.poke (addr + 0xFFF#64) 0x05#8)

theorem codePage_maps (s : Space) {addr v : Word}
    (hfixed : mmapFixed addr (mapFixed ||| mapAnonymous))
    (hv : s.Maps (codePage addr) v) : v = addr := by
  have haddr : mmapAddr s.mmapNext addr (mapFixed ||| mapAnonymous) = addr := if_pos hfixed
  obtain ⟨-, k, hk, rfl⟩ := hv
  rw [show (pagesUpTo 0x1000#64).toNat = 1 by decide, Nat.lt_one_iff] at hk
  rw [haddr, hk]
  simp [rangePage]

theorem codePage_enabled (s : Space) {addr : Word} (haddr : UserAddress addr)
    (hfixed : mmapFixed addr (mapFixed ||| mapAnonymous)) : s.Enabled (codePage addr) := by
  refine ⟨?_, fun _ _ hc ↦ by simp [codePage] at hc⟩
  rintro v (hv | hv)
  · rwa [codePage_maps s hfixed hv]
  · exact absurd hv (by simp [Space.Visits, codePage])

theorem poke_enabled (s : Space) {va : Word} (hva : UserAddress va) (b : BitVec 8) :
    s.Enabled (.poke va b) := by
  refine ⟨?_, fun _ _ hc ↦ by simp at hc⟩
  rintro v (hv | rfl)
  · exact absurd hv (by simp [Space.Maps])
  · exact hva

/-- With the system call at the end of the last page but one. -/
theorem sysret_canonical_codeBytes :
    SyscallAt (codeBytes 0x7FFFFFFFE000#64).vm (codeBytes 0x7FFFFFFFE000#64).pml4Phys
      0x7FFFFFFFEFFE#64 ∧
    SysretsCanonical (codeBytes 0x7FFFFFFFE000#64).vm (codeBytes 0x7FFFFFFFE000#64).pml4Phys := by
  obtain ⟨role, hinv⟩ := bootVm_inv
  refine ⟨⟨by decide +kernel, by decide +kernel⟩, sysret_canonical hinv
    (show vmmCreateAddressSpace bootVm = (firstSpace.pml4Phys, firstSpace.vm) from rfl)
    firstSpace_created (Runs.step (Runs.step (Runs.step .refl ?_) ?_) ?_)⟩
  · refine ⟨codePage_enabled _ (by decide) (by decide), fun v hv ↦ ?_⟩
    rw [codePage_maps _ (by decide) hv]
    decide
  · exact ⟨poke_enabled _ (by decide) _, fun v hv ↦ hv.elim⟩
  · exact ⟨poke_enabled _ (by decide) _, fun v hv ↦ hv.elim⟩

def lastBytes : Space := codeBytes 0x7FFFFFFFF000#64

/-- The return from a system call at the end of the last page is not canonical. -/
theorem sysret_noncanonical : (∃ role, Inv bootVm ∅ role) ∧
    vmmCreateAddressSpace bootVm = (firstSpace.pml4Phys, firstSpace.vm) ∧
    firstSpace.pml4Phys ≠ 0#64 ∧
    Runs Space.call Space.Enabled firstSpace lastBytes ∧
    SyscallAt lastBytes.vm lastBytes.pml4Phys 0x7FFFFFFFFFFE#64 ∧
    (∀ (regs : UserRegs) (rflags ret userRsp : Word),
      (syscallEntry (syscallInstruction regs 0x7FFFFFFFFFFE#64 rflags) ret userRsp).rcx =
        0x800000000000#64) ∧
    ¬ SysretsCanonical lastBytes.vm lastBytes.pml4Phys := by
  have hrun : Runs Space.call Space.Enabled firstSpace lastBytes := by
    refine Runs.step (Runs.step (Runs.step .refl (a := codePage 0x7FFFFFFFF000#64) ?_)
      (a := .poke (0x7FFFFFFFF000#64 + 0xFFE#64) 0x0F#8) ?_)
      (a := .poke (0x7FFFFFFFF000#64 + 0xFFF#64) 0x05#8) ?_
    · exact codePage_enabled _ (by decide) (by decide)
    · exact poke_enabled _ (by decide) _
    · exact poke_enabled _ (by decide) _
  have hat : SyscallAt lastBytes.vm lastBytes.pml4Phys 0x7FFFFFFFFFFE#64 :=
    ⟨by decide +kernel, by decide +kernel⟩
  refine ⟨bootVm_inv, rfl, firstSpace_created, hrun, hat, fun _ _ _ _ ↦ rfl, fun h ↦ ?_⟩
  have hcanonical := (h _ hat ⟨0#64, 0#64, 0#64, 0#64, 0#64, 0#64, 0#64, 0#64, 0#64, 0#64⟩
    0#64 0#64 0#64).1
  exact absurd hcanonical (by decide)

end SeedOS.System
