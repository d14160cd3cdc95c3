import SeedOS.Process.LoadImage

namespace SeedOS.Process

open Foundation Memory Function

def FreshSpace (s : Vm) (pml4Phys : Word) : Prop :=
  ∀ va, UserAddress va → pageMapping s pml4Phys va = none

def pageByte (s : Vm) (pml4Phys va : Word) : Option (BitVec 8) :=
  (pageMapping s pml4Phys va).map fun e ↦ s.readByte e.1 (va.toNat % 4096)

def Phdr.Writable (ph : Phdr) : Prop := ph.flags &&& 2#32 ≠ 0#32

def Phdr.Executable (ph : Phdr) : Prop := ph.flags &&& 1#32 ≠ 0#32

instance Phdr.decidableWritable (ph : Phdr) : Decidable ph.Writable :=
  inferInstanceAs (Decidable (_ ≠ _))

instance Phdr.decidableExecutable (ph : Phdr) : Decidable ph.Executable :=
  inferInstanceAs (Decidable (_ ≠ _))

def Phdr.Holds (ph : Phdr) (a : ℕ) : Prop :=
  ph.vaddr.toNat ≤ a ∧ a < ph.vaddr.toNat + ph.memsz.toNat

def Phdr.FileHolds (ph : Phdr) (a : ℕ) : Prop :=
  ph.vaddr.toNat ≤ a ∧ a < ph.vaddr.toNat + ph.filesz.toNat

/-- Every byte of a segment is on a page of user space that has the permissions that the segment
asks for. -/
def PermissionsKept (data : File) (s : Vm) (pml4Phys : Word) : Prop :=
  ∀ ph ∈ segments data, ∀ va : Word, ph.Holds va.toNat →
    UserAddress va ∧ ∃ f flags, pageMapping s pml4Phys va = some (f, flags) ∧ hasFlag flags pteUser = true ∧
      (ph.Writable → hasFlag flags pteWritable = true) ∧
      (ph.Executable → hasFlag flags pteNx = false)

/-- On every page the first segment in header order asks for all that the others ask for. -/
def FirstPermits (segs : List Phdr) : Prop :=
  ∀ ph ∈ segs, ∀ page, ph.Touches page → ∀ first, segs.find? (·.Touches page) = some first →
    (ph.Writable → first.Writable) ∧ (ph.Executable → first.Executable)

/-- The segments are in memory as the file has them, with zeros around them. -/
structure ImageLoaded (data : File) (s : Vm) (pml4Phys brkStart : Word) : Prop where
  mapped : ∀ ph ∈ segments data, ∀ va, UserAddress va → ph.Touches (pageOf va) →
    pageMapping s pml4Phys va ≠ none
  file : ∀ ph ∈ segments data, ∀ k < ph.filesz.toNat,
    pageByte s pml4Phys (ph.vaddr + BitVec.ofNat 64 k) = some (data (ph.offset + BitVec.ofNat 64 k))
  zero : ∀ va b, UserAddress va → pageByte s pml4Phys va = some b →
    (∀ ph ∈ segments data, ¬ ph.FileHolds va.toNat) → b = 0#8
  brkAligned : brkStart.toNat % 4096 = 0
  brkAbove : ∀ ph ∈ segments data, ph.vaddr.toNat + ph.memsz.toNat ≤ brkStart.toNat

section Image

variable {data : File} {segs : List Phdr} {m : UserImage} {ph : Phdr}

theorem hasFlag_pteFlags (ph : Phdr) : hasFlag ph.pteFlags pteUser = true ∧
    (hasFlag ph.pteFlags pteWritable = true ↔ ph.Writable) ∧
    (hasFlag ph.pteFlags pteNx = false ↔ ph.Executable) := by
  unfold Phdr.pteFlags Phdr.Writable Phdr.Executable
  dsimp only
  by_cases hw : ph.flags &&& 2#32 ≠ 0#32
  · by_cases hx : ph.flags &&& 1#32 ≠ 0#32
    · rw [if_pos hw, if_pos hx]
      exact ⟨by decide, iff_of_true (by decide) hw, iff_of_true (by decide) hx⟩
    · rw [if_pos hw, if_neg hx]
      exact ⟨by decide, iff_of_true (by decide) hw, iff_of_false (by decide) hx⟩
  · by_cases hx : ph.flags &&& 1#32 ≠ 0#32
    · rw [if_neg hw, if_pos hx]
      exact ⟨by decide, iff_of_false (by decide) hw, iff_of_true (by decide) hx⟩
    · rw [if_neg hw, if_neg hx]
      exact ⟨by decide, iff_of_false (by decide) hw, iff_of_false (by decide) hx⟩

theorem flags_loadAll (hplaced : ∀ ph ∈ segs, ph.Placed) (page : ℕ) :
    (loadAll data segs m).flags page =
      (m.flags page).or ((segs.find? (·.Touches page)).map Phdr.pteFlags) := by
  induction segs generalizing m with
  | nil => rw [List.find?_nil, Option.map_none, Option.or_none]; rfl
  | cons ph segs ih =>
    have hload : (ph.load data m).flags page =
        (m.flags page).or (if ph.Touches page then some ph.pteFlags else none) := by
      rw [Phdr.load, UserImage.flags_store, UserImage.flags_addPages]
      congr 1
      exact if_congr ((hplaced ph List.mem_cons_self).touches_iff page).symm rfl rfl
    rw [loadAll, List.foldl_cons, ← loadAll, ih fun q hq ↦ hplaced q (List.mem_cons_of_mem _ hq),
      hload, Option.or_assoc, List.find?_cons]
    by_cases ht : ph.Touches page
    · simp [ht]
    · simp [ht]

theorem byte_load_other (hproper : ph.Proper) {a : ℕ} (ha : ¬ ph.FileHolds a) :
    (ph.load data m).byte a =
      if ph.Touches (a / 4096) ∧ m.flags (a / 4096) = none then 0#8 else m.byte a := by
  rw [Phdr.FileHolds] at ha
  rw [Phdr.load, UserImage.byte_store, if_neg ha, UserImage.byte_addPages]
  refine if_congr ?_ rfl rfl
  rw [hproper.placed.touches_iff, and_assoc]

theorem byte_load_file {k : ℕ} (hk : k < ph.filesz.toNat) :
    (ph.load data m).byte (ph.vaddr.toNat + k) = data (ph.offset + BitVec.ofNat 64 k) := by
  rw [Phdr.load, UserImage.byte_store, if_pos ⟨by omega, by omega⟩, Nat.add_sub_cancel_left]

theorem byte_loadAll_zero (hproper : ∀ ph ∈ segs, ph.Proper) {a : ℕ} (hm : m.byte a = 0#8)
    (ha : ∀ ph ∈ segs, ¬ ph.FileHolds a) : (loadAll data segs m).byte a = 0#8 := by
  induction segs generalizing m with
  | nil => exact hm
  | cons ph segs ih =>
    refine ih (fun q hq ↦ hproper q (List.mem_cons_of_mem _ hq)) ?_
      fun q hq ↦ ha q (List.mem_cons_of_mem _ hq)
    rw [byte_load_other (hproper ph List.mem_cons_self) (ha ph List.mem_cons_self), hm, ite_self]

theorem byte_loadAll_kept (hproper : ∀ ph ∈ segs, ph.Proper) {a : ℕ}
    (hm : m.flags (a / 4096) ≠ none) (ha : ∀ ph ∈ segs, ¬ ph.FileHolds a) :
    (loadAll data segs m).byte a = m.byte a := by
  induction segs generalizing m with
  | nil => rfl
  | cons ph segs ih =>
    have hfirst : (ph.load data m).byte a = m.byte a := by
      rw [byte_load_other (hproper ph List.mem_cons_self) (ha ph List.mem_cons_self),
        if_neg fun hc ↦ hm hc.2]
    rw [loadAll, List.foldl_cons, ← loadAll, ih (fun q hq ↦ hproper q (List.mem_cons_of_mem _ hq)) ?_
      fun q hq ↦ ha q (List.mem_cons_of_mem _ hq), hfirst]
    rw [Phdr.load, UserImage.flags_store, UserImage.flags_addPages]
    cases hflags : m.flags (a / 4096) with
    | none => exact absurd hflags hm
    | some fl => simp

theorem isLoad_of_mem (h : ph ∈ segments data) : ph.IsLoad := by
  simpa using (List.mem_filter.mp h).2

theorem Phdr.Touches.exists_byte (hplaced : ph.Placed) (hload : ph.IsLoad) {page : ℕ}
    (ht : ph.Touches page) :
    ∃ va : Word, ph.Holds va.toNat ∧ UserAddress va ∧ pageOf va = page := by
  have huser := hplaced.user
  have hpos : ph.memsz.toNat ≠ 0 := fun hc ↦ hload.2 (BitVec.eq_of_toNat_eq hc)
  obtain ⟨hlow, hhigh⟩ := ht
  have hval : (BitVec.ofNat 64 (max ph.vaddr.toNat (page * 4096))).toNat =
      max ph.vaddr.toNat (page * 4096) := by
    rw [BitVec.toNat_ofNat, Nat.mod_eq_of_lt]
    rw [userSpaceTop] at huser
    omega
  refine ⟨BitVec.ofNat 64 (max ph.vaddr.toNat (page * 4096)), ?_, ?_, ?_⟩
  · rw [Holds, hval]
    omega
  · rw [UserAddress, hval]
    omega
  · rw [pageOf] at hlow
    rw [pageOf, hval]
    omega

theorem Phdr.FileHolds.touches (hproper : ph.Proper) {a : ℕ} (h : ph.FileHolds a) :
    ph.Touches (a / 4096) := by
  have hfile := hproper.file
  rw [FileHolds] at h
  rw [Touches, pageOf]
  omega

def Phdr.Apart (p q : Phdr) : Prop := ∀ a, ¬ (p.Holds a ∧ q.Holds a)

theorem Phdr.FileHolds.holds (hproper : ph.Proper) {a : ℕ} (h : ph.FileHolds a) : ph.Holds a := by
  have hfile := hproper.file
  rw [FileHolds] at h
  rw [Holds]
  omega

theorem byte_loadAll_file (hproper : ∀ ph ∈ segs, ph.Proper) (hapart : segs.Pairwise Phdr.Apart)
    (hph : ph ∈ segs) {k : ℕ} (hk : k < ph.filesz.toNat) :
    (loadAll data segs m).byte (ph.vaddr.toNat + k) = data (ph.offset + BitVec.ofNat 64 k) := by
  induction segs generalizing m with
  | nil => exact absurd hph List.not_mem_nil
  | cons q segs ih =>
    have hrest : ∀ p ∈ segs, p.Proper := fun p hp ↦ hproper p (List.mem_cons_of_mem _ hp)
    obtain ⟨hq, hsegs⟩ := List.pairwise_cons.mp hapart
    obtain rfl | hph := List.mem_cons.mp hph
    · have hfile : ph.FileHolds (ph.vaddr.toNat + k) := ⟨by omega, by omega⟩
      have hfit := hproper ph List.mem_cons_self
      rw [loadAll, List.foldl_cons, ← loadAll, byte_loadAll_kept hrest ?_ ?_, byte_load_file hk]
      · rw [Phdr.load, UserImage.flags_store, UserImage.flags_addPages,
          if_pos ((hfit.placed.touches_iff _).mp (hfile.touches hfit))]
        simp
      · intro p hp hc
        exact hq p hp _ ⟨hfile.holds hfit, hc.holds (hrest p hp)⟩
    · exact ih hrest hsegs hph

theorem brkAfter_spec (hproper : ∀ ph ∈ segs, ph.Proper) {brk : Word}
    (hbrk : brk.toNat ≤ userSpaceTop) :
    brk.toNat ≤ (brkAfter segs brk).toNat ∧ (brkAfter segs brk).toNat ≤ userSpaceTop ∧
      ∀ ph ∈ segs, ph.vaddr.toNat + ph.memsz.toNat ≤ (brkAfter segs brk).toNat := by
  induction segs generalizing brk with
  | nil => exact ⟨Nat.le_refl _, hbrk, fun ph hph ↦ absurd hph List.not_mem_nil⟩
  | cons ph segs ih =>
    have huser := (hproper ph List.mem_cons_self).user
    have hsum : (ph.vaddr + ph.memsz).toNat = ph.vaddr.toNat + ph.memsz.toNat := by
      rw [userSpaceTop] at huser
      rw [BitVec.toNat_add, Nat.mod_eq_of_lt (by omega)]
    obtain ⟨next, hnext⟩ : ∃ next, next = if ph.vaddr + ph.memsz > brk then ph.vaddr + ph.memsz
      else brk := ⟨_, rfl⟩
    have hbounds : brk.toNat ≤ next.toNat ∧ ph.vaddr.toNat + ph.memsz.toNat ≤ next.toNat ∧
        next.toNat ≤ userSpaceTop := by
      rw [hnext]
      split
      · rename_i hgt
        have := BitVec.lt_def.mp hgt
        omega
      · rename_i hle
        have := BitVec.le_def.mp (BitVec.not_lt.mp hle)
        omega
    have hstep : brkAfter (ph :: segs) brk = brkAfter segs next := by
      rw [brkAfter, List.foldl_cons, ← hnext, ← brkAfter]
    obtain ⟨hlow, htop, hall⟩ := ih (fun q hq ↦ hproper q (List.mem_cons_of_mem _ hq)) hbounds.2.2
    rw [hstep]
    refine ⟨by omega, htop, fun q hq ↦ ?_⟩
    obtain rfl | hq := List.mem_cons.mp hq
    · omega
    · exact hall q hq

theorem PermissionsKept.user {s : Vm} {pml4Phys : Word} (h : PermissionsKept data s pml4Phys)
    (hph : ph ∈ segments data) : ph.vaddr.toNat + ph.memsz.toNat ≤ userSpaceTop := by
  by_contra hc
  have hpos : ph.memsz.toNat ≠ 0 := fun hz ↦ (isLoad_of_mem hph).2 (BitVec.eq_of_toNat_eq hz)
  have hval : (BitVec.ofNat 64 (max ph.vaddr.toNat userSpaceTop)).toNat =
      max ph.vaddr.toNat userSpaceTop := by
    rw [BitVec.toNat_ofNat, userSpaceTop, Nat.mod_eq_of_lt]
    omega
  obtain ⟨huser, -⟩ := h ph hph (BitVec.ofNat 64 (max ph.vaddr.toNat userSpaceTop)) (by
    rw [Phdr.Holds, hval]
    omega)
  rw [UserAddress, hval] at huser
  omega

end Image

section Load

variable {s s' : Vm} {roots : Set ℕ} {role : Roles} {pml4Phys : Word}

theorem FreshSpace.of_create (hinv : Inv s roots role)
    (hcreate : vmmCreateAddressSpace s = (pml4Phys, s')) (hne : pml4Phys ≠ 0#64) :
    FreshSpace s' pml4Phys ∧ ∃ role', Inv s' (insert (pageOf pml4Phys) roots) role' := by
  obtain ⟨-, role', hinv', -, -, -, hzero⟩ := vmmCreateAddressSpace_spec hinv hcreate hne
  refine ⟨fun va hva ↦ ?_, role', hinv'⟩
  rw [pageMapping_eq, hzero _ (siteOf_valid (Set.mem_insert _ _) hva.pml4Index_lt) rfl,
    entryNext_zero, Option.map_none]

theorem FreshSpace.shows (h : FreshSpace s pml4Phys) (hinv : Inv s roots role)
    (hr : pageOf pml4Phys ∈ roots) : Shows roots pml4Phys s role .empty := by
  refine ⟨hinv, hr, fun va hva _ ↦ ?_, fun va flags _ hflags ↦ ?_⟩
  · have hnone := h va hva
    rw [pageMapping_eq, Option.map_eq_none_iff] at hnone
    exact hnone
  · simp [UserImage.empty] at hflags

theorem Shows.pageByte {m : UserImage} (h : Shows roots pml4Phys s role m) {va flags : Word}
    (hva : UserAddress va) (hflags : m.flags (pageOf va) = some flags) :
    Process.pageByte s pml4Phys va = some (m.byte va.toNat) := by
  obtain ⟨f, hmap, hbyte⟩ := h.pageMapping_some hva hflags
  rw [Process.pageByte, hmap, Option.map_some, hbyte]

end Load

end SeedOS.Process
