import SeedOS.Process.StackImage

namespace SeedOS.Process

open Foundation Memory Function

def BytesAt (s : Vm) (pml4Phys va : Word) (bytes : List (BitVec 8)) : Prop :=
  ∀ k < bytes.length, pageByte s pml4Phys (va + BitVec.ofNat 64 k) = some (bytes.getD k 0#8)

def WordsAt (s : Vm) (pml4Phys va : Word) (ws : List Word) : Prop :=
  ∀ i < ws.length, ∀ k < 8,
    pageByte s pml4Phys (va + BitVec.ofNat 64 (8 * i + k)) = some (byteOf (ws.getD i 0#64) k)

def StringAt (s : Vm) (pml4Phys va : Word) (str : List (BitVec 8)) : Prop :=
  BytesAt s pml4Phys va (str ++ [0#8])

/-- The stack that a program starts with: the words from `rsp` up, above them the random
bytes and above those the strings. -/
structure InitialStack (s : Vm) (pml4Phys : Word) (argv envp : List (List (BitVec 8)))
    (info : ElfInfo) (rsp : Word) (argvPtrs envpPtrs : List Word) (random : Word) : Prop where
  words : WordsAt s pml4Phys rsp
    (stackWords argv.length argvPtrs envpPtrs (auxVector info random))
  argvStrings : List.Forall₂ (StringAt s pml4Phys) argvPtrs argv
  envpStrings : List.Forall₂ (StringAt s pml4Phys) envpPtrs envp
  randomBytes : BytesAt s pml4Phys random ((List.range 16).map (randomByte random))
  wordsBelow : rsp.toNat +
    8 * (stackWords argv.length argvPtrs envpPtrs (auxVector info random)).length ≤ random.toNat
  stringsAbove : ∀ p ∈ argvPtrs ++ envpPtrs, random.toNat + 16 ≤ p.toNat

section Decode

variable {roots : Set ℕ} {pml4Phys va rsp : Word} {s s' : Vm} {role : Roles} {m : UserImage}
  {argv envp : List (List (BitVec 8))} {info : ElfInfo}

theorem Shows.byteAt (h : Shows roots pml4Phys s role m) {k : ℕ}
    (hend : va.toNat + k < userSpaceTop) (hmapped : m.flags ((va.toNat + k) / 4096) ≠ none) :
    Process.pageByte s pml4Phys (va + BitVec.ofNat 64 k) = some (m.byte (va.toNat + k)) := by
  have hat : (va + BitVec.ofNat 64 k).toNat = va.toNat + k := by
    rw [userSpaceTop] at hend
    rw [BitVec.toNat_add, BitVec.toNat_ofNat]
    omega
  obtain ⟨flags, hflags⟩ := Option.ne_none_iff_exists'.mp hmapped
  have huser : UserAddress (va + BitVec.ofNat 64 k) := by rwa [UserAddress, hat]
  have hpage : m.flags (pageOf (va + BitVec.ofNat 64 k)) = some flags := by rwa [pageOf, hat]
  rw [h.pageByte huser hpage, hat]

theorem Shows.bytesAt (h : Shows roots pml4Phys s role m) {bytes : List (BitVec 8)}
    (hend : va.toNat + bytes.length ≤ userSpaceTop)
    (hmapped : ∀ k < bytes.length, m.flags ((va.toNat + k) / 4096) ≠ none)
    (hb : ∀ k < bytes.length, m.byte (va.toNat + k) = bytes.getD k 0#8) :
    BytesAt s pml4Phys va bytes := fun k hk ↦ by
  rw [h.byteAt (by omega) (hmapped k hk), hb k hk]

theorem Shows.stringsAt (h : Shows roots pml4Phys s role m) (strs : List (List (BitVec 8)))
    (hend : va.toNat + stringsSize strs ≤ userSpaceTop)
    (hmapped : ∀ k < stringsSize strs, m.flags ((va.toNat + k) / 4096) ≠ none)
    (hb : ∀ k < stringsSize strs, m.byte (va.toNat + k) = (packStrings strs).getD k 0#8) :
    List.Forall₂ (StringAt s pml4Phys) (stringStarts va strs) strs ∧
      ∀ p ∈ stringStarts va strs, va.toNat ≤ p.toNat := by
  induction strs generalizing va with
  | nil => exact ⟨.nil, fun p hp ↦ absurd hp List.not_mem_nil⟩
  | cons str strs ih =>
    have hlen : (str ++ [0#8]).length = str.length + 1 := List.length_append
    have hpack : packStrings (str :: strs) = (str ++ [0#8]) ++ packStrings strs :=
      List.flatMap_cons
    rw [stringsSize_cons] at hend hmapped hb
    have hnext : (va + BitVec.ofNat 64 (str.length + 1)).toNat = va.toNat + (str.length + 1) := by
      rw [userSpaceTop] at hend
      rw [BitVec.toNat_add, BitVec.toNat_ofNat]
      omega
    have hfirst : StringAt s pml4Phys va str := by
      apply h.bytesAt
      · omega
      · exact fun k hk ↦ hmapped k (by omega)
      · intro k hk
        rw [hb k (by omega), hpack, List.getD_append _ _ _ _ hk]
    have hmapped' : ∀ k < stringsSize strs,
        m.flags (((va + BitVec.ofNat 64 (str.length + 1)).toNat + k) / 4096) ≠ none :=
      fun k hk ↦ by
        rw [hnext, Nat.add_assoc]
        exact hmapped _ (by omega)
    have hb' : ∀ k < stringsSize strs,
        m.byte ((va + BitVec.ofNat 64 (str.length + 1)).toNat + k) =
          (packStrings strs).getD k 0#8 := fun k hk ↦ by
      rw [hnext, Nat.add_assoc, hb _ (by omega), hpack,
        List.getD_append_right _ _ _ _ (by omega), hlen, Nat.add_sub_cancel_left]
    obtain ⟨hstrings, hstarts⟩ := ih (by omega) hmapped' hb'
    refine ⟨.cons hfirst hstrings, fun p hp ↦ ?_⟩
    rcases List.mem_cons.mp hp with rfl | hp
    · exact le_rfl
    · have := hstarts p hp
      omega

theorem stackPage_page {i : ℕ} (hi : i < userStackPages) :
    UserAddress (stackPage i) ∧ pageOf (stackPage i) = pageOf userStackTop - (i + 1) := by
  rw [userStackPages] at hi
  have hmul : (BitVec.ofNat 64 (i + 1) * 4096#64).toNat = (i + 1) * 4096 := by
    rw [BitVec.toNat_mul, BitVec.toNat_ofNat, BitVec.toNat_ofNat]
    omega
  have htop : userStackTop.toNat = 0x800000000 := rfl
  have hat : (stackPage i).toNat = 0x800000000 - (i + 1) * 4096 := by
    rw [stackPage, BitVec.toNat_sub, hmul, htop]
    omega
  rw [UserAddress, pageOf, pageOf, hat, htop, userSpaceTop]
  omega

theorem MapsFresh.shows {vs : List Word} {flags : Word} (hrun : MapsFresh pml4Phys flags vs s s')
    (h : Shows roots pml4Phys s role m) (hfl : MapFlags flags) (hvs : ∀ v ∈ vs, UserAddress v) :
    ∃ role' m', Shows roots pml4Phys s' role' m' ∧
      ∀ page, m.flags page ≠ none ∨ (∃ v ∈ vs, pageOf v = page) → m'.flags page ≠ none := by
  induction hrun generalizing role m with
  | nil s => exact ⟨role, m, h, fun page hpage ↦ by simpa using hpage⟩
  | @cons v vs s s₁ s' hfirst hrest ih =>
    obtain ⟨role₁, h₁, -⟩ := h.mapFresh (hvs v List.mem_cons_self) hfl hfirst
    obtain ⟨role', m', h', hmapped⟩ := ih h₁ fun w hw ↦ hvs w (List.mem_cons_of_mem v hw)
    refine ⟨role', m', h', fun page hpage ↦ hmapped page ?_⟩
    rw [UserImage.flags_mapPage]
    by_cases hv : page = pageOf v
    · exact .inl (by simp [hv])
    · rw [if_neg hv]
      refine hpage.imp_right fun ⟨w, hw, hpw⟩ ↦ ?_
      rcases List.mem_cons.mp hw with rfl | hw
      · exact absurd hpw.symm hv
      · exact ⟨w, hw, hpw⟩

end Decode

end SeedOS.Process
