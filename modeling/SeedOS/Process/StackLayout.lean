import SeedOS.Process.Elf

namespace SeedOS.Process

open Foundation Memory Function

def packStrings (strs : List (List (BitVec 8))) : List (BitVec 8) := strs.flatMap (· ++ [0#8])

/-- Where the strings start that are packed from `va` on. -/
def stringStarts : Word → List (List (BitVec 8)) → List Word
  | _, [] => []
  | va, str :: strs => va :: stringStarts (va + BitVec.ofNat 64 (str.length + 1)) strs

/-- The auxiliary vector upwards in memory, by type and value. -/
def auxVector (info : ElfInfo) (random : Word) : List (Word × Word) :=
  -- AT_PAGESZ, AT_PHDR, then AT_PHENT, AT_PHNUM, AT_ENTRY, AT_RANDOM and AT_NULL
  [(6#64, 4096#64)] ++ (if info.phdrAddr ≠ 0#64 then [(3#64, info.phdrAddr)] else []) ++
    [(4#64, sizeofPhdr), (5#64, info.phnum.setWidth 64), (9#64, info.entry), (25#64, random),
      (0#64, 0#64)]

/-- What a program expects from its stack pointer upwards. -/
def stackWords (argc : ℕ) (argvPtrs envpPtrs : List Word) (aux : List (Word × Word)) :
    List Word :=
  [BitVec.ofNat 64 argc] ++ argvPtrs ++ [0#64] ++ envpPtrs ++ [0#64] ++
    aux.flatMap fun e ↦ [e.1, e.2]

def stringsBase (argv envp : List (List (BitVec 8))) : Word :=
  (userStackTop - BitVec.ofNat 64 (stringsSize argv + stringsSize envp)) &&& ~~~7#64

def randomAddr (argv envp : List (List (BitVec 8))) : Word :=
  (stringsBase argv envp - 16#64) &&& ~~~15#64

def initialWords (argv envp : List (List (BitVec 8))) (info : ElfInfo) : List Word :=
  stackWords argv.length (stringStarts (stringsBase argv envp) argv)
    (stringStarts (stringsBase argv envp + BitVec.ofNat 64 (stringsSize argv)) envp)
    (auxVector info (randomAddr argv envp))

section Strings

variable {pml4Phys : Word} {s : Vm}

theorem stringsSize_cons (str : List (BitVec 8)) (strs : List (List (BitVec 8))) :
    stringsSize (str :: strs) = str.length + 1 + stringsSize strs := by
  simp [stringsSize]

theorem length_packStrings (strs : List (List (BitVec 8))) :
    (packStrings strs).length = stringsSize strs := by
  simp [packStrings, stringsSize, List.length_flatMap]

theorem packStrings_append (argv envp : List (List (BitVec 8))) :
    packStrings (argv ++ envp) = packStrings argv ++ packStrings envp := List.flatMap_append

theorem length_packStrings_append (argv envp : List (List (BitVec 8))) :
    (packStrings (argv ++ envp)).length = stringsSize argv + stringsSize envp := by
  rw [packStrings_append, List.length_append, length_packStrings, length_packStrings]

theorem length_stringStarts (va : Word) (strs : List (List (BitVec 8))) :
    (stringStarts va strs).length = strs.length := by
  induction strs generalizing va with
  | nil => rfl
  | cons str strs ih => rw [stringStarts, List.length_cons, List.length_cons, ih]

theorem pokeBytes_append (xs ys : List (BitVec 8)) (va : Word) :
    pokeBytes pml4Phys (xs ++ ys) va s =
      match pokeBytes pml4Phys xs va s with
      | (false, s) => (false, s)
      | (true, s) => pokeBytes pml4Phys ys (va + BitVec.ofNat 64 xs.length) s := by
  induction xs generalizing va s with
  | nil => simp [pokeBytes]
  | cons x xs ih =>
    rw [List.cons_append, pokeBytes, pokeBytes]
    cases pokeByte pml4Phys va x s with
    | mk ok s₁ =>
      cases ok with
      | false => rfl
      | true =>
        dsimp only
        rw [ih, List.length_cons, Nat.add_comm xs.length, BitVec.ofNat_add, ← BitVec.add_assoc]

theorem pokeStrings_eq (pml4Phys : Word) (strs : List (List (BitVec 8))) (va : Word) (s : Vm) :
    ∃ strPtr, pokeStrings pml4Phys strs va s =
      match pokeBytes pml4Phys (packStrings strs) va s with
      | (false, s) => (none, strPtr, s)
      | (true, s) =>
        (some (stringStarts va strs), va + BitVec.ofNat 64 (stringsSize strs), s) := by
  induction strs generalizing va s with
  | nil =>
    refine ⟨va, ?_⟩
    simp [pokeStrings, packStrings, pokeBytes, stringsSize, stringStarts]
  | cons str strs ih =>
    rw [pokeStrings, packStrings, List.flatMap_cons, pokeBytes_append (str ++ [0#8])]
    cases pokeBytes pml4Phys (str ++ [0#8]) va s with
    | mk ok s₁ =>
      cases ok with
      | false => exact ⟨va, rfl⟩
      | true =>
        obtain ⟨strPtr, hrest⟩ := ih (va + BitVec.ofNat 64 (str.length + 1)) s₁
        refine ⟨strPtr, ?_⟩
        dsimp only
        rw [hrest, List.length_append, List.length_singleton, ← packStrings, stringsSize_cons,
          BitVec.ofNat_add _ (stringsSize strs), ← BitVec.add_assoc]
        cases pokeBytes pml4Phys (packStrings strs) (va + BitVec.ofNat 64 (str.length + 1)) s₁ with
        | mk ok s₂ => cases ok <;> rfl

end Strings

section Layout

variable {argv envp : List (List (BitVec 8))} {info : ElfInfo} {pml4Phys rsp : Word} {s s' : Vm}

theorem stackWords_reverse (argc : ℕ) (argvPtrs envpPtrs : List Word) (random : Word) :
    auxv info random ++ (envpPtrs ++ [0#64]).reverse ++ (argvPtrs ++ [0#64]).reverse ++
      [BitVec.ofNat 64 argc] =
    (stackWords argc argvPtrs envpPtrs (auxVector info random)).reverse := by
  have haux : auxv info random =
      ((auxVector info random).flatMap fun e ↦ [e.1, e.2]).reverse := by
    rw [auxv, auxVector]
    split_ifs <;> rfl
  rw [haux, stackWords]
  simp

theorem length_initialWords (argv envp : List (List (BitVec 8))) (info : ElfInfo) :
    0 < (initialWords argv envp info).length ∧
      (initialWords argv envp info).length ≤ argv.length + envp.length + 17 := by
  have haux : ((auxVector info (randomAddr argv envp)).flatMap fun e ↦ [e.1, e.2]).length ≤ 14 := by
    unfold auxVector
    split_ifs <;> simp
  simp only [initialWords, stackWords, List.length_append, length_stringStarts, List.length_cons,
    List.length_nil]
  omega

/-- The strings are one run of bytes, and what is pushed below them are the initial words. -/
theorem elfSetupStack_eq : elfSetupStack s pml4Phys argv envp info =
    match stackPages pml4Phys userStackPages 0 s with
    | (false, s) => (0#64, s)
    | (true, s) =>
      match pokeBytes pml4Phys (packStrings (argv ++ envp)) (stringsBase argv envp) s with
      | (false, s) => (0#64, s)
      | (true, s) =>
        match pushWords pml4Phys (initialWords argv envp info).reverse (randomAddr argv envp)
          (pokeRandom pml4Phys (randomAddr argv envp) s) with
        | (none, s) => (0#64, s)
        | (some sp, s) => (sp, s) := by
  have hsp : randomAddr argv envp &&& ~~~15#64 = randomAddr argv envp := by
    rw [randomAddr, BitVec.and_assoc, BitVec.and_self]
  unfold elfSetupStack
  cases stackPages pml4Phys userStackPages 0 s with
  | mk ok s₁ =>
    cases ok with
    | false => rfl
    | true =>
      dsimp only
      rw [← stringsBase, ← randomAddr, hsp, packStrings_append, pokeBytes_append,
        length_packStrings]
      obtain ⟨strPtr, hargv⟩ := pokeStrings_eq pml4Phys argv (stringsBase argv envp) s₁
      rw [hargv]
      cases pokeBytes pml4Phys (packStrings argv) (stringsBase argv envp) s₁ with
      | mk ok s₂ =>
        cases ok with
        | false => rfl
        | true =>
          dsimp only
          obtain ⟨strPtr', henvp⟩ := pokeStrings_eq pml4Phys envp
            (stringsBase argv envp + BitVec.ofNat 64 (stringsSize argv)) s₂
          rw [henvp]
          cases pokeBytes pml4Phys (packStrings envp)
              (stringsBase argv envp + BitVec.ofNat 64 (stringsSize argv)) s₂ with
          | mk ok s₃ =>
            cases ok with
            | false => rfl
            | true =>
              dsimp only
              generalize hws : auxv info (randomAddr argv envp) ++ _ ++ _ ++ _ = words
              obtain rfl : words = (initialWords argv envp info).reverse :=
                hws.symm.trans (stackWords_reverse _ _ _ _)
              rfl

theorem elfSetupStack_parts (heq : elfSetupStack s pml4Phys argv envp info = (rsp, s'))
    (hrsp : rsp ≠ 0#64) : ∃ s₁ s₂, stackPages pml4Phys userStackPages 0 s = (true, s₁) ∧
      pokeBytes pml4Phys (packStrings (argv ++ envp)) (stringsBase argv envp) s₁ = (true, s₂) ∧
      pushWords pml4Phys (initialWords argv envp info).reverse (randomAddr argv envp)
        (pokeRandom pml4Phys (randomAddr argv envp) s₂) = (some rsp, s') := by
  rw [elfSetupStack_eq] at heq
  have hzero : ∀ {s₀ : Vm}, (0#64, s₀) ≠ (rsp, s') := fun hc ↦ hrsp (Prod.mk.inj hc).1.symm
  rcases hpages : stackPages pml4Phys userStackPages 0 s with ⟨_ | _, s₁⟩
  · exact absurd (by rwa [hpages] at heq) hzero
  rw [hpages] at heq
  rcases hpoke : pokeBytes pml4Phys (packStrings (argv ++ envp)) (stringsBase argv envp) s₁
    with ⟨_ | _, s₂⟩
  · exact absurd (by simpa only [hpoke] using heq) hzero
  simp only [hpoke] at heq
  rcases hpush : pushWords pml4Phys (initialWords argv envp info).reverse (randomAddr argv envp)
    (pokeRandom pml4Phys (randomAddr argv envp) s₂) with ⟨_ | sp, s₃⟩
  · exact absurd (by simpa only [hpush] using heq) hzero
  simp only [hpush, Prod.mk.injEq] at heq
  obtain ⟨rfl, rfl⟩ := heq
  exact ⟨s₁, s₂, rfl, hpoke, hpush⟩

/-- Strings and pointers fit below the stack top with a page to spare. -/
def StackFits (argv envp : List (List (BitVec 8))) : Prop :=
  stringsSize argv + stringsSize envp + 8 * (argv.length + envp.length) + 4096 ≤
    userStackTop.toNat

theorem stack_layout (hfits : StackFits argv envp) :
    (stringsBase argv envp).toNat + (packStrings (argv ++ envp)).length ≤ userStackTop.toNat ∧
      userStackTop.toNat < (stringsBase argv envp).toNat + (packStrings (argv ++ envp)).length + 8 ∧
      (randomAddr argv envp).toNat + 16 ≤ (stringsBase argv envp).toNat ∧
      (stringsBase argv envp).toNat < (randomAddr argv envp).toNat + 32 ∧
      (randomAddr argv envp).toNat % 16 = 0 ∧
      8 * (argv.length + envp.length + 17) ≤ (randomAddr argv envp).toNat := by
  have htop : userStackTop.toNat = 0x800000000 := rfl
  rw [StackFits, htop] at hfits
  rw [length_packStrings_append, htop]
  have hroom : (userStackTop - BitVec.ofNat 64 (stringsSize argv + stringsSize envp)).toNat =
      0x800000000 - (stringsSize argv + stringsSize envp) := by
    rw [BitVec.toNat_sub, BitVec.toNat_ofNat, htop]
    omega
  have hbase := toNat_clearLow
    (userStackTop - BitVec.ofNat 64 (stringsSize argv + stringsSize envp)) (show 3 < 64 by decide)
  rw [hroom, show BitVec.ofNat 64 (2 ^ 3 - 1) = 7#64 from rfl, ← stringsBase] at hbase
  have hsub : (stringsBase argv envp - 16#64).toNat = (stringsBase argv envp).toNat - 16 := by
    rw [BitVec.toNat_sub, show (16#64).toNat = 16 from rfl]
    omega
  have hrandom := toNat_clearLow (stringsBase argv envp - 16#64) (show 4 < 64 by decide)
  rw [hsub, show BitVec.ofNat 64 (2 ^ 4 - 1) = 15#64 from rfl, ← randomAddr] at hrandom
  omega

end Layout

end SeedOS.Process
