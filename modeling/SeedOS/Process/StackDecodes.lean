import SeedOS.Process.InitialStack
import SeedOS.Process.PageCost

namespace SeedOS.Process

open Foundation Memory Function

def wordByte (ws : List Word) (x : ℕ) : BitVec 8 := byteOf (ws.getD (x / 8) 0#64) (x % 8)

theorem wordByte_word (ws : List Word) {i k : ℕ} (hk : k < 8) :
    wordByte ws (8 * i + k) = byteOf (ws.getD i 0#64) k := by
  rw [wordByte, show (8 * i + k) / 8 = i by omega, show (8 * i + k) % 8 = k by omega]

theorem getD_reverse_word (ws : List Word) {i : ℕ} (hi : i < ws.length) :
    ws.reverse.getD i 0#64 = ws.getD (ws.length - (i + 1)) 0#64 := by
  rw [List.getD_eq_getElem?_getD, List.getD_eq_getElem?_getD, List.getElem?_reverse hi,
    show ws.length - 1 - i = ws.length - (i + 1) by omega]

section Decode

variable {roots : Set ℕ} {pml4Phys sp sp' rsp : Word} {s s' s₁ s₂ : Vm} {role : Roles}
  {m m₁ : UserImage} {argv envp : List (List (BitVec 8))} {info : ElfInfo}

theorem stackPage_mem {v : Word} (hv : v ∈ addresses stackPage userStackPages 0) :
    UserAddress v := by
  obtain ⟨k, hk, rfl⟩ := mem_addresses.mp hv
  exact (stackPage_page (by omega)).1

theorem pushList_shows (ws : List Word) (sp : Word) (h : Shows roots pml4Phys s role m)
    (hlow : 8 * ws.length ≤ sp.toNat) (htop : sp.toNat ≤ userSpaceTop) (halign : sp.toNat % 8 = 0) :
    ((pushWords pml4Phys ws.reverse sp s).1.isSome ↔
      ∀ x, sp.toNat - 8 * ws.length ≤ x → x < sp.toNat → m.flags (x / 4096) ≠ none) ∧
    ∀ sp' s', pushWords pml4Phys ws.reverse sp s = (some sp', s') →
      sp'.toNat + 8 * ws.length = sp.toNat ∧ Shows roots pml4Phys s' role
        (m.store sp'.toNat sp.toNat fun x ↦ wordByte ws (x - sp'.toNat)) := by
  have hlen := ws.length_reverse
  obtain ⟨b, hbdef⟩ : ∃ b : ℕ → BitVec 8,
      b = fun x ↦ wordByte ws (x - (sp.toNat - 8 * ws.length)) := ⟨_, rfl⟩
  have hb : ∀ i < ws.reverse.length, ∀ k < 8,
      b (sp.toNat - 8 * (i + 1) + k) = byteOf (ws.reverse.getD i 0#64) k := fun i hi k hk ↦ by
    rw [hlen] at hi
    rw [hbdef, getD_reverse_word ws hi, ← wordByte_word ws hk]
    exact congrArg (wordByte ws) (by omega)
  obtain ⟨hiff, hrest⟩ := pushWords_shows ws.reverse h (by omega) htop halign hb
  rw [hlen] at hiff hrest
  refine ⟨hiff, fun sp' s' heq ↦ ?_⟩
  obtain ⟨hsp, hshows⟩ := hrest sp' s' heq
  rw [hbdef, ← hsp] at hshows
  exact ⟨by omega, hshows⟩

/-- The page of the random bytes is mapped, or the first word below them or the first string
above them would not have been stored. -/
theorem randomPage_mapped (hfits : StackFits argv envp) (h : Shows roots pml4Phys s₂ role m)
    (hstrings : ∀ k < (packStrings (argv ++ envp)).length,
      m.flags (((stringsBase argv envp).toNat + k) / 4096) ≠ none)
    (heq : pushWords pml4Phys (initialWords argv envp info).reverse (randomAddr argv envp)
      (pokeRandom pml4Phys (randomAddr argv envp) s₂) = (some rsp, s')) :
    m.flags (pageOf (randomAddr argv envp)) ≠ none := by
  obtain ⟨hend, hfill, hlow, hhigh, halign, hwords⟩ := stack_layout hfits
  have htop : userStackTop.toNat = 0x800000000 := rfl
  have huser : userSpaceTop = 0x800000000000 := rfl
  obtain ⟨hpos, hlen⟩ := length_initialWords argv envp info
  generalize randomAddr argv envp = a at *
  generalize stringsBase argv envp = base at *
  intro hnone
  by_cases hpage : a.toNat % 4096 = 0
  · refine hstrings 0 (by omega) ?_
    rwa [show (base.toNat + 0) / 4096 = pageOf a by rw [pageOf]; omega]
  · have ha : UserAddress a := by
      rw [UserAddress]
      omega
    rw [pokeRandom, if_pos ((h.page_eq_zero ha).mpr hnone)] at heq
    obtain ⟨hmapped, -⟩ := pushList_shows (initialWords argv envp info) a h (by omega) (by omega)
      (by omega)
    refine hmapped.mp (by rw [heq]; rfl) (a.toNat - 8) (by omega) (by omega) ?_
    rwa [show (a.toNat - 8) / 4096 = pageOf a by rw [pageOf]; omega]

theorem stack_shows (hfits : StackFits argv envp) (h : Shows roots pml4Phys s₁ role m)
    (hpoke : pokeBytes pml4Phys (packStrings (argv ++ envp)) (stringsBase argv envp) s₁ =
      (true, s₂))
    (hpush : pushWords pml4Phys (initialWords argv envp info).reverse (randomAddr argv envp)
      (pokeRandom pml4Phys (randomAddr argv envp) s₂) = (some rsp, s')) :
    rsp.toNat + 8 * (initialWords argv envp info).length = (randomAddr argv envp).toNat ∧
    ∃ m', Shows roots pml4Phys s' role m' ∧
      (∀ k < (packStrings (argv ++ envp)).length,
        m'.flags (((stringsBase argv envp).toNat + k) / 4096) ≠ none ∧
        m'.byte ((stringsBase argv envp).toNat + k) = (packStrings (argv ++ envp)).getD k 0#8) ∧
      (∀ k < 16, m'.flags (((randomAddr argv envp).toNat + k) / 4096) ≠ none ∧
        m'.byte ((randomAddr argv envp).toNat + k) = randomByte (randomAddr argv envp) k) ∧
      ∀ k < 8 * (initialWords argv envp info).length, m'.flags ((rsp.toNat + k) / 4096) ≠ none ∧
        m'.byte (rsp.toNat + k) = wordByte (initialWords argv envp info) k := by
  obtain ⟨hend, -, hlow, -, halign, hwords⟩ := stack_layout hfits
  have htop : userStackTop.toNat = 0x800000000 := rfl
  have huser : userSpaceTop = 0x800000000000 := rfl
  obtain ⟨hpos, hlen⟩ := length_initialWords argv envp info
  obtain ⟨hstrings, h₂⟩ := pokeList_shows (packStrings (argv ++ envp)) (stringsBase argv envp) h
    (by omega)
  replace hstrings := hstrings.mp (by rw [hpoke])
  replace h₂ := h₂ s₂ hpoke
  have hrandom := randomPage_mapped hfits h₂ hstrings hpush
  have ha : UserAddress (randomAddr argv envp) := by
    rw [UserAddress]
    omega
  have h₃ := pokeRandom_shows h₂ ha halign hrandom
  generalize randomAddr argv envp = a at *
  generalize stringsBase argv envp = base at *
  obtain ⟨hmapped, h₄⟩ := pushList_shows (initialWords argv envp info) a h₃ (by omega) (by omega)
    (by omega)
  replace hmapped := hmapped.mp (by rw [hpush]; rfl)
  obtain ⟨hsp, h₄⟩ := h₄ rsp s' hpush
  refine ⟨hsp, _, h₄, fun k hk ↦ ⟨hstrings k hk, ?_⟩, fun k hk ↦ ⟨?_, ?_⟩,
    fun k hk ↦ ⟨hmapped _ (by omega) (by omega), ?_⟩⟩
  · rw [UserImage.byte_store, if_neg (by omega), UserImage.byte_store, if_neg (by omega),
      UserImage.byte_store, if_pos (by omega), Nat.add_sub_cancel_left]
  · rw [show (a.toNat + k) / 4096 = pageOf a by rw [pageOf]; omega]
    exact hrandom
  · rw [UserImage.byte_store, if_neg (by omega), UserImage.byte_store, if_pos (by omega),
      Nat.add_sub_cancel_left]
  · rw [UserImage.byte_store, if_pos (by omega), Nat.add_sub_cancel_left]

end Decode

section Succeeds

variable {roots : Set ℕ} {pml4Phys : Word} {s : Vm} {role : Roles} {m : UserImage}
  {argv envp : List (List (BitVec 8))} {info : ElfInfo}

theorem elfSetupStack_succeeds (h : Shows roots pml4Phys s role m)
    (hframes : frameCost s pml4Phys (addresses stackPage userStackPages 0) ≤ freeFrames s.pmm)
    (hroom : stringsSize argv + stringsSize envp + 8 * (argv.length + envp.length) + 4096 ≤
      userStackPages * 4096) :
    (elfSetupStack s pml4Phys argv envp info).1 ≠ 0#64 := by
  have htop : userStackTop.toNat = 0x800000000 := rfl
  have huser : userSpaceTop = 0x800000000000 := rfl
  have hpages : userStackPages = 512 := rfl
  rw [hpages] at hroom
  have hfits : StackFits argv envp := by
    rw [StackFits, htop]
    omega
  obtain ⟨hend, hfill, hlow, hhigh, halign, hwords⟩ := stack_layout hfits
  obtain ⟨s₁, hrun⟩ : ∃ s₁, MapsFresh pml4Phys (ptePresent ||| pteWritable ||| pteUser ||| pteNx)
      (addresses stackPage userStackPages 0) s s₁ :=
    (mapsFresh_iff h.inv h.root (by decide) _
      fun v hv ↦ pml4Index_of_lt (stackPage_mem hv)).mpr hframes
  obtain ⟨role₁, m₁, h₁, hnew⟩ := hrun.shows h (by decide) fun v hv ↦ stackPage_mem hv
  have hmapped : ∀ x, 0x7FFE00000 ≤ x → x < 0x800000000 → m₁.flags (x / 4096) ≠ none := by
    intro x hx hlt
    have hi : 0x7FFFFF - x / 4096 < userStackPages := by omega
    refine hnew _ (.inr ⟨stackPage (0x7FFFFF - x / 4096), mem_addresses.mpr ⟨_, hi, by simp⟩, ?_⟩)
    rw [(stackPage_page hi).2, pageOf, htop]
    omega
  have hsize := length_packStrings_append argv envp
  obtain ⟨hmapped₂, h₂⟩ := pokeList_shows (packStrings (argv ++ envp)) (stringsBase argv envp) h₁
    (by omega)
  obtain ⟨s₂, hpoke⟩ : ∃ s₂, pokeBytes pml4Phys (packStrings (argv ++ envp))
      (stringsBase argv envp) s₁ = (true, s₂) :=
    ⟨_, Prod.ext (hmapped₂.mpr fun k hk ↦ hmapped _ (by omega) (by omega)) rfl⟩
  replace h₂ := h₂ s₂ hpoke
  have ha : UserAddress (randomAddr argv envp) := by
    rw [UserAddress]
    omega
  have h₃ := pokeRandom_shows h₂ ha halign (hmapped _ (by omega) (by omega))
  obtain ⟨hpos, hlen⟩ := length_initialWords argv envp info
  obtain ⟨hmapped₃, hrest⟩ := pushList_shows (initialWords argv envp info) (randomAddr argv envp) h₃
    (by omega) (by omega) (by omega)
  obtain ⟨rsp, hrsp⟩ := Option.isSome_iff_exists.mp
    (hmapped₃.mpr fun x hx hlt ↦ hmapped x (by omega) (by omega))
  obtain ⟨s', hpush⟩ : ∃ s', pushWords pml4Phys (initialWords argv envp info).reverse
      (randomAddr argv envp) (pokeRandom pml4Phys (randomAddr argv envp) s₂) = (some rsp, s') :=
    ⟨_, Prod.ext hrsp rfl⟩
  obtain ⟨hsp, -⟩ := hrest rsp s' hpush
  have hstack : stackPages pml4Phys userStackPages 0 s = (true, s₁) := (mapLoop_iff _ _).mpr hrun
  simp only [elfSetupStack_eq, hstack, hpoke, hpush]
  intro hzero
  have : rsp.toNat = 0 := congrArg BitVec.toNat hzero
  omega

end Succeeds

section Run

variable {roots : Set ℕ} {pml4Phys rsp : Word} {s s' : Vm} {role : Roles} {m : UserImage}
  {argv envp : List (List (BitVec 8))} {info : ElfInfo}

/-- The initial stack decodes to what was passed. -/
theorem initial_stack_decodes (h : Shows roots pml4Phys s role m) (hfits : StackFits argv envp)
    (heq : elfSetupStack s pml4Phys argv envp info = (rsp, s')) (hrsp : rsp ≠ 0#64) :
    ∃ argvPtrs envpPtrs random,
      InitialStack s' pml4Phys argv envp info rsp argvPtrs envpPtrs random := by
  obtain ⟨s₁, s₂, hpages, hpoke, hpush⟩ := elfSetupStack_parts heq hrsp
  obtain ⟨role₁, m₁, h₁, -⟩ := ((mapLoop_iff _ _).mp hpages).shows h (by decide)
    fun v hv ↦ stackPage_mem hv
  obtain ⟨hend, -, hlow, -⟩ := stack_layout hfits
  have hsize := length_packStrings_append argv envp
  obtain ⟨hsp, m', h', hstrings, hrandom, hwords⟩ := stack_shows hfits h₁ hpoke hpush
  have htop : userStackTop.toNat = 0x800000000 := rfl
  have huser : userSpaceTop = 0x800000000000 := rfl
  have hmid : (stringsBase argv envp + BitVec.ofNat 64 (stringsSize argv)).toNat =
      (stringsBase argv envp).toNat + stringsSize argv := by
    rw [BitVec.toNat_add, BitVec.toNat_ofNat]
    omega
  have hlen := length_packStrings argv
  have hargv : ∀ k < stringsSize argv,
      m'.byte ((stringsBase argv envp).toNat + k) = (packStrings argv).getD k 0#8 := fun k hk ↦ by
    rw [(hstrings k (by omega)).2, packStrings_append, List.getD_append _ _ _ _ (by omega)]
  have henvp : ∀ k < stringsSize envp,
      m'.byte ((stringsBase argv envp + BitVec.ofNat 64 (stringsSize argv)).toNat + k) =
        (packStrings envp).getD k 0#8 := fun k hk ↦ by
    rw [hmid, Nat.add_assoc, (hstrings _ (by omega)).2, packStrings_append,
      List.getD_append_right _ _ _ _ (by omega), hlen, Nat.add_sub_cancel_left]
  have hmapped : ∀ k < stringsSize envp,
      m'.flags (((stringsBase argv envp + BitVec.ofNat 64 (stringsSize argv)).toNat + k) / 4096) ≠
        none := fun k hk ↦ by
    rw [hmid, Nat.add_assoc]
    exact (hstrings _ (by omega)).1
  obtain ⟨hargvAt, hargvStarts⟩ := h'.stringsAt argv (by omega)
    (fun k hk ↦ (hstrings k (by omega)).1) hargv
  obtain ⟨henvpAt, henvpStarts⟩ := h'.stringsAt envp (by omega) hmapped henvp
  refine ⟨_, _, randomAddr argv envp, ?_, hargvAt, henvpAt, ?_, ?_, ?_⟩
  · intro i hi k hk
    rw [← initialWords] at hi ⊢
    obtain ⟨hpage, hbyte⟩ := hwords (8 * i + k) (by omega)
    rw [h'.byteAt (by omega) hpage, hbyte, wordByte_word _ hk]
  · apply h'.bytesAt
    · rw [List.length_map, List.length_range]
      omega
    · exact fun k hk ↦ (hrandom k (by simpa using hk)).1
    · intro k hk
      rw [List.length_map, List.length_range] at hk
      rw [(hrandom k hk).2]
      simp [List.getD_eq_getElem?_getD, hk]
  · rw [← initialWords]
    omega
  · intro p hp
    rcases List.mem_append.mp hp with hp | hp
    · have := hargvStarts p hp
      omega
    · have := henvpStarts p hp
      omega

end Run

section Alignment

variable {pml4Phys sp sp' rsp : Word} {s s' : Vm} {argv envp : List (List (BitVec 8))}
  {info : ElfInfo}

theorem pushWords_sp (ws : List Word) (heq : pushWords pml4Phys ws sp s = (some sp', s')) :
    sp' = sp - BitVec.ofNat 64 (8 * ws.length) := by
  induction ws generalizing sp s with
  | nil =>
    simp only [pushWords, Prod.mk.injEq, Option.some.injEq] at heq
    simp [heq.1]
  | cons w ws ih =>
    rw [pushWords] at heq
    by_cases hz : vmmGetPhysical s pml4Phys (alignDown (sp - 8#64)) = 0#64
    · simp [hz] at heq
    · rw [if_neg hz] at heq
      have hrest := ih heq
      rw [hrest, List.length_cons, Nat.mul_add, BitVec.ofNat_add]
      bv_omega

theorem length_initialWords_mod (argv envp : List (List (BitVec 8))) (info : ElfInfo) :
    (initialWords argv envp info).length % 2 = (argv.length + envp.length + 1) % 2 := by
  have haux : ∀ aux : List (Word × Word), (aux.flatMap fun e ↦ [e.1, e.2]).length =
      2 * aux.length := by
    intro aux
    induction aux with
    | nil => rfl
    | cons e aux ih =>
      rw [List.flatMap_cons, List.length_append, ih, List.length_cons]
      simp only [List.length_cons, List.length_nil]
      omega
  simp only [initialWords, stackWords, List.length_append, length_stringStarts, haux,
    List.length_cons, List.length_nil]
  omega

theorem elfSetupStack_mod (heq : elfSetupStack s pml4Phys argv envp info = (rsp, s'))
    (hrsp : rsp ≠ 0#64) : rsp.toNat % 16 = 8 * ((argv.length + envp.length + 1) % 2) := by
  obtain ⟨s₁, s₂, -, -, hpush⟩ := elfSetupStack_parts heq hrsp
  have hsp := pushWords_sp _ hpush
  have hmod := length_initialWords_mod argv envp info
  have halign : (randomAddr argv envp).toNat % 16 = 0 := by
    have hmask : randomAddr argv envp &&& 15#64 = 0#64 := by
      rw [randomAddr, BitVec.and_assoc, show ~~~15#64 &&& 15#64 = 0#64 by decide, BitVec.and_zero]
    have hnat := congrArg BitVec.toNat hmask
    rwa [BitVec.toNat_and, show (15#64).toNat = 2 ^ 4 - 1 from rfl,
      Nat.and_two_pow_sub_one_eq_mod] at hnat
  rw [List.length_reverse] at hsp
  rw [hsp, BitVec.toNat_sub, BitVec.toNat_ofNat]
  generalize (randomAddr argv envp).toNat = a at *
  generalize (initialWords argv envp info).length = n at *
  omega

/-- The first stack pointer is aligned to 16 bytes exactly if the numbers of arguments and of
environment strings have an odd sum. -/
theorem stack_aligned_iff (heq : elfSetupStack s pml4Phys argv envp info = (rsp, s'))
    (hrsp : rsp ≠ 0#64) : 16 ∣ rsp.toNat ↔ (argv.length + envp.length) % 2 = 1 := by
  have hmod := elfSetupStack_mod heq hrsp
  omega

end Alignment

section Small

def roomyVm : Vm where
  mem _ _ := 0#64
  pmm := ⟨fun i ↦ if i = 0 then 0x07#8 else 0#8, 1024, 1021#64, by decide⟩
  pageInfo := none
  maxPages := 0
  kernelPml4Phys := 0x1000#64

def roomySpace : Word × Vm := vmmCreateAddressSpace roomyVm

theorem roomySpace_shows : ∃ role,
    Shows (insert (pageOf roomySpace.1) ∅) roomySpace.1 roomySpace.2 role .empty := by
  have htables : ∀ p f, KernelPath p →
      tableAt kernelNext roomyVm.mem (pageOf roomyVm.kernelPml4Phys) p = some f →
      ¬ roomyVm.pmm.Available f := by
    intro p f _ hf
    cases p with
    | nil =>
      obtain rfl := Option.some.inj hf
      exact fun hav ↦ absurd hav.2.2 (by decide)
    | cons i p => exact absurd hf (by simp [tableAt, roomyVm, show kernelNext 0#64 = none by decide])
  obtain ⟨hfresh, role, hinv⟩ := FreshSpace.of_create (.of_empty htables)
    (show vmmCreateAddressSpace roomyVm = (roomySpace.1, roomySpace.2) from rfl) (by decide +kernel)
  exact ⟨role, hfresh.shows hinv (Set.mem_insert _ _)⟩

theorem stackPage_tables : ∀ i < 512, tablePaths (stackPage i) = tablePaths (stackPage 0) := by
  decide +kernel

theorem frameCost_stack (s : Vm) (pml4Phys : Word) :
    frameCost s pml4Phys (addresses stackPage userStackPages 0) ≤ userStackPages + 3 := by
  have hsub : missingTables s pml4Phys (addresses stackPage userStackPages 0) ⊆
      (tablePaths (stackPage 0)).toFinset := by
    intro q hq
    obtain ⟨v, hv, hqv⟩ := List.mem_flatMap.mp (List.mem_toFinset.mp (Finset.mem_filter.mp hq).1)
    obtain ⟨k, hk, rfl⟩ := mem_addresses.mp hv
    rw [stackPage_tables _ (by rw [userStackPages] at hk; omega)] at hqv
    exact List.mem_toFinset.mpr hqv
  rw [frameCost, length_addresses]
  exact Nat.add_le_add_left ((Finset.card_le_card hsub).trans (List.toFinset_card_le _)) _

theorem roomySpace_free : userStackPages + 3 ≤ freeFrames roomySpace.2.pmm := by decide +kernel

def cString (str : String) : List (BitVec 8) := str.toList.map fun c ↦ BitVec.ofNat 8 c.toNat

def initArgv : List (List (BitVec 8)) := [cString "/init"]

def initEnvp : List (List (BitVec 8)) := [cString "PATH=/bin", cString "HOME=/"]

def initInfo : ElfInfo := ⟨0x400000#64, 0x400040#64, 2#16, 0x405000#64⟩

theorem roomySpace_stack (argv envp : List (List (BitVec 8))) (info : ElfInfo)
    (hroom : stringsSize argv + stringsSize envp + 8 * (argv.length + envp.length) + 4096 ≤
      userStackPages * 4096) :
    ∃ rsp s', elfSetupStack roomySpace.2 roomySpace.1 argv envp info = (rsp, s') ∧
      rsp ≠ 0#64 := by
  obtain ⟨role, h⟩ := roomySpace_shows
  have hrsp : (elfSetupStack roomySpace.2 roomySpace.1 argv envp info).1 ≠ 0#64 :=
    elfSetupStack_succeeds h ((frameCost_stack _ _).trans roomySpace_free) hroom
  cases heq : elfSetupStack roomySpace.2 roomySpace.1 argv envp info with
  | mk rsp s' =>
    rw [heq] at hrsp
    exact ⟨rsp, s', rfl, hrsp⟩

theorem initial_stack_decodes_init : ∃ rsp s' argvPtrs envpPtrs random,
    elfSetupStack roomySpace.2 roomySpace.1 initArgv initEnvp initInfo = (rsp, s') ∧
    rsp ≠ 0#64 ∧
    InitialStack s' roomySpace.1 initArgv initEnvp initInfo rsp argvPtrs envpPtrs random := by
  obtain ⟨role, h⟩ := roomySpace_shows
  have hfits : StackFits initArgv initEnvp := by
    unfold StackFits
    decide
  obtain ⟨rsp, s', heq, hrsp⟩ := roomySpace_stack initArgv initEnvp initInfo (by decide)
  obtain ⟨argvPtrs, envpPtrs, random, hstack⟩ := initial_stack_decodes h hfits heq hrsp
  exact ⟨rsp, s', argvPtrs, envpPtrs, random, heq, hrsp, hstack⟩

theorem stack_aligned_iff_init : ∃ rsp s',
    elfSetupStack roomySpace.2 roomySpace.1 initArgv initEnvp initInfo = (rsp, s') ∧
    rsp ≠ 0#64 ∧ 16 ∣ rsp.toNat := by
  obtain ⟨rsp, s', heq, hrsp⟩ := roomySpace_stack initArgv initEnvp initInfo (by decide)
  exact ⟨rsp, s', heq, hrsp, (stack_aligned_iff heq hrsp).mpr (by decide)⟩

/-- The same program with one environment string. -/
theorem one_variable_misaligns : ∃ rsp s',
    elfSetupStack roomySpace.2 roomySpace.1 initArgv [cString "PATH=/bin"] initInfo = (rsp, s') ∧
    rsp ≠ 0#64 ∧ ¬ 16 ∣ rsp.toNat := by
  obtain ⟨rsp, s', heq, hrsp⟩ :=
    roomySpace_stack initArgv [cString "PATH=/bin"] initInfo (by decide)
  refine ⟨rsp, s', heq, hrsp, fun hdvd ↦ ?_⟩
  have hmod : rsp.toNat % 16 = 8 * (3 % 2) := elfSetupStack_mod heq hrsp
  omega

end Small

end SeedOS.Process
