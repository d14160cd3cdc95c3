import SeedOS.Fs.DirSearch
import SeedOS.Fs.Path

namespace SeedOS.Fs

open Foundation

section Lookup

variable (fs : Ext2) (img : Image) (size : ℕ)

def comparedBytes : ℕ → List (BitVec 8) → ℕ
  | _, [] => 0
  | a, c :: name => if img a ≠ c ∨ img a = 0#8 then 1 else comparedBytes (a + 1) name + 1

/-- The entry at `a` lies in the image, as far as a search for `name` looks at it. -/
def EntryPlaced (name : List (BitVec 8)) (a : ℕ) : Prop :=
  a + 6 ≤ size ∧ (u16 img (a + 4) ≠ 0 → u32 img a ≠ 0 →
    a + 7 ≤ size ∧ ((img (a + 6)).toNat = name.length →
      ∀ k < comparedBytes img (a + 8) name, a + 8 + k < size))

def ScanPlaced (dir n : ℕ) (name : List (BitVec 8)) : Scan → Prop
  | .outer offset => offset < n → MapPlaced fs img size dir (offset / fs.blockSize)
  | .inner block offset blockOffset =>
    blockOffset < fs.blockSize → offset < n → EntryPlaced img size name (block + blockOffset)

variable {size}

theorem ext2Strncmp_all (a : ℕ) (name : List (BitVec 8)) :
    (ext2Strncmp img a name).All (· < size) ↔ ∀ k < comparedBytes img a name, a + k < size := by
  induction name generalizing a with
  | nil => exact iff_of_true (Faulting.all_pure _) fun k hk ↦ absurd hk (Nat.not_lt_zero k)
  | cons c name ih =>
    rw [ext2Strncmp, comparedBytes, Faulting.all_bind, all_read8, val_read8]
    simp only [Option.some.injEq, forall_eq']
    by_cases hend : img a ≠ c ∨ img a = 0#8
    · have hstop : Faulting.All (· < size) (if img a ≠ c then (pure false : Disk Bool)
          else if img a = 0#8 then pure true else ext2Strncmp img (a + 1) name) := by
        by_cases hc : img a ≠ c
        · rw [if_pos hc]
          exact Faulting.all_pure _
        · rw [if_neg hc, if_pos (hend.resolve_left hc)]
          exact Faulting.all_pure _
      rw [if_pos hend]
      exact ⟨fun h k hk ↦ by omega, fun h ↦ ⟨h 0 (by omega), hstop⟩⟩
    · obtain ⟨hc, hz⟩ := not_or.mp hend
      rw [if_neg hend, if_neg hc, if_neg hz, ih]
      constructor
      · rintro ⟨h, hrest⟩ k hk
        rcases Nat.eq_zero_or_pos k with rfl | hk₀
        · omega
        · have := hrest (k - 1) (by omega)
          omega
      · intro h
        refine ⟨h 0 (by omega), fun k hk ↦ ?_⟩
        have := h (k + 1) (by omega)
        omega

theorem matchEntry_all (a : ℕ) (name : List (BitVec 8)) : (matchEntry img a name).All (· < size) ↔
    a + 4 ≤ size ∧ (u32 img a ≠ 0 → a + 7 ≤ size ∧ ((img (a + 6)).toNat = name.length →
      ∀ k < comparedBytes img (a + 8) name, a + 8 + k < size)) := by
  unfold matchEntry
  simp only [Faulting.all_bind, val_read32, all_read32, Option.some.injEq, forall_eq']
  by_cases hi : u32 img a = 0
  · simp [hi]
  simp only [if_neg hi, Faulting.all_bind, val_read8, all_read8, Option.some.injEq, forall_eq']
  rw [show a + 6 + 1 = a + 7 from rfl]
  by_cases hl : (img (a + 6)).toNat = name.length
  · simp [hl, hi, Faulting.all_bind, ext2Strncmp_all, ext2Strncmp_val]
  · simp [hl, hi]

theorem scanStep_all (hbs : fs.blockSize ≠ 0) (dir n : ℕ) (name : List (BitVec 8)) (s : Scan) :
    (scanStep fs img dir n name s).All (· < size) ↔ ScanPlaced fs img size dir n name s := by
  cases s with
  | outer offset =>
    rw [scanStep, ScanPlaced]
    by_cases ho : offset < n
    · rw [if_pos ho, if_neg hbs, Faulting.all_bind, ext2GetBlockNum_all]
      refine ⟨fun h _ ↦ h.1, fun h ↦ ⟨h ho, fun b _ ↦ ?_⟩⟩
      split <;> exact Faulting.all_pure _
    · rw [if_neg ho]
      exact iff_of_true (Faulting.all_pure _) fun h ↦ absurd h ho
  | inner block offset blockOffset =>
    rw [scanStep, ScanPlaced, EntryPlaced]
    by_cases ho : blockOffset < fs.blockSize ∧ offset < n
    · rw [if_pos ho, Faulting.all_bind, all_read16, val_read16]
      simp only [Option.some.injEq, forall_eq']
      by_cases hr : u16 img (block + blockOffset + 4) = 0
      · rw [if_pos hr]
        simp [hr, ho.1, ho.2]
      · rw [if_neg hr, Faulting.all_bind, matchEntry_all]
        constructor
        · rintro ⟨h₁, ⟨_, h₂⟩, _⟩ _ _
          exact ⟨h₁, fun _ ↦ h₂⟩
        · intro h
          obtain ⟨h₁, h₂⟩ := h ho.1 ho.2
          refine ⟨h₁, ⟨by omega, h₂ hr⟩, fun x _ ↦ ?_⟩
          cases x <;> exact Faulting.all_pure _
    · rw [if_neg ho]
      exact iff_of_true (Faulting.all_pure _) fun h₁ h₂ ↦ absurd ⟨h₁, h₂⟩ ho

/-- The pointers to the block with the record at `offset` of a directory lie in the image, and so
does the record, as far as a search for `name` looks at it. -/
def RecordPlaced (size dir : ℕ) (name : List (BitVec 8)) (offset : ℕ) : Prop :=
  MapPlaced fs img size dir (offset / fs.blockSize) ∧
    ∀ b, blockOf fs img dir (offset / fs.blockSize) = some b → b ≠ 0 →
      EntryPlaced img size name (b * fs.blockSize + offset % fs.blockSize)

/-- The size of a directory and its records up to the first with the name lie in the image. -/
def DirectoryPlaced (size dir : ℕ) (name : List (BitVec 8)) : Prop :=
  FieldsPlaced img size dir ∧ ∀ offset < fileSizeOf img dir,
    RecordStart fs img dir (fileSizeOf img dir) name offset →
    RecordPlaced fs img size dir name offset

def Finds (dir : ℕ) (name : List (BitVec 8)) (ino : ℕ) : Prop :=
  ∃ offset < fileSizeOf img dir, RecordStart fs img dir (fileSizeOf img dir) name offset ∧
    ∃ b, blockOf fs img dir (offset / fs.blockSize) = some b ∧ b ≠ 0 ∧
      u16 img (b * fs.blockSize + offset % fs.blockSize + 4) ≠ 0 ∧
      entryIno img (b * fs.blockSize + offset % fs.blockSize) name = some ino

def NamesPlaced (size : ℕ) : List (List (BitVec 8)) → ℕ → Prop
  | [], _ => True
  | name :: names, ino => DescriptorPlaced fs img size ino ∧ ∀ dir, inodeOf fs img ino = some dir →
      dir + 2 ≤ size ∧ (isType 4 (u16 img dir) → DirectoryPlaced fs img size dir name ∧
        ∀ ino', Finds fs img dir name ino' → NamesPlaced size names ino')

theorem scanPlaced_iff (hbs : 0 < fs.blockSize) (dir n : ℕ) (name : List (BitVec 8)) :
    (∀ s, ScanRuns fs img dir n name (.outer 0) s → ScanPlaced fs img size dir n name s) ↔
      ∀ offset < n, RecordStart fs img dir n name offset →
        RecordPlaced fs img size dir name offset := by
  constructor
  · intro h offset hlt hstart
    obtain ⟨s, hgo, hat, rfl⟩ := hstart.reached hbs
    refine ⟨?_, fun b hblock hne ↦
      h _ (hgo.trans (hat.enters hlt hblock hne)) (Nat.mod_lt _ hbs) hlt⟩
    cases s with
    | outer offset => exact h _ hgo hlt
    | inner block offset blockOffset =>
      by_cases hin : blockOffset < fs.blockSize
      · obtain ⟨o, ho, hgo', hdiv⟩ := hgo.entered rfl hin
        rw [Scan.offset, ← hdiv]
        exact h _ hgo' ho
      · exact h (.outer offset) (hgo.tail (.leave fun hc ↦ hin hc.1)) hlt
  · intro h s hgo
    have hat := hgo.scanAt
    cases s with
    | outer offset => exact fun hlt ↦ (h offset hlt hat).1
    | inner block offset blockOffset =>
      intro hin hlt
      obtain ⟨rfl, b, hblock, hne, rfl⟩ := hat.2 hin
      exact (h offset hlt hat.1).2 b hblock hne

theorem finds_iff (hbs : 0 < fs.blockSize) (dir : ℕ) (name : List (BitVec 8)) {ino : ℕ}
    (hino : ino ≠ 0) :
    FindsFrom fs img dir (fileSizeOf img dir) name (.outer 0) ino ↔ Finds fs img dir name ino := by
  constructor
  · rintro ⟨s, hgo, hs⟩
    have hat := hgo.scanAt
    cases s with
    | outer offset =>
      rw [scanNext] at hs
      split at hs
      · obtain ⟨b, -, hb⟩ := Option.map_eq_some_iff.mp hs
        split at hb <;> cases hb
      · exact absurd (Sum.inr.inj (Option.some.inj hs)).symm hino
    | inner block offset blockOffset =>
      rw [scanNext] at hs
      split at hs
      · rename_i hin
        obtain ⟨rfl, b, hblock, hne, rfl⟩ := hat.2 hin.1
        dsimp only at hs
        split at hs
        · cases hs
        · rename_i hlen
          cases hfound : entryIno img (b * fs.blockSize + offset % fs.blockSize) name with
          | none => simp [hfound] at hs
          | some found =>
            rw [hfound] at hs
            obtain rfl := Sum.inr.inj (Option.some.inj hs)
            exact ⟨offset, hin.2, hat.1, b, hblock, hne, hlen, hfound⟩
      · cases hs
  · rintro ⟨offset, hlt, hstart, b, hblock, hne, hlen, hfound⟩
    obtain ⟨s, hgo, hat, rfl⟩ := hstart.reached hbs
    refine ⟨_, hgo.trans (hat.enters hlt hblock hne), ?_⟩
    simp [scanNext, Nat.mod_lt _ hbs, hlt, hlen, hfound]

theorem Finds.ne_zero {dir ino : ℕ} {name : List (BitVec 8)} (h : Finds fs img dir name ino) :
    ino ≠ 0 := by
  obtain ⟨offset, -, -, b, -, -, -, hfound⟩ := h
  unfold entryIno at hfound
  split at hfound
  · rename_i hentry
    exact Option.some.inj hfound ▸ hentry.1
  · cases hfound

theorem ext2LookupInDir_all (hbs : fs.blockSize ≠ 0) (dir : ℕ) (name : List (BitVec 8)) :
    (∀ fuel, (ext2LookupInDir fs img fuel dir name).All (· < size)) ↔
      DirectoryPlaced fs img size dir name := by
  unfold ext2LookupInDir DirectoryPlaced
  rw [← scanPlaced_iff fs img (Nat.pos_of_ne_zero hbs)]
  simp only [Faulting.all_bind, ext2GetFileSize_val, ext2GetFileSize_all, Option.some.injEq,
    forall_eq', forall_and, forall_const, Faulting.all_iterate, goes_eq hbs,
    scanStep_all fs img hbs]

theorem ext2LookupInDir_mono {m n : ℕ} (h : m ≤ n) {dir : ℕ} {name : List (BitVec 8)}
    (hall : (ext2LookupInDir fs img n dir name).All (· < size)) :
    (ext2LookupInDir fs img m dir name).All (· < size) := by
  unfold ext2LookupInDir at hall ⊢
  rw [Faulting.all_bind] at hall ⊢
  exact ⟨hall.1, fun x hx ↦ Faulting.all_iterate_mono h (hall.2 x hx)⟩

theorem lookupNames_all (hsize : 2048 ≤ size) (fuel : ℕ) (name : List (BitVec 8))
    (names : List (List (BitVec 8))) (ino : ℕ) :
    (lookupNames fs img fuel (name :: names) ino).All (· < size) ↔
      DescriptorPlaced fs img size ino ∧ ∀ dir, inodeOf fs img ino = some dir →
        dir + 2 ≤ size ∧ (isType 4 (u16 img dir) →
          (ext2LookupInDir fs img fuel dir name).All (· < size) ∧
          ∀ ino', (ext2LookupInDir fs img fuel dir name).val = some ino' → ino' ≠ 0 →
            (lookupNames fs img fuel names ino').All (· < size)) := by
  rw [lookupNames, Faulting.all_bind, ext2ReadInode_all fs img hsize]
  refine and_congr_right fun _ ↦ ?_
  have hdir : ∀ dir, Faulting.All (· < size) (do
      if ← ext2IsDirectory img dir then
        let ino ← ext2LookupInDir fs img fuel dir name
        if ino = 0 then pure 0 else lookupNames fs img fuel names ino
      else pure 0) ↔ dir + 2 ≤ size ∧ (isType 4 (u16 img dir) →
        (ext2LookupInDir fs img fuel dir name).All (· < size) ∧
        ∀ ino', (ext2LookupInDir fs img fuel dir name).val = some ino' → ino' ≠ 0 →
          (lookupNames fs img fuel names ino').All (· < size)) := by
    intro dir
    rw [Faulting.all_bind, ext2IsDirectory_all, ext2IsDirectory_val]
    refine and_congr_right fun _ ↦ ?_
    simp only [Option.some.injEq, forall_eq']
    by_cases ht : isType 4 (u16 img dir)
    · rw [decide_eq_true ht, if_pos rfl, Faulting.all_bind]
      constructor
      · rintro ⟨h₁, h₂⟩ _
        refine ⟨h₁, fun ino' hv hne ↦ ?_⟩
        have := h₂ ino' hv
        rwa [if_neg hne] at this
      · intro h
        obtain ⟨h₁, h₂⟩ := h ht
        refine ⟨h₁, fun ino' hv ↦ ?_⟩
        by_cases hne : ino' = 0
        · rw [if_pos hne]
          exact Faulting.all_pure _
        · rw [if_neg hne]
          exact h₂ ino' hv hne
    · simp [ht]
  constructor
  · intro h dir hd
    exact (hdir dir).mp (h _ ((ext2ReadInode_val fs img ino dir).mpr hd))
  · intro h x hx
    cases x with
    | none => exact Faulting.all_pure _
    | some dir => exact (hdir dir).mpr (h dir ((ext2ReadInode_val fs img ino dir).mp hx))

theorem lookupNames_mono (hsize : 2048 ≤ size) {m n : ℕ} (h : m ≤ n)
    (names : List (List (BitVec 8))) {ino : ℕ}
    (hall : (lookupNames fs img n names ino).All (· < size)) :
    (lookupNames fs img m names ino).All (· < size) := by
  induction names generalizing ino with
  | nil => exact Faulting.all_pure _
  | cons name names ih =>
    rw [lookupNames_all fs img hsize] at hall ⊢
    refine ⟨hall.1, fun dir hd ↦ ⟨(hall.2 dir hd).1, fun ht ↦ ?_⟩⟩
    obtain ⟨h₁, h₂⟩ := (hall.2 dir hd).2 ht
    exact ⟨ext2LookupInDir_mono fs img h h₁,
      fun ino' hv hne ↦ ih (h₂ ino' (ext2LookupInDir_val_mono fs img h hv) hne)⟩

theorem lookupNames_placed (hsize : 2048 ≤ size) (names : List (List (BitVec 8))) (ino : ℕ) :
    (∀ fuel, (lookupNames fs img fuel names ino).All (· < size)) ↔
      NamesPlaced fs img size names ino := by
  induction names generalizing ino with
  | nil => exact iff_of_true (fun _ ↦ Faulting.all_pure _) trivial
  | cons name names ih =>
    rw [NamesPlaced]
    constructor
    · intro h
      refine ⟨((lookupNames_all fs img hsize ..).mp (h 0)).1, fun dir hd ↦ ?_⟩
      have hbs := blockSize_of_inodeOf fs img hd
      have hdir := fun fuel ↦ ((lookupNames_all fs img hsize ..).mp (h fuel)).2 dir hd
      refine ⟨(hdir 0).1, fun ht ↦ ⟨(ext2LookupInDir_all fs img hbs dir name).mp
        fun fuel ↦ ((hdir fuel).2 ht).1, fun ino' hfinds ↦ (ih ino').mp fun fuel ↦ ?_⟩⟩
      have hne := hfinds.ne_zero
      obtain ⟨fuel₀, hv⟩ := (ext2LookupInDir_val hbs ino').mpr
        ((finds_iff fs img (Nat.pos_of_ne_zero hbs) dir name hne).mpr hfinds)
      have hmax := ((hdir (max fuel fuel₀)).2 ht).2 ino'
        (ext2LookupInDir_val_mono fs img (Nat.le_max_right ..) hv) hne
      exact lookupNames_mono fs img hsize (Nat.le_max_left ..) names hmax
    · rintro ⟨hdesc, hdir⟩ fuel
      refine (lookupNames_all fs img hsize ..).mpr ⟨hdesc, fun dir hd ↦ ?_⟩
      have hbs := blockSize_of_inodeOf fs img hd
      obtain ⟨hmode, hscan⟩ := hdir dir hd
      refine ⟨hmode, fun ht ↦ ⟨(ext2LookupInDir_all fs img hbs dir name).mpr (hscan ht).1 fuel,
        fun ino' hv hne ↦ ?_⟩⟩
      have hfinds := (ext2LookupInDir_val hbs ino').mp ⟨fuel, hv⟩
      exact (ih ino').mpr ((hscan ht).2 ino'
        ((finds_iff fs img (Nat.pos_of_ne_zero hbs) dir name hne).mp hfinds)) fuel

end Lookup

end SeedOS.Fs
