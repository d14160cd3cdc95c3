import SeedOS.Fs.Divisors

namespace SeedOS.Fs

open Foundation

section Search

variable (fs : Ext2) (img : Image) (dir n : ℕ) (name : List (BitVec 8))

/-- No record of the directory up to the first with the name has length 0. -/
def RecordsAdvance : Prop :=
  ∀ offset block, RecordStart fs img dir n name offset → offset < n →
    blockOf fs img dir (offset / fs.blockSize) = some block → block ≠ 0 →
    u16 img (block * fs.blockSize + offset % fs.blockSize + 4) ≠ 0

def LookupEnds : Prop :=
  ∃ fuel, Faulting.EndsWithin (scanStep fs img dir (fileSizeOf img dir) name) fuel (.outer 0)

def scanLeft : Scan → ℕ
  | .outer offset => 4 * (n - offset) + 1
  | .inner _ offset blockOffset =>
    if blockOffset < fs.blockSize ∧ offset < n then 4 * (n - offset) else 4 * (n - offset) + 2

variable {fs img dir n name}

theorem ScanRound.advances (hbs : 0 < fs.blockSize) (hadv : RecordsAdvance fs img dir n name)
    {s s' : Scan} (hat : ScanAt fs img dir n name s) (h : ScanRound fs img dir n name s s') :
    scanLeft fs n s' < scanLeft fs n s := by
  cases h with
  | @hole offset hlt hblock =>
    have hmod := Nat.mod_lt offset hbs
    simp only [scanLeft]
    omega
  | @enter offset b hlt hblock hne =>
    have hin := Nat.mod_lt offset hbs
    simp only [scanLeft, hin, hlt, and_self, if_true]
    omega
  | corrupted hin hlt hzero =>
    obtain ⟨rfl, b, hblock, hne, rfl⟩ := hat.2 hin
    exact absurd hzero (hadv _ b hat.1 hlt hblock hne)
  | @record block offset blockOffset hin hlt hlen hother =>
    simp only [scanLeft, hin, hlt, and_self, if_true]
    split <;> omega
  | @leave block offset blockOffset hout =>
    rw [scanLeft, scanLeft, if_neg hout]
    omega

/-- The search in a directory ends exactly if no record has length 0, up to the first that
has the name. -/
theorem lookup_in_dir_ends {fs : Ext2} (hbs : fs.blockSize ≠ 0) (img : Image) (dir : ℕ)
    (name : List (BitVec 8)) :
    LookupEnds fs img dir name ↔ RecordsAdvance fs img dir (fileSizeOf img dir) name := by
  have hpos := Nat.pos_of_ne_zero hbs
  have hround : ∀ s s', (scanStep fs img dir (fileSizeOf img dir) name s).val = some (.inl s') ↔
      ScanRound fs img dir (fileSizeOf img dir) name s s' := fun s s' ↦ by
    rw [scanStep_val fs img hbs, scanRound_iff]
  constructor
  · rintro ⟨fuel, hends⟩ offset b hstart hlt hblock hne hzero
    obtain ⟨s, hgo, hat, rfl⟩ := hstart.reached hpos
    have hgo' := hgo.trans (hat.enters hlt hblock hne)
    obtain ⟨fuel', hends'⟩ := Faulting.endsWithin_of_goes
      (Relation.ReflTransGen.mono (fun s s' h ↦ (hround s s').mpr h) _ _ hgo') hends
    -- the search goes to and fro between the two loops
    refine Faulting.not_endsWithin (I := fun t ↦ t = .outer s.offset ∨
      t = .inner (b * fs.blockSize) s.offset (s.offset % fs.blockSize)) ?_ fuel' (.inr rfl) hends'
    rintro t (rfl | rfl)
    · exact ⟨_, (hround _ _).mpr (.enter hlt hblock hne), .inr rfl⟩
    · exact ⟨_, (hround _ _).mpr (.corrupted (Nat.mod_lt _ hpos) hlt hzero), .inl rfl⟩
  · intro hadv
    refine ⟨_, Faulting.endsWithin_of_measure (scanLeft fs (fileSizeOf img dir))
      (fun s s' hat hs' ↦ ?_) (I := ScanAt fs img dir (fileSizeOf img dir) name) .first
      (Nat.lt_succ_self _)⟩
    have hr := (hround s s').mp hs'
    exact ⟨hr.keeps hat, hr.advances hpos hadv hat⟩

end Search

/-- An image whose root directory is the block at 4096, with one record for "a" in it. -/
def rootImage (recLen : BitVec 8) : Image :=
  imageOf [(1024, 2#8), (1024 + 32, 8#8), (1024 + 40, 2#8), (1024 + 56, 0x53#8),
    (1024 + 57, 0xEF#8), (2048 + 8, 3#8), (3200 + 1, 0x40#8), (3200 + 5, 4#8), (3200 + 40, 4#8),
    (4096, 2#8), (4096 + 5, recLen), (4096 + 6, 1#8), (4096 + 8, 0x61#8)]

theorem rootImage_starts {offset : ℕ} (h : RecordStart (mounted (rootImage 4#8)) (rootImage 4#8)
    3200 1024 [0x62#8] offset) : offset = 0 ∨ offset = 1024 := by
  have hzero : blockOf (mounted (rootImage 4#8)) (rootImage 4#8) 3200 0 = some 4 := by
    decide +kernel
  induction h with
  | first => exact .inl rfl
  | hole _ hlt hblock ih =>
    obtain rfl | rfl := ih
    · exact absurd (hzero.symm.trans hblock) (by decide)
    · omega
  | record _ hlt hblock _ _ ih =>
    obtain rfl | rfl := ih
    · obtain rfl := Option.some.inj (hzero.symm.trans hblock)
      exact .inr (by decide +kernel)
    · omega

theorem lookup_in_dir_ends_root :
    LookupEnds (mounted (rootImage 4#8)) (rootImage 4#8) 3200 [0x62#8] := by
  refine (lookup_in_dir_ends (by decide +kernel) _ _ _).mpr ?_
  have hsize : fileSizeOf (rootImage 4#8) 3200 = 1024 := by decide +kernel
  have hzero : blockOf (mounted (rootImage 4#8)) (rootImage 4#8) 3200 0 = some 4 := by
    decide +kernel
  rw [hsize]
  intro offset b hstart hlt hblock _
  obtain rfl | rfl := rootImage_starts hstart
  · obtain rfl := Option.some.inj (hzero.symm.trans hblock)
    decide +kernel
  · omega

/-- The mount accepts the image, and with a first record of length 0 the search runs for ever. -/
theorem lookup_in_dir_loops :
    (ext2Init (rootImage 0#8) 5120).val = some (some (mounted (rootImage 0#8))) ∧
    (ext2ReadInode (mounted (rootImage 0#8)) (rootImage 0#8) 2).val = some (some 3200) ∧
    ∀ fuel, ¬ Faulting.EndsWithin (scanStep (mounted (rootImage 0#8)) (rootImage 0#8) 3200
      (fileSizeOf (rootImage 0#8) 3200) [0x61#8]) fuel (.outer 0) := by
  refine ⟨by decide +kernel, by decide +kernel, fun fuel ↦ ?_⟩
  refine Faulting.not_endsWithin (I := fun t ↦ t = .outer 0 ∨ t = .inner 4096 0 0) ?_ fuel (.inl rfl)
  rintro t (rfl | rfl)
  · exact ⟨.inner 4096 0 0, by decide +kernel, .inr rfl⟩
  · exact ⟨.outer 0, by decide +kernel, .inl rfl⟩

end SeedOS.Fs
