import SeedOS.Fs.FileBounds

namespace SeedOS.Fs

open Foundation

section Step

variable (fs : Ext2) (img : Image)

def sameName : ℕ → List (BitVec 8) → Bool
  | _, [] => true
  | a, c :: name => if img a ≠ c then false else if img a = 0#8 then true else sameName (a + 1) name

def entryIno (a : ℕ) (name : List (BitVec 8)) : Option ℕ :=
  if u32 img a ≠ 0 ∧ (img (a + 6)).toNat = name.length ∧ sameName img (a + 8) name then
    some (u32 img a)
  else none

/-- Where the search in a directory of `n` bytes goes on, or its result. -/
def scanNext (dir n : ℕ) (name : List (BitVec 8)) : Scan → Option (Scan ⊕ ℕ)
  | .outer offset =>
    if offset < n then
      (blockOf fs img dir (offset / fs.blockSize)).map fun b ↦
        if b = 0 then .inl (.outer (offset + (fs.blockSize - offset % fs.blockSize)))
        else .inl (.inner (b * fs.blockSize) offset (offset % fs.blockSize))
    else some (.inr 0)
  | .inner block offset blockOffset =>
    if blockOffset < fs.blockSize ∧ offset < n then
      let recLen := u16 img (block + blockOffset + 4)
      if recLen = 0 then some (.inl (.outer offset))
      else
        match entryIno img (block + blockOffset) name with
        | some ino => some (.inr ino)
        | none => some (.inl (.inner block (offset + recLen) (blockOffset + recLen)))
    else some (.inl (.outer offset))

theorem ext2Strncmp_val (a : ℕ) (name : List (BitVec 8)) :
    (ext2Strncmp img a name).val = some (sameName img a name) := by
  induction name generalizing a with
  | nil => rfl
  | cons c name ih =>
    rw [ext2Strncmp, sameName, Faulting.val_bind, val_read8, Option.bind_some]
    by_cases hc : img a ≠ c
    · rw [if_pos hc, if_pos hc, Faulting.val_pure]
    · rw [if_neg hc, if_neg hc]
      by_cases hz : img a = 0#8
      · rw [if_pos hz, if_pos hz, Faulting.val_pure]
      · rw [if_neg hz, if_neg hz, ih]

theorem matchEntry_val (a : ℕ) (name : List (BitVec 8)) :
    (matchEntry img a name).val = some (entryIno img a name) := by
  unfold matchEntry entryIno
  simp only [Faulting.val_bind, val_read32, Option.bind_some]
  by_cases hi : u32 img a = 0
  · simp [hi]
  simp only [if_neg hi, Faulting.val_bind, val_read8, Option.bind_some]
  by_cases hl : (img (a + 6)).toNat = name.length
  · simp [hl, hi, ext2Strncmp_val]
  · simp [hl, hi]

theorem scanStep_val (hbs : fs.blockSize ≠ 0) (dir n : ℕ) (name : List (BitVec 8)) (s : Scan) :
    (scanStep fs img dir n name s).val = scanNext fs img dir n name s := by
  cases s with
  | outer offset =>
    rw [scanStep, scanNext]
    by_cases ho : offset < n
    · rw [if_pos ho, if_pos ho, if_neg hbs, Faulting.val_bind, ext2GetBlockNum_val]
      cases blockOf fs img dir (offset / fs.blockSize) with
      | none => rfl
      | some b =>
        rw [Option.bind_some, Option.map_some]
        split <;> rfl
    · rw [if_neg ho, if_neg ho, Faulting.val_pure]
  | inner block offset blockOffset =>
    rw [scanStep, scanNext]
    by_cases ho : blockOffset < fs.blockSize ∧ offset < n
    · rw [if_pos ho, if_pos ho, Faulting.val_bind, val_read16, Option.bind_some]
      by_cases hr : u16 img (block + blockOffset + 4) = 0
      · rw [if_pos hr]
        simp [hr]
      · rw [if_neg hr, Faulting.val_bind, matchEntry_val, Option.bind_some]
        simp only [if_neg hr]
        cases entryIno img (block + blockOffset) name with
        | none => rfl
        | some ino => rfl
    · rw [if_neg ho, if_neg ho, Faulting.val_pure]

theorem ext2LookupInDir_val_mono {m n : ℕ} (h : m ≤ n) {dir ino : ℕ} {name : List (BitVec 8)}
    (hval : (ext2LookupInDir fs img m dir name).val = some ino) :
    (ext2LookupInDir fs img n dir name).val = some ino := by
  unfold ext2LookupInDir at hval ⊢
  rw [Faulting.val_bind, ext2GetFileSize_val, Option.bind_some] at hval ⊢
  exact Faulting.val_iterate_mono h hval

end Step

section Search

variable (fs : Ext2) (img : Image) (dir n : ℕ) (name : List (BitVec 8))

/-- The offsets in a directory of `n` bytes where a record starts, up to the first record
that has the name: a record starts where the one before it ends, and after a hole at the next
block. -/
inductive RecordStart : ℕ → Prop
  | first : RecordStart 0
  | hole {offset : ℕ} (hstart : RecordStart offset) (hlt : offset < n)
      (hblock : blockOf fs img dir (offset / fs.blockSize) = some 0) :
      RecordStart (offset + (fs.blockSize - offset % fs.blockSize))
  | record {offset block : ℕ} (hstart : RecordStart offset) (hlt : offset < n)
      (hblock : blockOf fs img dir (offset / fs.blockSize) = some block) (hne : block ≠ 0)
      (hother : entryIno img (block * fs.blockSize + offset % fs.blockSize) name = none) :
      RecordStart (offset + u16 img (block * fs.blockSize + offset % fs.blockSize + 4))

def Scan.offset : Scan → ℕ
  | .outer offset => offset
  | .inner _ offset _ => offset

def ScanAt : Scan → Prop
  | .outer offset => RecordStart fs img dir n name offset
  | .inner block offset blockOffset => RecordStart fs img dir n name offset ∧
      (blockOffset < fs.blockSize → blockOffset = offset % fs.blockSize ∧
        ∃ b, blockOf fs img dir (offset / fs.blockSize) = some b ∧ b ≠ 0 ∧
          block = b * fs.blockSize)

variable {fs img dir n name}

theorem inner_next {o r bo b : ℕ} (hbo : bo = o % b) (h : bo + r < b) :
    bo + r = (o + r) % b ∧ (o + r) / b = o / b := by
  subst hbo
  have hdiv := Nat.div_add_mod o b
  have hsum : o + r = o % b + r + b * (o / b) := by omega
  rw [hsum]
  refine ⟨?_, ?_⟩
  · rw [Nat.add_mul_mod_self_left, Nat.mod_eq_of_lt h]
  · rw [Nat.add_mul_div_left _ _ (by omega), Nat.div_eq_of_lt h, Nat.zero_add]

inductive ScanRound (fs : Ext2) (img : Image) (dir n : ℕ) (name : List (BitVec 8)) :
    Scan → Scan → Prop
  | hole {offset : ℕ} (hlt : offset < n)
      (hblock : blockOf fs img dir (offset / fs.blockSize) = some 0) :
      ScanRound fs img dir n name (.outer offset)
        (.outer (offset + (fs.blockSize - offset % fs.blockSize)))
  | enter {offset b : ℕ} (hlt : offset < n)
      (hblock : blockOf fs img dir (offset / fs.blockSize) = some b) (hne : b ≠ 0) :
      ScanRound fs img dir n name (.outer offset)
        (.inner (b * fs.blockSize) offset (offset % fs.blockSize))
  | corrupted {block offset blockOffset : ℕ} (hin : blockOffset < fs.blockSize) (hlt : offset < n)
      (hzero : u16 img (block + blockOffset + 4) = 0) :
      ScanRound fs img dir n name (.inner block offset blockOffset) (.outer offset)
  | record {block offset blockOffset : ℕ} (hin : blockOffset < fs.blockSize) (hlt : offset < n)
      (hlen : u16 img (block + blockOffset + 4) ≠ 0)
      (hother : entryIno img (block + blockOffset) name = none) :
      ScanRound fs img dir n name (.inner block offset blockOffset)
        (.inner block (offset + u16 img (block + blockOffset + 4))
          (blockOffset + u16 img (block + blockOffset + 4)))
  | leave {block offset blockOffset : ℕ} (hout : ¬ (blockOffset < fs.blockSize ∧ offset < n)) :
      ScanRound fs img dir n name (.inner block offset blockOffset) (.outer offset)

theorem scanRound_iff {s s' : Scan} :
    scanNext fs img dir n name s = some (.inl s') ↔ ScanRound fs img dir n name s s' := by
  constructor
  · intro h
    cases s with
    | outer offset =>
      rw [scanNext] at h
      split at h
      · rename_i hlt
        obtain ⟨b, hb, hs'⟩ := Option.map_eq_some_iff.mp h
        split at hs'
        · rename_i hzero
          obtain rfl := Sum.inl.inj hs'
          exact .hole hlt (hzero ▸ hb)
        · rename_i hne
          obtain rfl := Sum.inl.inj hs'
          exact .enter hlt hb hne
      · simp at h
    | inner block offset blockOffset =>
      rw [scanNext] at h
      split at h
      · rename_i hin
        dsimp only at h
        split at h
        · rename_i hzero
          obtain rfl := Sum.inl.inj (Option.some.inj h)
          exact .corrupted hin.1 hin.2 hzero
        · rename_i hlen
          cases hother : entryIno img (block + blockOffset) name with
          | some ino => simp [hother] at h
          | none =>
            rw [hother] at h
            obtain rfl := Sum.inl.inj (Option.some.inj h)
            exact .record hin.1 hin.2 hlen hother
      · rename_i hout
        obtain rfl := Sum.inl.inj (Option.some.inj h)
        exact .leave hout
  · intro h
    cases h with
    | hole hlt hblock => simp [scanNext, hlt, hblock]
    | enter hlt hblock hne => simp [scanNext, hlt, hblock, hne]
    | corrupted hin hlt hzero => simp [scanNext, hin, hlt, hzero]
    | record hin hlt hlen hother => simp [scanNext, hin, hlt, hlen, hother]
    | leave hout => rw [scanNext, if_neg hout]

abbrev ScanRuns (fs : Ext2) (img : Image) (dir n : ℕ) (name : List (BitVec 8)) : Scan → Scan → Prop :=
  Relation.ReflTransGen (ScanRound fs img dir n name)

theorem goes_eq (hbs : fs.blockSize ≠ 0) :
    Faulting.Goes (scanStep fs img dir n name) = ScanRuns fs img dir n name := by
  simp only [Faulting.Goes, scanStep_val fs img hbs, scanRound_iff]

theorem ScanRound.keeps {s s' : Scan} (hat : ScanAt fs img dir n name s)
    (h : ScanRound fs img dir n name s s') : ScanAt fs img dir n name s' := by
  cases h with
  | hole hlt hblock => exact .hole hat hlt hblock
  | enter hlt hblock hne => exact ⟨hat, fun _ ↦ ⟨rfl, _, hblock, hne, rfl⟩⟩
  | corrupted hin hlt hzero => exact hat.1
  | record hin hlt hlen hother =>
    obtain ⟨hbo, b, hblock, hne, rfl⟩ := hat.2 hin
    refine ⟨?_, fun hin' ↦ ?_⟩
    · have hstart := RecordStart.record hat.1 hlt hblock hne (hbo ▸ hother)
      rwa [← hbo] at hstart
    · obtain ⟨hmod, hdiv⟩ := inner_next hbo hin'
      exact ⟨hmod, b, by rw [hdiv, hblock], hne, rfl⟩
  | leave hout => exact hat.1

theorem ScanRuns.scanAt {s : Scan} (hgo : ScanRuns fs img dir n name (.outer 0) s) :
    ScanAt fs img dir n name s := by
  induction hgo with
  | refl => exact .first
  | tail _ hround ih => exact hround.keeps ih

theorem ScanRuns.entered {s : Scan} (hgo : ScanRuns fs img dir n name (.outer 0) s)
    {block offset blockOffset : ℕ} (hs : s = .inner block offset blockOffset)
    (hin : blockOffset < fs.blockSize) :
    ∃ o < n, ScanRuns fs img dir n name (.outer 0) (.outer o) ∧
      o / fs.blockSize = offset / fs.blockSize := by
  induction hgo generalizing block offset blockOffset with
  | refl => cases hs
  | tail hgo hround ih =>
    cases hround with
    | hole => cases hs
    | enter hlt =>
      cases hs
      exact ⟨_, hlt, hgo, rfl⟩
    | corrupted => cases hs
    | record hin' =>
      cases hs
      obtain ⟨hbo, -⟩ := (ScanRuns.scanAt hgo).2 hin'
      rw [(inner_next hbo hin).2]
      exact ih rfl hin'
    | leave => cases hs

theorem ScanAt.enters {s : Scan} (hat : ScanAt fs img dir n name s) {b : ℕ} (hlt : s.offset < n)
    (hblock : blockOf fs img dir (s.offset / fs.blockSize) = some b) (hne : b ≠ 0) :
    ScanRuns fs img dir n name s
      (.inner (b * fs.blockSize) s.offset (s.offset % fs.blockSize)) := by
  cases s with
  | outer offset => exact .single (.enter hlt hblock hne)
  | inner block offset blockOffset =>
    by_cases hin : blockOffset < fs.blockSize
    · obtain ⟨rfl, b', hblock', -, rfl⟩ := hat.2 hin
      rw [Scan.offset, hblock'] at hblock
      rw [Option.some.inj hblock]
      exact .refl
    · have hleave : ScanRound fs img dir n name (.inner block offset blockOffset) (.outer offset) :=
        .leave fun hc ↦ hin hc.1
      exact .head hleave (.single (.enter hlt hblock hne))

theorem ScanAt.leaves {s : Scan} (hat : ScanAt fs img dir n name s)
    (hblock : blockOf fs img dir (s.offset / fs.blockSize) = some 0) :
    ScanRuns fs img dir n name s (.outer s.offset) := by
  cases s with
  | outer offset => exact .refl
  | inner block offset blockOffset =>
    refine .single (.leave fun hin ↦ ?_)
    obtain ⟨-, b, hblock', hne, -⟩ := hat.2 hin.1
    rw [Scan.offset, hblock'] at hblock
    exact hne (Option.some.inj hblock)

theorem RecordStart.reached (hbs : 0 < fs.blockSize) {offset : ℕ}
    (h : RecordStart fs img dir n name offset) :
    ∃ s, ScanRuns fs img dir n name (.outer 0) s ∧
      ScanAt fs img dir n name s ∧ s.offset = offset := by
  induction h with
  | first => exact ⟨_, .refl, .first, rfl⟩
  | hole hstart hlt hblock ih =>
    obtain ⟨s, hgo, hat, rfl⟩ := ih
    exact ⟨_, (hgo.trans (hat.leaves hblock)).tail (.hole hlt hblock),
      .hole hstart hlt hblock, rfl⟩
  | @record offset b hstart hlt hblock hne hother ih =>
    obtain ⟨s, hgo, hat, rfl⟩ := ih
    by_cases hzero : u16 img (b * fs.blockSize + s.offset % fs.blockSize + 4) = 0
    · exact ⟨s, hgo, hat, by rw [hzero, Nat.add_zero]⟩
    · refine ⟨_, (hgo.trans (hat.enters hlt hblock hne)).tail
        (.record (Nat.mod_lt _ hbs) hlt hzero hother), ⟨?_, fun hin ↦ ?_⟩, rfl⟩
      · exact .record hstart hlt hblock hne hother
      · obtain ⟨hmod, hdiv⟩ := inner_next rfl hin
        exact ⟨hmod, b, by rw [hdiv, hblock], hne, rfl⟩

def FindsFrom (fs : Ext2) (img : Image) (dir n : ℕ) (name : List (BitVec 8)) (s : Scan) (ino : ℕ) :
    Prop :=
  ∃ s', ScanRuns fs img dir n name s s' ∧
    scanNext fs img dir n name s' = some (.inr ino)

theorem FindsFrom.head {s s' : Scan} {ino : ℕ} (h : ScanRound fs img dir n name s s')
    (hfinds : FindsFrom fs img dir n name s' ino) : FindsFrom fs img dir n name s ino := by
  obtain ⟨t, hgo, ht⟩ := hfinds
  exact ⟨t, .head h hgo, ht⟩

theorem ext2LookupInDir_val (hbs : fs.blockSize ≠ 0) (ino : ℕ) :
    (∃ fuel, (ext2LookupInDir fs img fuel dir name).val = some ino) ↔
      FindsFrom fs img dir (fileSizeOf img dir) name (.outer 0) ino := by
  unfold ext2LookupInDir FindsFrom
  simp only [Faulting.val_bind, ext2GetFileSize_val, Option.bind_some, Faulting.val_iterate,
    goes_eq hbs, scanStep_val fs img hbs]

end Search

end SeedOS.Fs
