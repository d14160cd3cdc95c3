import Mathlib.Logic.Function.Basic
import SeedOS.Fs.Ext2Bounds
import SeedOS.Fs.FileContent

namespace SeedOS.Fs

open Foundation

/-- The memory from the start of a buffer on. -/
abbrev Buffer := ℕ → BitVec 8

def fillBytes : Buffer → ℕ → List (BitVec 8) → Buffer
  | buf, _, [] => buf
  | buf, dst, b :: bytes => fillBytes (Function.update buf dst b) (dst + 1) bytes

structure ReadState where
  offset : ℕ
  size : ℕ
  dst : ℕ
  totalRead : ℕ
  buf : Buffer

def readStep (fs : Ext2) (img : Image) (inode : ℕ) (s : ReadState) :
    Disk (ReadState ⊕ ℕ × Buffer) :=
  if s.size = 0 then pure (.inr (s.totalRead, s.buf))
  else if fs.blockSize = 0 then .fault
  else do
    let logicalBlock := s.offset / fs.blockSize % 2 ^ 32
    let blockOffset := s.offset % fs.blockSize
    let toRead := min (fs.blockSize - blockOffset) s.size
    let blockNum ← ext2GetBlockNum fs img inode logicalBlock
    let bytes ← readChunk fs img blockNum blockOffset toRead
    pure (.inl ⟨(s.offset + toRead) % 2 ^ 64, s.size - toRead, s.dst + toRead,
      (s.totalRead + toRead) % 2 ^ 64, fillBytes s.buf s.dst bytes⟩)

/-- `ext2_read_file` with the buffer it stores to: the count it returns and the buffer
afterwards. A loop that has not ended after `fuel` rounds has no result. -/
def ext2ReadFileInto (fs : Ext2) (img : Image) (fuel inode offset : ℕ) (buf : Buffer) (size : ℕ) :
    Disk (ℕ × Buffer) := do
  let fileSize ← ext2GetFileSize img inode
  if fileSize ≤ offset then pure (0, buf)
  else
    Faulting.iterate (readStep fs img inode) fuel
      ⟨offset, clampSize fileSize offset size, 0, 0, buf⟩

section Store

variable (buf : Buffer) (dst : ℕ)

theorem fillBytes_append (xs ys : List (BitVec 8)) : fillBytes buf dst (xs ++ ys) =
    fillBytes (fillBytes buf dst xs) (dst + xs.length) ys := by
  induction xs generalizing buf dst with
  | nil => rfl
  | cons x xs ih =>
    rw [List.cons_append, fillBytes, fillBytes, ih, List.length_cons, Nat.add_assoc,
      Nat.add_comm 1]

theorem fillBytes_outside (bytes : List (BitVec 8)) {i : ℕ}
    (h : i < dst ∨ dst + bytes.length ≤ i) : fillBytes buf dst bytes i = buf i := by
  induction bytes generalizing buf dst with
  | nil => rfl
  | cons b bytes ih =>
    rw [List.length_cons] at h
    rw [fillBytes, ih _ _ (by omega), Function.update_of_ne (by omega)]

theorem fillBytes_inside (bytes : List (BitVec 8)) (i : ℕ) (h : i < bytes.length) :
    fillBytes buf dst bytes (dst + i) = bytes[i] := by
  induction bytes generalizing buf dst i with
  | nil => exact absurd h (Nat.not_lt_zero i)
  | cons b bytes ih =>
    rw [fillBytes]
    cases i with
    | zero =>
      rw [fillBytes_outside _ _ _ (.inl (by omega)), Nat.add_zero, Function.update_self]
      rfl
    | succ i =>
      rw [List.getElem_cons_succ, ← ih (Function.update buf dst b) (dst + 1), Nat.add_assoc,
        Nat.add_comm 1]

end Store

section Loop

variable {fs : Ext2} (img : Image) (inode : ℕ)

theorem readStep_run (hbs : 0 < fs.blockSize) {fuel rounds offset n dst total : ℕ} {buf : Buffer}
    (hfuel : n < fuel) (hrounds : n ≤ rounds) (htotal : total + n < 2 ^ 64) :
    (Faulting.iterate (readStep fs img inode) fuel ⟨offset, n, dst, total, buf⟩).val =
      (readLoop fs img inode rounds offset n).val.map fun bytes ↦
        (total + n, fillBytes buf dst bytes) := by
  induction fuel generalizing rounds offset n dst total buf with
  | zero => omega
  | succ fuel ih =>
    rw [Faulting.iterate, Faulting.val_bind, readStep]
    by_cases hn : n = 0
    · subst hn
      cases rounds with
      | zero => rfl
      | succ rounds => rfl
    obtain ⟨rounds, rfl⟩ : ∃ r, rounds = r + 1 := ⟨rounds - 1, by omega⟩
    have hlt := Nat.mod_lt offset hbs
    rw [readLoop, if_neg hn, if_neg hn, if_neg (Nat.ne_of_gt hbs), if_neg (Nat.ne_of_gt hbs)]
    dsimp only
    obtain ⟨t, ht⟩ : ∃ t, t = min (fs.blockSize - offset % fs.blockSize) n := ⟨_, rfl⟩
    rw [← ht, Faulting.val_bind, Faulting.val_bind]
    cases (ext2GetBlockNum fs img inode (offset / fs.blockSize % 2 ^ 32)).val with
    | none => rfl
    | some b =>
      obtain ⟨bytes, hbytes, hlen⟩ : ∃ bytes, (readChunk fs img b (offset % fs.blockSize) t).val =
          some bytes ∧ bytes.length = t := readChunk_length img b _ t
      have hmod : (total + t) % 2 ^ 64 = total + t := Nat.mod_eq_of_lt (by omega)
      have hleft : n - t ≤ rounds := by omega
      simp only [Option.bind_some, Faulting.val_bind, hbytes, Faulting.val_pure]
      rw [hmod, ih (by omega) hleft (by omega)]
      cases (readLoop fs img inode rounds ((offset + t) % 2 ^ 64) (n - t)).val with
      | none => rfl
      | some rest =>
        rw [Option.map_some, Option.bind_some, Option.map_some, fillBytes_append, hlen,
          Nat.add_assoc, Nat.add_sub_cancel' (by omega)]

end Loop

section ReadFile

/-- A read of `size` bytes at `offset` returns the number of bytes there are and stores these,
each from its place in the block that `ext2_get_block_num` gives, and nothing behind them. -/
structure ReadsInto (fs : Ext2) (img : Image) (inode offset size : ℕ) (buf : Buffer)
    (n : ℕ) (buf' : Buffer) : Prop where
  count : n = min size (fileSizeOf img inode - offset)
  bytes : ∀ i < n, ∃ b,
    (ext2GetBlockNum fs img inode ((offset + i) / fs.blockSize)).val = some b ∧
      buf' i = if b = 0 then 0#8 else img (b * fs.blockSize + (offset + i) % fs.blockSize)
  rest : ∀ i, n ≤ i → buf' i = buf i

theorem readsInto_store {fs : Ext2} (h : fs.StandardBlocks) (img : Image)
    (inode offset size : ℕ) (buf : Buffer) :
    ReadsInto fs img inode offset size buf (min size (fileSizeOf img inode - offset))
      (fillBytes buf 0 ((List.range' offset (min size (fileSizeOf img inode - offset))).map
        (fileByte fs img inode))) := by
  refine ⟨rfl, fun i hi ↦ ?_, fun i hi ↦ ?_⟩
  · refine ⟨_, (ext2GetBlockNum_val ..).trans (blockOf_eq img inode h _), ?_⟩
    have hstored := fillBytes_inside buf 0
      ((List.range' offset (min size (fileSizeOf img inode - offset))).map (fileByte fs img inode)) i
      (by simpa using hi)
    rw [Nat.zero_add] at hstored
    rw [hstored, List.getElem_map, List.getElem_range', Nat.one_mul, fileByte]
  · exact fillBytes_outside buf 0 _ (.inr (by simpa using hi))

/-- `ext2_read_file` returns, with the bytes of the file in the buffer. -/
theorem read_file_fills_buffer {fs : Ext2} (h : fs.StandardBlocks) (img : Image) (inode : ℕ)
    (hfile : fileSizeOf img inode ≤ 2 ^ 32 * fs.blockSize) (offset size : ℕ)
    (hsum : offset + size < 2 ^ 64) (buf : Buffer) :
    ∃ n buf', ReadsInto fs img inode offset size buf n buf' ∧ ∀ fuel, size < fuel →
      (ext2ReadFileInto fs img fuel inode offset buf size).val = some (n, buf') := by
  refine ⟨_, _, readsInto_store h img inode offset size buf, fun fuel hfuel ↦ ?_⟩
  rw [ext2ReadFileInto, Faulting.val_bind, ext2GetFileSize_val, Option.bind_some]
  by_cases hoff : fileSizeOf img inode ≤ offset
  · rw [if_pos hoff, Nat.sub_eq_zero_of_le hoff, Nat.min_zero]
    rfl
  · have hclamp := clampSize_eq (fileSizeOf img inode) hsum
    rw [if_neg hoff, readStep_run img inode h.pos (by omega) (Nat.le_refl _) (by omega),
      readLoop_val img inode h _ (Nat.le_refl _) (by omega), Option.map_some, Nat.zero_add, hclamp]

theorem read_file_fills_buffer_small : ∃ buf',
    ReadsInto ⟨1024, 2, 128, 2048⟩ smallImage 3200 1 10 (fun _ ↦ 0xff#8) 2 buf' ∧
      ∀ fuel, 10 < fuel → (ext2ReadFileInto ⟨1024, 2, 128, 2048⟩ smallImage fuel 3200 1
        (fun _ ↦ 0xff#8) 10).val = some (2, buf') := by
  have hsize : fileSizeOf smallImage 3200 = 3 := by decide +kernel
  have hblocks : (⟨1024, 2, 128, 2048⟩ : Ext2).StandardBlocks := ⟨0, by decide, rfl⟩
  obtain ⟨n, buf', hread, hval⟩ := read_file_fills_buffer hblocks smallImage 3200
    (by rw [hsize]; decide) 1 10 (by decide) fun _ ↦ 0xff#8
  obtain rfl : n = 2 := by rw [hread.count, hsize]; rfl
  exact ⟨buf', hread, hval⟩

end ReadFile

end SeedOS.Fs
