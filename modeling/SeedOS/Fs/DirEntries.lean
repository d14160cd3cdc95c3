import SeedOS.Fs.DirTermination
import SeedOS.Fs.FileContent

namespace SeedOS.Fs

open Foundation

structure Dirent where
  inode : ℕ
  name : List (BitVec 8)
  deriving DecidableEq

section Entries

variable (fs : Ext2) (img : Image)

def direntAt (a : ℕ) : Dirent :=
  ⟨u32 img a, (List.range' (a + 8) (img (a + 6)).toNat).map img⟩

/-- The bytes from `a` up to `stop` are tiled by entries that have room for their names. -/
inductive Tiled (stop : ℕ) : ℕ → Prop
  | stop : Tiled stop stop
  | entry {a : ℕ} (hlen : 8 + (img (a + 6)).toNat ≤ u16 img (a + 4))
      (hrest : Tiled stop (a + u16 img (a + 4))) : Tiled stop a

def entriesFrom (stop : ℕ) : ℕ → ℕ → List Dirent
  | 0, _ => []
  | fuel + 1, a =>
    if a < stop then direntAt img a :: entriesFrom stop fuel (a + u16 img (a + 4)) else []

def blockEntries (b : ℕ) : List Dirent :=
  if b = 0 then []
  else entriesFrom img (b * fs.blockSize + fs.blockSize) fs.blockSize (b * fs.blockSize)

def dirEntries (dir : ℕ) : List Dirent :=
  (List.range (fileSizeOf img dir / fs.blockSize)).flatMap fun k ↦
    blockEntries fs img ((fileBlocks fs img dir).getD k 0)

def findEntry (entries : List Dirent) (name : List (BitVec 8)) : ℕ :=
  (entries.find? fun e ↦ e.inode ≠ 0 ∧ e.name = name).elim 0 Dirent.inode

/-- A directory fills its blocks, and each of them is a hole or tiled by entries. -/
structure DirTiled (dir : ℕ) : Prop where
  dvd : fs.blockSize ∣ fileSizeOf img dir
  tiled : ∀ k < fileSizeOf img dir / fs.blockSize, ∀ b, (fileBlocks fs img dir).getD k 0 = b →
    b ≠ 0 → Tiled img (b * fs.blockSize + fs.blockSize) (b * fs.blockSize)

@[simp] theorem findEntry_nil (name : List (BitVec 8)) : findEntry [] name = 0 := rfl

theorem findEntry_cons (e : Dirent) (entries : List Dirent) (name : List (BitVec 8)) :
    findEntry (e :: entries) name =
      if e.inode ≠ 0 ∧ e.name = name then e.inode else findEntry entries name := by
  rw [findEntry, List.find?_cons]
  by_cases h : e.inode ≠ 0 ∧ e.name = name
  · simp [h]
  · simp only [h, decide_false, if_false]
    rfl

theorem sameName_iff (a : ℕ) {name : List (BitVec 8)} (hnul : 0#8 ∉ name) :
    sameName img a name = true ↔ (List.range' a name.length).map img = name := by
  induction name generalizing a with
  | nil => simp [sameName]
  | cons c name ih =>
    obtain ⟨hc, hname⟩ := not_or.mp fun h ↦ hnul (List.mem_cons.mpr h)
    rw [sameName, List.length_cons, List.range'_succ, List.map_cons, List.cons.injEq]
    by_cases h : img a = c
    · rw [if_neg (not_not_intro h), if_neg (fun hz ↦ hc (hz.symm.trans h)), ih _ hname]
      exact ⟨fun hrest ↦ ⟨h, hrest⟩, And.right⟩
    · rw [if_pos h]
      exact iff_of_false (by simp) fun hboth ↦ h hboth.1

theorem entryIno_eq (a : ℕ) {name : List (BitVec 8)} (hnul : 0#8 ∉ name) :
    entryIno img a name = if (direntAt img a).inode ≠ 0 ∧ (direntAt img a).name = name then
      some (direntAt img a).inode else none := by
  rw [entryIno, direntAt]
  dsimp only
  have hiff : ((img (a + 6)).toNat = name.length ∧ sameName img (a + 8) name = true) ↔
      (List.range' (a + 8) (img (a + 6)).toNat).map img = name := by
    rw [sameName_iff img _ hnul]
    constructor
    · rintro ⟨hlen, hname⟩
      rw [hlen, hname]
    · intro hname
      have hlen : (img (a + 6)).toNat = name.length := by rw [← hname]; simp
      exact ⟨hlen, hlen ▸ hname⟩
  simp only [hiff]

variable {img}

theorem Tiled.le {stop a : ℕ} (h : Tiled img stop a) : a ≤ stop := by
  induction h with
  | stop => exact Nat.le_refl _
  | entry hlen _ ih => omega

theorem Tiled.next {stop a : ℕ} (h : Tiled img stop a) (hlt : a < stop) :
    8 + (img (a + 6)).toNat ≤ u16 img (a + 4) ∧ Tiled img stop (a + u16 img (a + 4)) := by
  cases h with
  | stop => exact absurd hlt (Nat.lt_irrefl _)
  | entry hlen hrest => exact ⟨hlen, hrest⟩

end Entries

section Search

variable {fs : Ext2} {img : Image} {dir n : ℕ} {name : List (BitVec 8)}

theorem findsFrom_inner (hnul : 0#8 ∉ name) {block : ℕ} {after : List Dirent} {fuel offset bo : ℕ}
    (htiled : Tiled img (block + fs.blockSize) (block + bo)) (hfuel : fs.blockSize - bo ≤ fuel)
    (hn : offset + (fs.blockSize - bo) ≤ n)
    (hafter : FindsFrom fs img dir n name (.outer (offset + (fs.blockSize - bo)))
      (findEntry after name)) :
    FindsFrom fs img dir n name (.inner block offset bo)
      (findEntry (entriesFrom img (block + fs.blockSize) fuel (block + bo) ++ after) name) := by
  induction fuel generalizing offset bo with
  | zero =>
    have hle := htiled.le
    have hend : fs.blockSize - bo = 0 := by omega
    rw [hend] at hafter
    exact hafter.head (.leave fun hin ↦ by omega)
  | succ fuel ih =>
    rw [entriesFrom]
    by_cases hin : block + bo < block + fs.blockSize
    · obtain ⟨hlen, hrest⟩ := htiled.next hin
      have hle := hrest.le
      have hbo : bo < fs.blockSize := by omega
      have hoff : offset < n := by omega
      have hpos : u16 img (block + bo + 4) ≠ 0 := by omega
      have hino := entryIno_eq img (block + bo) hnul
      rw [if_pos hin, List.cons_append, findEntry_cons]
      by_cases hmatch : (direntAt img (block + bo)).inode ≠ 0 ∧
          (direntAt img (block + bo)).name = name
      · rw [if_pos hmatch] at hino ⊢
        exact ⟨_, .refl, by simp [scanNext, hbo, hoff, hpos, hino]⟩
      · rw [if_neg hmatch] at hino ⊢
        refine FindsFrom.head (.record hbo hoff hpos hino) ?_
        have hsame : offset + u16 img (block + bo + 4) +
            (fs.blockSize - (bo + u16 img (block + bo + 4))) = offset + (fs.blockSize - bo) := by
          omega
        rw [Nat.add_assoc block bo (u16 img (block + bo + 4))] at hrest ⊢
        exact ih hrest (by omega) (by rwa [hsame]) (by rwa [hsame])
    · rw [if_neg hin]
      have hend : fs.blockSize - bo = 0 := by omega
      rw [hend] at hafter
      exact hafter.head (.leave fun hin' ↦ by omega)

theorem findsFrom_outer (hfs : fs.StandardBlocks) (hnul : 0#8 ∉ name) (hdir : DirTiled fs img dir)
    (m k : ℕ) (hk : k + m = fileSizeOf img dir / fs.blockSize) :
    FindsFrom fs img dir (fileSizeOf img dir) name (.outer (k * fs.blockSize))
      (findEntry ((List.range' k m).flatMap fun k ↦
        blockEntries fs img ((fileBlocks fs img dir).getD k 0)) name) := by
  have hpos := hfs.pos
  have hsize := Nat.div_mul_cancel hdir.dvd
  induction m generalizing k with
  | zero =>
    refine ⟨_, .refl, ?_⟩
    rw [scanNext, if_neg (by rw [← hsize, ← hk]; simp)]
    rfl
  | succ m ih =>
    have hnext := ih (k + 1) (by omega)
    have hle : (k + 1) * fs.blockSize ≤ fileSizeOf img dir := by
      rw [← hsize, ← hk]
      exact Nat.mul_le_mul_right _ (by omega)
    rw [Nat.add_mul, Nat.one_mul] at hnext hle
    have hblock : blockOf fs img dir (k * fs.blockSize / fs.blockSize) =
        some ((fileBlocks fs img dir).getD k 0) := by
      rw [Nat.mul_div_cancel _ hpos, blockOf_eq img dir hfs]
    have hmod : k * fs.blockSize % fs.blockSize = 0 := Nat.mul_mod_left ..
    rw [List.range'_succ, List.flatMap_cons, blockEntries]
    by_cases hzero : (fileBlocks fs img dir).getD k 0 = 0
    · rw [if_pos hzero, List.nil_append]
      rw [hzero] at hblock
      refine FindsFrom.head (.hole (by omega) hblock) ?_
      rwa [hmod, Nat.sub_zero]
    · rw [if_neg hzero]
      refine FindsFrom.head (.enter (by omega) hblock hzero) ?_
      rw [hmod]
      exact findsFrom_inner hnul (hdir.tiled k (by omega) _ rfl hzero) (by omega) (by omega)
        (by rwa [Nat.sub_zero])

theorem finds_entry (hfs : fs.StandardBlocks) (hnul : 0#8 ∉ name) (hdir : DirTiled fs img dir) :
    ∃ fuel, (ext2LookupInDir fs img fuel dir name).val =
      some (findEntry (dirEntries fs img dir) name) := by
  refine (ext2LookupInDir_val (Nat.ne_of_gt hfs.pos) _).mpr ?_
  have h := findsFrom_outer hfs hnul hdir (fileSizeOf img dir / fs.blockSize) 0 (Nat.zero_add _)
  rwa [Nat.zero_mul, ← List.range_eq_range'] at h

end Search

end SeedOS.Fs
