import SeedOS.Fs.DirEntries

namespace SeedOS.Fs

open Foundation

section Path

theorem mem_of_mem_components {path name : List (BitVec 8)} (hname : name ∈ components path)
    {c : BitVec 8} (hc : c ∈ name) : c ∈ path := by
  have hpiece : name ∈ path.splitOn 0x2f#8 := (List.mem_filter.mp hname).1
  clear hname
  induction path generalizing name with
  | nil => simp_all
  | cons d path ih =>
    rw [List.splitOn_cons_eq_if_modifyHead] at hpiece
    split at hpiece
    · obtain rfl | hpiece := List.mem_cons.mp hpiece
      · exact absurd hc List.not_mem_nil
      · exact List.mem_cons_of_mem _ (ih hc hpiece)
    · cases hrest : path.splitOn 0x2f#8 with
      | nil => exact absurd hrest (List.splitOn_ne_nil _ _)
      | cons q qs =>
        rw [hrest] at hpiece ih
        obtain rfl | hpiece := List.mem_cons.mp hpiece
        · obtain rfl | hc := List.mem_cons.mp hc
          · exact List.mem_cons_self
          · exact List.mem_cons_of_mem _ (ih hc List.mem_cons_self)
        · exact List.mem_cons_of_mem _ (ih hc (List.mem_cons_of_mem _ hpiece))

end Path

section Resolve

/-- A file system that the reader can rely on: its directories are tiled by entries. -/
structure Ext2.WellFormed (fs : Ext2) (img : Image) : Prop where
  blocks : fs.StandardBlocks
  inodes : fs.inodesPerGroup ≠ 0
  dirs : ∀ ino dir, inodeOf fs img ino = some dir → isType 4 (u16 img dir) → DirTiled fs img dir

variable (fs : Ext2) (img : Image)

def resolve : List (List (BitVec 8)) → ℕ → ℕ
  | [], ino => ino
  | name :: names, ino =>
    match inodeOf fs img ino with
    | none => 0
    | some dir =>
      if isType 4 (u16 img dir) then
        let next := findEntry (dirEntries fs img dir) name
        if next = 0 then 0 else resolve names next
      else 0

def resolvePath (path : List (BitVec 8)) : ℕ :=
  if path.head? = some 0x2f#8 then resolve fs img (components path) 2 else 0

variable {fs img}

theorem Ext2.WellFormed.divisors (hfs : fs.WellFormed img) : fs.DivisorsNonzero := by
  obtain ⟨hp, hsq, -⟩ := hfs.blocks.ptrs
  refine ⟨Nat.ne_of_gt hfs.blocks.pos, hfs.inodes, Nat.ne_of_gt hp, ?_⟩
  rw [Nat.mod_eq_of_lt hsq]
  exact Nat.ne_of_gt (Nat.mul_pos hp hp)

theorem Ext2.WellFormed.readInode (hfs : fs.WellFormed img) (ino : ℕ) :
    (ext2ReadInode fs img ino).val = some (inodeOf fs img ino) := by
  cases h : (ext2ReadInode fs img ino).val with
  | none => exact absurd h (ext2ReadInode_ne_none hfs.divisors img ino)
  | some x =>
    cases x with
    | none =>
      cases hi : inodeOf fs img ino with
      | none => rfl
      | some dir =>
        rw [(ext2ReadInode_val fs img ino dir).mpr hi] at h
        exact h.symm
    | some dir => rw [(ext2ReadInode_val fs img ino dir).mp h]

theorem lookupNames_resolves (hfs : fs.WellFormed img) {names : List (List (BitVec 8))}
    (hnul : ∀ name ∈ names, 0#8 ∉ name) (ino : ℕ) :
    ∃ enough, ∀ fuel ≥ enough,
      (lookupNames fs img fuel names ino).val = some (resolve fs img names ino) := by
  induction names generalizing ino with
  | nil => exact ⟨0, fun _ _ ↦ rfl⟩
  | cons name names ih =>
    simp only [lookupNames, resolve, Faulting.val_bind, hfs.readInode, Option.bind_some]
    cases hi : inodeOf fs img ino with
    | none => exact ⟨0, fun _ _ ↦ rfl⟩
    | some dir =>
      simp only [Faulting.val_bind, ext2IsDirectory_val, Option.bind_some, decide_eq_true_eq]
      by_cases ht : isType 4 (u16 img dir)
      · obtain ⟨fuel₁, hfind⟩ := finds_entry hfs.blocks (hnul name List.mem_cons_self)
          (hfs.dirs ino dir hi ht)
        obtain ⟨fuel₂, hrest⟩ := ih (fun n hn ↦ hnul n (List.mem_cons_of_mem _ hn))
          (findEntry (dirEntries fs img dir) name)
        refine ⟨max fuel₁ fuel₂, fun fuel hfuel ↦ ?_⟩
        have hval := ext2LookupInDir_val_mono fs img
          (Nat.le_trans (Nat.le_max_left fuel₁ fuel₂) hfuel) hfind
        simp only [if_pos ht, Faulting.val_bind, hval, Option.bind_some]
        by_cases hz : findEntry (dirEntries fs img dir) name = 0
        · rw [if_pos hz, if_pos hz, Faulting.val_pure]
        · rw [if_neg hz, if_neg hz, hrest fuel (Nat.le_trans (Nat.le_max_right ..) hfuel)]
      · refine ⟨0, fun fuel _ ↦ ?_⟩
        rw [if_neg ht, if_neg ht, Faulting.val_pure]

/-- `ext2_lookup` resolves the components of a path. -/
theorem ext2_lookup_resolves (hfs : fs.WellFormed img) {path : List (BitVec 8)}
    (hnul : 0#8 ∉ path) :
    (∃ enough, ∀ fuel ≥ enough,
      (ext2Lookup fs img fuel path).val = some (resolvePath fs img path)) ∧
    (∀ xs ys, path = xs ++ 0x2f#8 :: ys →
      resolvePath fs img (xs ++ 0x2f#8 :: 0x2f#8 :: ys) = resolvePath fs img path) ∧
    (path ≠ [] → resolvePath fs img (path ++ [0x2f#8]) = resolvePath fs img path) := by
  refine ⟨?_, ?_, ?_⟩
  · simp only [ext2Lookup_eq, resolvePath]
    by_cases hslash : path.head? = some 0x2f#8
    · simp only [if_pos hslash]
      exact lookupNames_resolves hfs (fun name hname hc ↦ hnul (mem_of_mem_components hname hc)) 2
    · simp only [if_neg hslash]
      exact ⟨0, fun _ _ ↦ rfl⟩
  · rintro xs ys rfl
    have hhead : (xs ++ 0x2f#8 :: 0x2f#8 :: ys).head? = (xs ++ 0x2f#8 :: ys).head? := by
      cases xs <;> rfl
    rw [resolvePath, resolvePath, hhead, components_append, components_append, components_slash]
  · intro hne
    have hhead : (path ++ [0x2f#8]).head? = path.head? := by
      cases path with
      | nil => exact absurd rfl hne
      | cons c p => rfl
    rw [resolvePath, resolvePath, hhead, components_append, components_nil, List.append_nil]

theorem rootImage_wellFormed : (mounted (rootImage 4#8)).WellFormed (rootImage 4#8) := by
  have hblocks : (mounted (rootImage 4#8)).StandardBlocks := ⟨0, by decide, by decide +kernel⟩
  refine ⟨hblocks, by decide +kernel, fun ino dir hi ht ↦ ?_⟩
  have hfirst : (fileBlocks (mounted (rootImage 4#8)) (rootImage 4#8) 3200).getD 0 0 = 4 := by
    have hblock : blockOf (mounted (rootImage 4#8)) (rootImage 4#8) 3200 0 = some 4 := by
      decide +kernel
    exact Option.some.inj ((blockOf_eq _ _ hblocks 0).symm.trans hblock)
  have hdir : DirTiled (mounted (rootImage 4#8)) (rootImage 4#8) 3200 := by
    refine ⟨by decide +kernel, fun k hk b hb hne ↦ ?_⟩
    have hcount : fileSizeOf (rootImage 4#8) 3200 / (mounted (rootImage 4#8)).blockSize = 1 := by
      decide +kernel
    obtain rfl : k = 0 := by omega
    obtain rfl : b = 4 := hb.symm.trans hfirst
    exact .entry (by decide +kernel) .stop
  have hino : ino ≤ 2 := by
    have hcount : u32 (rootImage 4#8) 1024 = 2 := by decide +kernel
    refine Nat.le_of_not_lt fun hlt ↦ ?_
    rw [inodeOf, if_pos (.inr (.inl (by omega)))] at hi
    exact absurd hi (by simp)
  match ino, hino with
  | 0, _ => exact absurd hi (by simp [inodeOf])
  | 1, _ =>
    have h₁ : inodeOf (mounted (rootImage 4#8)) (rootImage 4#8) 1 = some 3072 := by decide +kernel
    obtain rfl := Option.some.inj (hi.symm.trans h₁)
    exact absurd ht (by decide +kernel)
  | 2, _ =>
    have h₂ : inodeOf (mounted (rootImage 4#8)) (rootImage 4#8) 2 = some 3200 := by decide +kernel
    obtain rfl := Option.some.inj (hi.symm.trans h₂)
    exact hdir

/-- A lookup of "//a/". -/
theorem ext2_lookup_resolves_root : ∃ enough, ∀ fuel ≥ enough,
    (ext2Lookup (mounted (rootImage 4#8)) (rootImage 4#8) fuel
      [0x2f#8, 0x2f#8, 0x61#8, 0x2f#8]).val =
      some (resolvePath (mounted (rootImage 4#8)) (rootImage 4#8)
        [0x2f#8, 0x2f#8, 0x61#8, 0x2f#8]) :=
  (ext2_lookup_resolves rootImage_wellFormed (by decide)).1

end Resolve

end SeedOS.Fs
