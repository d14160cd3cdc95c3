import SeedOS.Fs.Ext2Bounds
import SeedOS.Fs.FileContent
import SeedOS.System.FileOps
import SeedOS.System.ReadCalls

namespace SeedOS.System

open Foundation Memory Process Fs Function

section Partition

def returned (calls : List ReadCall) : List (BitVec 8) := calls.flatMap (·.bytes)

/-- The calls have returned the content up to `offset`, each as much as it asked for and
there was left. -/
structure Partition (content : List (BitVec 8)) (calls : List ReadCall) (offset : ℕ) : Prop where
  bytes : returned calls = content.take offset
  le : offset ≤ content.length
  each : ∀ i c, calls[i]? = some c →
    c.bytes.length = min c.count (content.length - (returned (calls.take i)).length)

variable {content : List (BitVec 8)} {calls : List ReadCall} {offset : ℕ}

theorem Partition.length (h : Partition content calls offset) :
    (returned calls).length = offset := by
  rw [h.bytes, List.length_take, Nat.min_eq_left h.le]

theorem Partition.done_le (h : Partition content calls offset) (i : ℕ) :
    (returned (calls.take i)).length ≤ content.length := by
  have hsplit : returned calls = returned (calls.take i) ++ returned (calls.drop i) := by
    rw [returned, returned, returned, ← List.flatMap_append, List.take_append_drop]
  have hlen := h.length
  have hle := h.le
  rw [hsplit, List.length_append] at hlen
  omega

theorem Partition.read (h : Partition content calls offset) (file : Ptr) (count : ℕ) :
    Partition content (calls ++ [⟨file, count, (content.drop offset).take count⟩])
      (offset + ((content.drop offset).take count).length) := by
  have hle := h.le
  refine ⟨?_, by simp; omega, fun i c hc ↦ ?_⟩
  · have hret : returned (calls ++ [⟨file, count, (content.drop offset).take count⟩]) =
        returned calls ++ (content.drop offset).take count := by
      simp [returned]
    rw [hret, h.bytes, List.take_add]
    congr 1
    rw [List.length_take, ← List.take_eq_take_min]
  · by_cases hi : i < calls.length
    · rw [List.getElem?_append_left hi] at hc
      rw [List.take_append_of_le_length (Nat.le_of_lt hi)]
      exact h.each i c hc
    · rw [List.getElem?_append_right (Nat.le_of_not_lt hi), List.getElem?_singleton] at hc
      split at hc
      · rename_i hlast
        obtain rfl := Option.some.inj hc
        rw [List.take_left' (by omega), h.length]
        simp
      · simp at hc

end Partition

section Reads

variable {fs : Ext2} {img : Image} {wp : Bool} {st st' : FileState} {file : Ptr} {inode : ℕ}

def FileState.callsOn (st : FileState) (file : Ptr) : List ReadCall :=
  st.calls.filter (·.file = file)

/-- `file` is open for reading on the file at `inode`, which the calls so far have read
up to its offset. -/
structure Reading (fs : Ext2) (img : Image) (file : Ptr) (inode : ℕ) (st : FileState) : Prop where
  files : FilesOk st.kernel
  ops : ∀ v, st.kernel.files file = some v → v.ops = some .ext2
  handle : ∃ h, st.handles file = some h ∧ h.flags &&& 3#32 ≠ 1#32 ∧ h.inode = inode ∧
    h.size = fileSizeOf img inode ∧
    Partition (fileContent fs img inode) (st.callsOn file) h.offset

/-- A regular file that the 32-bit block numbers reach. -/
structure Readable (fs : Ext2) (img : Image) (inode : ℕ) : Prop where
  blocks : fs.StandardBlocks
  size : fileSizeOf img inode ≤ 2 ^ 32 * fs.blockSize

theorem Readable.size_le (h : Readable fs img inode) : fileSizeOf img inode ≤ 2 ^ 48 := by
  obtain ⟨log, hlog, hbs⟩ := h.blocks
  have := Nat.pow_le_pow_right (n := 2) (by decide) hlog
  have := h.size
  omega

theorem ext2FileRead_val {h : Handle} (hfile : Readable fs img h.inode)
    (hsize : h.size = fileSizeOf img h.inode) {count : ℕ} (hcount : count ≤ 2 ^ 47) :
    (ext2FileRead fs img h count).val =
      some (((fileContent fs img h.inode).drop h.offset).take count) := by
  have hmax := hfile.size_le
  have hlen := length_fileContent fs img h.inode
  unfold ext2FileRead
  by_cases hoff : h.size ≤ h.offset
  · rw [if_pos hoff, List.drop_of_length_le (by omega), List.take_nil, Faulting.val_pure]
  · rw [if_neg hoff, Nat.mod_eq_of_lt (by omega)]
    dsimp only
    by_cases hend : h.size < h.offset + count
    · rw [if_pos hend, ext2ReadFile_val img h.inode hfile.blocks hfile.size (by omega),
        List.take_of_length_le (by rw [List.length_drop]; omega),
        List.take_of_length_le (by rw [List.length_drop]; omega)]
    · rw [if_neg hend, ext2ReadFile_val img h.inode hfile.blocks hfile.size (by omega)]

theorem advance_eq (h : Handle) {n : ℕ} (hn : h.offset + n < 2 ^ 63) :
    h.advance n = { h with offset := h.offset + n } := by
  have hint : (BitVec.ofNat 64 n).toInt = n := by
    rw [BitVec.toInt_eq_toNat_of_lt (by rw [BitVec.toNat_ofNat]; omega), BitVec.toNat_ofNat]
    omega
  unfold Handle.advance
  rw [hint]
  by_cases h₀ : 0 < n
  · rw [if_pos (by omega), Nat.mod_eq_of_lt (by omega)]
  · obtain rfl : n = 0 := by omega
    simp

theorem count_le {buf count pml4Phys : Word} {s : Vm}
    (h : vmmUserRangeWritable s pml4Phys buf count = true) : count.toNat ≤ 2 ^ 47 := by
  rw [vmmUserRangeWritable, userRangeCheck, Bool.and_eq_true, vmmValidateUserRange_iff] at h
  omega

theorem sysRead_cases {p : Ptr} {fd buf count ret : Word}
    (heq : sysRead fs img wp st p fd buf count = some (ret, st')) :
    st' = st ∨ (∃ f, st' = { st with calls := st.calls ++ [⟨f, 0, []⟩] }) ∨
      ∃ f h v bytes vm, count.toNat ≤ 2 ^ 47 ∧ st.kernel.files f = some v ∧
        st.handles f = some h ∧ vfsRead fs img v h count.toNat = some (.inr bytes) ∧
        st' = ⟨{ st.kernel with vm := vm }, update st.handles f (some (h.advance bytes.length)),
          st.calls ++ [⟨f, count.toNat, bytes⟩]⟩ := by
  simp only [sysRead, Option.bind_eq_bind, Option.bind_eq_some_iff] at heq
  obtain ⟨proc, _, heq⟩ := heq
  split at heq
  · split at heq
    · cases heq
      exact .inl rfl
    · rename_i f _
      split at heq
      · cases heq
        exact .inr (.inl ⟨f, rfl⟩)
      split at heq
      · cases heq
        exact .inl rfl
      · rename_i hvalid
        simp only [Option.bind_eq_some_iff] at heq
        obtain ⟨v, hv, h, hh, res, hres, heq⟩ := heq
        cases res with
        | inl err =>
          cases heq
          exact .inl rfl
        | inr bytes =>
          simp only [Option.bind_eq_some_iff, Option.some.injEq,
            Prod.mk.injEq] at heq
          obtain ⟨vm, _, _, rfl⟩ := heq
          exact .inr (.inr ⟨f, h, v, bytes, vm, count_le (by simpa using hvalid), hv, hh, hres, rfl⟩)
  · cases heq
    exact .inl rfl

theorem vfsRead_val {h : Handle} {v : VfsFile} (hops : v.ops = some .ext2)
    (hflags : h.flags &&& 3#32 ≠ 1#32) (hfile : Readable fs img h.inode)
    (hsize : h.size = fileSizeOf img h.inode) {count : ℕ} (hcount : count ≤ 2 ^ 47) :
    vfsRead fs img v h count =
      some (.inr (((fileContent fs img h.inode).drop h.offset).take count)) := by
  rw [vfsRead, if_neg hflags, hops]
  dsimp only
  rw [ext2FileRead_val hfile hsize hcount, Option.map_some]

theorem callsOn_append (st : FileState) (k : Kernel) (handles : Ptr → Option Handle)
    (c : ReadCall) :
    FileState.callsOn ⟨k, handles, st.calls ++ [c]⟩ file =
      st.callsOn file ++ if c.file = file then [c] else [] := by
  rw [FileState.callsOn, FileState.callsOn, List.filter_append, List.filter_singleton]
  by_cases hc : c.file = file
  · simp [hc]
  · simp [hc]

theorem Reading.read (hr : Reading fs img file inode st) (hfile : Readable fs img inode) {p : Ptr}
    {fd buf count ret : Word} (heq : sysRead fs img wp st p fd buf count = some (ret, st')) :
    Reading fs img file inode st' := by
  obtain ⟨h, hh, hflags, rfl, hsize, hpart⟩ := hr.handle
  rcases sysRead_cases heq with rfl | ⟨f, rfl⟩ | ⟨f, h', v, bytes, vm, hcount, hv, hh', hread, rfl⟩
  · exact hr
  · refine ⟨hr.files, hr.ops, h, hh, hflags, rfl, hsize, ?_⟩
    rw [callsOn_append]
    by_cases hf : f = file
    · rw [if_pos hf]
      simpa using hpart.read f 0
    · rw [if_neg hf, List.append_nil]
      exact hpart
  · refine ⟨hr.files.same ⟨rfl, rfl, rfl, fun _ ↦ id⟩, hr.ops, ?_⟩
    rw [callsOn_append]
    by_cases hf : f = file
    · subst hf
      obtain rfl := Option.some.inj (hh.symm.trans hh')
      rw [vfsRead_val (hr.ops v hv) hflags hfile hsize hcount, Option.some.injEq,
        Sum.inr.injEq] at hread
      subst hread
      have hnext := hpart.read f count.toNat
      have hle := hnext.le
      rw [length_fileContent] at hle
      have hmax := hfile.size_le
      rw [advance_eq h (by omega), if_pos rfl]
      exact ⟨_, update_self .., hflags, rfl, hsize, hnext⟩
    · rw [if_neg hf, List.append_nil]
      exact ⟨h, (update_of_ne (Ne.symm hf) ..).trans hh, hflags, rfl, hsize, hpart⟩

def FileAct.NewBlocks (st : FileState) : FileAct → Prop
  | .fork _ blocks => ∀ c, blocks.pcb = some c → NewPcb st.kernel c
  | _ => True

theorem Reading.exec (hr : Reading fs img file inode st) (hfile : Readable fs img inode)
    {a : FileAct} (ha : a.NewBlocks st) {fuel : ℕ} (heq : st.exec fs img wp fuel a = some st') :
    Reading fs img file inode st' := by
  cases a with
  | memory vm =>
    exact Option.some.inj heq ▸ ⟨hr.files.same ⟨rfl, rfl, rfl, fun _ ↦ id⟩, hr.ops, hr.handle⟩
  | fork p blocks =>
    obtain ⟨⟨ret, k'⟩, hk', rfl⟩ := Option.map_eq_some_iff.mp heq
    refine ⟨(sysFork_files hr.files ha hk').1, fun v' hv' ↦ ?_, hr.handle⟩
    obtain ⟨v, hv, hops⟩ := sysFork_ops hk' file v' hv'
    rw [← hops]
    exact hr.ops v hv
  | read p fd buf count =>
    obtain ⟨⟨ret, _⟩, hret, rfl⟩ := Option.map_eq_some_iff.mp heq
    exact hr.read hfile hret

/-- The kernel can store to the buffer: frames have one role each, and where `CR0.WP` is
set every page of the buffer is a writable one. -/
structure CanStore (wp : Bool) (s : Vm) (pml4Phys buf count : Word) : Prop where
  frames : ∃ roots role, Inv s roots role ∧ pageOf pml4Phys ∈ roots
  writable : wp = true → ∀ i < count.toNat, ∀ t,
    translate s pml4Phys (buf + BitVec.ofNat 64 i) = some t → t.writable = true

theorem CanStore.store {s : Vm} {pml4Phys buf count : Word}
    (h : CanStore wp s pml4Phys buf count)
    (hvalid : vmmUserRangeWritable s pml4Phys buf count = true) {bytes : List (BitVec 8)}
    (hlen : bytes.length ≤ count.toNat) : ∃ s', kernelStores wp pml4Phys buf bytes s = some s' := by
  obtain ⟨roots, role, hinv, hroot⟩ := h.frames
  have hrange := hvalid
  rw [vmmUserRangeWritable, userRangeCheck, Bool.and_eq_true, vmmValidateUserRange_iff] at hrange
  refine kernelStores_some bytes hroot (fun i hi ↦ ?_) hinv
  have hv : (pml4Index (buf + BitVec.ofNat 64 i)).val < 256 := by
    refine pml4Index_of_lt ?_
    rw [BitVec.toNat_add, BitVec.toNat_ofNat]
    omega
  have hpage := userRangeCheck_page hvalid (i := i) (by omega)
  simp only [pageAllowed, Bool.and_eq_true] at hpage
  obtain ⟨t, ht⟩ := Option.isSome_iff_exists.mp (translate_of_present hinv hroot hv hpage.1.1)
  exact ⟨hv, t, ht, fun hwp ↦ h.writable hwp i (by omega) t ht⟩

theorem Reading.returns (hr : Reading fs img file inode st) (hfile : Readable fs img inode)
    {p : Ptr} {proc : Pcb} (hp : st.kernel.pcbs p = some proc) {fd buf count : Word}
    (hfd : fd.toNat < 256) (hentry : proc.fdTable ⟨fd.toNat, hfd⟩ = some file)
    (hvalid : count = 0#64 ∨ vmmUserRangeWritable st.kernel.vm proc.pml4Phys buf count = true)
    (hstore : CanStore wp st.kernel.vm proc.pml4Phys buf count) {h : Handle}
    (hh : st.handles file = some h) :
    ∃ st', sysRead fs img wp st p fd buf count =
      some (BitVec.ofNat 64 (min count.toNat (fileSizeOf img inode - h.offset)), st') := by
  obtain ⟨h', hh', hflags, rfl, hsize, hpart⟩ := hr.handle
  obtain rfl := Option.some.inj (hh.symm.trans hh')
  by_cases hz : count = 0#64
  · refine ⟨{ st with calls := st.calls ++ [⟨file, 0, []⟩] }, ?_⟩
    simp only [sysRead, hp, dif_pos hfd, hentry, if_pos hz, Option.bind_eq_bind, Option.bind_some]
    simp [hz]
  · have hv := hvalid.resolve_left hz
    obtain ⟨v, hf⟩ := Option.isSome_iff_exists.mp (hr.files.counted.entry p ⟨fd.toNat, hfd⟩ file
      (by rw [table_of_some hp, hentry]))
    have hread := vfsRead_val (hr.ops v hf) hflags hfile hsize (count_le hv)
    obtain ⟨vm, hvm⟩ : ∃ vm, kernelStores wp proc.pml4Phys buf
        (((fileContent fs img h.inode).drop h.offset).take count.toNat) st.kernel.vm = some vm :=
      hstore.store hv (by simp)
    refine ⟨⟨{ st.kernel with vm := vm }, update st.handles file (some (h.advance
      (((fileContent fs img h.inode).drop h.offset).take count.toNat).length)), st.calls ++
        [⟨file, count.toNat, ((fileContent fs img h.inode).drop h.offset).take count.toNat⟩]⟩, ?_⟩
    simp only [sysRead, hp, dif_pos hfd, hentry, if_neg hz, hv, hf, hh, hread, hvm,
      Option.bind_eq_bind, Option.bind_some, Bool.true_eq_false, if_false]
    simp

end Reads

section Run

variable {fs : Ext2} {img : Image} {wp : Bool} {k₀ k : Kernel} {st : FileState} {inode : ℕ}

abbrev SharedRuns (fs : Ext2) (img : Image) (wp : Bool) : FileState → FileState → Prop :=
  PartialRuns (fun st (a : ℕ × FileAct) ↦ st.exec fs img wp a.1 a.2) fun st a ↦ a.2.NewBlocks st

theorem Reading.of_open (hk : FilesOk k) {handles : Ptr → Option Handle} {fuel : ℕ} {p file : Ptr}
    {path : List (BitVec 8)} {flags ret : Word} {blocks : OpenBlocks} {st₁ : FileState}
    (hpath : (openPath fs img fuel path).val = some (.inr inode))
    (hblock : blocks.file = some file) (hnew : k.files file = none)
    (hflags : flags.setWidth 32 &&& 3#32 ≠ 1#32)
    (hopen : sysOpenPath fs img fuel ⟨k, handles, []⟩ p path flags blocks = some (ret, st₁))
    (hret : 0 ≤ ret.toInt) : Reading fs img file inode st₁ := by
  simp only [sysOpenPath, hpath, hblock, ext2GetFileSize_val, Option.bind_eq_bind,
    Option.bind_some, Option.bind_eq_some_iff] at hopen
  obtain ⟨⟨ret', k'⟩, hsys, hopen⟩ := hopen
  have hok := (sysOpen_files hk (fun f hf ↦ Option.some.inj (hblock.symm.trans hf) ▸ hnew) hsys).1
  split at hopen
  · rename_i hneg
    simp only [Option.some.injEq, Prod.mk.injEq] at hopen
    rw [← hopen.1] at hret
    exact absurd hneg (Int.not_lt.mpr hret)
  · cases hopen
    refine ⟨hok, fun v hv ↦ ?_, _, update_self .., hflags, rfl, rfl, ⟨rfl, Nat.zero_le _, ?_⟩⟩
    · exact sysOpen_ops hblock hnew hsys hv
    · intro i c hc
      simp [FileState.callsOn] at hc

/-- Reads partition the file. -/
theorem reads_partition_file (hboot : k₀.Boot) (hreach : KernelRuns NewBlocks k₀ k)
    {handles : Ptr → Option Handle} {fuel : ℕ} {p file : Ptr} {path : List (BitVec 8)}
    {flags ret : Word} {blocks : OpenBlocks} {st₁ : FileState}
    (hpath : (openPath fs img fuel path).val = some (.inr inode)) (hfile : Readable fs img inode)
    (hblock : blocks.file = some file) (hnew : k.files file = none)
    (hflags : flags.setWidth 32 &&& 3#32 ≠ 1#32)
    (hopen : sysOpenPath fs img fuel ⟨k, handles, []⟩ p path flags blocks = some (ret, st₁))
    (hret : 0 ≤ ret.toInt) (hrun : SharedRuns fs img wp st₁ st) :
    ∃ h, st.handles file = some h ∧
      returned (st.callsOn file) = (fileContent fs img inode).take h.offset ∧
      (∀ i c, (st.callsOn file)[i]? = some c →
        c.bytes.length =
          min c.count (fileSizeOf img inode - (returned ((st.callsOn file).take i)).length) ∧
        (c.bytes.length = 0 ↔ c.count = 0 ∨
          (returned ((st.callsOn file).take i)).length = fileSizeOf img inode)) ∧
      ∀ q proc fd buf count, st.kernel.pcbs q = some proc → ∀ hfd : fd.toNat < 256,
        proc.fdTable ⟨fd.toNat, hfd⟩ = some file →
        (count = 0#64 ∨ vmmUserRangeWritable st.kernel.vm proc.pml4Phys buf count = true) →
        CanStore wp st.kernel.vm proc.pml4Phys buf count →
        ∃ st', sysRead fs img wp st q fd buf count =
          some (BitVec.ofNat 64 (min count.toNat (fileSizeOf img inode - h.offset)), st') := by
  have hk : FilesOk k := PartialRuns.invariant hreach (.of_boot hboot)
    fun k a k' hk ha heq ↦ (exec_files hk ha heq).1
  have hr : Reading fs img file inode st := PartialRuns.invariant hrun
    (.of_open hk hpath hblock hnew hflags hopen hret) fun st a st' h ha heq ↦ h.exec hfile ha heq
  obtain ⟨h, hh, _, _, _, hpart⟩ := hr.handle
  refine ⟨h, hh, hpart.bytes, fun i c hc ↦ ?_, fun q proc fd buf count hq hfd hentry hv hs ↦
    hr.returns hfile hq hfd hentry hv hs hh⟩
  have hle := hpart.done_le i
  have heach := hpart.each i c hc
  rw [length_fileContent] at hle heach
  exact ⟨heach, by omega⟩

/-- A file system of 1 KiB blocks with the file `/f`, which holds three bytes. -/
def treeImage : Image :=
  imageOf [(1024, 16#8), (1024 + 4, 7#8), (1024 + 33, 0x20#8), (1024 + 40, 16#8),
    (1024 + 56, 0x53#8), (1024 + 57, 0xEF#8), (2048 + 8, 3#8),
    -- inode 2, the root directory, and inode 11
    (3200 + 1, 0x40#8), (3200 + 5, 4#8), (3200 + 40, 5#8),
    (4352 + 1, 0x80#8), (4352 + 4, 3#8), (4352 + 40, 6#8),
    -- the entries of the directory
    (5120, 2#8), (5120 + 4, 12#8), (5120 + 6, 1#8), (5120 + 8, 0x2e#8),
    (5132, 2#8), (5132 + 4, 12#8), (5132 + 6, 2#8), (5132 + 8, 0x2e#8), (5132 + 9, 0x2e#8),
    (5144, 11#8), (5144 + 4, 0xE8#8), (5144 + 5, 3#8), (5144 + 6, 1#8), (5144 + 8, 0x66#8),
    (6144, 0x61#8), (6145, 0x62#8), (6146, 0x63#8)]

def treeFs : Ext2 := ⟨1024, 16, 128, 2048⟩

def filePath : List (BitVec 8) := [0x2f#8, 0x66#8]

def pagedKernel : Kernel :=
  { initKernel with
    vm := (sysMmap initKernel.vm 0x3000#64 userMmapStart 0#64 4096#64 protWrite mapAnonymous
      (-1#64)).2.2 }

def openedState : FileState :=
  ((sysOpenPath treeFs treeImage 5 ⟨pagedKernel, fun _ ↦ none, []⟩ initPtr filePath 0#64
    fileBlocksOf).map (·.2)).getD ⟨pagedKernel, fun _ ↦ none, []⟩

def sharedState : FileState :=
  (openedState.exec treeFs treeImage true 0 (.fork initPtr forkBlocks)).getD openedState

theorem pagedKernel_run : KernelRuns NewBlocks emptyKernel pagedKernel :=
  PartialRuns.step initKernel_run (a := (0, .memory pagedKernel.vm)) trivial rfl

theorem openedState_eq : sysOpenPath treeFs treeImage 5 ⟨pagedKernel, fun _ ↦ none, []⟩ initPtr
    filePath 0#64 fileBlocksOf = some (3#64, openedState) := by
  have hret : (sysOpenPath treeFs treeImage 5 ⟨pagedKernel, fun _ ↦ none, []⟩ initPtr filePath 0#64
      fileBlocksOf).any (·.1 = 3#64) := by decide +kernel
  obtain ⟨⟨ret, st⟩, heq, hret⟩ := (Option.any_eq_true ..).mp hret
  rw [openedState, heq]
  simp only [decide_eq_true_eq] at hret
  simp [hret]

theorem openPath_file : (openPath treeFs treeImage 5 filePath).val = some (.inr 4352) := by
  decide +kernel

theorem openedState_pcbs {q : Ptr} (hq : q ≠ initPtr) : openedState.kernel.pcbs q = none := by
  have heq := openedState_eq
  simp only [sysOpenPath, openPath_file, fileBlocksOf, ext2GetFileSize_val, Option.bind_eq_bind,
    Option.bind_some, Option.bind_eq_some_iff] at heq
  obtain ⟨⟨ret, k'⟩, hsys, heq⟩ := heq
  have hk' : openedState.kernel = k' := by
    split at heq <;> exact congrArg (·.2.kernel) (Option.some.inj heq).symm
  rw [hk', sysOpen_pcbs hq hsys]
  exact initKernel_pcbs hq

/-- After a fork the parent reads into a page that is shared. The check lets the page
pass, and the first store to it halts the system. -/
theorem read_into_shared_page_halts : ¬ ∀ (st : FileState) (q : Ptr) (proc : Pcb)
    (fd buf count : Word) (hfd : fd.toNat < 256), SharedRuns treeFs treeImage true openedState st →
    st.kernel.pcbs q = some proc → proc.fdTable ⟨fd.toNat, hfd⟩ = some filePtr →
    vmmUserRangeWritable st.kernel.vm proc.pml4Phys buf count = true →
    (sysRead treeFs treeImage true st q fd buf count).isSome := by
  intro h
  have hfork : (FileAct.fork initPtr forkBlocks).NewBlocks openedState := by
    intro c hc
    obtain rfl := Option.some.inj hc
    refine ⟨openedState_pcbs (by decide), by decide, fun q hq ↦ ?_⟩
    by_cases hinit : q = initPtr
    · rw [hinit]
      exact .inr (by decide)
    · simp [openedState_pcbs hinit] at hq
  have hrun₀ : SharedRuns treeFs treeImage true openedState openedState := .refl
  have hstep : (openedState.exec treeFs treeImage true 0 (.fork initPtr forkBlocks)).isSome ∧
      ((sharedState.kernel.pcbs initPtr).any fun proc ↦ proc.fdTable 3 = some filePtr &&
        vmmUserRangeWritable sharedState.kernel.vm proc.pml4Phys userMmapStart 2#64) ∧
      (sysRead treeFs treeImage true sharedState initPtr 3#64 userMmapStart 2#64).isNone := by
    decide +kernel
  obtain ⟨hsome, hproc, hnone⟩ := hstep
  have hrun : SharedRuns treeFs treeImage true openedState sharedState :=
    PartialRuns.step_getD hrun₀ (a := (0, .fork initPtr forkBlocks)) hfork hsome _
  obtain ⟨proc, hp, hproc⟩ := (Option.any_eq_true ..).mp hproc
  simp only [Bool.and_eq_true, decide_eq_true_eq] at hproc
  have hread := h sharedState initPtr proc 3#64 userMmapStart 2#64 (by decide) hrun hp hproc.1 hproc.2
  rw [Option.isNone_iff_eq_none.mp hnone] at hread
  exact Bool.false_ne_true hread

def firstRead : FileState :=
  (openedState.exec treeFs treeImage true 0 (.read initPtr 3#64 userMmapStart 2#64)).getD openedState

theorem reads_partition_file_first :
    firstRead.callsOn filePtr = [⟨filePtr, 2, [0x61#8, 0x62#8]⟩] ∧
    ∃ h, firstRead.handles filePtr = some h ∧
      returned (firstRead.callsOn filePtr) = (fileContent treeFs treeImage 4352).take h.offset := by
  have hrun₀ : SharedRuns treeFs treeImage true openedState openedState := .refl
  have hstep : (openedState.exec treeFs treeImage true 0
        (.read initPtr 3#64 userMmapStart 2#64)).isSome ∧
      firstRead.callsOn filePtr = [⟨filePtr, 2, [0x61#8, 0x62#8]⟩] := by decide +kernel
  obtain ⟨hsome, hcalls⟩ := hstep
  have hrun : SharedRuns treeFs treeImage true openedState firstRead :=
    PartialRuns.step_getD hrun₀ (a := (0, .read initPtr 3#64 userMmapStart 2#64)) trivial hsome _
  have hfile : Readable treeFs treeImage 4352 := by
    refine ⟨⟨0, by decide, rfl⟩, ?_⟩
    rw [show fileSizeOf treeImage 4352 = 3 by decide +kernel]
    decide
  obtain ⟨h, hh, hbytes, _⟩ := reads_partition_file emptyKernel_boot pagedKernel_run
    openPath_file hfile (show fileBlocksOf.file = some filePtr from rfl)
    (Option.isNone_iff_eq_none.mp (by decide +kernel)) (by decide) openedState_eq (by decide) hrun
  exact ⟨hcalls, h, hh, hbytes⟩

end Run

end SeedOS.System
