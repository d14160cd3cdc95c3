import SeedOS.Kheap.HeapRuns
import SeedOS.System.SharedReads
import SeedOS.System.UserString

namespace SeedOS.System

open Foundation Memory Process Fs Function
open Kheap (Heap HeapSys LiveInv Block Pager Request Allocates imageBase grant)

def esrch : Word := -3#64

def pathMax : Word := 256#64

/-- The kernel with `fd_table[].flags` of its processes, `private` of its files, and the heap
that they are in. -/
structure OpenState (W : Type) where
  kernel : Kernel
  fdFlags : Ptr → Fin 256 → BitVec 32
  privates : Ptr → Option Ptr
  handles : Ptr → Option Handle
  heap : HeapSys W

namespace OpenState

variable {W : Type}

section Calls

def kmalloc (pager : Pager W) (st : OpenState W) (size : ℕ) :
    Option (Option Ptr × OpenState W) :=
  (Kheap.kmalloc pager st.heap.heap size).map fun (ptr, heap) ↦
    (if ptr = 0 then none else some (BitVec.ofNat 64 ptr),
      { st with heap := ⟨heap, grant st.heap.live ptr size⟩ })

def kfree (st : OpenState W) (ptr : Ptr) : OpenState W :=
  match Kheap.kfree st.heap.heap ptr.toNat with
  | (res, heap) =>
    { st with heap := ⟨heap, if res = .freed then Kheap.drop st.heap.live ptr.toNat
        else st.heap.live⟩ }

/-- `vfs_file_alloc`; a `vfs_file_t` has 40 bytes. -/
def vfsFileAlloc (pager : Pager W) (st : OpenState W) : Option (Option Ptr × OpenState W) := do
  match ← st.kmalloc pager 40 with
  | (none, st) => some (none, st)
  | (some file, st) =>
    some (some file, { st with
      kernel := System.vfsFileAlloc st.kernel file
      privates := update st.privates file none
      handles := update st.handles file none })

def ext2FileClose (st : OpenState W) (file : Ptr) : OpenState W :=
  match st.privates file with
  | none => st
  | some priv =>
    let st := st.kfree priv
    { st with privates := update st.privates file none }

/-- `vfs_file_unref`; `tty_close` frees nothing. -/
def vfsFileUnref (st : OpenState W) (file : Ptr) : Option (OpenState W) := do
  let f ← st.kernel.files file
  let k ← System.vfsFileUnref st.kernel file
  let st := { st with kernel := k }
  if (f.refcount - 1#32).toInt ≤ 0 then
    let st := if f.ops = some .ext2 then st.ext2FileClose file else st
    some (st.kfree file)
  else some st

def vfsClose (st : OpenState W) (file : Ptr) : Option (OpenState W) := st.vfsFileUnref file

def setEntry (st : OpenState W) (p : Ptr) (fd : Fin 256) (file : Option Ptr) :
    Option (OpenState W) := do
  let k ← st.kernel.modify p (setFd fd file)
  some { st with
    kernel := k
    fdFlags := update st.fdFlags p (update (st.fdFlags p) fd 0#32) }

def processFdFree (st : OpenState W) (p : Ptr) (fd : Fin 256) : Option (OpenState W) :=
  st.setEntry p fd none

variable (fs : Ext2) (img : Image)

/-- `sys_open`, once it has the inode of a regular file. -/
def openInode (pager : Pager W) (st : OpenState W) (p : Ptr) (proc : Pcb) (inode : ℕ)
    (flags : Word) : Option (Word × OpenState W) :=
  match processFdAlloc proc with
  | none => some (emfile, st)
  | some fd => do
    match ← st.vfsFileAlloc pager with
    | (none, st) =>
      let st ← st.processFdFree p fd
      some (enomem, st)
    | (some file, st) =>
      -- an `ext2_file_private_t` has 24 bytes
      match ← st.kmalloc pager 24 with
      | (none, st) =>
        let st ← st.vfsClose file
        let st ← st.processFdFree p fd
        some (enomem, st)
      | (some priv, st) =>
        let size ← (ext2GetFileSize img inode).val
        let st := { st with
          kernel := { st.kernel with
            files := update st.kernel.files file (some ⟨1#32, some .ext2⟩) }
          privates := update st.privates file (some priv)
          handles := update st.handles file (some ⟨flags.setWidth 32, 0, inode, size⟩) }
        let st ← st.setEntry p fd (some file)
        some (BitVec.ofNat 64 fd.val, st)

/-- `sys_open` when `current` is the current process. No result means that the system has
halted. -/
def sysOpen (pager : Pager W) (fuel : ℕ) (st : OpenState W) (current : Option Ptr)
    (pathname flags : Word) : Option (Word × OpenState W) :=
  match current with
  | none => some (esrch, st)
  | some p => do
    let proc ← st.kernel.pcbs p
    match ← copyStringFromUser st.kernel.vm proc.pml4Phys pathname pathMax with
    | .inl err => some (err, st)
    | .inr path =>
      match ← (openPath fs img fuel path).val with
      | .inl err => some (err, st)
      | .inr inode => openInode img pager st p proc inode flags

end Calls

/-- The files are in live blocks of a heap in order, and `flags` of a free descriptor is 0: the
code never stores anything else there. -/
structure Ok (st : OpenState W) : Prop where
  heap : ∃ blocks fl, LiveInv st.heap.heap st.heap.live blocks fl
  files : ∀ file, (st.kernel.files file).isSome → ∃ n, (file.toNat, n) ∈ st.heap.live
  flags : ∀ p proc i, st.kernel.pcbs p = some proc → proc.fdTable i = none → st.fdFlags p i = 0#32

/-- The descriptors, the files with their refcounts, and the live blocks are as before. -/
structure Unchanged (st st' : OpenState W) : Prop where
  pcbs : st'.kernel.pcbs = st.kernel.pcbs
  fdFlags : st'.fdFlags = st.fdFlags
  files : st'.kernel.files = st.kernel.files
  live : st'.heap.live = st.heap.live

/-- Process `p` has got the lowest free descriptor, and nothing else has changed in any
descriptor table. -/
structure Opened (st st' : OpenState W) (p : Ptr) (proc : Pcb) (fd : Fin 256) (file : Ptr) :
    Prop where
  free : proc.fdTable fd = none
  lowest : ∀ i < fd, proc.fdTable i ≠ none
  pcbs : st'.kernel.pcbs = update st.kernel.pcbs p (some (setFd fd (some file) proc))
  fdFlags : st'.fdFlags = st.fdFlags
  new : st.kernel.files file = none
  files : st'.kernel.files = update st.kernel.files file (some ⟨1#32, some .ext2⟩)

section Steps

variable {pager : Pager W} {st st' : OpenState W} {p : Ptr} {proc : Pcb} {fd : Fin 256}

theorem processFdAlloc_lowest (h : processFdAlloc proc = some fd) :
    proc.fdTable fd = none ∧ ∀ i < fd, proc.fdTable i ≠ none := by
  obtain ⟨hfree, n, hn, hfd, hbefore⟩ := List.find?_eq_some_iff_getElem.mp h
  refine ⟨of_decide_eq_true hfree, fun i hi ↦ ?_⟩
  rw [List.getElem_finRange] at hfd
  have hin : i.val < n := by
    have := congrArg Fin.val hfd
    simp only [Fin.val_cast] at this
    omega
  have hused := hbefore i.val hin
  rw [List.getElem_finRange] at hused
  simpa using hused

theorem kmalloc_spec {blocks : List Block} {fl : List ℕ} {size : ℕ} {r : Option Ptr}
    (h : LiveInv st.heap.heap st.heap.live blocks fl) (hsize : Request size)
    (hroom : st.heap.heap.heapEnd + 64 * 4096 < 2 ^ 64)
    (heq : st.kmalloc pager size = some (r, st')) :
    ∃ heap : HeapSys W, st' = { st with heap := heap } ∧
      (∃ blocks' fl', LiveInv heap.heap heap.live blocks' fl') ∧
      heap.heap.heapEnd ≤ st.heap.heap.heapEnd + 64 * 4096 ∧
      ((r = none ∧ heap.live = st.heap.live) ∨ ∃ ptr : Ptr, r = some ptr ∧
        heap.live = (ptr.toNat, size) :: st.heap.live ∧ ∀ q ∈ st.heap.live, q.1 ≠ ptr.toNat) := by
  obtain ⟨ptr, heap, blocks', fl', hk, hlive, hnew, -, heffect⟩ := h.kmalloc pager hsize hroom
  rw [kmalloc, hk] at heq
  cases heq
  refine ⟨_, rfl, ⟨blocks', fl', hlive⟩, heffect.heapEnd_le, ?_⟩
  dsimp only
  by_cases hz : ptr = 0
  · exact .inl ⟨if_pos hz, if_pos hz⟩
  · rw [grant, if_neg hz] at hlive
    obtain ⟨b, -, -, hb, hle, -, hlt⟩ := hlive.block_of_live List.mem_cons_self
    dsimp only at hb hle
    have hptr : (BitVec.ofNat 64 ptr).toNat = ptr := by
      rw [BitVec.toNat_ofNat]
      exact Nat.mod_eq_of_lt (by omega)
    refine .inr ⟨BitVec.ofNat 64 ptr, if_neg hz, ?_, ?_⟩
    · rw [hptr, grant, if_neg hz]
    · rw [hptr]
      exact hnew hz

theorem kfree_spec (t : OpenState W) {blocks : List Block} {fl : List ℕ} {live : List (ℕ × ℕ)}
    {ptr : Ptr}
    {n : ℕ} (h : LiveInv t.heap.heap t.heap.live blocks fl)
    (hlive : t.heap.live = (ptr.toNat, n) :: live) (hnew : ∀ q ∈ live, q.1 ≠ ptr.toNat) :
    ∃ heap : HeapSys W, t.kfree ptr = { t with heap := heap } ∧ heap.live = live ∧
      ∃ blocks' fl', LiveInv heap.heap heap.live blocks' fl' := by
  have hmem : (ptr.toNat, n) ∈ t.heap.live := by
    rw [hlive]
    exact List.mem_cons_self
  obtain ⟨heap, blocks', fl', hk, hinv, -⟩ := h.kfree hmem
  have hdrop : Kheap.drop t.heap.live ptr.toNat = live := by
    rw [hlive, Kheap.drop, List.filter_cons_of_neg (by simp)]
    exact List.filter_eq_self.mpr fun q hq ↦ by simpa using hnew q hq
  rw [hdrop] at hinv
  refine ⟨⟨heap, live⟩, ?_, rfl, blocks', fl', hinv⟩
  rw [OpenState.kfree, hk]
  dsimp only
  rw [if_pos rfl, hdrop]

theorem kmalloc_kernel {size : ℕ} {r : Option Ptr} (heq : st.kmalloc pager size = some (r, st')) :
    st'.kernel = st.kernel := by
  obtain ⟨⟨ptr, heap⟩, -, heq⟩ := Option.map_eq_some_iff.mp heq
  obtain ⟨-, rfl⟩ := Prod.mk.inj heq
  rfl

theorem kfree_kernel (t : OpenState W) (ptr : Ptr) : (t.kfree ptr).kernel = t.kernel := rfl

theorem ext2FileClose_kernel (t : OpenState W) (file : Ptr) :
    (t.ext2FileClose file).kernel = t.kernel := by
  rw [ext2FileClose]
  split <;> rfl

theorem vfsClose_kernel {file : Ptr} (heq : st.vfsClose file = some st') :
    System.vfsClose st.kernel file = some st'.kernel := by
  obtain ⟨f, -, heq⟩ := Option.bind_eq_some_iff.mp heq
  obtain ⟨k, hk, heq⟩ := Option.bind_eq_some_iff.mp heq
  rw [System.vfsClose, hk]
  dsimp only at heq
  split at heq
  · obtain rfl := Option.some.inj heq
    split
    · rw [kfree_kernel, ext2FileClose_kernel]
    · rfl
  · obtain rfl := Option.some.inj heq
    rfl

theorem setEntry_kernel {file : Option Ptr} (heq : st.setEntry p fd file = some st') :
    st.kernel.modify p (setFd fd file) = some st'.kernel := by
  obtain ⟨k, hk, heq⟩ := Option.bind_eq_some_iff.mp heq
  obtain rfl := Option.some.inj heq
  exact hk

theorem vfsFileAlloc_spec {blocks : List Block} {fl : List ℕ} {r : Option Ptr}
    (h : LiveInv st.heap.heap st.heap.live blocks fl)
    (hroom : st.heap.heap.heapEnd + 64 * 4096 < 2 ^ 64)
    (heq : st.vfsFileAlloc pager = some (r, st')) :
    ∃ heap : HeapSys W, (∃ blocks' fl', LiveInv heap.heap heap.live blocks' fl') ∧
      heap.heap.heapEnd ≤ st.heap.heap.heapEnd + 64 * 4096 ∧
      ((r = none ∧ st' = { st with heap := heap } ∧ heap.live = st.heap.live) ∨
        ∃ file : Ptr, r = some file ∧ heap.live = (file.toNat, 40) :: st.heap.live ∧
          (∀ q ∈ st.heap.live, q.1 ≠ file.toNat) ∧
          st' = { st with
            kernel := System.vfsFileAlloc st.kernel file
            privates := update st.privates file none
            handles := update st.handles file none
            heap := heap }) := by
  obtain ⟨⟨r₁, st₁⟩, hk, heq⟩ := Option.bind_eq_some_iff.mp heq
  obtain ⟨heap, rfl, hinv, hend, ⟨rfl, hlive⟩ | ⟨file, rfl, hlive, hnew⟩⟩ :=
    kmalloc_spec h (.inr ⟨by decide, by decide⟩) hroom hk
  · cases heq
    exact ⟨heap, hinv, hend, .inl ⟨rfl, rfl, hlive⟩⟩
  · cases heq
    exact ⟨heap, hinv, hend, .inr ⟨file, rfl, hlive, hnew, rfl⟩⟩

theorem vfsClose_spec {blocks : List Block} {fl : List ℕ} {live : List (ℕ × ℕ)} {file : Ptr} {n : ℕ}
    (h : LiveInv st.heap.heap st.heap.live blocks fl)
    (hlive : st.heap.live = (file.toNat, n) :: live) (hnew : ∀ q ∈ live, q.1 ≠ file.toNat)
    (hfile : st.kernel.files file = some ⟨1#32, none⟩) (heq : st.vfsClose file = some st') :
    st'.kernel.pcbs = st.kernel.pcbs ∧ st'.fdFlags = st.fdFlags ∧
      st'.kernel.files = update st.kernel.files file none ∧ st'.heap.live = live ∧
      ∃ blocks' fl', LiveInv st'.heap.heap st'.heap.live blocks' fl' := by
  rw [vfsClose, vfsFileUnref, hfile, System.vfsFileUnref, hfile] at heq
  obtain rfl := Option.some.inj heq
  obtain ⟨heap, hfree, hl, hinv⟩ := kfree_spec { st with
    kernel := { st.kernel with
      files := update st.kernel.files file none
      log := st.kernel.log ++ [] ++ [.kfree file] } } h hlive hnew
  simp only [reduceCtorEq, if_false, BitVec.sub_self, BitVec.toInt_zero, le_refl, if_true,
    Option.isSome_none, Bool.false_eq_true]
  rw [hfree]
  exact ⟨rfl, rfl, rfl, hl, hinv⟩

theorem setEntry_spec {file : Option Ptr} (heq : st.setEntry p fd file = some st')
    (hp : st.kernel.pcbs p = some proc) (hflags : st.fdFlags p fd = 0#32) :
    st' = { st with
      kernel := { st.kernel with
        pcbs := update st.kernel.pcbs p (some (setFd fd file proc)) } } := by
  have hsame : update st.fdFlags p (update (st.fdFlags p) fd 0#32) = st.fdFlags := by
    rw [← hflags, update_eq_self, update_eq_self]
  rw [setEntry, modify_eq hp, Option.bind_eq_bind, Option.bind_some, hsame] at heq
  exact (Option.some.inj heq).symm

theorem processFdFree_spec (heq : st.processFdFree p fd = some st')
    (hp : st.kernel.pcbs p = some proc) (hfree : proc.fdTable fd = none)
    (hflags : st.fdFlags p fd = 0#32) : st' = st := by
  have hproc : setFd fd none proc = proc := by
    rw [setFd, ← hfree, update_eq_self]
  rw [setEntry_spec heq hp hflags, hproc, ← hp, update_eq_self]

theorem Unchanged.ok (h : Unchanged st st') (hok : st.Ok)
    (hheap : ∃ blocks fl, LiveInv st'.heap.heap st'.heap.live blocks fl) : st'.Ok := by
  refine ⟨hheap, fun file hf ↦ ?_, fun q proc i hq hi ↦ ?_⟩
  · rw [h.files] at hf
    rw [h.live]
    exact hok.files file hf
  · rw [h.pcbs] at hq
    rw [h.fdFlags]
    exact hok.flags q proc i hq hi

theorem Opened.ok {file : Ptr} (h : Opened st st' p proc fd file) (hok : st.Ok)
    (hp : st.kernel.pcbs p = some proc)
    (hheap : ∃ blocks fl, LiveInv st'.heap.heap st'.heap.live blocks fl)
    (hlive : st.heap.live ⊆ st'.heap.live) (hfile : ∃ n, (file.toNat, n) ∈ st'.heap.live) :
    st'.Ok := by
  refine ⟨hheap, fun f hf ↦ ?_, fun q Q i hq hi ↦ ?_⟩
  · by_cases hff : f = file
    · exact hff ▸ hfile
    · rw [h.files, update_of_ne hff] at hf
      exact (hok.files f hf).imp fun n hn ↦ hlive hn
  · rw [h.fdFlags]
    by_cases hqp : q = p
    · subst hqp
      rw [h.pcbs, update_self] at hq
      obtain rfl := Option.some.inj hq
      by_cases hif : i = fd
      · exact hif ▸ hok.flags q proc fd hp h.free
      · rw [setFd] at hi
        dsimp only at hi
        rw [update_of_ne hif] at hi
        exact hok.flags q proc i hp hi
    · rw [h.pcbs, update_of_ne hqp] at hq
      exact hok.flags q Q i hq hi

end Steps

section Open

variable (fs : Ext2) (img : Image) {pager : Pager W} {st st' : OpenState W} {p : Ptr} {proc : Pcb}
  {flags ret : Word}

theorem openInode_spec (hok : st.Ok) (hend : st.heap.heap.heapEnd ≤ imageBase)
    (hp : st.kernel.pcbs p = some proc) {inode : ℕ}
    (heq : openInode img pager st p proc inode flags = some (ret, st')) :
    st'.Ok ∧ (ret.toInt < 0 ∧ Unchanged st st' ∨
      ∃ fd file, ret = BitVec.ofNat 64 fd.val ∧ Opened st st' p proc fd file) := by
  obtain ⟨blocks, fl, hinv⟩ := hok.heap
  have hroom : st.heap.heap.heapEnd + 2 * (64 * 4096) < 2 ^ 64 := by
    unfold imageBase at hend
    omega
  rw [openInode] at heq
  cases hfd : processFdAlloc proc with
  | none =>
    rw [hfd] at heq
    cases heq
    exact ⟨hok, .inl ⟨by decide, rfl, rfl, rfl, rfl⟩⟩
  | some fd =>
    rw [hfd] at heq
    obtain ⟨hfree, hlowest⟩ := processFdAlloc_lowest hfd
    have hflags := hok.flags p proc fd hp hfree
    obtain ⟨⟨r₁, st₁⟩, halloc, heq⟩ := Option.bind_eq_some_iff.mp heq
    obtain ⟨heap₁, ⟨blocks₁, fl₁, hinv₁⟩, hend₁, ⟨rfl, rfl, hlive₁⟩ |
      ⟨file, rfl, hlive₁, hnew, rfl⟩⟩ := vfsFileAlloc_spec hinv (by omega) halloc
    · -- no file
      obtain ⟨st₂, hput, heq⟩ := Option.bind_eq_some_iff.mp heq
      obtain rfl := processFdFree_spec hput hp hfree hflags
      cases heq
      have hsame : Unchanged st { st with heap := heap₁ } := ⟨rfl, rfl, rfl, hlive₁⟩
      exact ⟨hsame.ok hok ⟨blocks₁, fl₁, hinv₁⟩, .inl ⟨by decide, hsame⟩⟩
    · have hfile : st.kernel.files file = none := by
        by_contra hne
        obtain ⟨n, hn⟩ := hok.files file (Option.isSome_iff_ne_none.mpr hne)
        exact hnew _ hn rfl
      obtain ⟨⟨r₂, st₂⟩, hpriv, heq⟩ := Option.bind_eq_some_iff.mp heq
      obtain ⟨heap₂, rfl, ⟨blocks₂, fl₂, hinv₂⟩, -, ⟨rfl, hlive₂⟩ | ⟨priv, rfl, hlive₂, -⟩⟩ :=
        kmalloc_spec hinv₁ (.inr ⟨by decide, by decide⟩) (by dsimp only; omega) hpriv
      · -- no private data: the file is closed again
        obtain ⟨st₃, hclose, heq⟩ := Option.bind_eq_some_iff.mp heq
        obtain ⟨hpcbs, hfl, hfiles, hlive₃, hinv₃⟩ := vfsClose_spec hinv₂ (hlive₂.trans hlive₁) hnew
          (update_self ..) hclose
        obtain ⟨st₄, hput, hret⟩ := Option.bind_eq_some_iff.mp heq
        obtain rfl := processFdFree_spec hput (hpcbs ▸ hp) hfree (hfl ▸ hflags)
        cases hret
        have hsame : Unchanged st st' := by
          refine ⟨hpcbs, hfl, hfiles.trans ?_, hlive₃⟩
          dsimp only [System.vfsFileAlloc]
          rw [update_idem, ← hfile, update_eq_self]
        exact ⟨hsame.ok hok hinv₃, .inl ⟨by decide, hsame⟩⟩
      · obtain ⟨size, -, heq⟩ := Option.bind_eq_some_iff.mp heq
        obtain ⟨st₃, hput, heq⟩ := Option.bind_eq_some_iff.mp heq
        obtain rfl := setEntry_spec hput hp hflags
        obtain ⟨rfl, hst⟩ := Prod.mk.inj (Option.some.inj heq)
        have hopened : Opened st st' p proc fd file := by
          rw [← hst]
          exact ⟨hfree, hlowest, rfl, rfl, hfile, update_idem ..⟩
        have hheap : st'.heap = heap₂ := by rw [← hst]
        refine ⟨hopened.ok hok hp ⟨blocks₂, fl₂, hheap ▸ hinv₂⟩ ?_ ?_, .inr ⟨fd, file, rfl, hopened⟩⟩
        · rw [hheap, hlive₂, hlive₁]
          exact fun x hx ↦ List.mem_cons_of_mem _ (List.mem_cons_of_mem _ hx)
        · rw [hheap, hlive₂, hlive₁]
          exact ⟨40, List.mem_cons_of_mem _ List.mem_cons_self⟩

theorem openPath_error {fuel : ℕ} {path : List (BitVec 8)} {err : Word}
    (h : (openPath fs img fuel path).val = some (.inl err)) : err.toInt < 0 := by
  rw [openPath, Faulting.val_bind] at h
  obtain ⟨ino, -, h⟩ := Option.bind_eq_some_iff.mp h
  split at h
  · obtain rfl := Sum.inl.inj (Option.some.inj h)
    decide
  · rw [Faulting.val_bind] at h
    obtain ⟨r, -, h⟩ := Option.bind_eq_some_iff.mp h
    cases r with
    | none =>
      obtain rfl := Sum.inl.inj (Option.some.inj h)
      decide
    | some inode =>
      rw [Faulting.val_bind] at h
      obtain ⟨regular, -, h⟩ := Option.bind_eq_some_iff.mp h
      split at h
      · cases Option.some.inj h
      · obtain rfl := Sum.inl.inj (Option.some.inj h)
        decide

theorem openInode_kernel (hp : st.kernel.pcbs p = some proc) {inode : ℕ}
    (heq : openInode img pager st p proc inode flags = some (ret, st')) :
    ∃ blocks, System.sysOpen st.kernel p none blocks = some (ret, st'.kernel) := by
  rw [openInode] at heq
  cases hfd : processFdAlloc proc with
  | none =>
    rw [hfd] at heq
    cases heq
    exact ⟨⟨none, none⟩, by simp [System.sysOpen, hp, hfd]⟩
  | some fd =>
    rw [hfd] at heq
    obtain ⟨⟨r₁, st₁⟩, halloc, heq⟩ := Option.bind_eq_some_iff.mp heq
    obtain ⟨⟨r, st₀⟩, hk, halloc⟩ := Option.bind_eq_some_iff.mp halloc
    have hkernel := kmalloc_kernel hk
    cases r with
    | none =>
      cases halloc
      obtain ⟨st₂, hput, heq⟩ := Option.bind_eq_some_iff.mp heq
      cases heq
      refine ⟨⟨none, none⟩, ?_⟩
      have hset := setEntry_kernel hput
      rw [hkernel] at hset
      simp [System.sysOpen, hp, hfd, hset]
    | some file =>
      cases halloc
      obtain ⟨⟨r₂, st₂⟩, hpriv, heq⟩ := Option.bind_eq_some_iff.mp heq
      have hkernel₂ := kmalloc_kernel hpriv
      dsimp only at hkernel₂
      rw [hkernel] at hkernel₂
      cases r₂ with
      | none =>
        obtain ⟨st₃, hclose, heq⟩ := Option.bind_eq_some_iff.mp heq
        obtain ⟨st₄, hput, heq⟩ := Option.bind_eq_some_iff.mp heq
        cases heq
        have hunref := vfsClose_kernel hclose
        rw [hkernel₂] at hunref
        exact ⟨⟨some file, none⟩, by simp [System.sysOpen, hp, hfd, hunref, setEntry_kernel hput]⟩
      | some priv =>
        obtain ⟨size, -, heq⟩ := Option.bind_eq_some_iff.mp heq
        obtain ⟨st₃, hput, heq⟩ := Option.bind_eq_some_iff.mp heq
        cases heq
        have hset := setEntry_kernel hput
        dsimp only at hset
        rw [hkernel₂] at hset
        exact ⟨⟨some file, some priv⟩, by simp [System.sysOpen, hp, hfd, hset]⟩

/-- `sys_open` fails without a trace, or it takes the lowest free descriptor. -/
theorem open_atomic (fuel : ℕ) (current : Option Ptr) (pathname : Word) (hok : st.Ok)
    (hend : st.heap.heap.heapEnd ≤ imageBase)
    (heq : sysOpen fs img pager fuel st current pathname flags = some (ret, st')) :
    st'.Ok ∧ (ret.toInt < 0 → Unchanged st st') ∧
      (0 ≤ ret.toInt → ∃ p proc fd file, current = some p ∧ st.kernel.pcbs p = some proc ∧
        ret = BitVec.ofNat 64 fd.val ∧ Opened st st' p proc fd file) := by
  have hfail : ∀ err : Word, err.toInt < 0 → some (err, st) = some (ret, st') →
      st'.Ok ∧ (ret.toInt < 0 → Unchanged st st') ∧
        (0 ≤ ret.toInt → ∃ p proc fd file, current = some p ∧ st.kernel.pcbs p = some proc ∧
          ret = BitVec.ofNat 64 fd.val ∧ Opened st st' p proc fd file) := by
    intro err hneg h
    cases h
    exact ⟨hok, fun _ ↦ ⟨rfl, rfl, rfl, rfl⟩, fun hpos ↦ absurd hpos (Int.not_le.mpr hneg)⟩
  cases current with
  | none => exact hfail esrch (by decide) heq
  | some p =>
    obtain ⟨proc, hp, heq⟩ := Option.bind_eq_some_iff.mp heq
    obtain ⟨r, hcopy, heq⟩ := Option.bind_eq_some_iff.mp heq
    cases r with
    | inl err => exact hfail err (copyStringFromUser_error _ _ hcopy) heq
    | inr path =>
      obtain ⟨r, hpath, heq⟩ := Option.bind_eq_some_iff.mp heq
      cases r with
      | inl err => exact hfail err (openPath_error fs img hpath) heq
      | inr inode =>
        obtain ⟨hok', ⟨hneg, hsame⟩ | ⟨fd, file, hret, hopened⟩⟩ := openInode_spec img hok hend hp heq
        · exact ⟨hok', fun _ ↦ hsame, fun hpos ↦ absurd hpos (Int.not_le.mpr hneg)⟩
        · have hlt := fd.isLt
          have hpos : 0 ≤ ret.toInt := by
            rw [hret, BitVec.toInt_eq_toNat_of_lt (by rw [BitVec.toNat_ofNat]; omega)]
            exact Int.natCast_nonneg _
          exact ⟨hok', fun hneg ↦ absurd hpos (Int.not_le.mpr hneg),
            fun _ ↦ ⟨p, proc, fd, file, rfl, hp, hret, hopened⟩⟩

end Open

section Example

/-- A process with no open files, and the path of a file in its memory. -/
def loneProc : Pcb :=
  ⟨1#64, .running, 0x3000#64, fun _ ↦ none, none, none, none, 0#32, -1#32, none, false⟩

def loneState : OpenState Unit where
  kernel := { emptyKernel with
    pcbs := update emptyKernel.pcbs initPtr (some loneProc)
    vm := (kernelStores true 0x3000#64 userMmapStart [0x2f#8, 0x66#8, 0#8] pagedKernel.vm).getD
      pagedKernel.vm }
  fdFlags _ _ := 0#32
  privates _ := none
  handles _ := none
  heap := ⟨Kheap.firstHeap, []⟩

theorem loneState_ok : loneState.Ok := by
  obtain ⟨hinv, hstart, _⟩ := Kheap.kheapInit_spec Kheap.plentiful Kheap.firstHeap_init
  refine ⟨⟨_, _, hinv, hstart, by simp, by simp [loneState], List.nodup_nil⟩, fun file hf ↦ ?_,
    fun _ _ _ _ _ ↦ rfl⟩
  exact absurd hf Bool.false_ne_true

theorem open_atomic_loneState : ∃ st' file,
    sysOpen treeFs treeImage Kheap.plentiful 5 loneState (some initPtr) userMmapStart 0#64 =
      some (0#64, st') ∧ Opened loneState st' initPtr loneProc 0 file := by
  have hret : (sysOpen treeFs treeImage Kheap.plentiful 5 loneState (some initPtr) userMmapStart
      0#64).any (·.1 = 0#64) = true := by decide +kernel
  obtain ⟨⟨ret, st'⟩, heq, hret⟩ := (Option.any_eq_true ..).mp hret
  obtain rfl : ret = 0#64 := of_decide_eq_true hret
  have hend : loneState.heap.heap.heapEnd ≤ imageBase := by
    obtain ⟨-, -, hend, -⟩ := Kheap.kheapInit_spec Kheap.plentiful Kheap.firstHeap_init
    show Kheap.firstHeap.heapEnd ≤ imageBase
    rw [hend]
    decide
  obtain ⟨-, -, hopen⟩ := open_atomic treeFs treeImage 5 (some initPtr) userMmapStart loneState_ok
    hend heq
  obtain ⟨p, proc, fd, file, hp, hproc, hfd, hopened⟩ := hopen (by decide)
  obtain rfl := Option.some.inj hp
  have hlone : loneState.kernel.pcbs initPtr = some loneProc := by
    show update emptyKernel.pcbs initPtr (some loneProc) initPtr = some loneProc
    exact update_self ..
  obtain rfl := Option.some.inj (hlone.symm.trans hproc)
  obtain rfl : fd = 0 := by
    have hval := congrArg BitVec.toNat hfd
    rw [BitVec.toNat_ofNat fd.val 64, Nat.mod_eq_of_lt (by omega)] at hval
    exact Fin.ext hval.symm
  exact ⟨st', file, heq, hopened⟩

end Example

end OpenState

end SeedOS.System
