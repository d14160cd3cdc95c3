import SeedOS.Foundation.ByteMemory

namespace SeedOS.Kheap

open Foundation

/-- Arithmetic on `uint64_t` and `size_t` wraps at `2 ^ 64`. -/
def wrap (n : ℕ) : ℕ := n % 2 ^ 64

def sub64 (a b : ℕ) : ℕ := (a + 2 ^ 64 - b) % 2 ^ 64

def pageSize : ℕ := 4096
def headerSize : ℕ := 8
def freeBlockSize : ℕ := 24
def minAllocSize : ℕ := 16
def heapAlignment : ℕ := 16
def initialHeapPages : ℕ := 16
def heapGrowPages : ℕ := 16
def blockFree : ℕ := 1
def usedMask : ℕ := 0xFFFFFFFFFFFFFFFE
def sizeMask : ℕ := 0xFFFFFFFFFFFFFFF0
def heapBase : ℕ := 0xFFFFFFFF00000000

/-- The page allocator and the page tables, as the heap sees them: `W` is their
state, and `contents` what a page holds when it has just been mapped. Each call
may fail: `pmmAlloc` by returning `0`, `mapPage` by returning a nonzero code. -/
structure Pager (W : Type) where
  pmmAlloc : W → ℕ × W
  pmmFree : W → ℕ → W
  mapPage : W → ℕ → ℕ → ℤ × W
  unmapPage : W → ℕ → W
  contents : W → ByteMem

/-- The static variables of `heap.c` with the memory they describe. -/
structure Heap (W : Type) where
  mem : ByteMem
  world : W
  heapStart : ℕ
  heapEnd : ℕ
  freeList : ℕ
  totalAllocated : ℕ
  totalFree : ℕ

section

variable {W : Type}

def Heap.load (s : Heap W) (a : ℕ) : ℕ := loadBytes s.mem a 8

def Heap.store (s : Heap W) (a v : ℕ) : Heap W := { s with mem := storeBytes s.mem a v 8 }

def Heap.blockSize (s : Heap W) (block : ℕ) : ℕ := s.load block &&& sizeMask

def Heap.blockIsFree (s : Heap W) (block : ℕ) : Bool := s.load block &&& blockFree != 0

def Heap.blockSetFree (s : Heap W) (block : ℕ) : Heap W :=
  s.store block (s.load block ||| blockFree)

def Heap.blockSetUsed (s : Heap W) (block : ℕ) : Heap W :=
  s.store block (s.load block &&& usedMask)

def Heap.next (s : Heap W) (block : ℕ) : ℕ := s.load (block + 8)

def Heap.prev (s : Heap W) (block : ℕ) : ℕ := s.load (block + 16)

def Heap.setNext (s : Heap W) (block v : ℕ) : Heap W := s.store (block + 8) v

def Heap.setPrev (s : Heap W) (block v : ℕ) : Heap W := s.store (block + 16) v

def blockData (block : ℕ) : ℕ := wrap (block + headerSize)

def dataToBlock (ptr : ℕ) : ℕ := sub64 ptr headerSize

def Heap.nextBlock (s : Heap W) (block : ℕ) : ℕ := wrap (block + s.blockSize block)

def alignUp (size : ℕ) : ℕ := wrap (size + heapAlignment - 1) &&& sizeMask

def freeListInsert (s : Heap W) (block : ℕ) : Heap W :=
  let s := s.setNext block s.freeList
  let s := s.setPrev block 0
  let s := if s.freeList ≠ 0 then s.setPrev s.freeList block else s
  { s with freeList := block }

def freeListRemove (s : Heap W) (block : ℕ) : Heap W :=
  let s := if s.prev block ≠ 0 then s.setNext (s.prev block) (s.next block)
    else { s with freeList := s.next block }
  if s.next block ≠ 0 then s.setPrev (s.next block) (s.prev block) else s

section Expand

variable (pager : Pager W)

def mapContents (m fresh : ByteMem) (virt : ℕ) : ByteMem := fun x ↦
  if virt ≤ x ∧ x < virt + pageSize then fresh x else m x

/-- One iteration of the loops in `heap_expand` and `kheap_init`: the frame that was
mapped at `heap_end`, or `none` when no frame was left or the mapping failed. -/
def growPage (s : Heap W) : Option ℕ × Heap W :=
  match pager.pmmAlloc s.world with
  | (phys, w) =>
    if phys = 0 then (none, { s with world := w })
    else
      match pager.mapPage w s.heapEnd phys with
      | (result, w) =>
        if result ≠ 0 then (none, { s with world := pager.pmmFree w phys })
        else (some phys, { s with
          world := w
          mem := mapContents s.mem (pager.contents w) s.heapEnd
          heapEnd := wrap (s.heapEnd + pageSize) })

/-- The allocation loop of `heap_expand`: whether all pages were mapped, and the
frames in `allocated_phys`. -/
def growLoop : ℕ → List ℕ → Heap W → Bool × List ℕ × Heap W
  | 0, allocated, s => (true, allocated, s)
  | n + 1, allocated, s =>
    match growPage pager s with
    | (none, s) => (false, allocated, s)
    | (some phys, s) => growLoop n (allocated ++ [phys]) s

def cleanupLoop (newRegion : ℕ) : ℕ → List ℕ → W → W
  | _, [], w => w
  | i, phys :: allocated, w =>
    let w := pager.unmapPage w (wrap (newRegion + i * pageSize))
    cleanupLoop newRegion (i + 1) allocated (pager.pmmFree w phys)

def pagesNeeded (minSize : ℕ) : ℕ :=
  let pages := wrap (minSize + pageSize - 1) / pageSize
  if pages < heapGrowPages then heapGrowPages else pages

def heapExpand (s : Heap W) (minSize : ℕ) : ℕ × Heap W :=
  if 64 < pagesNeeded minSize then (0, s)
  else
    let newRegion := s.heapEnd
    match growLoop pager (pagesNeeded minSize) [] s with
    | (false, allocated, s) =>
      (0, { s with
        world := cleanupLoop pager newRegion 0 allocated s.world
        heapEnd := newRegion })
    | (true, _, s) =>
      let blkSize := wrap (pagesNeeded minSize * pageSize)
      let s := s.store newRegion (blkSize ||| blockFree)
      let s := { s with totalFree := wrap (s.totalFree + sub64 blkSize headerSize) }
      (newRegion, freeListInsert s newRegion)

def initLoop : ℕ → Heap W → Option (Heap W)
  | 0, s => some s
  | n + 1, s =>
    match growPage pager s with
    | (none, _) => none
    | (some _, s) => initLoop n s

def kheapInit (mem : ByteMem) (world : W) : Option (Heap W) :=
  match initLoop pager initialHeapPages ⟨mem, world, heapBase, heapBase, 0, 0, 0⟩ with
  | none => none
  | some s =>
    let initialSize := initialHeapPages * pageSize
    let s := s.store s.heapStart (initialSize ||| blockFree)
    let s := s.setNext s.heapStart 0
    let s := s.setPrev s.heapStart 0
    some { s with freeList := s.heapStart, totalFree := sub64 initialSize headerSize }

end Expand

section Calls

variable (pager : Pager W)

/-- The search of `kmalloc` for the first block that is large enough: `some 0` at the
end of the list, `none` when the list goes on after `fuel` blocks. -/
def findFit (s : Heap W) (totalSize : ℕ) : ℕ → ℕ → Option ℕ
  | 0, _ => none
  | fuel + 1, current =>
    if current = 0 then some 0
    else if totalSize ≤ s.blockSize current then some current
    else findFit s totalSize fuel (s.next current)

def markUsed (s : Heap W) (current totalSize : ℕ) : ℕ × Heap W :=
  let s := { s with totalFree := sub64 s.totalFree (sub64 totalSize headerSize) }
  let s := s.blockSetUsed current
  (blockData current,
    { s with totalAllocated := wrap (s.totalAllocated + sub64 totalSize headerSize) })

/-- What both branches of `kmalloc` do with a block they have taken from the free
list: split it if the rest is large enough, and mark it used. -/
def carve (s : Heap W) (current currentSize totalSize : ℕ) : ℕ × Heap W :=
  let remaining := sub64 currentSize totalSize
  if freeBlockSize + minAllocSize ≤ remaining then
    let newFree := wrap (current + totalSize)
    let s := s.store newFree (remaining ||| blockFree)
    let s := freeListInsert s newFree
    let s := s.store current totalSize
    markUsed s current totalSize
  else markUsed s current currentSize

def totalSize (size : ℕ) : ℕ :=
  let total := alignUp (wrap (headerSize + size))
  if total < freeBlockSize then freeBlockSize else total

/-- A NULL-terminated list of blocks inside the heap is shorter than this. -/
def Heap.fuel (s : Heap W) : ℕ := (s.heapEnd - s.heapStart) / 16 + 1

def kmalloc (s : Heap W) (size : ℕ) : Option (ℕ × Heap W) :=
  if size = 0 then some (0, s)
  else
    match findFit s (totalSize size) s.fuel s.freeList with
    | none => none
    | some current =>
      if current ≠ 0 then
        let currentSize := s.blockSize current
        some (carve (freeListRemove s current) current currentSize (totalSize size))
      else
        match heapExpand pager s (totalSize size) with
        | (newBlock, s) =>
          if newBlock = 0 then some (0, s)
          else
            let s := freeListRemove s newBlock
            some (carve s newBlock (s.blockSize newBlock) (totalSize size))

def zeroLoop (ptr : ℕ) : ℕ → ℕ → ByteMem → ByteMem
  | 0, _, m => m
  | n + 1, i, m => zeroLoop ptr n (i + 1) (storeBytes m (wrap (ptr + i)) 0 1)

def kzalloc (s : Heap W) (size : ℕ) : Option (ℕ × Heap W) :=
  match kmalloc pager s size with
  | none => none
  | some (ptr, s) => some (ptr, if ptr ≠ 0 then { s with mem := zeroLoop ptr size 0 s.mem } else s)

inductive Freed
  | null
  | outsideHeap
  | doubleFree
  | freed
  deriving DecidableEq

/-- `kfree` adjusts the counters before it looks at the next block. -/
def uncount (s : Heap W) (size : ℕ) : Heap W :=
  { s with
    totalAllocated := sub64 s.totalAllocated (sub64 size headerSize)
    totalFree := wrap (s.totalFree + sub64 size headerSize) }

def kfree (s : Heap W) (ptr : ℕ) : Freed × Heap W :=
  if ptr = 0 then (.null, s)
  else
    let block := dataToBlock ptr
    let size := s.blockSize block
    if block < s.heapStart ∨ s.heapEnd ≤ block then (.outsideHeap, s)
    else if s.blockIsFree block then (.doubleFree, s)
    else
      let s := uncount s size
      let next := s.nextBlock block
      let s :=
        if next < s.heapEnd ∧ s.blockIsFree next then
          let s := freeListRemove s next
          let size := wrap (size + s.blockSize next)
          s.store block size
        else s
      let s := s.blockSetFree block
      (.freed, freeListInsert s block)

def copyLoop (dst src : ℕ) : ℕ → ℕ → ByteMem → ByteMem
  | 0, _, m => m
  | n + 1, i, m =>
    copyLoop dst src n (i + 1)
      (storeBytes m (wrap (dst + i)) (m (wrap (src + i))).toNat 1)

def krealloc (s : Heap W) (ptr size : ℕ) : Option (ℕ × Heap W) :=
  if ptr = 0 then kmalloc pager s size
  else if size = 0 then some (0, (kfree s ptr).2)
  else
    let block := dataToBlock ptr
    let oldSize := sub64 (s.blockSize block) headerSize
    let totalNeeded := alignUp (wrap (headerSize + size))
    if totalNeeded ≤ s.blockSize block then some (ptr, s)
    else
      match kmalloc pager s size with
      | none => none
      | some (newPtr, s) =>
        if newPtr = 0 then some (0, s)
        else
          let copySize := if oldSize < size then oldSize else size
          let s := { s with mem := copyLoop newPtr ptr copySize 0 s.mem }
          some (newPtr, (kfree s ptr).2)

end Calls

def kheapGetUsed (s : Heap W) : ℕ := s.totalAllocated

def kheapGetFree (s : Heap W) : ℕ := s.totalFree

end

end SeedOS.Kheap
