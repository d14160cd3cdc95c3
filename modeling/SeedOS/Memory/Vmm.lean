import SeedOS.Memory.Page

namespace SeedOS.Memory

open Foundation Function

def allocPageTable (s : Vm) : Word × Vm :=
  match pmmAlloc s.pmm with
  | (phys, pmm) =>
    if phys = 0#64 then (0#64, { s with pmm := pmm })
    else (phys, { s with pmm := pmm }.fill (pageOf phys) fun _ ↦ 0#64)

/-- The walk shared by the readers of `vmm.c`: the last-level entry of `virt`,
or `none` as soon as an entry on the way is not present. -/
def walk (s : Vm) (pml4Phys virt : Word) : Option (ℕ × Fin 512) :=
  let e₄ := s.mem (pageOf pml4Phys) (pml4Index virt)
  if hasFlag e₄ ptePresent = false then none
  else
    let e₃ := s.mem (frameOf e₄) (pdptIndex virt)
    if hasFlag e₃ ptePresent = false then none
    else
      let e₂ := s.mem (frameOf e₃) (pdIndex virt)
      if hasFlag e₂ ptePresent = false then none
      else some (frameOf e₂, ptIndex virt)

def vmmGetPhysical (s : Vm) (pml4Phys virt : Word) : Word :=
  match walk s pml4Phys virt with
  | none => 0#64
  | some (pt, i) =>
    if hasFlag (s.mem pt i) ptePresent then s.mem pt i &&& pteAddrMask else 0#64

def vmmGetPteFlags (s : Vm) (pml4Phys virt : Word) : Word :=
  match walk s pml4Phys virt with
  | none => 0#64
  | some (pt, i) =>
    if hasFlag (s.mem pt i) ptePresent then s.mem pt i &&& ~~~pteAddrMask else 0#64

def vmmSetPteFlags (s : Vm) (pml4Phys virt flags : Word) : ℤ × Vm :=
  match walk s pml4Phys virt with
  | none => (-1, s)
  | some (pt, i) =>
    if hasFlag (s.mem pt i) ptePresent then
      (0, s.write pt i (s.mem pt i &&& pteAddrMask ||| flags))
    else (-1, s)

def intermediateFlags (flags : Word) : Word :=
  if hasFlag flags pteUser then ptePresent ||| pteWritable ||| pteUser
  else ptePresent ||| pteWritable

/-- One level of the descent in `vmm_map_page`. A present entry is followed,
and gains `PTE_USER` when the new mapping needs it; otherwise a fresh table is
linked. The second component is the new table's address, or `0`. -/
def descend (s : Vm) (table : ℕ) (i : Fin 512) (flags : Word) : Option (ℕ × Word × Vm) :=
  let e := s.mem table i
  if hasFlag e ptePresent then
    if hasFlag flags pteUser && !hasFlag e pteUser then
      some (frameOf e, 0#64, s.write table i (e ||| pteUser))
    else some (frameOf e, 0#64, s)
  else
    match allocPageTable s with
    | (phys, s) =>
      if phys = 0#64 then none
      else some (pageOf phys, phys, s.write table i (phys ||| intermediateFlags flags))

/-- Undo one `descend` that linked the table at `phys`; nothing if it linked none. -/
def unlink (s : Vm) (table : ℕ) (i : Fin 512) (phys : Word) : Vm :=
  if phys = 0#64 then s
  else
    let s := s.write table i 0#64
    { s with pmm := pmmFree s.pmm phys }

def vmmMapPage (s : Vm) (pml4Phys virt phys flags : Word) : ℤ × Vm :=
  let pml4 := pageOf pml4Phys
  match descend s pml4 (pml4Index virt) flags with
  | none => (-1, s)
  | some (pdpt, newPdpt, s) =>
    match descend s pdpt (pdptIndex virt) flags with
    | none => (-1, unlink s pml4 (pml4Index virt) newPdpt)
    | some (pd, newPd, s) =>
      match descend s pd (pdIndex virt) flags with
      | none =>
        (-1, unlink (unlink s pdpt (pdptIndex virt) newPd) pml4 (pml4Index virt) newPdpt)
      | some (pt, _, s) => (0, s.write pt (ptIndex virt) (phys &&& pteAddrMask ||| flags))

def vmmUnmapPage (s : Vm) (pml4Phys virt : Word) : ℤ × Vm :=
  let e₄ := s.mem (pageOf pml4Phys) (pml4Index virt)
  if hasFlag e₄ ptePresent = false then (-1, s)
  else
    let e₃ := s.mem (frameOf e₄) (pdptIndex virt)
    if hasFlag e₃ ptePresent = false then (-1, s)
    else if hasFlag e₃ pteHuge then (-1, s)
    else
      let e₂ := s.mem (frameOf e₃) (pdIndex virt)
      if hasFlag e₂ ptePresent = false then (-1, s)
      else if hasFlag e₂ pteHuge then (-1, s)
      else (0, s.write (frameOf e₂) (ptIndex virt) 0#64)

/-- The source reports a failed allocation with `log_panic`, which halts the machine, and returns
`0` behind it. Here the caller gets the `0`, which only adds runs. -/
def vmmCreateAddressSpace (s : Vm) : Word × Vm :=
  match allocPageTable s with
  | (phys, s) =>
    if phys = 0#64 then (0#64, s)
    else
      (phys, s.fill (pageOf phys) fun i ↦
        if 256 ≤ i.val then s.mem (pageOf s.kernelPml4Phys) i else s.mem (pageOf phys) i)

def userSlots : List (Fin 512) := (List.finRange 512).filter (·.val < 256)

def freeLoop (free : Pmm → Word → Pmm) (row : Fin 512 → Word) : List (Fin 512) → Pmm → Pmm
  | [], pmm => pmm
  | i :: slots, pmm =>
    if hasFlag (row i) ptePresent then freeLoop free row slots (free pmm (row i))
    else freeLoop free row slots pmm

/-- The nested loops of `vmm_free_user_address_space`, `level` tables deep:
the frames below each present entry are freed first, then the frame it points to. -/
def freeTables (mem : ℕ → Fin 512 → Word) : ℕ → Pmm → ℕ → List (Fin 512) → Pmm
  | 0, pmm, table, slots =>
    freeLoop (fun pmm e ↦ pmmFree pmm (e &&& pteAddrMask)) (mem table) slots pmm
  | level + 1, pmm, table, slots =>
    freeLoop (fun pmm e ↦ pmmFree (freeTables mem level pmm (frameOf e) (List.finRange 512))
      (e &&& pteAddrMask)) (mem table) slots pmm

def vmmFreeUserAddressSpace (s : Vm) (pml4Phys : Word) : Vm :=
  { s with pmm := pmmFree (freeTables s.mem 3 s.pmm (pageOf pml4Phys) userSlots) pml4Phys }

/-- Flags of a leaf entry after it has been shared: a writable page becomes
read-only and is marked `PTE_COW`. -/
def cowFlags (pte : Word) : Word :=
  let newFlags := pte &&& ~~~pteAddrMask
  if hasFlag newFlags pteWritable then newFlags &&& ~~~pteWritable ||| pteCow else newFlags

def copyLeaf (src dst : ℕ) (s : Vm) (l : Fin 512) : Vm :=
  let pte := s.mem src l
  let physAddr := pte &&& pteAddrMask
  let s := s.write src l (physAddr ||| cowFlags pte)
  let s := s.write dst l (physAddr ||| cowFlags pte)
  pageRef s physAddr

def copyLeaves (src dst : ℕ) : List (Fin 512) → Vm → Vm
  | [], s => s
  | l :: slots, s =>
    if hasFlag (s.mem src l) ptePresent then copyLeaves src dst slots (copyLeaf src dst s l)
    else copyLeaves src dst slots s

/-- One of the three outer loops of `vmm_copy_address_space_cow`: every present
entry gets a fresh table, filled by `body`. Stops at the first failure. -/
def copyLoop (body : Vm → ℕ → ℕ → Bool × Vm) (src dst : ℕ) : List (Fin 512) → Vm → Bool × Vm
  | [], s => (true, s)
  | i :: slots, s =>
    if hasFlag (s.mem src i) ptePresent then
      match allocPageTable s with
      | (phys, s) =>
        if phys = 0#64 then (false, s)
        else
          let s := s.write dst i (phys ||| (s.mem src i &&& ~~~pteAddrMask))
          match body s (frameOf (s.mem src i)) (pageOf phys) with
          | (false, s) => (false, s)
          | (true, s) => copyLoop body src dst slots s
    else copyLoop body src dst slots s

def copyTables : ℕ → List (Fin 512) → Vm → ℕ → ℕ → Bool × Vm
  | 0, slots, s, src, dst => (true, copyLeaves src dst slots s)
  | level + 1, slots, s, src, dst =>
    copyLoop (copyTables level (List.finRange 512)) src dst slots s

/-- The part of `vmm_copy_address_space_cow` before its failure exit: the new
PML4 (`0` if there is none), whether the copy is complete, and the state. -/
def cowCopy (s : Vm) (srcPml4Phys : Word) : Word × Bool × Vm :=
  match allocPageTable s with
  | (dst, s) =>
    if dst = 0#64 then (0#64, false, s)
    else
      let s := s.fill (pageOf dst) fun i ↦
        if 256 ≤ i.val then s.mem (pageOf srcPml4Phys) i else s.mem (pageOf dst) i
      match copyTables 3 userSlots s (pageOf srcPml4Phys) (pageOf dst) with
      | (ok, s) => (dst, ok, s)

def vmmCopyAddressSpaceCow (s : Vm) (srcPml4Phys : Word) : Word × Vm :=
  match cowCopy s srcPml4Phys with
  | (dst, ok, s) =>
    if dst = 0#64 then (0#64, s)
    else if ok then (dst, s)
    else (0#64, vmmFreeUserAddressSpace s dst)

end SeedOS.Memory
