import SeedOS.Process.UserMemory

namespace SeedOS.Process

open Foundation Memory Function

scoped instance identNeZero : NeZero 6 := ⟨by decide⟩

/-- The file buffer, by offset from its start; pointers wrap at 64 bits. -/
abbrev File := Word → BitVec 8

def le16 (data : File) (off : Word) : BitVec 16 := data (off + 1#64) ++ data off

def le32 (data : File) (off : Word) : BitVec 32 := le16 data (off + 2#64) ++ le16 data off

def le64 (data : File) (off : Word) : Word := le32 data (off + 4#64) ++ le32 data off

structure Ehdr where
  ident : Fin 6 → BitVec 8
  type : BitVec 16
  machine : BitVec 16
  entry : Word
  phoff : Word
  phentsize : BitVec 16
  phnum : BitVec 16

def readEhdr (data : File) : Ehdr where
  ident i := data (BitVec.ofNat 64 i.val)
  type := le16 data 16#64
  machine := le16 data 18#64
  entry := le64 data 24#64
  phoff := le64 data 32#64
  phentsize := le16 data 54#64
  phnum := le16 data 56#64

structure Phdr where
  type : BitVec 32
  flags : BitVec 32
  offset : Word
  vaddr : Word
  filesz : Word
  memsz : Word

def readPhdr (data : File) (off : Word) : Phdr where
  type := le32 data off
  flags := le32 data (off + 4#64)
  offset := le64 data (off + 8#64)
  vaddr := le64 data (off + 16#64)
  filesz := le64 data (off + 32#64)
  memsz := le64 data (off + 40#64)

def sizeofEhdr : Word := 64#64
def sizeofPhdr : Word := 56#64

def phdrsEnd (ehdr : Ehdr) : Word := ehdr.phoff + ehdr.phnum.setWidth 64 * sizeofPhdr

def elfEinval : ℤ := -22
def elfEnoexec : ℤ := -8
def elfEnomem : ℤ := -12
def elfEfault : ℤ := -14

def elfValidate (data : File) (size : Word) : ℤ :=
  if size < sizeofEhdr then elfEinval
  else
    let ehdr := readEhdr data
    if ehdr.ident 0 ≠ 0x7f#8 ∨ ehdr.ident 1 ≠ 0x45#8 ∨ ehdr.ident 2 ≠ 0x4c#8 ∨
        ehdr.ident 3 ≠ 0x46#8 then elfEnoexec
    else if ehdr.ident 4 ≠ 2#8 then elfEnoexec
    else if ehdr.ident 5 ≠ 1#8 then elfEnoexec
    else if ehdr.type ≠ 2#16 ∧ ehdr.type ≠ 3#16 then elfEnoexec
    else if ehdr.machine ≠ 62#16 then elfEnoexec
    else if ehdr.phentsize ≠ 56#16 then elfEnoexec
    else if phdrsEnd ehdr > size then elfEnoexec
    else 0

structure ElfInfo where
  entry : Word
  phdrAddr : Word
  phnum : BitVec 16
  brkStart : Word

def alignDown (v : Word) : Word := v &&& ~~~0xFFF#64

def alignUp (v : Word) : Word := (v + 4096#64 - 1#64) &&& ~~~0xFFF#64

theorem alignDown_toNat (v : Word) : (alignDown v).toNat = v.toNat - v.toNat % 4096 :=
  toNat_clearLow v (k := 12) (by omega)

theorem alignUp_toNat {v : Word} (hv : v.toNat + 4095 < 2 ^ 64) :
    (alignUp v).toNat = (v.toNat + 4095) / 4096 * 4096 := by
  have hsum : (v + 4096#64 - 1#64).toNat = v.toNat + 4095 := by bv_omega
  have hclear := toNat_clearLow (v + 4096#64 - 1#64) (k := 12) (by omega)
  rw [hsum] at hclear
  refine hclear.trans ?_
  omega

theorem pageOffset_toNat (v : Word) : (v - alignDown v).toNat = v.toNat % 4096 := by
  have hdown := alignDown_toNat v
  rw [BitVec.toNat_sub_of_le (BitVec.le_def.mpr (by omega)), hdown]
  have := Nat.mod_le v.toNat 4096
  omega

def Phdr.segStart (ph : Phdr) : Word := alignDown ph.vaddr

def Phdr.numPages (ph : Phdr) : Word := (alignUp (ph.vaddr + ph.memsz) - ph.segStart) / 4096#64

def Phdr.pteFlags (ph : Phdr) : Word :=
  let flags := ptePresent ||| pteUser
  let flags := if ph.flags &&& 2#32 ≠ 0#32 then flags ||| pteWritable else flags
  if ph.flags &&& 1#32 ≠ 0#32 then flags else flags ||| pteNx

/-- The mapping loop of `elf_load`, over `n` pages of a segment from index `i` on.
A page that is already mapped is left alone. -/
def loadPages (pml4Phys segStart flags : Word) : ℕ → ℕ → Vm → ℤ × Vm
  | 0, _, s => (0, s)
  | n + 1, i, s =>
    if vmmGetPhysical s pml4Phys (rangePage segStart i) ≠ 0#64 then
      loadPages pml4Phys segStart flags n (i + 1) s
    else
      match mapFreshPage s pml4Phys (rangePage segStart i) flags with
      | (.mapped, s) => loadPages pml4Phys segStart flags n (i + 1) s
      | (.noMemory, s) => (elfEnomem, s)
      | (.mapFailed ret, s) => (ret, s)

def elfMemcpy (s : Vm) (f off : ℕ) (data : File) (src : Word) (n : ℕ) : Vm :=
  (List.range n).foldl (fun s i ↦ s.writeByte f (off + i) (data (src + BitVec.ofNat 64 i))) s

/-- The copy loop of `elf_load`. Every round copies at least one byte, so
`remaining` rounds are enough. -/
def copySegment (pml4Phys : Word) (data : File) : ℕ → Word → Word → Word → Vm → ℤ × Vm
  | 0, _, _, _, s => (0, s)
  | fuel + 1, src, dst, remaining, s =>
    if remaining = 0#64 then (0, s)
    else
      let pageStart := alignDown dst
      let pageOffset := dst - pageStart
      let toCopy := 4096#64 - pageOffset
      let toCopy := if toCopy > remaining then remaining else toCopy
      let phys := vmmGetPhysical s pml4Phys pageStart
      if phys = 0#64 then (elfEfault, s)
      else
        copySegment pml4Phys data fuel (src + toCopy) (dst + toCopy) (remaining - toCopy)
          (elfMemcpy s (pageOf phys) pageOffset.toNat data src toCopy.toNat)

theorem toCopy_toNat (dst remaining : Word) :
    (if 4096#64 - (dst - alignDown dst) > remaining then remaining
      else 4096#64 - (dst - alignDown dst)).toNat =
      min (4096 - dst.toNat % 4096) remaining.toNat := by
  have hoff := pageOffset_toNat dst
  have hlt := Nat.mod_lt dst.toNat (show 4096 > 0 by decide)
  have hrest : (4096#64 - (dst - alignDown dst)).toNat = 4096 - dst.toNat % 4096 := by
    rw [BitVec.toNat_sub_of_le (BitVec.le_def.mpr (by rw [hoff]; exact hlt.le)), hoff]
    rfl
  split
  · rename_i hgt
    have := BitVec.lt_def.mp hgt
    omega
  · rename_i hle
    have := BitVec.le_def.mp (BitVec.not_lt.mp hle)
    omega

def noteSegment (ehdr : Ehdr) (ph : Phdr) (info : ElfInfo) : ElfInfo :=
  let high := ph.vaddr + ph.memsz
  { info with
    brkStart := if high > info.brkStart then high else info.brkStart
    phdrAddr :=
      if info.phdrAddr = 0#64 ∧ ph.offset = 0#64 ∧ ph.filesz ≥ phdrsEnd ehdr then
        ph.vaddr + ehdr.phoff
      else info.phdrAddr }

/-- One `PT_LOAD` segment: `0`, or the error with which `elf_load` returns. -/
def loadSegment (s : Vm) (pml4Phys : Word) (data : File) (size : Word) (ph : Phdr) : ℤ × Vm :=
  if ph.vaddr ≥ 0x800000000000#64 then (elfEnoexec, s)
  else
    match loadPages pml4Phys ph.segStart ph.pteFlags ph.numPages.toNat 0 s with
    | (ret, s) =>
      if ret ≠ 0 then (ret, s)
      else if ph.filesz = 0#64 then (0, s)
      else if ph.offset + ph.filesz > size then (elfEnoexec, s)
      else copySegment pml4Phys data ph.filesz.toNat ph.offset ph.vaddr ph.filesz s

def Phdr.IsLoad (ph : Phdr) : Prop := ph.type = 1#32 ∧ ph.memsz ≠ 0#64

instance (ph : Phdr) : Decidable ph.IsLoad := inferInstanceAs (Decidable (_ ∧ _))

def nthPhdr (data : File) (i : ℕ) : Phdr :=
  readPhdr data ((readEhdr data).phoff + BitVec.ofNat 64 i * sizeofPhdr)

def loadSegments (pml4Phys : Word) (data : File) (size : Word) :
    ℕ → ℕ → ElfInfo → Vm → ℤ × ElfInfo × Vm
  | 0, _, info, s => (0, info, s)
  | n + 1, i, info, s =>
    let ph := nthPhdr data i
    if ph.IsLoad then
      match loadSegment s pml4Phys data size ph with
      | (ret, s) =>
        if ret ≠ 0 then (ret, info, s)
        else loadSegments pml4Phys data size n (i + 1) (noteSegment (readEhdr data) ph info) s
    else loadSegments pml4Phys data size n (i + 1) info s

def elfLoad (s : Vm) (pml4Phys : Word) (data : File) (size : Word) (info : ElfInfo) :
    ℤ × ElfInfo × Vm :=
  let ret := elfValidate data size
  if ret < 0 then (ret, info, s)
  else
    let ehdr := readEhdr data
    let info := { entry := ehdr.entry, phdrAddr := 0#64, phnum := ehdr.phnum, brkStart := 0#64 }
    match loadSegments pml4Phys data size ehdr.phnum.toNat 0 info s with
    | (ret, info, s) =>
      if ret ≠ 0 then (ret, info, s)
      else (0, { info with brkStart := alignUp info.brkStart }, s)

section Stack

def userStackTop : Word := 0x800000000#64
def userStackPages : ℕ := 512

def stackPage (i : ℕ) : Word := userStackTop - BitVec.ofNat 64 (i + 1) * 4096#64

def stackPages (pml4Phys : Word) : ℕ → ℕ → Vm → Bool × Vm :=
  mapLoop pml4Phys (ptePresent ||| pteWritable ||| pteUser ||| pteNx) stackPage fun _ s ↦ s

def pokeByte (pml4Phys va : Word) (b : BitVec 8) (s : Vm) : Bool × Vm :=
  let phys := vmmGetPhysical s pml4Phys (alignDown va)
  if phys = 0#64 then (false, s)
  else (true, s.writeByte (pageOf phys) (va &&& 0xFFF#64).toNat b)

/-- Store a run of bytes at `va`, stopping at the first page that is not mapped. -/
def pokeBytes (pml4Phys : Word) : List (BitVec 8) → Word → Vm → Bool × Vm
  | [], _, s => (true, s)
  | b :: bs, va, s =>
    match pokeByte pml4Phys va b s with
    | (false, s) => (false, s)
    | (true, s) => pokeBytes pml4Phys bs (va + 1#64) s

/-- Copy NUL-terminated strings to `va` and record where each one starts. -/
def pokeStrings (pml4Phys : Word) :
    List (List (BitVec 8)) → Word → Vm → Option (List Word) × Word × Vm
  | [], va, s => (some [], va, s)
  | str :: strs, va, s =>
    match pokeBytes pml4Phys (str ++ [0#8]) va s with
    | (false, s) => (none, va, s)
    | (true, s) =>
      match pokeStrings pml4Phys strs (va + BitVec.ofNat 64 (str.length + 1)) s with
      | (ptrs, strPtr, s) => (ptrs.map (va :: ·), strPtr, s)

/-- The `AT_RANDOM` bytes. A page that is not mapped is skipped. -/
def pokeRandom (pml4Phys randomAddr : Word) (s : Vm) : Vm :=
  let phys := vmmGetPhysical s pml4Phys (alignDown randomAddr)
  if phys = 0#64 then s
  else
    (List.range 16).foldl (fun s i ↦
      s.writeByte (pageOf phys) ((randomAddr &&& 0xFFF#64).toNat + i)
        ((randomAddr >>> (i % 8)).setWidth 8 ^^^ BitVec.ofNat 8 (i * 17))) s

/-- A sequence of `PUSH_U64`; the stack pointer is a multiple of 8 throughout. -/
def pushWords (pml4Phys : Word) : List Word → Word → Vm → Option Word × Vm
  | [], sp, s => (some sp, s)
  | w :: ws, sp, s =>
    let sp := sp - 8#64
    let phys := vmmGetPhysical s pml4Phys (alignDown sp)
    if phys = 0#64 then (none, s)
    else pushWords pml4Phys ws sp (s.write (pageOf phys) (wordIndex (sp &&& 0xFFF#64).toNat) w)

def stringsSize (strs : List (List (BitVec 8))) : ℕ := (strs.map fun str ↦ str.length + 1).sum

def auxv (info : ElfInfo) (randomAddr : Word) : List Word :=
  [0#64, 0#64, randomAddr, 25#64, info.entry, 9#64, info.phnum.setWidth 64, 5#64, sizeofPhdr, 4#64]
    ++ (if info.phdrAddr ≠ 0#64 then [info.phdrAddr, 3#64] else []) ++ [4096#64, 6#64]

/-- `elf_setup_stack`: the initial stack pointer, or `0`. `envp` may be absent. -/
def elfSetupStack (s : Vm) (pml4Phys : Word) (argv envp : List (List (BitVec 8)))
    (info : ElfInfo) : Word × Vm :=
  match stackPages pml4Phys userStackPages 0 s with
  | (false, s) => (0#64, s)
  | (true, s) =>
    let stringsBase :=
      (userStackTop - BitVec.ofNat 64 (stringsSize argv + stringsSize envp)) &&& ~~~7#64
    match pokeStrings pml4Phys argv stringsBase s with
    | (none, _, s) => (0#64, s)
    | (some argvPtrs, strPtr, s) =>
      match pokeStrings pml4Phys envp strPtr s with
      | (none, _, s) => (0#64, s)
      | (some envpPtrs, _, s) =>
        let randomAddr := (stringsBase - 16#64) &&& ~~~15#64
        let s := pokeRandom pml4Phys randomAddr s
        let sp := randomAddr &&& ~~~15#64
        let words := auxv info randomAddr ++ (envpPtrs ++ [0#64]).reverse ++
          (argvPtrs ++ [0#64]).reverse ++ [BitVec.ofNat 64 argv.length]
        match pushWords pml4Phys words sp s with
        | (none, s) => (0#64, s)
        | (some sp, s) => (sp, s)

end Stack

end SeedOS.Process
