import SeedOS.Foundation.ByteMemory
import SeedOS.Foundation.Faulting

namespace SeedOS.Apic

open Foundation

structure IrqOverride where
  irqSource : BitVec 8
  gsi : BitVec 32
  flags : BitVec 16
  deriving DecidableEq

/-- `acpi_info_t`. The lists are the parts of the two arrays that are in use. -/
structure AcpiInfo where
  localApicAddress : BitVec 64
  ioApicAddress : BitVec 64
  ioApicId : BitVec 8
  ioApicGsiBase : BitVec 32
  cpuApicIds : List (BitVec 8)
  hasPic : Bool
  overrides : List IrqOverride
  deriving DecidableEq

def maxIrqOverrides : ℕ := 16

def acpiInfo : AcpiInfo := ⟨0#64, 0#64, 0#8, 0#32, [], false, []⟩

section Parse

-- the table, by the offset of each byte from its start
variable (madt : ByteMem)

def field (a n : ℕ) : Faulting ℕ ℕ := ⟨some (loadBytes madt a n), List.range' a n⟩

def length : ℕ := loadBytes madt 4 4

def acpiChecksum (n : ℕ) : Bool := (((List.range n).map fun i ↦ (madt i).toNat).sum) % 256 = 0

def parseEntry (p : ℕ) (info : AcpiInfo) : Faulting ℕ AcpiInfo := do
  match ← field madt p 1 with
  | 0 =>
    let flags ← field madt (p + 4) 4
    if flags % 2 = 1 then
      if info.cpuApicIds.length < 256 then
        let apicId ← field madt (p + 3) 1
        pure { info with cpuApicIds := info.cpuApicIds ++ [BitVec.ofNat 8 apicId] }
      else pure info
    else pure info
  | 1 =>
    let address ← field madt (p + 4) 4
    let id ← field madt (p + 2) 1
    let base ← field madt (p + 8) 4
    pure { info with
      ioApicAddress := BitVec.ofNat 64 address
      ioApicId := BitVec.ofNat 8 id
      ioApicGsiBase := BitVec.ofNat 32 base }
  | 2 =>
    -- the message reads the fields also where there is no room for the override
    let irq ← field madt (p + 3) 1
    let gsi ← field madt (p + 4) 4
    let flags ← field madt (p + 8) 2
    if info.overrides.length < maxIrqOverrides then
      pure { info with overrides := info.overrides ++
        [⟨BitVec.ofNat 8 irq, BitVec.ofNat 32 gsi, BitVec.ofNat 16 flags⟩] }
    else pure info
  | 4 =>
    let _ ← field madt (p + 2) 1
    let _ ← field madt (p + 5) 1
    pure info
  | 5 =>
    let address ← field madt (p + 4) 8
    pure { info with localApicAddress := BitVec.ofNat 64 address }
  | _ => pure info

def parseRound (stop : ℕ) : ℕ × AcpiInfo → Faulting ℕ ((ℕ × AcpiInfo) ⊕ AcpiInfo)
  | (p, info) =>
    if p < stop then do
      let info ← parseEntry madt p info
      let length ← field madt (p + 1) 1
      if length = 0 then pure (.inr info) else pure (.inl (p + length, info))
    else pure (.inr info)

/-- `parse_madt`, with at most `fuel` rounds of its loop. -/
def parseMadt (fuel : ℕ) (info : AcpiInfo) : Faulting ℕ AcpiInfo := do
  let address ← field madt 36 4
  let flags ← field madt 40 4
  let stop ← field madt 4 4
  Faulting.iterate (parseRound madt stop) fuel
    (44, { info with localApicAddress := BitVec.ofNat 64 address, hasPic := flags % 2 = 1 })

end Parse

/-- The call ends, has read bytes of the table only and has not filled more than the two
arrays hold. -/
def ParsesSafely (madt : ByteMem) : Prop :=
  ∃ fuel info, (parseMadt madt fuel acpiInfo).val = some info ∧
    (parseMadt madt fuel acpiInfo).All (· < length madt) ∧ info.cpuApicIds.length ≤ 256 ∧
    info.overrides.length ≤ maxIrqOverrides

def entrySize : ℕ → ℕ
  | 0 => 8
  | 1 => 12
  | 2 => 10
  | 4 => 6
  | 5 => 12
  | _ => 2

/-- Where entries start. An entry of length 0 is the last. -/
inductive EntryAt (madt : ByteMem) : ℕ → Prop
  | first : EntryAt madt 44
  | next {p : ℕ} (hp : EntryAt madt p) (hlt : p < length madt) (hlen : madt (p + 1) ≠ 0#8) :
      EntryAt madt (p + (madt (p + 1)).toNat)

/-- The table has room for its fixed part and for the structure of each entry. -/
def EntriesFit (madt : ByteMem) : Prop :=
  44 ≤ length madt ∧
    ∀ p, EntryAt madt p → p < length madt → p + entrySize (madt p).toNat ≤ length madt

section Reads

variable {madt : ByteMem} {a n p stop : ℕ} {info : AcpiInfo}

theorem loadBytes_one (madt : ByteMem) (a : ℕ) : loadBytes madt a 1 = (madt a).toNat := by
  simp [loadBytes]

@[simp] theorem field_val : (field madt a n).val = some (loadBytes madt a n) := rfl

theorem field_all (hn : 0 < n) : (field madt a n).All (· < stop) ↔ a + n ≤ stop := by
  simp only [Faulting.All, field, List.mem_range'_1]
  constructor
  · intro h
    have := h (a + n - 1) (by omega)
    omega
  · intro h x hx
    omega

theorem parseEntry_all : (parseEntry madt p info).All (· < stop) ∧ p + 2 ≤ stop ↔
    p + entrySize (madt p).toNat ≤ stop := by
  rw [← loadBytes_one]
  simp only [parseEntry, Faulting.all_bind, field_all Nat.one_pos, field_val, Option.some.injEq,
    forall_eq']
  generalize loadBytes madt p 1 = t
  rcases t with _ | _ | _ | _ | _ | _ | t
  · simp only [entrySize, Faulting.all_bind, field_val, field_all (Nat.zero_lt_succ 3)]
    constructor
    · rintro ⟨⟨-, h, -⟩, -⟩
      omega
    · intro h
      refine ⟨⟨by omega, by omega, ?_⟩, by omega⟩
      intro flags _
      split_ifs
      · simp only [Faulting.all_bind, field_all Nat.one_pos, Faulting.all_pure, implies_true,
          and_true]
        omega
      · exact Faulting.all_pure _
      · exact Faulting.all_pure _
  · simp only [entrySize, Faulting.all_bind, field_all Nat.one_pos,
      field_all (Nat.zero_lt_succ 3), Faulting.all_pure, implies_true, and_true, field_val,
      Option.some.injEq, forall_eq']
    omega
  · simp only [entrySize, Faulting.all_bind, field_all Nat.one_pos, field_all (Nat.zero_lt_succ 1),
      field_all (Nat.zero_lt_succ 3), field_val, Option.some.injEq, forall_eq']
    have hpure : ∀ c : Prop, [Decidable c] → ∀ x y : AcpiInfo,
        (if c then pure x else pure y : Faulting ℕ AcpiInfo).All (· < stop) := by
      intro c _ x y
      split_ifs <;> exact Faulting.all_pure _
    simp only [hpure, and_true]
    omega
  · simp only [entrySize, Faulting.all_pure, and_true]
    omega
  · simp only [entrySize, Faulting.all_bind, field_all Nat.one_pos, Faulting.all_pure,
      implies_true, and_true, field_val, Option.some.injEq, forall_eq']
    omega
  · simp only [entrySize, Faulting.all_bind, field_all (Nat.zero_lt_succ 7), Faulting.all_pure,
      implies_true, and_true]
    omega
  · simp only [entrySize, Faulting.all_pure, and_true]
    omega

structure AcpiInfo.Bounded (info : AcpiInfo) : Prop where
  cpus : info.cpuApicIds.length ≤ 256
  overrides : info.overrides.length ≤ maxIrqOverrides

theorem parseEntry_val (madt : ByteMem) (p : ℕ) (info : AcpiInfo) :
    ∃ info', (parseEntry madt p info).val = some info' ∧ (info.Bounded → info'.Bounded) := by
  simp only [parseEntry, Faulting.val_bind, field_val, Option.bind_some]
  generalize loadBytes madt p 1 = t
  rcases t with _ | _ | _ | _ | _ | _ | t
  · simp only [Faulting.val_bind, field_val, Option.bind_some]
    split_ifs with henabled hroom
    · refine ⟨_, rfl, fun h ↦ ⟨?_, h.overrides⟩⟩
      simp only [List.length_append, List.length_singleton]
      omega
    · exact ⟨_, rfl, id⟩
    · exact ⟨_, rfl, id⟩
  · exact ⟨_, rfl, fun h ↦ ⟨h.cpus, h.overrides⟩⟩
  · simp only [Faulting.val_bind, field_val, Option.bind_some]
    split_ifs with hroom
    · refine ⟨_, rfl, fun h ↦ ⟨h.cpus, ?_⟩⟩
      simp only [List.length_append, List.length_singleton]
      omega
    · exact ⟨_, rfl, id⟩
  · exact ⟨_, rfl, id⟩
  · exact ⟨_, rfl, id⟩
  · exact ⟨_, rfl, fun h ↦ ⟨h.cpus, h.overrides⟩⟩
  · exact ⟨_, rfl, id⟩

theorem parseRound_val (madt : ByteMem) (info : AcpiInfo) (hlt : p < stop) :
    ∃ info', (info.Bounded → info'.Bounded) ∧
      (parseRound madt stop (p, info)).val = some (if madt (p + 1) = 0#8 then .inr info'
        else .inl (p + (madt (p + 1)).toNat, info')) := by
  obtain ⟨info', hval, h'⟩ := parseEntry_val madt p info
  refine ⟨info', h', ?_⟩
  simp only [parseRound, if_pos hlt, Faulting.val_bind, hval, Option.bind_some, field_val,
    loadBytes_one]
  have hzero : (madt (p + 1)).toNat = 0 ↔ madt (p + 1) = 0#8 := by
    rw [← BitVec.toNat_inj]
    rfl
  by_cases hlen : madt (p + 1) = 0#8
  · rw [if_pos (hzero.mpr hlen), if_pos hlen, Faulting.val_pure]
  · rw [if_neg (hzero.not.mpr hlen), if_neg hlen, Faulting.val_pure]

theorem parseRound_all : (parseRound madt stop (p, info)).All (· < stop) ↔
    (p < stop → p + entrySize (madt p).toNat ≤ stop) := by
  by_cases hlt : p < stop
  · obtain ⟨info', hval, -⟩ := parseEntry_val madt p info
    have hpure : ∀ len : ℕ, (if len = 0 then pure (.inr info') else pure (.inl (p + len, info')) :
        Faulting ℕ ((ℕ × AcpiInfo) ⊕ AcpiInfo)).All (· < stop) := by
      intro len
      split_ifs <;> exact Faulting.all_pure _
    rw [parseRound, if_pos hlt]
    simp only [Faulting.all_bind, hval, Option.some.injEq, forall_eq', field_all Nat.one_pos,
      hpure, implies_true, and_true, hlt, forall_const]
    exact parseEntry_all
  · rw [parseRound, if_neg hlt]
    exact ⟨fun _ h ↦ absurd h hlt, fun _ ↦ Faulting.all_pure _⟩

theorem parseLoop_ends (madt : ByteMem) {p stop n : ℕ} (h : info.Bounded) (hn : stop - p < n) :
    ∃ info', (Faulting.iterate (parseRound madt stop) n (p, info)).val = some info' ∧
      info'.Bounded := by
  induction n generalizing p info with
  | zero => omega
  | succ n ih =>
    rw [Faulting.iterate, Faulting.val_bind]
    by_cases hlt : p < stop
    · obtain ⟨info₁, h₁, hval⟩ := parseRound_val madt info hlt
      rw [hval, Option.bind_some]
      by_cases hlen : madt (p + 1) = 0#8
      · rw [if_pos hlen]
        exact ⟨info₁, rfl, h₁ h⟩
      · rw [if_neg hlen]
        have hpos : (madt (p + 1)).toNat ≠ 0 := fun hz ↦ hlen (BitVec.toNat_inj.mp hz)
        exact ih (h₁ h) (by omega)
    · have hval : (parseRound madt stop (p, info)).val = some (.inr info) := by
        rw [parseRound, if_neg hlt, Faulting.val_pure]
      rw [hval, Option.bind_some]
      exact ⟨info, rfl, h⟩

theorem entryAt_of_goes {q : ℕ × AcpiInfo} (h : info.Bounded)
    (hgo : Faulting.Goes (parseRound madt (length madt)) (44, info) q) :
    EntryAt madt q.1 ∧ q.2.Bounded := by
  induction hgo with
  | refl => exact ⟨.first, h⟩
  | @tail q q' _ hlast ih =>
    obtain ⟨hentry, hq⟩ := ih
    by_cases hlt : q.1 < length madt
    · obtain ⟨info', h', hval⟩ := parseRound_val madt q.2 hlt
      rw [Prod.mk.eta, hlast, Option.some.injEq] at hval
      by_cases hlen : madt (q.1 + 1) = 0#8
      · simp [hlen] at hval
      · rw [if_neg hlen, Sum.inl.injEq] at hval
        rw [hval]
        exact ⟨.next hentry hlt hlen, h' hq⟩
    · rw [parseRound, if_neg hlt, Faulting.val_pure] at hlast
      simp at hlast

theorem EntryAt.goes (info : AcpiInfo) (hp : EntryAt madt p) :
    ∃ info', Faulting.Goes (parseRound madt (length madt)) (44, info) (p, info') := by
  induction hp with
  | first => exact ⟨info, .refl⟩
  | @next p hp hlt hlen ih =>
    obtain ⟨info₁, hgo⟩ := ih
    obtain ⟨info', -, hval⟩ := parseRound_val madt info₁ hlt
    rw [if_neg hlen] at hval
    exact ⟨info', hgo.tail hval⟩

end Reads

section Table

variable (madt : ByteMem)

def firstInfo : AcpiInfo :=
  { acpiInfo with
    localApicAddress := BitVec.ofNat 64 (loadBytes madt 36 4)
    hasPic := loadBytes madt 40 4 % 2 = 1 }

theorem firstInfo_bounded : (firstInfo madt).Bounded := ⟨Nat.zero_le _, Nat.zero_le _⟩

theorem parseMadt_val (fuel : ℕ) : (parseMadt madt fuel acpiInfo).val =
    (Faulting.iterate (parseRound madt (length madt)) fuel (44, firstInfo madt)).val := by
  simp [parseMadt, Faulting.val_bind, field_val, firstInfo, length]

theorem parseMadt_all (fuel : ℕ) : (parseMadt madt fuel acpiInfo).All (· < length madt) ↔
    44 ≤ length madt ∧ (Faulting.iterate (parseRound madt (length madt)) fuel
      (44, firstInfo madt)).All (· < length madt) := by
  simp only [parseMadt, Faulting.all_bind, field_val, Option.some.injEq, forall_eq',
    field_all (Nat.zero_lt_succ 3), firstInfo, length]
  constructor
  · rintro ⟨-, h, -, hloop⟩
    exact ⟨h, hloop⟩
  · rintro ⟨h, hloop⟩
    exact ⟨by omega, h, by omega, hloop⟩

variable {madt}

theorem ParsesSafely.entriesFit (h : ParsesSafely madt) : EntriesFit madt := by
  obtain ⟨fuel, info, hsome, hreads, -⟩ := h
  rw [parseMadt_val] at hsome
  rw [parseMadt_all, Faulting.all_iterate_of_val hsome] at hreads
  refine ⟨hreads.1, fun p hp hlt ↦ ?_⟩
  obtain ⟨info₁, hgo⟩ := hp.goes (firstInfo madt)
  exact parseRound_all.mp (hreads.2 _ hgo) hlt

/-- The MADT is parsed safely exactly if its entries fit. -/
theorem madt_parsed_safely_iff (madt : ByteMem) : ParsesSafely madt ↔ EntriesFit madt := by
  refine ⟨ParsesSafely.entriesFit, ?_⟩
  rintro ⟨hlen, hfit⟩
  obtain ⟨info, hsome, hbounded⟩ := parseLoop_ends madt (firstInfo_bounded madt)
    (show length madt - 44 < length madt + 1 by omega)
  refine ⟨length madt + 1, info, by rw [parseMadt_val, hsome], ?_, hbounded.cpus,
    hbounded.overrides⟩
  rw [parseMadt_all, Faulting.all_iterate_of_val hsome]
  refine ⟨hlen, fun q hgo ↦ ?_⟩
  obtain ⟨hentry, -⟩ := entryAt_of_goes (firstInfo_bounded madt) hgo
  exact parseRound_all.mpr (hfit q.1 hentry)

end Table

/-- A table with a fixed part and these entries, whose byte 9 completes the checksum. -/
def tableOf (checksum : BitVec 8) (entries : List (BitVec 8)) : ByteMem := fun i ↦
  if i = 4 then BitVec.ofNat 8 (44 + entries.length)
  else if i = 9 then checksum
  else if i < 44 then 0#8 else entries.getD (i - 44) 0#8

/-- A table that ends after the header of an I/O APIC entry: the fields of that entry are read
from the memory behind the table. -/
theorem cut_entry_read_outside :
    acpiChecksum (tableOf 0xC5#8 [1#8, 12#8]) (length (tableOf 0xC5#8 [1#8, 12#8])) = true ∧
    ¬ ParsesSafely (tableOf 0xC5#8 [1#8, 12#8]) := by
  refine ⟨by decide +kernel, fun h ↦ ?_⟩
  have hfit := h.entriesFit.2 44 .first (by decide +kernel)
  exact absurd hfit (by decide +kernel)

end SeedOS.Apic
