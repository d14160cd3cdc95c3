import SeedOS.Apic.Madt
import Mathlib.Logic.Function.Basic

namespace SeedOS.Apic

open Foundation Function

def ioapicRedtblBase : ℕ := 0x10
def ioapicMasked : BitVec 64 := 0x10000#64
def ioapicPolarityLow : BitVec 64 := 0x2000#64
def ioapicTriggerLevel : BitVec 64 := 0x8000#64

structure Ioapic where
  regs : ℕ → BitVec 32
  maxEntry : BitVec 8

namespace Ioapic

variable (s : Ioapic)

def read (reg : ℕ) : BitVec 32 := s.regs reg

def write (reg : ℕ) (value : BitVec 32) : Ioapic := { s with regs := update s.regs reg value }

def readRedir (entry : BitVec 8) : BitVec 64 :=
  let lo := s.read (ioapicRedtblBase + entry.toNat * 2)
  let hi := s.read (ioapicRedtblBase + entry.toNat * 2 + 1)
  hi.setWidth 64 <<< 32 ||| lo.setWidth 64

def writeRedir (entry : BitVec 8) (value : BitVec 64) : Ioapic :=
  let s := s.write (ioapicRedtblBase + entry.toNat * 2) (value.setWidth 32)
  s.write (ioapicRedtblBase + entry.toNat * 2 + 1) ((value >>> 32).setWidth 32)

end Ioapic

def irqToGsi (acpi : AcpiInfo) (irq : BitVec 8) : BitVec 32 × BitVec 64 × BitVec 64 :=
  match acpi.overrides.find? (·.irqSource = irq) with
  | some o =>
    (o.gsi, if o.flags &&& 3#16 = 3#16 then ioapicPolarityLow else 0#64,
      if (o.flags >>> 2) &&& 3#16 = 3#16 then ioapicTriggerLevel else 0#64)
  | none => (irq.setWidth 32, 0#64, 0#64)

def gsiOf (acpi : AcpiInfo) (irq : BitVec 8) : BitVec 32 := (irqToGsi acpi irq).1

/-- The redirection entry that `ioapic_route_irq` makes: fixed delivery to a physical
destination. -/
def routedEntry (acpi : AcpiInfo) (irq vector apicId : BitVec 8) : BitVec 64 :=
  let (_, polarity, trigger) := irqToGsi acpi irq
  vector.setWidth 64 ||| polarity ||| trigger ||| apicId.setWidth 64 <<< 56

def ioapicRouteIrq (acpi : AcpiInfo) (s : Ioapic) (irq vector apicId : BitVec 8) : Ioapic :=
  if gsiOf acpi irq > s.maxEntry.setWidth 32 then s
  else s.writeRedir ((gsiOf acpi irq).setWidth 8) (routedEntry acpi irq vector apicId)

def Ioapic.changeRedir (s : Ioapic) (irq : BitVec 8) (f : BitVec 64 → BitVec 64) : Ioapic :=
  if irq > s.maxEntry then s else s.writeRedir irq (f (s.readRedir irq))

def ioapicMaskIrq (s : Ioapic) (irq : BitVec 8) : Ioapic := s.changeRedir irq (· ||| ioapicMasked)

def ioapicUnmaskIrq (s : Ioapic) (irq : BitVec 8) : Ioapic :=
  s.changeRedir irq (· &&& ~~~ioapicMasked)

/-- The I/O APIC with the record of the irq that each entry was last routed for. -/
structure IoapicSys where
  ioapic : Ioapic
  routedFor : BitVec 8 → Option (BitVec 8)

def entryOf (acpi : AcpiInfo) (irq : BitVec 8) : BitVec 8 := (gsiOf acpi irq).setWidth 8

def IoapicSys.route (acpi : AcpiInfo) (s : IoapicSys) (irq vector apicId : BitVec 8) : IoapicSys :=
  ⟨ioapicRouteIrq acpi s.ioapic irq vector apicId,
    if gsiOf acpi irq > s.ioapic.maxEntry.setWidth 32 then s.routedFor
    else update s.routedFor (entryOf acpi irq) (some irq)⟩

/-- Masking and unmasking act on the entry that was routed for the irq, which holds `value`,
and on no entry that was routed for another one. -/
structure MaskingFollows (acpi : AcpiInfo) (s : IoapicSys) (irq : BitVec 8) (value : BitVec 64) :
    Prop where
  masked : (ioapicMaskIrq s.ioapic irq).readRedir (entryOf acpi irq) = value ||| ioapicMasked
  restored : (ioapicUnmaskIrq (ioapicMaskIrq s.ioapic irq) irq).readRedir (entryOf acpi irq) = value
  others : ∀ e irq', s.routedFor e = some irq' → irq' ≠ irq →
    (ioapicMaskIrq s.ioapic irq).readRedir e = s.ioapic.readRedir e ∧
    (ioapicUnmaskIrq s.ioapic irq).readRedir e = s.ioapic.readRedir e

section Registers

variable {s : Ioapic} {e e' : BitVec 8} {value : BitVec 64}

theorem halves_append (value : BitVec 64) : ((value >>> 32).setWidth 32).setWidth 64 <<< 32 |||
    (value.setWidth 32).setWidth 64 = value := by
  ext i hi
  simp only [BitVec.getElem_or, BitVec.getElem_shiftLeft, BitVec.getElem_setWidth,
    BitVec.getLsbD_setWidth, BitVec.getLsbD_ushiftRight]
  by_cases h : i < 32
  · simp [h, BitVec.getLsbD_eq_getElem hi]
  · simp [h, show 32 + (i - 32) = i by omega, show i - 32 < 32 by omega,
      BitVec.getLsbD_eq_getElem hi]

theorem readRedir_writeRedir :
    (s.writeRedir e value).readRedir e' = if e' = e then value else s.readRedir e' := by
  simp only [Ioapic.readRedir, Ioapic.writeRedir, Ioapic.read, Ioapic.write, ioapicRedtblBase,
    update_apply]
  by_cases he : e' = e
  · subst he
    simp only [if_true, if_neg (show 16 + e'.toNat * 2 ≠ 16 + e'.toNat * 2 + 1 by omega)]
    exact halves_append value
  · have hne : e'.toNat ≠ e.toNat := fun hc ↦ he (BitVec.eq_of_toNat_eq hc)
    simp only [if_neg he, if_neg (show 16 + e'.toNat * 2 ≠ 16 + e.toNat * 2 by omega),
      if_neg (show 16 + e'.toNat * 2 ≠ 16 + e.toNat * 2 + 1 by omega),
      if_neg (show 16 + e'.toNat * 2 + 1 ≠ 16 + e.toNat * 2 by omega),
      if_neg (show 16 + e'.toNat * 2 + 1 ≠ 16 + e.toNat * 2 + 1 by omega)]

theorem readRedir_changeRedir (irq : BitVec 8) (f : BitVec 64 → BitVec 64) :
    (s.changeRedir irq f).readRedir e =
      if e = irq ∧ irq ≤ s.maxEntry then f (s.readRedir irq) else s.readRedir e := by
  rw [Ioapic.changeRedir]
  by_cases hlt : irq > s.maxEntry
  · rw [if_pos hlt, if_neg fun hc ↦ BitVec.not_le.mpr hlt hc.2]
  · rw [if_neg hlt, readRedir_writeRedir]
    simp [BitVec.not_lt.mp hlt]

theorem maxEntry_changeRedir (irq : BitVec 8) (f : BitVec 64 → BitVec 64) :
    (s.changeRedir irq f).maxEntry = s.maxEntry := by
  rw [Ioapic.changeRedir]
  split_ifs <;> rfl

theorem or_and_not {x m : BitVec 64} (h : x &&& m = 0#64) : (x ||| m) &&& ~~~m = x := by
  calc (x ||| m) &&& ~~~m = x &&& ~~~m := by
        rw [BitVec.and_or_distrib_right, BitVec.and_not_self]
        exact BitVec.or_zero
    _ = (x &&& m) ||| (x &&& ~~~m) := by rw [h, BitVec.zero_or]
    _ = x := by rw [← BitVec.and_or_distrib_left, BitVec.or_not_self, BitVec.and_allOnes]

theorem routedEntry_unmasked (acpi : AcpiInfo) (irq vector apicId : BitVec 8) :
    routedEntry acpi irq vector apicId &&& ioapicMasked = 0#64 := by
  have hvector : ∀ vector : BitVec 8, vector.setWidth 64 &&& ioapicMasked = 0#64 := by
    decide +kernel
  have hdest : ∀ apicId : BitVec 8, apicId.setWidth 64 <<< 56 &&& ioapicMasked = 0#64 := by
    decide +kernel
  have hflags : ∀ x y : BitVec 64, x &&& ioapicMasked = 0#64 → y &&& ioapicMasked = 0#64 →
      (x ||| y) &&& ioapicMasked = 0#64 := by
    intro x y hx hy
    rw [BitVec.and_or_distrib_right, hx, hy, BitVec.or_zero]
  have hpolarity : (irqToGsi acpi irq).2.1 &&& ioapicMasked = 0#64 := by
    unfold irqToGsi
    split
    · dsimp only
      split_ifs <;> decide
    · exact BitVec.zero_and
  have htrigger : (irqToGsi acpi irq).2.2 &&& ioapicMasked = 0#64 := by
    unfold irqToGsi
    split
    · dsimp only
      split_ifs <;> decide
    · exact BitVec.zero_and
  exact hflags _ _ (hflags _ _ (hflags _ _ (hvector vector) hpolarity) htrigger) (hdest apicId)

end Registers

section Masking

variable {acpi : AcpiInfo} {s : IoapicSys} {irq vector apicId : BitVec 8}

theorem gsiOf_eq_iff (h : gsiOf acpi irq ≤ s.ioapic.maxEntry.setWidth 32) :
    (gsiOf acpi irq = irq.setWidth 32 ↔ entryOf acpi irq = irq) ∧
      entryOf acpi irq ≤ s.ioapic.maxEntry := by
  rw [entryOf]
  generalize gsiOf acpi irq = gsi at *
  generalize s.ioapic.maxEntry = m at *
  rw [← BitVec.toNat_inj, ← BitVec.toNat_inj]
  rw [BitVec.le_def] at h ⊢
  simp only [BitVec.toNat_setWidth] at h ⊢
  omega

theorem route_eq (h : gsiOf acpi irq ≤ s.ioapic.maxEntry.setWidth 32) :
    s.route acpi irq vector apicId =
      ⟨s.ioapic.writeRedir (entryOf acpi irq) (routedEntry acpi irq vector apicId),
        update s.routedFor (entryOf acpi irq) (some irq)⟩ := by
  rw [IoapicSys.route, ioapicRouteIrq, if_neg (BitVec.not_lt.mpr h), if_neg (BitVec.not_lt.mpr h),
    entryOf]

theorem masked_elsewhere (h : gsiOf acpi irq ≤ s.ioapic.maxEntry.setWidth 32)
    (hne : entryOf acpi irq ≠ irq) :
    (ioapicMaskIrq (s.route acpi irq vector apicId).ioapic irq).readRedir (entryOf acpi irq) ≠
      routedEntry acpi irq vector apicId ||| ioapicMasked := by
  rw [route_eq h, ioapicMaskIrq, readRedir_changeRedir, if_neg fun hc ↦ hne hc.1,
    readRedir_writeRedir, if_pos rfl]
  intro hc
  have hmask := congrArg (· &&& ioapicMasked) hc
  rw [routedEntry_unmasked, BitVec.and_or_distrib_right, routedEntry_unmasked] at hmask
  exact absurd hmask (by decide)

/-- Masking follows the routing of an irq exactly if its GSI has the same number. -/
theorem masking_follows_iff (acpi : AcpiInfo) (s : IoapicSys) (irq vector apicId : BitVec 8)
    (hrouted : gsiOf acpi irq ≤ s.ioapic.maxEntry.setWidth 32) :
    MaskingFollows acpi (s.route acpi irq vector apicId) irq (routedEntry acpi irq vector apicId) ↔
      gsiOf acpi irq = irq.setWidth 32 := by
  obtain ⟨hiff, hle⟩ := gsiOf_eq_iff hrouted
  rw [hiff]
  constructor
  · intro h
    by_contra hne
    exact masked_elsewhere hrouted hne h.masked
  · intro heq
    have hunmasked := routedEntry_unmasked acpi irq vector apicId
    rw [heq] at hle
    rw [route_eq hrouted, heq]
    generalize routedEntry acpi irq vector apicId = v at *
    have hmax : (s.ioapic.writeRedir irq v).maxEntry = s.ioapic.maxEntry := rfl
    have hentry : (s.ioapic.writeRedir irq v).readRedir irq = v := by
      rw [readRedir_writeRedir, if_pos rfl]
    refine ⟨?_, ?_, fun e irq' he hne ↦ ?_⟩
    · rw [heq, ioapicMaskIrq, readRedir_changeRedir, hmax, if_pos ⟨rfl, hle⟩, hentry]
    · rw [heq, ioapicUnmaskIrq, readRedir_changeRedir, ioapicMaskIrq, maxEntry_changeRedir, hmax,
        if_pos ⟨rfl, hle⟩, readRedir_changeRedir, hmax, if_pos ⟨rfl, hle⟩, hentry]
      exact or_and_not hunmasked
    · have hother : e ≠ irq := by
        rintro rfl
        simp only [update_self, Option.some.injEq] at he
        exact hne he.symm
      rw [ioapicMaskIrq, ioapicUnmaskIrq, readRedir_changeRedir, readRedir_changeRedir,
        if_neg fun hc ↦ hother hc.1, if_neg fun hc ↦ hother hc.1]
      exact ⟨rfl, rfl⟩

end Masking

section Pc

def pcMadt : ByteMem := tableOf 0xBC#8 [2#8, 10#8, 0#8, 0#8, 2#8, 0#8, 0#8, 0#8, 0#8, 0#8]

def pcAcpi : AcpiInfo := { acpiInfo with overrides := [⟨0#8, 2#32, 0#16⟩] }

theorem pcMadt_parses : acpiChecksum pcMadt (length pcMadt) = true ∧
    (parseMadt pcMadt 2 acpiInfo).val = some pcAcpi := by decide +kernel

def pcIoapic : IoapicSys := ⟨⟨fun _ ↦ 0#32, 23#8⟩, fun _ ↦ none⟩

/-- Irq 1, the keyboard. -/
theorem masking_follows_keyboard : gsiOf pcAcpi 1#8 ≤ pcIoapic.ioapic.maxEntry.setWidth 32 ∧
    MaskingFollows pcAcpi (pcIoapic.route pcAcpi 1#8 33#8 0#8) 1#8
      (routedEntry pcAcpi 1#8 33#8 0#8) :=
  ⟨by decide, (masking_follows_iff pcAcpi pcIoapic 1#8 33#8 0#8 (by decide)).mpr (by decide)⟩

/-- Irq 0 is routed to entry 2, and its masking leaves that entry as it is. -/
theorem timer_masked_elsewhere : (parseMadt pcMadt 2 acpiInfo).val = some pcAcpi ∧
    gsiOf pcAcpi 0#8 ≤ pcIoapic.ioapic.maxEntry.setWidth 32 ∧
    ¬ MaskingFollows pcAcpi (pcIoapic.route pcAcpi 0#8 32#8 0#8) 0#8
      (routedEntry pcAcpi 0#8 32#8 0#8) :=
  ⟨pcMadt_parses.2, by decide, fun h ↦ masked_elsewhere (by decide) (by decide) h.masked⟩

end Pc

end SeedOS.Apic
