import SeedOS.Memory.CopySpec
import SeedOS.Memory.MapRefinement
import SeedOS.Process.Loading
import SeedOS.Process.PageLoops

namespace SeedOS.Process

open Foundation Memory Function

/-- What a process finds in its user memory: the flags of the mapped pages, by page number,
and the bytes, by address. -/
structure UserImage where
  flags : ℕ → Option Word
  byte : ℕ → BitVec 8

namespace UserImage

def empty : UserImage := ⟨fun _ ↦ none, fun _ ↦ 0#8⟩

def mapPage (m : UserImage) (page : ℕ) (flags : Word) : UserImage :=
  ⟨update m.flags page (some flags), fun a ↦ if a / 4096 = page then 0#8 else m.byte a⟩

def store (m : UserImage) (lo hi : ℕ) (b : ℕ → BitVec 8) : UserImage :=
  { m with byte := fun a ↦ if lo ≤ a ∧ a < hi then b a else m.byte a }

theorem flags_mapPage (m : UserImage) (page : ℕ) (flags : Word) (p : ℕ) :
    (m.mapPage page flags).flags p = if p = page then some flags else m.flags p := by
  exact update_apply ..

theorem byte_mapPage (m : UserImage) (page : ℕ) (flags : Word) (a : ℕ) :
    (m.mapPage page flags).byte a = if a / 4096 = page then 0#8 else m.byte a := rfl

@[simp] theorem flags_store (m : UserImage) (lo hi : ℕ) (b : ℕ → BitVec 8) :
    (m.store lo hi b).flags = m.flags := rfl

theorem byte_store (m : UserImage) (lo hi : ℕ) (b : ℕ → BitVec 8) (a : ℕ) :
    (m.store lo hi b).byte a = if lo ≤ a ∧ a < hi then b a else m.byte a := rfl

theorem store_empty (m : UserImage) (lo : ℕ) (b : ℕ → BitVec 8) : m.store lo lo b = m := by
  rw [store]
  congr
  funext a
  exact if_neg (by omega)

theorem store_store (m : UserImage) {lo mid hi : ℕ} (h₁ : lo ≤ mid) (h₂ : mid ≤ hi)
    (b : ℕ → BitVec 8) : (m.store lo mid b).store mid hi b = m.store lo hi b ∧
      (m.store mid hi b).store lo mid b = m.store lo hi b := by
  simp only [store, mk.injEq, true_and]
  constructor
  all_goals
    funext a
    split_ifs <;> first | rfl | omega

end UserImage

section Bytes

variable (s : Vm) {f off j : ℕ}

theorem byteOf_zero (k : ℕ) : byteOf 0#64 k = 0#8 := by
  simp [byteOf]

theorem readByte_writeByte (hoff : off < 4096) (hj : j < 4096) (b : BitVec 8) :
    (s.writeByte f off b).readByte f j = if j = off then b else s.readByte f j := by
  rw [Vm.readByte, Vm.writeByte, Vm.write_mem]
  by_cases hw : wordIndex j = wordIndex off
  · have hdiv : j / 8 = off / 8 := by
      have := congrArg Fin.val hw
      simp only [wordIndex] at this
      omega
    rw [if_pos ⟨rfl, hw⟩, byteOf_setByte _ (by omega) (by omega), Vm.readByte, hw]
    exact if_congr ⟨fun h ↦ by omega, fun h ↦ by rw [h]⟩ rfl rfl
  · rw [if_neg fun hc ↦ hw hc.2, if_neg fun hc ↦ hw (by rw [hc]), Vm.readByte]

theorem readByte_write (hoff : off < 4096) (halign : off % 8 = 0) (hj : j < 4096) (w : Word) :
    (s.write f (wordIndex off) w).readByte f j =
      if off ≤ j ∧ j < off + 8 then byteOf w (j - off) else s.readByte f j := by
  rw [Vm.readByte, Vm.write_mem]
  have hiff : wordIndex j = wordIndex off ↔ off ≤ j ∧ j < off + 8 := by
    rw [Fin.ext_iff]
    simp only [wordIndex]
    omega
  by_cases hin : off ≤ j ∧ j < off + 8
  · rw [if_pos ⟨rfl, hiff.mpr hin⟩, if_pos hin, show j % 8 = j - off by omega]
  · rw [if_neg fun hc ↦ hin (hiff.mp hc.2), if_neg hin, Vm.readByte]

end Bytes

structure PageShows (roots : Set ℕ) (s : Vm) (σ : Site) (flags : Word) (page : ℕ)
    (byte : ℕ → BitVec 8) (f : ℕ) : Prop where
  entry : leafEntry s.mem σ = pageAddr f ||| flags
  next : entryNext (leafEntry s.mem σ) = some f
  isFlags : IsFlags flags
  sole : Sole s roots σ
  bytes : ∀ off < 4096, s.readByte f off = byte (page * 4096 + off)

/-- The user half of the address space at `pml4Phys` is the image `m`. -/
structure Shows (roots : Set ℕ) (pml4Phys : Word) (s : Vm) (role : Roles) (m : UserImage) :
    Prop where
  inv : Inv s roots role
  root : pageOf pml4Phys ∈ roots
  unmapped : ∀ va, UserAddress va → m.flags (pageOf va) = none →
    entryNext (leafEntry s.mem (siteOf (pageOf pml4Phys) va)) = none
  mapped : ∀ va flags, UserAddress va → m.flags (pageOf va) = some flags →
    ∃ f, PageShows roots s (siteOf (pageOf pml4Phys) va) flags (pageOf va) m.byte f

namespace Shows

variable {roots : Set ℕ} {pml4Phys va flags : Word} {s s' : Vm} {role : Roles} {m : UserImage}

theorem frame_lt {e : Word} {f : ℕ} (h : entryNext e = some f) : f < 2 ^ 40 :=
  (entryNext_some.mp h).2 ▸ frameOf_lt e

section

variable (h : Shows roots pml4Phys s role m)
include h

theorem pageMapping_some (hva : UserAddress va) (hflags : m.flags (pageOf va) = some flags) :
    ∃ f, pageMapping s pml4Phys va = some (f, flags) ∧
      s.readByte f (va.toNat % 4096) = m.byte va.toNat := by
  obtain ⟨f, hpage⟩ := h.mapped va flags hva hflags
  refine ⟨f, ?_, ?_⟩
  · rw [pageMapping_eq, hpage.next, Option.map_some, hpage.entry,
      rest_entry (frame_lt hpage.next) hpage.isFlags]
  · rw [hpage.bytes _ (Nat.mod_lt _ (by decide)), pageOf, Nat.div_add_mod']

theorem pageMapping_none (hva : UserAddress va)
    (hflags : m.flags (pageOf va) = none) : pageMapping s pml4Phys va = none := by
  rw [pageMapping_eq, h.unmapped va hva hflags, Option.map_none]

theorem physical_eq_zero (hva : UserAddress va) :
    vmmGetPhysical s pml4Phys va = 0#64 ↔ m.flags (pageOf va) = none := by
  constructor
  · intro hz
    have hnone := vmmGetPhysical_zero h.inv h.root hva.pml4Index_lt hz
    cases hflags : m.flags (pageOf va) with
    | none => rfl
    | some flags =>
      obtain ⟨f, hpage⟩ := h.mapped va flags hva hflags
      rw [hpage.next] at hnone
      exact absurd hnone (by simp)
  · intro hflags
    by_contra hne
    obtain ⟨f, -, -, hnext⟩ := vmmGetPhysical_data h.inv h.root hva.pml4Index_lt hne
    rw [h.unmapped va hva hflags] at hnext
    exact absurd hnext (by simp)

theorem frame (hva : UserAddress va) (hne : vmmGetPhysical s pml4Phys va ≠ 0#64) :
    ∃ flags, m.flags (pageOf va) = some flags ∧ PageShows roots s (siteOf (pageOf pml4Phys) va)
      flags (pageOf va) m.byte (pageOf (vmmGetPhysical s pml4Phys va)) := by
  cases hflags : m.flags (pageOf va) with
  | none => exact absurd ((h.physical_eq_zero hva).mpr hflags) hne
  | some flags =>
    obtain ⟨f, hpage⟩ := h.mapped va flags hva hflags
    obtain ⟨g, -, hphys, hnext⟩ := vmmGetPhysical_data h.inv h.root hva.pml4Index_lt hne
    have hlt := frame_lt hnext
    obtain rfl := Option.some.inj (hpage.next.symm.trans hnext)
    rw [hphys, pageOf_pageAddr (by omega)]
    exact ⟨flags, rfl, hpage⟩

theorem data {page f : ℕ} {byte : ℕ → BitVec 8} (hva : UserAddress va)
    (hpage : PageShows roots s (siteOf (pageOf pml4Phys) va) flags page byte f) :
    role f = .data :=
  h.inv.leafEntry_data (siteOf_valid h.root hva.pml4Index_lt) hpage.next

theorem change (s' : Vm) (m' : UserImage) (hva : UserAddress va) {f : ℕ}
    (hpage : PageShows roots s (siteOf (pageOf pml4Phys) va) flags (pageOf va) m.byte f)
    (hp : s'.pmm = s.pmm) (hk : s'.kernelPml4Phys = s.kernelPml4Phys)
    (hm : ∀ g ≠ f, s'.mem g = s.mem g) (hflags : m'.flags = m.flags)
    (hin : ∀ off < 4096, s'.readByte f off = m'.byte (pageOf va * 4096 + off))
    (hout : ∀ a, a / 4096 ≠ pageOf va → m'.byte a = m.byte a) :
    Shows roots pml4Phys s' role m' := by
  have hm' : ∀ g, role g ≠ .data → s'.mem g = s.mem g := fun g hg ↦
    hm g fun hc ↦ hg (hc ▸ h.data hva hpage)
  have hprog := writeData_progress h.inv hp hk hm'
  have hsame := writeData_leaves h.inv hp hk hm'
  have hvalid : ∀ {v : Word}, UserAddress v → (siteOf (pageOf pml4Phys) v).Valid roots :=
    fun hv ↦ siteOf_valid h.root hv.pml4Index_lt
  refine ⟨hprog.inv, h.root, fun v hv hnone ↦ ?_, fun v fl hv hsome ↦ ?_⟩
  · rw [hflags] at hnone
    rw [hsame _ (hvalid hv)]
    exact h.unmapped v hv hnone
  · rw [hflags] at hsome
    obtain ⟨g, hg⟩ := h.mapped v fl hv hsome
    refine ⟨g, ?_, ?_, hg.isFlags, hg.sole.congr (hvalid hv) hsame, fun off hoff ↦ ?_⟩
    · rw [hsame _ (hvalid hv), hg.entry]
    · rw [hsame _ (hvalid hv), hg.next]
    · by_cases hpg : pageOf v = pageOf va
      · have hsite := (siteOf_inj hv hva (pageOf pml4Phys) (pageOf pml4Phys)).mpr ⟨rfl, hpg⟩
        have hnext := hg.next
        rw [hsite, hpage.next] at hnext
        obtain rfl := Option.some.inj hnext
        rw [hin off hoff, hpg]
      · have hne : g ≠ f := by
          rintro rfl
          have := hpage.sole _ (hvalid hv) g hpage.next hg.next
          exact hpg ((siteOf_inj hv hva _ _).mp this).2
        rw [Vm.readByte, hm g hne, ← Vm.readByte, hg.bytes off hoff, hout _ (by omega)]

theorem writeByte (hva : UserAddress va)
    (hne : vmmGetPhysical s pml4Phys va ≠ 0#64) {off : ℕ} (hoff : off < 4096)
    (b : ℕ → BitVec 8) :
    Shows roots pml4Phys (s.writeByte (pageOf (vmmGetPhysical s pml4Phys va)) off
      (b (pageOf va * 4096 + off))) role
      (m.store (pageOf va * 4096 + off) (pageOf va * 4096 + off + 1) b) := by
  obtain ⟨flags, -, hpage⟩ := h.frame hva hne
  refine h.change _ _ hva hpage rfl rfl (fun g hg ↦ writeByte_mem s off _ hg) rfl (fun j hj ↦ ?_)
    fun a ha ↦ if_neg (by omega)
  rw [readByte_writeByte s hoff hj, UserImage.byte_store]
  by_cases hjo : j = off
  · rw [if_pos hjo, if_pos (by omega), hjo]
  · rw [if_neg hjo, if_neg (by omega), hpage.bytes j hj]

theorem write (hva : UserAddress va)
    (hne : vmmGetPhysical s pml4Phys va ≠ 0#64) {off : ℕ} (hoff : off < 4096) (halign : off % 8 = 0)
    {w : Word} {b : ℕ → BitVec 8} (hb : ∀ k < 8, b (pageOf va * 4096 + off + k) = byteOf w k) :
    Shows roots pml4Phys (s.write (pageOf (vmmGetPhysical s pml4Phys va)) (wordIndex off) w) role
      (m.store (pageOf va * 4096 + off) (pageOf va * 4096 + off + 8) b) := by
  obtain ⟨flags, -, hpage⟩ := h.frame hva hne
  refine h.change _ _ hva hpage rfl rfl (fun g hg ↦ funext fun j ↦ ?_) rfl (fun j hj ↦ ?_)
    fun a ha ↦ if_neg (by omega)
  · rw [Vm.write_mem, if_neg fun hc ↦ hg hc.1]
  · rw [readByte_write s hoff halign hj, UserImage.byte_store]
    by_cases hin : off ≤ j ∧ j < off + 8
    · have hbyte := hb (j - off) (by omega)
      rw [show pageOf va * 4096 + off + (j - off) = pageOf va * 4096 + j by omega] at hbyte
      rw [if_pos hin, if_pos (by omega), hbyte]
    · rw [if_neg hin, if_neg (by omega), hpage.bytes j hj]

theorem mapFresh (hva : UserAddress va) (hfl : MapFlags flags)
    (heq : mapFreshPage s pml4Phys va flags = (.mapped, s')) :
    ∃ role', Shows roots pml4Phys s' role' (m.mapPage (pageOf va) flags) ∧
      Preserves s s' role role' := by
  obtain ⟨role', hpages⟩ :=
    FreshPages.of_page h.inv h.root hva.pml4Index_lt hfl heq
  have hvalid : ∀ {v : Word}, UserAddress v → (siteOf (pageOf pml4Phys) v).Valid roots :=
    fun hv ↦ siteOf_valid h.root hv.pml4Index_lt
  have hother : ∀ {v : Word}, UserAddress v → pageOf v ≠ pageOf va →
      siteOf (pageOf pml4Phys) v ∉ ({siteOf (pageOf pml4Phys) va} : Set Site) :=
    fun hv hne hc ↦ hne ((siteOf_inj hv hva _ _).mp hc).2
  refine ⟨role', ⟨hpages.inv, h.root, fun v hv hnone ↦ ?_, fun v fl hv hsome ↦ ?_⟩,
    hpages.holds.toPreserves⟩
  · rw [UserImage.flags_mapPage] at hnone
    obtain ⟨hne, hnone⟩ : pageOf v ≠ pageOf va ∧ m.flags (pageOf v) = none := by
      split at hnone
      · exact absurd hnone (by simp)
      · exact ⟨‹_›, hnone⟩
    rw [hpages.outside _ (hvalid hv) (hother hv hne)]
    exact h.unmapped v hv hnone
  · by_cases hpg : pageOf v = pageOf va
    · have hsite := (siteOf_inj hv hva (pageOf pml4Phys) (pageOf pml4Phys)).mpr ⟨rfl, hpg⟩
      obtain ⟨f, hav, -, hzero, hleaf⟩ := hpages.inside _ rfl
      rw [UserImage.flags_mapPage, if_pos hpg] at hsome
      obtain rfl := Option.some.inj hsome
      have hlt := hav.lt
      refine ⟨f, ?_, ?_, hfl.1, ?_, fun off hoff ↦ ?_⟩
      · rw [hsite, hleaf]
      · rw [hsite, hleaf, entryNext_entry (by omega) hfl]
      · rw [hsite]
        exact hpages.sole _ rfl
      · rw [UserImage.byte_mapPage, if_pos (by omega), Vm.readByte, hzero]
        exact byteOf_zero _
    · rw [UserImage.flags_mapPage, if_neg hpg] at hsome
      obtain ⟨g, hg⟩ := h.mapped v fl hv hsome
      have hleaf := hpages.outside _ (hvalid hv) (hother hv hpg)
      refine ⟨g, by rw [hleaf, hg.entry], by rw [hleaf, hg.next], hg.isFlags,
        hpages.keepsSole _ (hvalid hv) hg.sole, fun off hoff ↦ ?_⟩
      rw [Vm.readByte, (hpages.holds.data (h.data hv hg)).2, ← Vm.readByte, hg.bytes off hoff,
        UserImage.byte_mapPage, if_neg (by omega)]

end

end Shows

end SeedOS.Process
