import SeedOS.Memory.CopyLevels
import SeedOS.Memory.Translate

namespace SeedOS.Memory

open Foundation Function

def pageEntry (s : Vm) (pml4Phys virt : Word) : Option Word :=
  match walk s pml4Phys virt with
  | none => none
  | some (pt, i) => if hasFlag (s.mem pt i) ptePresent then some (s.mem pt i) else none

def pageMapping (s : Vm) (pml4Phys virt : Word) : Option (ℕ × Word) :=
  (pageEntry s pml4Phys virt).map fun e ↦ (frameOf e, e &&& ~~~pteAddrMask)

/-- Flags of a shared page: `PTE_COW` stands in for `PTE_WRITABLE`. -/
def sharedFlags (flags : Word) : Word :=
  if hasFlag flags pteWritable then flags &&& ~~~pteWritable ||| pteCow else flags

/-- The user half of an address space is a tree of distinct tables that are
marked used, with no huge pages in it. -/
structure UserTree (s : Vm) (pml4Phys : Word) : Prop where
  distinct : ∀ p q f, UserPath p → UserPath q → p.length ≤ 3 → q.length ≤ 3 →
    tableAt entryNext s.mem (pageOf pml4Phys) p = some f →
    tableAt entryNext s.mem (pageOf pml4Phys) q = some f → p = q
  used : ∀ p f, UserPath p → p.length ≤ 3 →
    tableAt entryNext s.mem (pageOf pml4Phys) p = some f → bitmapIsUsed s.pmm.bitmap f = true
  plain : ∀ p f i, UserPath (p ++ [i]) → p.length < 3 →
    tableAt entryNext s.mem (pageOf pml4Phys) p = some f →
    hasFlag (s.mem f i) ptePresent = true → hasFlag (s.mem f i) pteHuge = false

def userMappers (s : Vm) (pml4Phys : Word) (f : ℕ) : Set (List (Fin 512)) :=
  {p | UserPath p ∧ p.length = 4 ∧ tableAt entryNext s.mem (pageOf pml4Phys) p = some f}

section Pages

variable {s s' : Vm} {pml4Phys va : Word}

def pathOf (va : Word) : List (Fin 512) := [pml4Index va, pdptIndex va, pdIndex va, ptIndex va]

theorem pageEntry_eq (s : Vm) (pml4Phys va : Word) :
    pageEntry s pml4Phys va = presentAt s (pageOf pml4Phys) (pathOf va) := by
  have hpath : pathOf va = [pml4Index va, pdptIndex va, pdIndex va] ++ [ptIndex va] := rfl
  rw [pageEntry, walk_eq, presentAt, hpath, entryAt_concat]
  cases tableAt entryNext s.mem (pageOf pml4Phys) [pml4Index va, pdptIndex va, pdIndex va] with
  | none => rfl
  | some t => simp only [Option.map_some, Option.filter_some]

theorem pageEntry_leaf (s : Vm) (pml4Phys va : Word) : pageEntry s pml4Phys va =
    if hasFlag (leafEntry s.mem (siteOf (pageOf pml4Phys) va)) ptePresent then
      some (leafEntry s.mem (siteOf (pageOf pml4Phys) va)) else none := by
  rw [pageEntry, walk_eq]
  cases ht : tableAt entryNext s.mem (pageOf pml4Phys) [pml4Index va, pdptIndex va, pdIndex va] with
  | none => simp [leafEntry, siteOf, ht, hasFlag_zero]
  | some t => simp only [leafEntry, siteOf, ht, Option.map_some]

theorem pageMapping_eq (s : Vm) (pml4Phys va : Word) : pageMapping s pml4Phys va =
    (entryNext (leafEntry s.mem (siteOf (pageOf pml4Phys) va))).map fun f ↦
      (f, leafEntry s.mem (siteOf (pageOf pml4Phys) va) &&& ~~~pteAddrMask) := by
  rw [pageMapping, pageEntry_leaf, entryNext]
  split_ifs <;> rfl

theorem starts_userSlots {p : List (Fin 512)} : Starts userSlots p ↔ UserPath p :=
  forall₂_congr fun _ _ ↦ mem_userSlots

theorem cowEntry_mapping (e : Word) : frameOf (cowEntry e) = frameOf e ∧
    cowEntry e &&& ~~~pteAddrMask = sharedFlags (e &&& ~~~pteAddrMask) := by
  have hlt := frameOf_lt e
  rw [cowEntry, ← pageAddr_frameOf, frameOf_entry hlt (cowFlags_isFlags e),
    rest_entry hlt (cowFlags_isFlags e)]
  exact ⟨rfl, rfl⟩

theorem pageMapping_cow {e : Option Word} :
    (e.map cowEntry).map (fun e ↦ (frameOf e, e &&& ~~~pteAddrMask)) =
      (e.map fun e ↦ (frameOf e, e &&& ~~~pteAddrMask)).map (Prod.map id sharedFlags) := by
  cases e with
  | none => rfl
  | some e =>
    simp [Prod.map, (cowEntry_mapping e).1, (cowEntry_mapping e).2]

theorem plainWay_of_present
    (h : ∀ p e, p <+: pathOf va → p.length ≤ 3 → presentAt s (pageOf pml4Phys) p = some e →
      hasFlag e pteHuge = false) : PlainWay s pml4Phys va := by
  intro h₄
  have hn₄ := entryNext_some.mpr ⟨h₄, rfl⟩
  refine ⟨h [pml4Index va] _ ⟨_, rfl⟩ (by simp) (by rw [presentAt_single, if_pos h₄]), fun h₃ ↦ ?_⟩
  have hn₃ := entryNext_some.mpr ⟨h₃, rfl⟩
  refine ⟨h [pml4Index va, pdptIndex va] _ ⟨_, rfl⟩ (by simp) ?_, fun h₂ ↦
    ⟨h [pml4Index va, pdptIndex va, pdIndex va] _ ⟨_, rfl⟩ (by simp) ?_, trivial⟩⟩
  · rw [presentAt_child hn₄ (by simp), presentAt_single, if_pos h₃]
  · rw [presentAt_child hn₄ (by simp), presentAt_child hn₃ (by simp), presentAt_single, if_pos h₂]

theorem translate_phys (h : PlainWay s pml4Phys va) :
    (translate s pml4Phys va).map Translation.phys =
      (pageEntry s pml4Phys va).map fun e ↦ e &&& pteAddrMask ||| pageOffset va := by
  rw [pageEntry_leaf]
  split_ifs with hp
  · obtain ⟨t, ht, hphys, -⟩ := translate_plain h hp
    rw [ht, Option.map_some, hphys, Option.map_some]
  · have hnone := translate_isSome h
    rw [Bool.eq_false_of_not_eq_true hp, Option.isSome_eq_false_iff, Option.isNone_iff_eq_none] at hnone
    rw [hnone]
    rfl

end Pages

section Copy

variable {s s' : Vm} {src dst : Word}

theorem UserTree.held (htree : UserTree s src) {p : List (Fin 512)} {f : ℕ} (hp : UserPath p)
    (hl : p.length ≤ 3) (hf : tableAt entryNext s.mem (pageOf src) p = some f) :
    ¬ s.pmm.Available f := by
  rintro ⟨_, _, hu⟩
  rw [htree.used p f hp hl hf] at hu
  exact absurd hu (by decide)

theorem cowCopy_of_success (heq : vmmCopyAddressSpaceCow s src = (dst, s')) (hne : dst ≠ 0#64) :
    cowCopy s src = (dst, true, s') := by
  unfold vmmCopyAddressSpaceCow at heq
  rcases hc : cowCopy s src with ⟨d, ok, s₁⟩
  simp only [hc] at heq
  split_ifs at heq with hz hok
  · exact absurd (Prod.mk.inj heq).1.symm hne
  · rw [(Prod.mk.inj heq).1, (Prod.mk.inj heq).2, hok]
  · exact absurd (Prod.mk.inj heq).1.symm hne

theorem UserTree.agree (htree : UserTree s src) {s₁ : Vm} {d : ℕ}
    (hnew : NewSpace s s₁ (pageOf src) d) :
    Agree entryNext s.mem s₁.mem userSlots 3 (pageOf src) := by
  intro q f i hq hl hf
  rw [hnew.mem_other]
  rintro rfl
  exact htree.held (starts_userSlots.mp hq.of_concat) hl hf hnew.available

theorem UserTree.ready (htree : UserTree s src) {s₁ : Vm} {d : ℕ}
    (hnew : NewSpace s s₁ (pageOf src) d) : CopyReady s₁ 3 userSlots (pageOf src) d := by
  have htab : ∀ {p}, UserPath p → p.length ≤ 3 → tableAt entryNext s₁.mem (pageOf src) p =
      tableAt entryNext s.mem (pageOf src) p := fun hp hl ↦
    (htree.agree hnew).tableAt_eq (starts_userSlots.mpr hp) (by omega)
  refine ⟨fun {p q f} hp hq hlp hlq hf hf' ↦ ?_, fun {p f} hp hl hf ha ↦ ?_,
    fun ha ↦ (hnew.takes.available ha).2 rfl, fun {p} hp hl hf ↦ ?_, fun i hi ↦ ?_⟩
  · rw [starts_userSlots] at hp hq
    rw [htab hp hlp] at hf
    rw [htab hq hlq] at hf'
    exact htree.distinct p q f hp hq hlp hlq hf hf'
  · rw [starts_userSlots] at hp
    rw [htab hp hl] at hf
    exact htree.held hp hl hf (hnew.takes.available ha).1
  · rw [starts_userSlots] at hp
    rw [htab hp hl] at hf
    exact htree.held hp hl hf hnew.available
  · rw [hnew.user hi]
    exact entryNext_zero

theorem UserTree.plain_entry (htree : UserTree s src) {p : Slots} {e : Word} (hp : UserPath p)
    (hl : p.length ≤ 3) (he : presentAt s (pageOf src) p = some e) : hasFlag e pteHuge = false := by
  rcases List.eq_nil_or_concat' p with rfl | ⟨q, i, rfl⟩
  · simp [presentAt_nil] at he
  · rw [presentAt, entryAt_concat, Option.filter_eq_some_iff, Option.map_eq_some_iff] at he
    obtain ⟨⟨f, hf, rfl⟩, hpres⟩ := he
    rw [List.length_append, List.length_singleton] at hl
    exact htree.plain q f i hp (by omega) hf hpres

theorem userPath_of_isPrefix {va : Word} (hva : (pml4Index va).val < 256) {p : Slots}
    (hp : p <+: pathOf va) : UserPath p := by
  obtain ⟨tail, hp⟩ := hp
  intro i hi
  have hhead : (p ++ tail).head? = some i := by rw [List.head?_append, hi, Option.some_or]
  rw [hp] at hhead
  rw [← Option.some.inj hhead]
  exact hva

section Done

variable {s₁ : Vm} {N : Set ℕ} (htree : UserTree s src)
  (hnew : NewSpace s s₁ (pageOf src) (pageOf dst))
  (h : CopyDone 3 userSlots s₁ s' (pageOf src) (pageOf dst) N)
include htree hnew h

theorem UserTree.copied_entry {va : Word} (hva : (pml4Index va).val < 256) :
    pageEntry s' src va = (pageEntry s src va).map cowEntry ∧
      pageEntry s' dst va = (pageEntry s src va).map cowEntry := by
  have hpath : Starts userSlots (pathOf va) :=
    starts_userSlots.mpr (userPath_of_isPrefix hva (List.prefix_refl _))
  have hbefore : presentAt s₁ (pageOf src) (pathOf va) = pageEntry s src va := by
    rw [pageEntry_eq, presentAt_congr (htree.agree hnew) hpath (Nat.le_refl 4)]
  constructor
  · rw [pageEntry_eq, h.source _ hpath rfl, hbefore]
  · rw [pageEntry_eq, h.copy _ hpath rfl, hbefore]

theorem UserTree.copied_way {va : Word} (hva : (pml4Index va).val < 256) :
    PlainWay s src va ∧ PlainWay s' src va ∧ PlainWay s' dst va := by
  have hagree := htree.agree hnew
  refine ⟨plainWay_of_present fun p e hp hl he ↦ ?_, plainWay_of_present fun p e hp hl he ↦ ?_,
    plainWay_of_present fun p e hp hl he ↦ ?_⟩ <;> have hpath := userPath_of_isPrefix hva hp
  · exact htree.plain_entry hpath hl he
  · have hstart := starts_userSlots.mpr hpath
    rw [presentAt_congr (h.agree_above (htree.ready hnew) fun _ hj ↦ hj) hstart hl,
      presentAt_congr hagree hstart (by omega)] at he
    exact htree.plain_entry hpath hl he
  · have hstart := starts_userSlots.mpr hpath
    obtain ⟨e₀, he₀, hflags⟩ := h.flags p e hstart hl he
    rw [presentAt_congr hagree hstart (by omega)] at he₀
    have hhuge := htree.plain_entry hpath hl he₀
    rw [← hasFlag_rest e₀ _ (by decide), ← hflags, hasFlag_rest _ _ (by decide)] at hhuge
    exact hhuge

theorem UserTree.copied_pages {va : Word} (hva : (pml4Index va).val < 256) :
    pageMapping s' src va = (pageMapping s src va).map (Prod.map id sharedFlags) ∧
    pageMapping s' dst va = (pageMapping s src va).map (Prod.map id sharedFlags) ∧
    (translate s' src va).map Translation.phys = (translate s src va).map Translation.phys ∧
    (translate s' dst va).map Translation.phys = (translate s src va).map Translation.phys := by
  obtain ⟨hsrc, hdst⟩ := htree.copied_entry hnew h hva
  obtain ⟨hway, hway₁, hway₂⟩ := htree.copied_way hnew h hva
  have hphys : ((pageEntry s src va).map cowEntry).map (fun e ↦ e &&& pteAddrMask ||| pageOffset va) =
      (pageEntry s src va).map fun e ↦ e &&& pteAddrMask ||| pageOffset va := by
    cases pageEntry s src va with
    | none => rfl
    | some e => simp [← pageAddr_frameOf, (cowEntry_mapping e).1]
  refine ⟨?_, ?_, ?_, ?_⟩
  · rw [pageMapping, hsrc, pageMapping_cow, pageMapping]
  · rw [pageMapping, hdst, pageMapping_cow, pageMapping]
  · rw [translate_phys hway, translate_phys hway₁, hsrc, hphys]
  · rw [translate_phys hway, translate_phys hway₂, hdst, hphys]

theorem UserTree.copied_kernel {i : Fin 512} (hi : 256 ≤ i.val) :
    s'.mem (pageOf dst) i = s'.mem (pageOf src) i := by
  have hready := htree.ready hnew
  have hne : pageOf src ≠ pageOf dst := fun hc ↦
    htree.held userPath_nil (Nat.zero_le _) rfl (hc ▸ hnew.available)
  have hi' : i ∉ userSlots := fun hc ↦ absurd (mem_userSlots.mp hc) (by omega)
  rw [h.kept _ i (fun hN ↦ hready.target (h.fresh _ hN)) (fun hc ↦ hi' hc.2) ?_,
    h.kept_source hready starts_nil (Nat.zero_le _) rfl ?_, hnew.row, hnew.mem_other hne]
  · exact if_pos hi
  · rintro ⟨q, hl, hq, hf⟩
    have hnil := hready.distinct hq.of_concat starts_nil (by omega) (by simp) hf rfl
    simp [hnil] at hl
  · rintro ⟨q, hl, hq, hf⟩
    exact hready.apart hq.of_concat (by omega) hf

theorem UserTree.copied_tables {p : Slots} {f : ℕ} (hp : UserPath p) (hl : p.length ≤ 3)
    (hf : tableAt entryNext s'.mem (pageOf dst) p = some f) :
    s.pmm.Available f ∧ ¬ s'.pmm.Available f ∧ ∀ q, UserPath q → q.length ≤ 3 →
      tableAt entryNext s'.mem (pageOf src) q ≠ some f := by
  have hready := htree.ready hnew
  have hfresh : s.pmm.Available f ∧ ¬ s'.pmm.Available f := by
    cases p with
    | nil =>
      obtain rfl := Option.some.inj hf
      exact ⟨hnew.available, fun ha ↦ hready.target (h.available _ ha)⟩
    | cons i p =>
      have hN := h.tables _ f (starts_userSlots.mpr hp) (by simp) hl hf
      exact ⟨(hnew.takes.available (h.fresh f hN)).1, h.taken f hN⟩
  refine ⟨hfresh.1, hfresh.2, fun q hq hlq hq' ↦ ?_⟩
  rw [h.source_tables hready (fun _ hj ↦ hj) (starts_userSlots.mpr hq) hlq,
    (htree.agree hnew).tableAt_eq (starts_userSlots.mpr hq) (by omega)] at hq'
  exact htree.held hq hlq hq' hfresh.1

theorem UserTree.copied_count (f : ℕ) :
    s'.count f = if s.Tracked f then min 255 (s.count f + (userMappers s src f).ncard)
      else s.count f := by
  have hmappers : endingAt entryNext s₁.mem userSlots 3 (pageOf src) f = userMappers s src f := by
    rw [endingAt_congr (htree.agree hnew)]
    ext p
    exact and_congr_left' starts_userSlots
  rw [h.count, hmappers, hnew.eq]
  rfl

end Done

/-- A complete copy. Source and copy map every user page to the frame it had, with
the flags of a shared page, and have the same kernel half. The tables of the copy are
new, and a frame is counted once more for every entry that maps it. -/
theorem cow_copy_spec (htree : UserTree s src) (heq : vmmCopyAddressSpaceCow s src = (dst, s'))
    (hne : dst ≠ 0#64) :
    (∀ va, (pml4Index va).val < 256 →
      pageMapping s' src va = (pageMapping s src va).map (Prod.map id sharedFlags) ∧
      pageMapping s' dst va = (pageMapping s src va).map (Prod.map id sharedFlags) ∧
      (translate s' src va).map Translation.phys = (translate s src va).map Translation.phys ∧
      (translate s' dst va).map Translation.phys = (translate s src va).map Translation.phys) ∧
    (∀ i : Fin 512, 256 ≤ i.val → s'.mem (pageOf dst) i = s'.mem (pageOf src) i) ∧
    (∀ p f, UserPath p → p.length ≤ 3 → tableAt entryNext s'.mem (pageOf dst) p = some f →
      s.pmm.Available f ∧ ¬ s'.pmm.Available f ∧ ∀ q, UserPath q → q.length ≤ 3 →
        tableAt entryNext s'.mem (pageOf src) q ≠ some f) ∧
    ∀ f, s'.count f = if s.Tracked f then min 255 (s.count f + (userMappers s src f).ncard)
      else s.count f := by
  have hroot : ¬ s.pmm.Available (pageOf src) := htree.held userPath_nil (Nat.zero_le _) rfl
  rcases cowCopy_cases hroot (cowCopy_of_success heq hne) with ⟨hz, -⟩ | ⟨-, -, s₁, hnew, hcopy⟩
  · exact absurd hz hne
  obtain ⟨N, h⟩ := copyTables_done userSlots_nodup (htree.ready hnew) hcopy
  exact ⟨fun va hva ↦ htree.copied_pages hnew h hva, fun i hi ↦ htree.copied_kernel hnew h hi,
    fun p f hp hl hf ↦ htree.copied_tables hnew h hp hl hf, htree.copied_count hnew h⟩

/-- One writable page, through the tables in frames 3 to 6. -/
def onePage : Vm where
  mem f i :=
    if f = 3 ∧ i = 0 then 0x4007#64 else if f = 4 ∧ i = 0 then 0x5007#64
    else if f = 5 ∧ i = 2 then 0x6007#64 else if f = 6 ∧ i = 0 then 0x7007#64 else 0#64
  pmm := ⟨fun i ↦ if i = 0 then 0xFF#8 else 0#8, 32, 24#64, Pmm.small_le⟩
  pageInfo := some fun f ↦ if f = 7 then 1#8 else 0#8
  maxPages := 32
  kernelPml4Phys := 0x1000#64

theorem onePage_next (f : ℕ) (i : Fin 512) (c : ℕ) : entryNext (onePage.mem f i) = some c ↔
    (f = 3 ∧ i = 0 ∧ c = 4) ∨ (f = 4 ∧ i = 0 ∧ c = 5) ∨ (f = 5 ∧ i = 2 ∧ c = 6) ∨
      (f = 6 ∧ i = 0 ∧ c = 7) := by
  have h₄ : entryNext 0x4007#64 = some 4 := by decide
  have h₅ : entryNext 0x5007#64 = some 5 := by decide
  have h₆ : entryNext 0x6007#64 = some 6 := by decide
  have h₇ : entryNext 0x7007#64 = some 7 := by decide
  simp only [onePage]
  split_ifs with hf₃ hf₄ hf₅ hf₆
  · obtain ⟨rfl, rfl⟩ := hf₃; simp [h₄, eq_comm]
  · obtain ⟨rfl, rfl⟩ := hf₄; simp [h₅, eq_comm]
  · obtain ⟨rfl, rfl⟩ := hf₅; simp [h₆, eq_comm]
  · obtain ⟨rfl, rfl⟩ := hf₆; simp [h₇, eq_comm]
  · rw [entryNext_zero]
    refine iff_of_false (by simp) ?_
    rintro (⟨h, h', _⟩ | ⟨h, h', _⟩ | ⟨h, h', _⟩ | ⟨h, h', _⟩)
    · exact hf₃ ⟨h, h'⟩
    · exact hf₄ ⟨h, h'⟩
    · exact hf₅ ⟨h, h'⟩
    · exact hf₆ ⟨h, h'⟩

theorem onePage_tableAt {p : List (Fin 512)} {f : ℕ} (hl : p.length ≤ 3)
    (hf : tableAt entryNext onePage.mem 3 p = some f) :
    (p = [] ∧ f = 3) ∨ (p = [0] ∧ f = 4) ∨ (p = [0, 0] ∧ f = 5) ∨ (p = [0, 0, 2] ∧ f = 6) := by
  rcases p with _ | ⟨i, _ | ⟨j, _ | ⟨k, _ | ⟨l, p⟩⟩⟩⟩
  · simp_all [tableAt]
  · simp_all [tableAt, onePage_next]
  · simp_all [tableAt, onePage_next, Option.bind_eq_some_iff]
  · simp_all [tableAt, onePage_next, Option.bind_eq_some_iff]
  · exact absurd hl (by simp)

theorem onePage_tree : UserTree onePage 0x3000#64 := by
  refine ⟨fun p q f _ _ hlp hlq hf hf' ↦ ?_, fun p f _ hl hf ↦ ?_, fun p f i _ hl hf hp ↦ ?_⟩
  · have h := onePage_tableAt hlp hf
    have h' := onePage_tableAt hlq hf'
    grind
  · rcases onePage_tableAt hl hf with ⟨_, rfl⟩ | ⟨_, rfl⟩ | ⟨_, rfl⟩ | ⟨_, rfl⟩ <;> decide
  · simp only [onePage]
    split_ifs <;> decide

theorem cow_copy_spec_onePage :
    pageMapping (vmmCopyAddressSpaceCow onePage 0x3000#64).2 0x3000#64 0x400000#64 =
      (pageMapping onePage 0x3000#64 0x400000#64).map (Prod.map id sharedFlags) ∧
    pageMapping onePage 0x3000#64 0x400000#64 = some (7, 0x7#64) ∧
    sharedFlags 0x7#64 = 0x205#64 :=
  ⟨((cow_copy_spec onePage_tree Prod.mk.eta.symm (by decide +kernel)).1 0x400000#64 (by decide)).1,
    by decide +kernel, by decide⟩

end Copy

end SeedOS.Memory
