import SeedOS.Memory.AddressSpace
import SeedOS.Memory.PmmRuns
import SeedOS.Process.Progress

namespace SeedOS.Process

open Foundation Memory Function

section Via

def PmmVia (p p' : Pmm) : Prop := ∃ ops, p' = p.calls ops

variable {p p' p'' : Pmm}

theorem PmmVia.refl (p : Pmm) : PmmVia p p := ⟨[], rfl⟩

theorem PmmVia.trans (h : PmmVia p p') (h' : PmmVia p' p'') : PmmVia p p'' := by
  obtain ⟨ops, rfl⟩ := h
  obtain ⟨ops', rfl⟩ := h'
  exact ⟨ops ++ ops', (List.foldl_append).symm⟩

theorem via_alloc (p : Pmm) : PmmVia p (pmmAlloc p).2 := ⟨[.alloc], rfl⟩

theorem via_free (p : Pmm) (phys : Word) : PmmVia p (pmmFree p phys) := ⟨[.free phys], rfl⟩

theorem TookPage.via {s s' : Vm} {f : ℕ} (h : TookPage s s' f) : PmmVia s.pmm s'.pmm := by
  have hvia := via_alloc s.pmm
  rwa [h.alloc] at hvia

theorem allocPageTable_via (s : Vm) : PmmVia s.pmm (allocPageTable s).2.pmm := by
  have hvia := via_alloc s.pmm
  unfold allocPageTable
  cases ha : pmmAlloc s.pmm with
  | mk phys pmm =>
    rw [ha] at hvia
    dsimp only
    split_ifs
    · exact hvia
    · exact hvia

theorem vmmCreateAddressSpace_via (s : Vm) : PmmVia s.pmm (vmmCreateAddressSpace s).2.pmm := by
  have hvia := allocPageTable_via s
  unfold vmmCreateAddressSpace
  cases ha : allocPageTable s with
  | mk phys s' =>
    rw [ha] at hvia
    dsimp only
    split_ifs
    · exact hvia
    · exact hvia

theorem descend_via {s s' : Vm} {t t' : ℕ} {i : Fin 512} {flags phys : Word}
    (hd : descend s t i flags = some (t', phys, s')) : PmmVia s.pmm s'.pmm := by
  have hvia := allocPageTable_via s
  unfold descend at hd
  dsimp only at hd
  split_ifs at hd
  · cases hd
    exact .refl _
  · cases hd
    exact .refl _
  · cases hd
    exact hvia

theorem unlink_via (s : Vm) (t : ℕ) (i : Fin 512) (phys : Word) :
    PmmVia s.pmm (unlink s t i phys).pmm := by
  unfold unlink
  split_ifs
  · exact .refl _
  · exact via_free _ _

theorem freeLoop_via {free : Pmm → Word → Pmm} (hfree : ∀ p e, PmmVia p (free p e))
    (row : Fin 512 → Word) (slots : List (Fin 512)) (p : Pmm) :
    PmmVia p (freeLoop free row slots p) := by
  induction slots generalizing p with
  | nil => exact .refl p
  | cons i slots ih =>
    rw [freeLoop]
    split_ifs
    · exact (hfree p _).trans (ih _)
    · exact ih p

theorem freeTables_via (mem : ℕ → Fin 512 → Word) (level : ℕ) (p : Pmm) (table : ℕ)
    (slots : List (Fin 512)) : PmmVia p (freeTables mem level p table slots) := by
  induction level generalizing p table slots with
  | zero => exact freeLoop_via (fun p e ↦ via_free p _) _ _ _
  | succ level ih => exact freeLoop_via (fun p e ↦ (ih p _ _).trans (via_free _ _)) _ _ _

theorem call_surplus (p : Pmm) (op : PmmCall) :
    (p.call op).totalPages = p.totalPages ∧
      (p.call op).freePages + BitVec.ofNat 64 (clearPages p.bitmap p.totalPages) =
        p.freePages + BitVec.ofNat 64 (clearPages (p.call op).bitmap p.totalPages) := by
  cases op with
  | alloc =>
    rcases pmmAlloc_cases p with ⟨he, _⟩ | ⟨f, p', he, hf, _, htotal, hcount, hbits⟩
    · simp only [Pmm.call, he, true_and]
    · have hclear := clearPages_markUsed hf.2.1 hf.2.2
      rw [← clearPages_congr (b := p'.bitmap) fun i ↦ by rw [hbits, isUsed_markUsed]] at hclear
      simp only [Pmm.call, he, htotal, hcount, ← hclear, BitVec.ofNat_add, true_and]
      rw [BitVec.add_comm (BitVec.ofNat 64 _), ← BitVec.add_assoc, BitVec.sub_add_cancel]
  | free phys =>
    rcases pmmFree_cases p phys with he | ⟨f, _, hf, hu, _, he⟩
    · simp only [Pmm.call, he, true_and]
    · have hclear := clearPages_markFree hf hu
      simp only [Pmm.call, he, hclear, BitVec.ofNat_add, true_and]
      rw [BitVec.add_assoc, BitVec.add_comm (1#64)]

theorem PmmVia.surplus (h : PmmVia p p') : p'.totalPages = p.totalPages ∧
    p'.freePages + BitVec.ofNat 64 (clearPages p.bitmap p.totalPages) =
      p.freePages + BitVec.ofNat 64 (clearPages p'.bitmap p.totalPages) := by
  obtain ⟨ops, rfl⟩ := h
  induction ops generalizing p with
  | nil => exact ⟨rfl, rfl⟩
  | cons op ops ih =>
    obtain ⟨ht, hc⟩ := call_surplus p op
    obtain ⟨ht', hc'⟩ := ih (p := p.call op)
    refine ⟨ht'.trans ht, ?_⟩
    rw [ht] at hc'
    show ((p.call op).calls ops).freePages + _ =
      _ + BitVec.ofNat 64 (clearPages ((p.call op).calls ops).bitmap _)
    generalize (p.call op).calls ops = q at *
    generalize BitVec.ofNat 64 (clearPages p.bitmap p.totalPages) = a at *
    generalize BitVec.ofNat 64 (clearPages (p.call op).bitmap p.totalPages) = b at *
    generalize BitVec.ofNat 64 (clearPages q.bitmap p.totalPages) = c at *
    bv_omega

theorem bitmap_ext {b b' : ℕ → BitVec 8} (h : ∀ g, bitmapIsUsed b g = bitmapIsUsed b' g) :
    b = b' := by
  funext i
  apply BitVec.eq_of_getLsbD_eq
  intro j hj
  have hg := h (8 * i + j)
  rwa [bitmapIsUsed_eq, bitmapIsUsed_eq, show (8 * i + j) / 8 = i by omega,
    show (8 * i + j) % 8 = j by omega] at hg

theorem PmmVia.eq_of_used (h : PmmVia p p')
    (hu : ∀ g, bitmapIsUsed p'.bitmap g = true ↔ bitmapIsUsed p.bitmap g = true) : p' = p := by
  obtain ⟨ht, hc⟩ := h.surplus
  have hb : p'.bitmap = p.bitmap := bitmap_ext fun g ↦ Bool.eq_iff_iff.mpr (hu g)
  have hf : p'.freePages = p.freePages := by
    rw [hb] at hc
    exact add_right_cancel hc
  cases p
  cases p'
  simp_all

end Via

section Idle

/-- Frames that are in use, but not by the address space at `r`. -/
def Idle (s : Vm) (r g : ℕ) : Prop :=
  bitmapIsUsed s.pmm.bitmap g = true ∧ ¬ Reached s.mem r g

variable {s s' : Vm} {roots : Set ℕ} {role role' : Roles} {r : ℕ}

theorem reached_iff_role (h : Inv s roots role) (hr : r ∈ roots) {g : ℕ} :
    Reached s.mem r g ↔ (∃ p, role g = .table r p) ∨
      ∃ σ : Site, σ.Valid roots ∧ σ.root = r ∧ entryNext (leafEntry s.mem σ) = some g := by
  refine ⟨h.reached_cases hr, ?_⟩
  rintro (⟨p, hp⟩ | ⟨σ, hσ, rfl, hn⟩)
  · have hlive := h.forest.live hp
    exact ⟨p, hlive.2.1, by omega, h.forest.tableAt_of_role hp⟩
  · obtain ⟨t, ht, he⟩ := h.leafEntry_present hσ hn
    have hlen := hσ.length
    refine ⟨σ.path ++ [σ.index], hσ.user.concat ?_ _, ?_, ?_⟩
    · rintro hc
      simp [hc] at hlen
    · simp [hlen]
    · rw [tableAt_concat, h.forest.tableAt_of_role ht, Option.bind_some, ← he, hn]

theorem reached_sameLeaves (h : Inv s roots role) (h' : Inv s' roots role') (hr : r ∈ roots)
    (hsame : SameLeaves s s' roots) (fresh : ℕ → Prop)
    (htab : ∀ g, (∃ p, role' g = .table r p) ↔ (∃ p, role g = .table r p) ∨ fresh g) (g : ℕ) :
    Reached s'.mem r g ↔ Reached s.mem r g ∨ fresh g := by
  have hleaf : (∃ σ : Site, σ.Valid roots ∧ σ.root = r ∧ entryNext (leafEntry s'.mem σ) = some g) ↔
      ∃ σ : Site, σ.Valid roots ∧ σ.root = r ∧ entryNext (leafEntry s.mem σ) = some g :=
    exists_congr fun σ ↦ and_congr_right fun hσ ↦ by rw [hsame σ hσ]
  rw [reached_iff_role h' hr, reached_iff_role h hr, htab, hleaf, or_right_comm]

theorem reached_writeLeaf (h' : Inv s' roots role) {τ : Site}
    (hτ : τ.Valid roots) {e : Word} (hleaf : Relinked roots s s' τ e) (g : ℕ) :
    Reached s'.mem τ.root g ↔ (∃ p, role g = .table τ.root p) ∨ entryNext e = some g ∨
      ∃ σ : Site, σ.Valid roots ∧ σ.root = τ.root ∧ σ ≠ τ ∧
        entryNext (leafEntry s.mem σ) = some g := by
  rw [reached_iff_role h' hτ.root]
  refine or_congr_right ⟨?_, ?_⟩
  · rintro ⟨σ, hσ, hroot, hn⟩
    rw [hleaf σ hσ] at hn
    split_ifs at hn with he
    · exact .inl hn
    · exact .inr ⟨σ, hσ, hroot, he, hn⟩
  · rintro (hn | ⟨σ, hσ, hroot, hne, hn⟩)
    · exact ⟨τ, hτ, rfl, by rw [hleaf τ hτ, if_pos rfl, hn]⟩
    · exact ⟨σ, hσ, hroot, by rw [hleaf σ hσ, if_neg hne, hn]⟩

theorem reached_mapped (h : Inv s roots role) (h' : Inv s' roots role) {τ : Site}
    (hτ : τ.Valid roots) {e : Word} {f : ℕ} (he : entryNext e = some f)
    (hnone : entryNext (leafEntry s.mem τ) = none)
    (hleaf : Relinked roots s s' τ e) (g : ℕ) :
    Reached s'.mem τ.root g ↔ Reached s.mem τ.root g ∨ g = f := by
  rw [reached_writeLeaf h' hτ hleaf, reached_iff_role h hτ.root, he, Option.some.injEq, or_assoc]
  refine or_congr_right ⟨?_, ?_⟩
  · rintro (rfl | ⟨σ, hσ, hroot, _, hn⟩)
    · exact .inr rfl
    · exact .inl ⟨σ, hσ, hroot, hn⟩
  · rintro (⟨σ, hσ, hroot, hn⟩ | rfl)
    · refine .inr ⟨σ, hσ, hroot, ?_, hn⟩
      rintro rfl
      simp [hnone] at hn
    · exact .inl rfl

theorem reached_unmapped (h : Inv s roots role) (h' : Inv s' roots role) {τ : Site}
    (hτ : τ.Valid roots) {f : ℕ} (hn : entryNext (leafEntry s.mem τ) = some f)
    (hsole : Sole s roots τ) (hleaf : Relinked roots s s' τ 0#64) (g : ℕ) :
    Reached s'.mem τ.root g ↔ Reached s.mem τ.root g ∧ g ≠ f := by
  have hdata := h.leafEntry_data hτ hn
  rw [reached_writeLeaf h' hτ hleaf, reached_iff_role h hτ.root, entryNext_zero]
  constructor
  · rintro (⟨p, hp⟩ | hc | ⟨σ, hσ, hroot, hne, hg⟩)
    · refine ⟨.inl ⟨p, hp⟩, ?_⟩
      rintro rfl
      simp [hdata] at hp
    · simp at hc
    · refine ⟨.inr ⟨σ, hσ, hroot, hg⟩, ?_⟩
      rintro rfl
      exact hne (hsole σ hσ g hn hg)
  · rintro ⟨hp | ⟨σ, hσ, hroot, hg⟩, hgf⟩
    · exact .inl hp
    · refine .inr (.inr ⟨σ, hσ, hroot, ?_, hg⟩)
      rintro rfl
      exact hgf (Option.some.inj (hg.symm.trans hn))

theorem idle_take {f : ℕ} (hused : ∀ g, bitmapIsUsed s'.pmm.bitmap g = true ↔
      bitmapIsUsed s.pmm.bitmap g = true ∨ g = f) (hf : bitmapIsUsed s.pmm.bitmap f ≠ true)
    (hreach : ∀ g, Reached s'.mem r g ↔ Reached s.mem r g ∨ g = f) (g : ℕ) :
    Idle s' r g ↔ Idle s r g := by
  rw [Idle, Idle, hused, hreach]
  constructor
  · rintro ⟨hu | hg, hn⟩
    · exact ⟨hu, fun hc ↦ hn (.inl hc)⟩
    · exact absurd (.inr hg) hn
  · rintro ⟨hu, hn⟩
    refine ⟨.inl hu, ?_⟩
    rintro (hc | rfl)
    · exact hn hc
    · exact hf hu

theorem idle_give {f : ℕ} (hused : ∀ g, bitmapIsUsed s'.pmm.bitmap g = true ↔
      bitmapIsUsed s.pmm.bitmap g = true ∧ g ≠ f) (hf : Reached s.mem r f)
    (hreach : ∀ g, Reached s'.mem r g ↔ Reached s.mem r g ∧ g ≠ f) (g : ℕ) :
    Idle s' r g ↔ Idle s r g := by
  rw [Idle, Idle, hused, hreach]
  constructor
  · rintro ⟨⟨hu, hgf⟩, hn⟩
    exact ⟨hu, fun hc ↦ hn ⟨hc, hgf⟩⟩
  · rintro ⟨hu, hn⟩
    refine ⟨⟨hu, ?_⟩, fun hc ↦ hn hc.1⟩
    rintro rfl
    exact hn hf

theorem used_take {p p' : Pmm} {f : ℕ} (h : p.Takes p' f) (g : ℕ) :
    bitmapIsUsed p'.bitmap g = true ↔ bitmapIsUsed p.bitmap g = true ∨ g = f := by
  rw [h.2, Bool.or_eq_true, decide_eq_true_iff, or_comm]

theorem used_give {p p' : Pmm} {f : ℕ} (h : p.Gives p' f) (g : ℕ) :
    bitmapIsUsed p'.bitmap g = true ↔ bitmapIsUsed p.bitmap g = true ∧ g ≠ f := by
  rw [h.2, Bool.and_eq_true, decide_eq_true_iff, and_comm]

theorem descend_idle (h : Inv s roots role) {t t' : ℕ} {p : List (Fin 512)} {i : Fin 512}
    (ht : role t = .table r p) (hl : p.length < 3) (hu : UserPath (p ++ [i])) {flags phys : Word}
    (hd : descend s t i flags = some (t', phys, s')) (g : ℕ) : Idle s' r g ↔ Idle s r g := by
  have hr := (h.forest.live ht).1
  cases descend_cases hd with
  | follow hpres hs =>
    obtain ⟨hinv, _, _, hsame⟩ := follow_spec h ht hl hu hpres hs
    have hreach := reached_sameLeaves h hinv hr hsame (fun _ ↦ False) (by simp) g
    have hpmm : s'.pmm = s.pmm := by rcases hs with rfl | rfl <;> rfl
    rw [Idle, Idle, hpmm, hreach, or_false]
  | fresh hnone pmm hav htk hne hs =>
    obtain ⟨hfl, hhuge⟩ := intermediateFlags_spec flags
    obtain ⟨hinv, _, hsame, _⟩ := fresh_spec h ht hl hu hfl hhuge hnone hav htk hs
    have hfree := h.free_of_available hav
    refine idle_take (f := t') (fun k ↦ ?_) (by rw [hav.2.2]; decide) (fun k ↦ ?_) g
    · rw [hs]
      exact used_take htk k
    · refine reached_sameLeaves h hinv hr hsame (· = t') (fun k ↦ ?_) k
      by_cases hk : k = t'
      · subst hk; simp
      · simp [hk]

theorem unlink_fresh (s : Vm) (t : ℕ) (i : Fin 512) {phys : Word} (h : phys ≠ 0#64) :
    unlink s t i phys = { (s.write t i 0#64) with pmm := pmmFree s.pmm phys } := by
  rw [unlink, if_neg h]
  rfl

theorem unlink_idle (h : Inv s roots role) {t g : ℕ} {p : List (Fin 512)} {i : Fin 512}
    (ht : role t = .table r p) (hl : p.length < 3) (hu : UserPath (p ++ [i]))
    (hg : role g = .table r (p ++ [i])) {phys : Word}
    (hphys : phys ≠ 0#64 → phys = pageAddr g ∧ s.mem g = fun _ ↦ 0#64) (k : ℕ) :
    Idle (unlink s t i phys) r k ↔ Idle s r k := by
  have hr := (h.forest.live ht).1
  by_cases h0 : phys = 0#64
  · rw [unlink, if_pos h0]
  · obtain ⟨rfl, hzero⟩ := hphys h0
    have hs := unlink_fresh s t i h0
    obtain ⟨hinv, _, hsame, _⟩ := unlink_spec h ht hl hu hg hzero hs
    have hsame' : SameLeaves (unlink s t i (pageAddr g)) s roots :=
      fun σ hσ ↦ (hsame σ hσ).symm
    -- the step back: linking `g` again
    refine (idle_take (s := unlink s t i (pageAddr g)) (f := g) (fun k ↦ ?_) ?_
      (fun k ↦ ?_) k).symm
    · rw [hs, used_give (pmmFree_gives (h.owned_table hg))]
      have := (h.owned_table hg).2.2
      by_cases hk : k = g
      · subst hk; simp [this]
      · simp [hk]
    · rw [hs, Ne, used_give (pmmFree_gives (h.owned_table hg))]
      simp
    · refine reached_sameLeaves hinv h hr hsame' (· = g) (fun k ↦ ?_) k
      by_cases hk : k = g
      · subst hk; simp [hg]
      · simp [hk]

end Idle

end SeedOS.Process
