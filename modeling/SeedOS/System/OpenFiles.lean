import SeedOS.Foundation.References
import SeedOS.System.Kernel

namespace SeedOS.System

open Foundation Memory Process Function

instance : Finite Ptr := Finite.of_equiv (Fin (2 ^ 64)) BitVec.equivFin.symm.toEquiv

noncomputable instance : Fintype Ptr := Fintype.ofFinite Ptr

abbrev FdTables := Ptr → Fin 256 → Option Ptr

def Kernel.table (k : Kernel) : FdTables := fun p i ↦ (k.pcbs p).bind fun proc ↦ proc.fdTable i

/-- Reference counts agree with the entries of the tables `T`. -/
structure Counted (T : FdTables) (files : Ptr → Option VfsFile) : Prop where
  entry : ∀ p i f, T p i = some f → (files f).isSome
  count : ∀ f v, files f = some v → v.refcount = BitVec.ofNat 32 (uses T f) ∧ 0 < uses T f
  ops : ∀ f v, files f = some v → v.ops.isSome

def Few (T : FdTables) : Prop := ∀ f, uses T f < 2 ^ 31

section Count

theorem ofNat_succ_sub_one (n : ℕ) : BitVec.ofNat 32 (n + 1) - 1#32 = BitVec.ofNat 32 n := by
  rw [BitVec.ofNat_add]
  exact BitVec.add_sub_cancel _ _

theorem ofNat_toInt_nonpos {n : ℕ} (hn : n < 2 ^ 31) :
    (BitVec.ofNat 32 n).toInt ≤ 0 ↔ n = 0 := by
  rw [BitVec.toInt_eq_toNat_of_lt (by rw [BitVec.toNat_ofNat]; omega), BitVec.toNat_ofNat]
  omega

end Count

section Close

variable {k k' : Kernel} {T : FdTables} {p : Ptr} {i : Fin 256} {f : Ptr}

/-- What the log says about the files of `k` after a step that opens none: each file
that the tables `T'` use no more was closed and freed, once. -/
structure Closes (k k' : Kernel) (T' : FdTables) : Prop where
  files : ∀ f, (k'.files f).isSome ↔ (k.files f).isSome ∧ uses T' f ≠ 0
  log : ∃ evs, k'.log = k.log ++ evs ∧ ∀ f,
    evs.count (.close f) = (if (k.files f).isSome ∧ uses T' f = 0 then 1 else 0) ∧
    evs.count (.kfree f) = if (k.files f).isSome ∧ uses T' f = 0 then 1 else 0

theorem Counted.used {files : Ptr → Option VfsFile} (h : Counted T files)
    (hf : (files f).isSome) : uses T f ≠ 0 := by
  obtain ⟨v, hv⟩ := Option.isSome_iff_exists.mp hf
  exact Nat.ne_of_gt (h.count f v hv).2

theorem Closes.refl (h : Counted T k.files) : Closes k k T := by
  refine ⟨fun f ↦ ⟨fun hf ↦ ⟨hf, h.used hf⟩, And.left⟩, [], by simp, fun f ↦ ?_⟩
  rw [if_neg fun hc ↦ h.used hc.1 hc.2]
  simp

theorem Closes.trans {k₁ : Kernel} {T₁ T' : FdTables} (h : Closes k k₁ T₁) (h' : Closes k₁ k' T')
    (hle : ∀ f, uses T' f ≤ uses T₁ f) : Closes k k' T' := by
  obtain ⟨evs, hlog, hevs⟩ := h.log
  obtain ⟨evs', hlog', hevs'⟩ := h'.log
  refine ⟨fun f ↦ ?_, evs ++ evs', by rw [hlog', hlog, List.append_assoc], fun f ↦ ?_⟩
  · have := hle f
    rw [h'.files, h.files]
    constructor
    · rintro ⟨⟨hf, _⟩, hu⟩
      exact ⟨hf, hu⟩
    · rintro ⟨hf, hu⟩
      exact ⟨⟨hf, by omega⟩, hu⟩
  · have hsum : (if (k.files f).isSome ∧ uses T₁ f = 0 then 1 else 0) +
        (if (k₁.files f).isSome ∧ uses T' f = 0 then 1 else 0) =
        if (k.files f).isSome ∧ uses T' f = 0 then 1 else 0 := by
      have := hle f
      simp only [h.files f]
      by_cases hf : (k.files f).isSome
      · by_cases hu : uses T₁ f = 0
        · simp [hf, hu, show uses T' f = 0 by omega]
        · simp [hf, hu]
      · simp [hf]
    rw [List.count_append, List.count_append, (hevs f).1, (hevs f).2, (hevs' f).1, (hevs' f).2]
    exact ⟨hsum, hsum⟩

theorem uses_clear_le (T : FdTables) (p : Ptr) (i : Fin 256) (f : Ptr) :
    uses (setEntry T p i none) f ≤ uses T f := by
  have := uses_setEntry T p i none f
  rw [if_neg (show ¬ (none : Option Ptr) = some f by simp)] at this
  omega

theorem uses_clear_of_ne (h : T p i = some f) {g : Ptr} (hg : g ≠ f) :
    uses (setEntry T p i none) g = uses T g := by
  have := uses_setEntry T p i none g
  rw [h, if_neg (by simpa using Ne.symm hg), if_neg (by simp)] at this
  omega

theorem uses_clear_self (h : T p i = some f) : uses T f = uses (setEntry T p i none) f + 1 := by
  have := uses_setEntry T p i none f
  rw [h, if_pos rfl, if_neg (by simp)] at this
  omega

theorem Counted.clear {files : Ptr → Option VfsFile} (h : Counted T files) (hf : T p i = some f)
    {x : Option VfsFile} (hx : ∀ v, x = some v →
      v.refcount = BitVec.ofNat 32 (uses (setEntry T p i none) f) ∧ v.ops.isSome)
    (hlast : x.isSome ↔ uses (setEntry T p i none) f ≠ 0) :
    Counted (setEntry T p i none) (update files f x) ∧ ∀ g, (update files f x g).isSome ↔
      (files g).isSome ∧ uses (setEntry T p i none) g ≠ 0 := by
  have hsome : ∀ g, (update files f x g).isSome ↔
      (files g).isSome ∧ uses (setEntry T p i none) g ≠ 0 := by
    intro g
    by_cases hgf : g = f
    · rw [hgf, update_self, hlast, and_iff_right (h.entry p i f hf)]
    · rw [update_of_ne hgf, uses_clear_of_ne hf hgf, and_iff_left_of_imp h.used]
  refine ⟨⟨fun q j g hg ↦ (hsome g).mpr ⟨h.entry q j g ?_, (uses_pos hg).ne'⟩, fun g v hv ↦ ?_,
    fun g v hv ↦ ?_⟩, hsome⟩
  · rw [setEntry_apply] at hg
    split_ifs at hg
    exact hg
  · by_cases hgf : g = f
    · rw [hgf, update_self] at hv
      rw [hgf]
      exact ⟨(hx v hv).1, Nat.pos_of_ne_zero (hlast.mp (by rw [hv]; rfl))⟩
    · rw [update_of_ne hgf] at hv
      rw [uses_clear_of_ne hf hgf]
      exact h.count g v hv
  · by_cases hgf : g = f
    · rw [hgf, update_self] at hv
      exact (hx v hv).2
    · rw [update_of_ne hgf] at hv
      exact h.ops g v hv

theorem vfsClose_spec (h : Counted T k.files) (hfew : Few T) (hf : T p i = some f) :
    ∃ files log, vfsClose k f = some { k with files := files, log := log } ∧
      Counted (setEntry T p i none) files ∧
      Closes k { k with files := files, log := log } (setEntry T p i none) := by
  obtain ⟨v, hv⟩ := Option.isSome_iff_exists.mp (h.entry p i f hf)
  have hcount : v.refcount - 1#32 = BitVec.ofNat 32 (uses (setEntry T p i none) f) := by
    rw [(h.count f v hv).1, uses_clear_self hf, ofNat_succ_sub_one]
  have hlast : (v.refcount - 1#32).toInt ≤ 0 ↔ uses (setEntry T p i none) f = 0 := by
    have hfewer := (uses_clear_le T p i f).trans_lt (hfew f)
    rw [hcount, ofNat_toInt_nonpos hfewer]
  have hother : ∀ g, g ≠ f → ¬ ((k.files g).isSome ∧ uses (setEntry T p i none) g = 0) :=
    fun g hg hc ↦ h.used hc.1 (uses_clear_of_ne hf hg ▸ hc.2)
  unfold vfsClose vfsFileUnref
  simp only [hv, Option.map_some]
  by_cases hz : uses (setEntry T p i none) f = 0
  · rw [if_pos (hlast.mpr hz), h.ops f v hv, if_pos rfl]
    obtain ⟨hc, hsome⟩ := h.clear (x := none) hf nofun (by simp [hz])
    refine ⟨_, _, rfl, hc, hsome, [.close f, .kfree f], by simp, fun g ↦ ?_⟩
    by_cases hgf : g = f
    · subst hgf; simp [hv, hz]
    · rw [if_neg (hother g hgf)]
      simp [Ne.symm hgf]
  · rw [if_neg (hlast.not.mpr hz)]
    obtain ⟨hc, hsome⟩ := h.clear (x := some { v with refcount := v.refcount - 1#32 }) hf
      (fun w hw ↦ Option.some.inj hw ▸ ⟨hcount, h.ops f v hv⟩) (by simp [hz])
    refine ⟨_, k.log, rfl, hc, hsome, [], by simp, fun g ↦ ?_⟩
    by_cases hgf : g = f
    · subst hgf; simp [hz]
    · rw [if_neg (hother g hgf)]
      simp

end Close

section Entries

variable {k k' : Kernel} {T : FdTables} {p : Ptr} {i : Fin 256} {f : Ptr}

theorem Counted.add {files : Ptr → Option VfsFile} (h : Counted T files) (hp : T p i = none)
    {v : VfsFile} (hops : v.ops.isSome) (hcount : v.refcount = BitVec.ofNat 32 (uses T f + 1)) :
    Counted (setEntry T p i (some f)) (update files f (some v)) := by
  have hset := uses_setEntry T p i (some f)
  refine ⟨?_, ?_, ?_⟩
  · intro q j g hg
    by_cases hgf : g = f
    · subst hgf; simp
    · rw [update_of_ne hgf]
      rw [setEntry_apply] at hg
      split_ifs at hg
      · exact absurd (Option.some.inj hg).symm hgf
      · exact h.entry q j g hg
  · intro g w hw
    have hg := hset g
    rcases update_some_cases hw with ⟨rfl, rfl⟩ | ⟨hgf, hw⟩
    · rw [hp, if_neg (by simp), if_pos rfl, Nat.add_zero] at hg
      rw [hg, hcount]
      exact ⟨rfl, Nat.succ_pos _⟩
    · rw [hp, if_neg (by simp), if_neg (by simpa using Ne.symm hgf)] at hg
      rw [show uses (setEntry T p i (some f)) g = uses T g by omega]
      exact h.count g w hw
  · intro g w hw
    rcases update_some_cases hw with ⟨rfl, rfl⟩ | ⟨-, hw⟩
    · exact hops
    · exact h.ops g w hw

theorem Counted.uses_none {files : Ptr → Option VfsFile} (h : Counted T files)
    (hf : files f = none) : uses T f = 0 := by
  by_contra hu
  obtain ⟨x, _, hx⟩ := Finset.exists_ne_zero_of_sum_ne_zero hu
  have hx' : T x.1 x.2 = some f := by
    by_contra hc
    exact hx (if_neg hc)
  simpa [hf] using h.entry _ _ _ hx'

theorem vfsFileRef_spec (h : Counted T k.files) (hf : (k.files f).isSome) (hp : T p i = none) :
    ∃ files, vfsFileRef k f = some { k with files := files } ∧
      Counted (setEntry T p i (some f)) files ∧ ∀ g, (files g).isSome ↔ (k.files g).isSome := by
  obtain ⟨v, hv⟩ := Option.isSome_iff_exists.mp hf
  simp only [vfsFileRef, hv, Option.map_some]
  refine ⟨_, rfl, h.add hp (h.ops f v hv) ?_, fun g ↦ ?_⟩
  · rw [(h.count f v hv).1, BitVec.ofNat_add]
  · by_cases hgf : g = f
    · subst hgf; simp [hv]
    · rw [update_of_ne hgf]

theorem table_update (k : Kernel) (p : Ptr) (proc : Pcb) :
    ({ k with pcbs := update k.pcbs p (some proc) } : Kernel).table =
      update k.table p proc.fdTable := by
  funext q i
  by_cases hq : q = p
  · subst hq
    simp [Kernel.table]
  · simp [Kernel.table, hq]

theorem table_of_some {proc : Pcb} (hp : k.pcbs p = some proc) : k.table p = proc.fdTable := by
  funext i
  simp [Kernel.table, hp]

theorem table_setFd {proc : Pcb} (hp : k.pcbs p = some proc) (i : Fin 256) (e : Option Ptr) :
    ({ k with pcbs := update k.pcbs p (some (setFd i e proc)) } : Kernel).table =
      setEntry k.table p i e := by
  rw [table_update, setEntry, table_of_some hp]
  rfl

theorem isSome_of_update {proc proc' : Pcb} (hp : k.pcbs p = some proc) (q : Ptr) :
    (update k.pcbs p (some proc') q).isSome → (k.pcbs q).isSome := by
  by_cases hq : q = p
  · simp [hq, hp]
  · rw [update_of_ne hq]
    exact id

theorem closeFds_spec {fds : List (Fin 256)} (h : Counted k.table k.files) (hfew : Few k.table)
    (heq : closeFds p fds k = some k') :
    Counted k'.table k'.files ∧ Closes k k' k'.table ∧
      (∀ f, uses k'.table f ≤ uses k.table f) ∧
      (∀ i, i ∈ fds ∨ k.table p i = none → k'.table p i = none) ∧
      ∀ q, (k'.pcbs q).isSome → (k.pcbs q).isSome := by
  induction fds generalizing k with
  | nil =>
    obtain rfl := Option.some.inj heq
    exact ⟨h, .refl h, fun _ ↦ le_rfl, by simp, fun _ ↦ id⟩
  | cons j fds ih =>
    simp only [closeFds, Option.bind_eq_bind, Option.bind_eq_some_iff] at heq
    obtain ⟨proc, hp, heq⟩ := heq
    have hrow := table_of_some hp
    cases hf : proc.fdTable j with
    | none =>
      simp only [hf] at heq
      obtain ⟨hc, hcl, hle, hnone, hdom⟩ := ih h hfew heq
      refine ⟨hc, hcl, hle, fun i hi ↦ hnone i ?_, hdom⟩
      rw [List.mem_cons, or_assoc] at hi
      exact hi.elim (fun hi ↦ .inr (by rw [hi, hrow, hf])) id
    | some f =>
      obtain ⟨files, log, hclose, hc₁, hcl₁⟩ :=
        vfsClose_spec h hfew (show k.table p j = some f by rw [hrow, hf])
      obtain ⟨k₁, hk₁⟩ : ∃ k₁ : Kernel, k₁ = { k with
        files := files, log := log
        pcbs := update k.pcbs p (some (setFd j none proc)) } := ⟨_, rfl⟩
      simp only [hf, hclose, modify_eq (k := { k with files := files, log := log }) hp,
        Option.bind_some, ← hk₁] at heq
      have htab : k₁.table = setEntry k.table p j none := by
        rw [hk₁]
        exact table_setFd (k := { k with files := files, log := log }) hp j none
      have hle₁ : ∀ g, uses k₁.table g ≤ uses k.table g := fun g ↦ htab ▸ uses_clear_le ..
      have hcl : Closes k k₁ k₁.table := by
        rw [htab, hk₁]
        exact ⟨hcl₁.files, hcl₁.log⟩
      obtain ⟨hc, hcl', hle, hnone, hdom⟩ := ih (by rw [htab, hk₁]; exact hc₁)
        (fun g ↦ (hle₁ g).trans_lt (hfew g)) heq
      refine ⟨hc, hcl.trans hcl' hle, fun g ↦ (hle g).trans (hle₁ g), fun i hi ↦ hnone i ?_,
        fun q hq ↦ ?_⟩
      · rw [htab, setEntry_apply]
        by_cases hij : i = j
        · simp [hij]
        · simpa [hij] using hi
      · have hq₁ := hdom q hq
        rw [hk₁] at hq₁
        exact isSome_of_update hp q hq₁

/-- The family with a whole row replaced at the descriptors `fds`. -/
def fillRow (T : FdTables) (c : Ptr) (row : Fin 256 → Option Ptr) (fds : List (Fin 256)) :
    FdTables := fun q j ↦ if q = c ∧ j ∈ fds then row j else T q j

theorem refFds_spec (row : Fin 256 → Option Ptr) (c : Ptr) (fds : List (Fin 256)) (hnd : fds.Nodup)
    (h : Counted T k.files) (hrow : ∀ i ∈ fds, T c i = none)
    (hfiles : ∀ i f, row i = some f → (k.files f).isSome) :
    ∃ files, refFds row fds k = some { k with files := files } ∧
      Counted (fillRow T c row fds) files ∧ ∀ g, (files g).isSome ↔ (k.files g).isSome := by
  induction fds generalizing k T with
  | nil =>
    refine ⟨k.files, rfl, ?_, fun _ ↦ Iff.rfl⟩
    have : fillRow T c row [] = T := by
      funext q j
      simp [fillRow]
    rwa [this]
  | cons i fds ih =>
    obtain ⟨hi, hnd'⟩ := List.nodup_cons.mp hnd
    have hrow' : ∀ j ∈ fds, T c j = none := fun j hj ↦ hrow j (List.mem_cons_of_mem _ hj)
    rw [refFds]
    cases hf : row i with
    | none =>
      obtain ⟨files, heq, hc, hdom⟩ := ih hnd' h hrow' hfiles
      refine ⟨files, heq, ?_, hdom⟩
      have : fillRow T c row (i :: fds) = fillRow T c row fds := by
        funext q j
        by_cases hj : q = c ∧ j = i
        · obtain ⟨rfl, rfl⟩ := hj
          simp [fillRow, hi, hf, hrow]
        · have : (q = c ∧ (j = i ∨ j ∈ fds)) ↔ (q = c ∧ j ∈ fds) := by tauto
          simp [fillRow, this]
      rwa [this]
    | some f =>
      obtain ⟨files₁, heq₁, hc₁, hdom₁⟩ :=
        vfsFileRef_spec h (hfiles i f hf) (hrow i List.mem_cons_self)
      obtain ⟨files, heq, hc, hdom⟩ := ih (k := { k with files := files₁ }) hnd' hc₁
        (fun j hj ↦ by
          rw [setEntry_apply, if_neg]
          · exact hrow' j hj
          · rintro ⟨_, rfl⟩
            exact hi hj)
        (fun j g hg ↦ (hdom₁ g).mpr (hfiles j g hg))
      refine ⟨files, by simp only [heq₁, Option.bind_eq_bind, Option.bind_some, heq], ?_,
        fun g ↦ (hdom g).trans (hdom₁ g)⟩
      have : fillRow T c row (i :: fds) = fillRow (setEntry T c i (some f)) c row fds := by
        funext q j
        simp only [fillRow, setEntry_apply]
        by_cases hj : q = c ∧ j = i
        · obtain ⟨rfl, rfl⟩ := hj
          simp [hi, hf]
        · have : (q = c ∧ (j = i ∨ j ∈ fds)) ↔ (q = c ∧ j ∈ fds) := by tauto
          simp [hj, this]
      rwa [this]

end Entries

section Blocks

def pcbSize : ℕ := 4312

def heapStart : ℕ := 0xFFFFFFFF00000000

def InHeap (p : Ptr) : Prop := heapStart ≤ p.toNat ∧ p.toNat + pcbSize ≤ 2 ^ 64

instance (p : Ptr) : Decidable (InHeap p) := inferInstanceAs (Decidable (_ ∧ _))

def Apart (p q : Ptr) : Prop := p.toNat + pcbSize ≤ q.toNat ∨ q.toNat + pcbSize ≤ p.toNat

/-- The blocks of the processes do not overlap. -/
structure Spaced (k : Kernel) : Prop where
  inHeap : ∀ p, (k.pcbs p).isSome → InHeap p
  apart : ∀ p q, (k.pcbs p).isSome → (k.pcbs q).isSome → p ≠ q → Apart p q

variable {k : Kernel}

theorem few_of_spaced (h : Spaced k) : Few k.table := by
  classical
  intro f
  obtain ⟨s, hs⟩ : ∃ s : Finset Ptr, ∀ p, p ∈ s ↔ (k.pcbs p).isSome :=
    ⟨Finset.univ.filter fun p ↦ (k.pcbs p).isSome, by simp⟩
  have hcard : s.card ≤ (Finset.range (2 ^ 20)).card := by
    refine Finset.card_le_card_of_injOn (fun p ↦ (p.toNat - heapStart) / 4096) ?_ ?_
    · intro p hp
      have := p.isLt
      simp only [Finset.coe_range, Set.mem_Iio, heapStart]
      omega
    · intro p hp q hq heq
      by_contra hne
      have hp' := h.inHeap p ((hs p).mp hp)
      have hq' := h.inHeap q ((hs q).mp hq)
      have := h.apart p q ((hs p).mp hp) ((hs q).mp hq) hne
      simp only [InHeap, Apart, heapStart, pcbSize] at hp' hq' this heq
      omega
  have huses := uses_le (T := k.table) s (fun p i g hg ↦ (hs p).mpr (by
    simp only [Kernel.table] at hg
    obtain ⟨proc, hproc, _⟩ := Option.bind_eq_some_iff.mp hg
    simp [hproc])) f
  rw [Finset.card_range] at hcard
  rw [Fintype.card_fin] at huses
  omega

end Blocks

end SeedOS.System
