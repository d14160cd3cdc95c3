import SeedOS.Memory.AddressSpace

namespace SeedOS.Memory

open Foundation Function

section Flags

theorem cowFlags_isFlags (e : Word) : IsFlags (cowFlags e) := by
  unfold cowFlags
  dsimp only
  split
  · exact ((isFlags_rest e).and _).or (by decide)
  · exact isFlags_rest e

theorem cowFlags_present (e : Word) : hasFlag (cowFlags e) ptePresent = hasFlag e ptePresent := by
  unfold cowFlags
  dsimp only
  split
  · rw [hasFlag_or, hasFlag_and_of_subset _ _ _ (by decide), hasFlag_rest _ _ (by decide),
      show hasFlag pteCow ptePresent = false by decide, Bool.or_false]
  · exact hasFlag_rest _ _ (by decide)

theorem cowFlags_writable (e : Word) : hasFlag (cowFlags e) pteWritable = false := by
  unfold cowFlags
  dsimp only
  split
  · rw [hasFlag_or, hasFlag_and_of_disjoint _ _ _ (by decide),
      show hasFlag pteCow pteWritable = false by decide, Bool.or_false]
  · simp_all

/-- The entry both address spaces hold for a shared page. -/
def cowEntry (e : Word) : Word := e &&& pteAddrMask ||| cowFlags e

theorem cowEntry_next (e : Word) : entryNext (cowEntry e) = entryNext e := by
  have hlt := frameOf_lt e
  rw [cowEntry, ← pageAddr_frameOf]
  cases hp : hasFlag e ptePresent with
  | false =>
    rw [entryNext_none.mpr hp, entryNext_none, hasFlag_entry hlt _ isFlags_present,
      cowFlags_present, hp]
  | true =>
    rw [entryNext_entry hlt ⟨cowFlags_isFlags e, by rw [cowFlags_present, hp]⟩]
    exact (entryNext_some.mpr ⟨hp, rfl⟩).symm

theorem cowEntry_writable (e : Word) : hasFlag (cowEntry e) pteWritable = false := by
  rw [cowEntry, ← pageAddr_frameOf, hasFlag_entry (frameOf_lt e) _ isFlags_writable,
    cowFlags_writable]

end Flags

variable {s s' : Vm} {roots : Set ℕ} {role role' : Roles} {src dst : ℕ}

section Leaf

theorem copyLeaf_eq (s : Vm) (S D : ℕ) (l : Fin 512) :
    copyLeaf S D s l = pageRef ((s.write S l (cowEntry (s.mem S l))).write D l
      (cowEntry (s.mem S l))) (pageAddr (frameOf (s.mem S l))) := by
  simp [copyLeaf, cowEntry, pageAddr_frameOf]

theorem copyLeaf_spec (h : Inv s roots role) {S D : ℕ} {p : List (Fin 512)} {l : Fin 512}
    (hS : role S = .table src p) (hD : role D = .table dst p) (hl : p.length = 3) :
    Inv (copyLeaf S D s l) roots role ∧ Keeps s (copyLeaf S D s l) role role ∧
    (∀ σ : Site, σ.Valid roots → leafEntry (copyLeaf S D s l).mem σ =
      if σ = ⟨src, p, l⟩ ∨ σ = ⟨dst, p, l⟩ then cowEntry (leafEntry s.mem ⟨src, p, l⟩)
      else leafEntry s.mem σ) ∧
    ∀ k r q, role k = .table r q → q.length < 3 → (copyLeaf S D s l).mem k = s.mem k := by
  have hdata : ∀ g, entryNext (cowEntry (s.mem S l)) = some g → role g = .data := by
    intro g hg
    rw [cowEntry_next] at hg
    exact h.forest.leaf hS hl hg
  obtain ⟨h₁, hk₁, hleaf₁⟩ := writeLeaf_spec h (i := l) hS hl hdata
  obtain ⟨h₂, hk₂, hleaf₂⟩ := writeLeaf_spec h₁ (i := l) hD hl hdata
  have hk₃ : Keeps ((s.write S l (cowEntry (s.mem S l))).write D l (cowEntry (s.mem S l)))
      (copyLeaf S D s l) role role := by
    rw [copyLeaf_eq]
    exact ⟨fun _ ↦ by rw [pageRef_mem], Iff.rfl, Iff.rfl, by rw [pageRef_kernel]⟩
  refine ⟨?_, (hk₁.trans hk₂).trans hk₃, fun σ hσ ↦ ?_, fun k r q hk hq ↦ ?_⟩
  · rw [copyLeaf_eq]
    exact h₂.congr (by rw [pageRef_mem]) (by rw [pageRef_pmm]) (by rw [pageRef_kernel])
  · have hsrc : leafEntry s.mem ⟨src, p, l⟩ = s.mem S l := h.leafEntry_of_table hS l
    rw [copyLeaf_eq, pageRef_mem, hleaf₂ σ hσ, hleaf₁ σ hσ, hsrc]
    by_cases hd : σ = ⟨dst, p, l⟩
    · rw [if_pos hd, if_pos (.inr hd)]
    · rw [if_neg hd]
      by_cases hs : σ = ⟨src, p, l⟩
      · rw [if_pos hs, if_pos (.inl hs)]
      · rw [if_neg hs, if_neg (not_or.mpr ⟨hs, hd⟩)]
  · have hkS : k ≠ S := Role.ne_of_length hk hS (by omega)
    have hkD : k ≠ D := Role.ne_of_length hk hD (by omega)
    funext j
    rw [copyLeaf_eq, pageRef_mem, Vm.write_mem, if_neg (fun hc ↦ hkD hc.1),
      Vm.write_mem, if_neg (fun hc ↦ hkS hc.1)]

end Leaf

section Run

/-- A property of the memory that the steps of the copy keep: taking and linking
a table, which no page sees, and sharing one page. -/
structure CopyStable (roots : Set ℕ) (src dst : ℕ) (P : Vm → Roles → Prop) : Prop where
  link : ∀ {s s' : Vm} {role role' : Roles}, Inv s roots role → Inv s' roots role' →
    Keeps s s' role role' → SameLeaves s s' roots →
    s'.pageInfo = s.pageInfo → s'.maxPages = s.maxPages → P s role → P s' role'
  leaf : ∀ {s : Vm} {role : Roles} {S D : ℕ} {p : List (Fin 512)} {l : Fin 512},
    Inv s roots role → role S = .table src p → role D = .table dst p → p.length = 3 →
    hasFlag (s.mem S l) ptePresent = true → P s role → P (copyLeaf S D s l) role

/-- What holds after a part of the copy below depth `n`. -/
structure Copied (P : Vm → Roles → Prop) (roots : Set ℕ) (n : ℕ) (s s' : Vm)
    (role role' : Roles) : Prop where
  inv : Inv s' roots role'
  prop : P s' role'
  keeps : Keeps s s' role role'
  tables : ∀ k r q, role k = .table r q → role' k = .table r q
  above : ∀ k r q, role k = .table r q → q.length < n → s'.mem k = s.mem k

theorem Copied.refl {P : Vm → Roles → Prop} {n : ℕ} (h : Inv s roots role) (hp : P s role) :
    Copied P roots n s s role role :=
  ⟨h, hp, .refl _ _, fun _ _ _ hk ↦ hk, fun _ _ _ _ _ ↦ rfl⟩

theorem Copied.trans {P Q : Vm → Roles → Prop} {n n' : ℕ} {s₁ s₂ s₃ : Vm}
    {role₁ role₂ role₃ : Roles} (h : Copied P roots n s₁ s₂ role₁ role₂)
    (h' : Copied Q roots n' s₂ s₃ role₂ role₃) (hn : n ≤ n') :
    Copied Q roots n s₁ s₃ role₁ role₃ where
  inv := h'.inv
  prop := h'.prop
  keeps := h.keeps.trans h'.keeps
  tables k r q hk := h'.tables k r q (h.tables k r q hk)
  above k r q hk hq := by rw [h'.above k r q (h.tables k r q hk) (by omega), h.above k r q hk hq]

/-- `s'` has a new empty table at `g`, linked at slot `i` of `D` for the table at slot `i`
of `S`. -/
structure NewTable (s s' : Vm) (S D g : ℕ) (i : Fin 512) : Prop where
  available : s.pmm.Available g
  takes : s.pmm.Takes s'.pmm g
  eq : s' = ({ s with pmm := s'.pmm }.fill g fun _ ↦ 0#64).write D i
    (pageAddr g ||| (s.mem S i &&& ~~~pteAddrMask))

inductive CopyRound (body : Vm → ℕ → ℕ → Bool × Vm) (S D : ℕ) (slots : List (Fin 512))
    (i : Fin 512) (s : Vm) (ok : Bool) (s' : Vm) : Prop
  | absent (hnone : hasFlag (s.mem S i) ptePresent = false)
      (hrest : copyLoop body S D slots s = (ok, s'))
  | full (hpres : hasFlag (s.mem S i) ptePresent = true) (hfull : ∀ f, ¬ s.pmm.Available f)
      (hok : ok = false) (hs : s' = s)
  | stopped (hpres : hasFlag (s.mem S i) ptePresent = true) (g : ℕ) (s₁ : Vm)
      (hnew : NewTable s s₁ S D g i)
      (hbody : body s₁ (frameOf (s.mem S i)) g = (false, s')) (hok : ok = false)
  | next (hpres : hasFlag (s.mem S i) ptePresent = true) (g : ℕ) (s₁ s₂ : Vm)
      (hnew : NewTable s s₁ S D g i)
      (hbody : body s₁ (frameOf (s.mem S i)) g = (true, s₂))
      (hrest : copyLoop body S D slots s₂ = (ok, s'))

section NewTable

variable {S D g : ℕ} {i : Fin 512} (hnew : NewTable s s' S D g i)

include hnew

theorem NewTable.mem (k : ℕ) (j : Fin 512) : s'.mem k j =
    if k = D ∧ j = i then pageAddr g ||| (s.mem S i &&& ~~~pteAddrMask)
    else if k = g then 0#64 else s.mem k j := by
  rw [hnew.eq, Vm.write_mem, Vm.fill_mem]
  split_ifs <;> rfl

theorem NewTable.mem_other {k : ℕ} {j : Fin 512} (hk : k ≠ g) (hj : ¬ (k = D ∧ j = i)) :
    s'.mem k j = s.mem k j := by
  rw [hnew.mem, if_neg hj, if_neg hk]

theorem NewTable.info : s'.pageInfo = s.pageInfo ∧ s'.maxPages = s.maxPages := by
  rw [hnew.eq]
  exact ⟨rfl, rfl⟩

end NewTable

theorem copyLoop_cases {body : Vm → ℕ → ℕ → Bool × Vm} {S D : ℕ} {slots : List (Fin 512)}
    {i : Fin 512} (hSD : S ≠ D) (hS : ¬ s.pmm.Available S) {ok : Bool}
    (heq : copyLoop body S D (i :: slots) s = (ok, s')) : CopyRound body S D slots i s ok s' := by
  rw [copyLoop] at heq
  cases hpres : hasFlag (s.mem S i) ptePresent with
  | false =>
    simp only [hpres, Bool.false_eq_true, if_false] at heq
    exact .absent hpres heq
  | true =>
    simp only [hpres, if_true] at heq
    rcases allocPageTable_cases s with ha | ⟨g, pmm, ha, hg0, hg, ht⟩
    · simp only [ha, if_true, Prod.mk.injEq] at heq
      exact .full hpres (allocPageTable_none (by rw [ha])) heq.1.symm heq.2.symm
    · have hgaddr : pageOf (pageAddr g) = g := pageOf_pageAddr (by have := hg.lt; omega)
      have hSg : S ≠ g := fun hc ↦ hS (hc ▸ hg)
      have hSi : ({ s with pmm := pmm }.fill g fun _ ↦ 0#64).mem S i = s.mem S i := by
        rw [Vm.fill_mem, if_neg hSg]
      obtain ⟨s₁, hs₁⟩ : ∃ s₁, s₁ = ({ s with pmm := pmm }.fill g fun _ ↦ 0#64).write D i
        (pageAddr g ||| (s.mem S i &&& ~~~pteAddrMask)) := ⟨_, rfl⟩
      have hpmm : s₁.pmm = pmm := by rw [hs₁]; rfl
      have hnew : NewTable s s₁ S D g i := ⟨hg, by rwa [hpmm], by rwa [hpmm]⟩
      simp only [ha, if_neg hg0, hSi, hgaddr, ← hs₁, hnew.mem_other hSg fun hc ↦ hSD hc.1] at heq
      cases hb : body s₁ (frameOf (s.mem S i)) g with
      | mk ok₂ s₂ =>
        cases ok₂ with
        | false =>
          simp only [hb, Prod.mk.injEq] at heq
          exact .stopped hpres g s₁ hnew (by rw [hb, heq.2]) heq.1.symm
        | true =>
          simp only [hb] at heq
          exact .next hpres g s₁ s₂ hnew hb heq

/-- An empty table is linked at slot `i` of the table `D` of the copy. -/
structure CopyLink (roots : Set ℕ) (dst : ℕ) (s s' : Vm) (role : Roles) (S D : ℕ)
    (p : List (Fin 512)) (i : Fin 512) (g : ℕ) : Prop extends NewTable s s' S D g i where
  inv : Inv s' roots (update role g (.table dst (p ++ [i])))
  keeps : Keeps s s' role (update role g (.table dst (p ++ [i])))
  same : SameLeaves s s' roots
  empty : s'.mem g = fun _ ↦ 0#64

/-- The slots of a table `D` of the copy, at the end of `p`, that are still to be filled. -/
structure OpenSlots (s : Vm) (D : ℕ) (p slots : List (Fin 512)) : Prop where
  nodup : slots.Nodup
  user : ∀ i ∈ slots, UserPath (p ++ [i])
  empty : ∀ i ∈ slots, hasFlag (s.mem D i) ptePresent = false

theorem OpenSlots.tail {D : ℕ} {p slots : List (Fin 512)} {i : Fin 512}
    (h : OpenSlots s D p (i :: slots)) : OpenSlots s D p slots where
  nodup := (List.nodup_cons.mp h.nodup).2
  user j hj := h.user j (List.mem_cons_of_mem _ hj)
  empty j hj := h.empty j (List.mem_cons_of_mem _ hj)

theorem OpenSlots.new {D : ℕ} {p : List (Fin 512)} {i : Fin 512} (hu : UserPath (p ++ [i]))
    (hzero : s.mem D = fun _ ↦ 0#64) : OpenSlots s D (p ++ [i]) (List.finRange 512) where
  nodup := List.nodup_finRange 512
  user j _ := hu.concat (by simp) j
  empty j _ := by rw [hzero, hasFlag_zero]

namespace CopyLink

variable {S D g : ℕ} {p slots : List (Fin 512)} {i : Fin 512} (h : Inv s roots role)
  (hD : role D = .table dst p)

include h hD

theorem of_newTable (hnew : NewTable s s' S D g i) (hS : role S = .table src p) (hl : p.length < 3)
    (hopen : OpenSlots s D p (i :: slots)) (hpres : hasFlag (s.mem S i) ptePresent = true) :
    CopyLink roots dst s s' role S D p i g := by
  have hu := hopen.user i List.mem_cons_self
  obtain ⟨h₁, hk₁, hsame₁, hzero₁⟩ := fresh_spec h hD hl hu
    ⟨isFlags_rest _, (hasFlag_rest _ _ (by decide)).trans hpres⟩
    ((hasFlag_rest _ _ (by decide)).trans (h.plain hS hl hu hpres))
    (hopen.empty i List.mem_cons_self) hnew.available hnew.takes hnew.eq
  exact ⟨hnew, h₁, hk₁, hsame₁, hzero₁⟩

variable (hlink : CopyLink roots dst s s' role S D p i g)

include hlink

omit hD in
theorem old {k r : ℕ} {q : List (Fin 512)} (hk : role k = .table r q) : k ≠ g := by
  rintro rfl
  have hfree := h.free_of_available hlink.available
  simp [hk] at hfree

theorem row_other {k r : ℕ} {q : List (Fin 512)} (hk : role k = .table r q)
    (hne : r ≠ dst ∨ q.length < p.length) : s'.mem k = s.mem k := by
  funext j
  refine hlink.mem_other (hlink.old h hk) ?_
  rintro ⟨rfl, _⟩
  rw [hD] at hk
  injection hk with hr hpq
  rcases hne with hne | hne
  · exact hne hr.symm
  · rw [hpq] at hne
    omega

theorem copied {P : Vm → Roles → Prop} (hp : P s' (update role g (.table dst (p ++ [i])))) :
    Copied P roots p.length s s' role (update role g (.table dst (p ++ [i]))) :=
  ⟨hlink.inv, hp, hlink.keeps, fun _ _ _ hk ↦ by rwa [update_of_ne (hlink.old h hk)],
    fun _ _ _ hk hq ↦ hlink.row_other h hD hk (.inr hq)⟩

theorem rest_open {P : Vm → Roles → Prop} {s₂ : Vm} {role₂ : Roles}
    (hopen : OpenSlots s D p (i :: slots))
    (hcopy : Copied P roots (p.length + 1) s' s₂ (update role g (.table dst (p ++ [i]))) role₂) :
    OpenSlots s₂ D p slots := by
  have hDg := hlink.old h hD
  refine ⟨hopen.tail.nodup, hopen.tail.user, fun j hj ↦ ?_⟩
  rw [hcopy.above D dst p (by rwa [update_of_ne hDg]) (by omega), hlink.mem_other hDg ?_]
  · exact hopen.tail.empty j hj
  · rintro ⟨_, rfl⟩
    exact (List.nodup_cons.mp hopen.nodup).1 hj

end CopyLink

variable {P : Vm → Roles → Prop} (hP : CopyStable roots src dst P) (hne : src ≠ dst)

include hP

theorem copyLeaves_run {S D : ℕ} {p : List (Fin 512)} (hl : p.length = 3) (slots : List (Fin 512)) :
    ∀ {s : Vm}, Inv s roots role → role S = .table src p → role D = .table dst p → P s role →
      Copied P roots 3 s (copyLeaves S D slots s) role role := by
  induction slots with
  | nil =>
    intro s h _ _ hp
    exact .refl h hp
  | cons l slots ih =>
    intro s h hS hD hp
    rw [copyLeaves]
    cases hpres : hasFlag (s.mem S l) ptePresent with
    | false =>
      rw [if_neg (by simp)]
      exact ih h hS hD hp
    | true =>
      rw [if_pos rfl]
      obtain ⟨hinv, hk, _, habove⟩ := copyLeaf_spec h (l := l) hS hD hl
      have hstep : Copied P roots 3 s (copyLeaf S D s l) role role :=
        ⟨hinv, hP.leaf h hS hD hl hpres hp, hk, fun _ _ _ hk ↦ hk, habove⟩
      exact hstep.trans (ih hinv hS hD hstep.prop) le_rfl

include hne

theorem copyLoop_run {body : Vm → ℕ → ℕ → Bool × Vm} {S D : ℕ} {p : List (Fin 512)}
    (hl : p.length < 3)
    (hbody : ∀ {s s' : Vm} {role : Roles} {S D : ℕ} {i : Fin 512} {ok : Bool},
      Inv s roots role → role S = .table src (p ++ [i]) → role D = .table dst (p ++ [i]) →
      OpenSlots s D (p ++ [i]) (List.finRange 512) → P s role → body s S D = (ok, s') →
      ∃ role', Copied P roots (p.length + 1) s s' role role')
    (slots : List (Fin 512)) :
    ∀ {s s' : Vm} {role : Roles} {ok : Bool}, Inv s roots role → role S = .table src p →
      role D = .table dst p → OpenSlots s D p slots → P s role →
      copyLoop body S D slots s = (ok, s') → ∃ role', Copied P roots p.length s s' role role' := by
  induction slots with
  | nil =>
    intro s s' role ok h _ _ _ hp heq
    simp only [copyLoop, Prod.mk.injEq] at heq
    obtain ⟨rfl, rfl⟩ := heq
    exact ⟨role, .refl h hp⟩
  | cons i slots ih =>
    intro s s' role ok h hS hD hopen hp heq
    have hu := hopen.user i List.mem_cons_self
    -- The table below the slot is copied with one more entry linked.
    have hround : ∀ {g : ℕ} {s₁ s₂ : Vm} {ok₂ : Bool}, hasFlag (s.mem S i) ptePresent = true →
        NewTable s s₁ S D g i → body s₁ (frameOf (s.mem S i)) g = (ok₂, s₂) → ∃ role₂,
          OpenSlots s₂ D p slots ∧ Copied P roots p.length s s₂ role role₂ := by
      intro g s₁ s₂ ok₂ hpres hnew hb
      have hlink := CopyLink.of_newTable h hD hnew hS hl hopen hpres
      have hcopied := hlink.copied h hD
        (hP.link h hlink.inv hlink.keeps hlink.same hnew.info.1 hnew.info.2 hp)
      have hchild := h.forest.child hS hl hu (entryNext_some.mpr ⟨hpres, rfl⟩)
      obtain ⟨role₂, hcopy⟩ := hbody hlink.inv (hcopied.tables _ _ _ hchild) (update_self _ _ _)
        (.new hu hlink.empty) hcopied.prop hb
      exact ⟨role₂, hlink.rest_open h hD hopen hcopy, hcopied.trans hcopy (by omega)⟩
    cases copyLoop_cases (Role.ne_of_root hS hD hne) (h.owned_table hS).not_available heq with
    | absent hnone hrest => exact ih h hS hD hopen.tail hp hrest
    | full hpres hfull hok hs =>
      subst hs
      exact ⟨role, .refl h hp⟩
    | stopped hpres g s₁ hnew hb hok =>
      obtain ⟨role₂, -, hcopy⟩ := hround hpres hnew hb
      exact ⟨role₂, hcopy⟩
    | next hpres g s₁ s₂ hnew hb hrest =>
      obtain ⟨role₂, hrest₂, hcopy⟩ := hround hpres hnew hb
      obtain ⟨role₃, hlast⟩ := ih hcopy.inv (hcopy.tables _ _ _ hS) (hcopy.tables _ _ _ hD) hrest₂
        hcopy.prop hrest
      exact ⟨role₃, hcopy.trans hlast le_rfl⟩

theorem copyTables_run (level : ℕ) {p : List (Fin 512)} (hl : p.length + level = 3)
    {slots : List (Fin 512)} {S D : ℕ} (h : Inv s roots role) (hS : role S = .table src p)
    (hD : role D = .table dst p) (hopen : OpenSlots s D p slots) (hp : P s role) {ok : Bool}
    (heq : copyTables level slots s S D = (ok, s')) :
    ∃ role', Copied P roots p.length s s' role role' := by
  induction level generalizing p slots s s' role S D ok with
  | zero =>
    simp only [copyTables, Prod.mk.injEq] at heq
    obtain ⟨_, rfl⟩ := heq
    have hl3 : p.length = 3 := by omega
    exact ⟨role, hl3 ▸ copyLeaves_run hP hl3 slots h hS hD hp⟩
  | succ level ih =>
    refine copyLoop_run hP hne (by omega) ?_ slots h hS hD hopen hp heq
    intro s s' role S D i ok h hS hD hopen hp heq
    have hlen : (p ++ [i]).length = p.length + 1 := by simp
    rw [← hlen]
    exact ih (by omega) h hS hD hopen hp heq

end Run

theorem userSlots_nodup : userSlots.Nodup := (List.nodup_finRange 512).filter _

/-- `s'` has a new address space at `dst`: the kernel half of `src`, and no pages. -/
structure NewSpace (s s' : Vm) (src dst : ℕ) : Prop where
  available : s.pmm.Available dst
  takes : s.pmm.Takes s'.pmm dst
  eq : s' = { s with pmm := s'.pmm }.fill dst fun i ↦ if 256 ≤ i.val then s.mem src i else 0#64

section NewSpace

variable (hnew : NewSpace s s' src dst)

include hnew

theorem NewSpace.mem_other {k : ℕ} (hk : k ≠ dst) : s'.mem k = s.mem k := by
  rw [hnew.eq, Vm.fill_mem, if_neg hk]

theorem NewSpace.row : s'.mem dst = fun i ↦ if 256 ≤ i.val then s.mem src i else 0#64 := by
  rw [hnew.eq, Vm.fill_mem, if_pos rfl]

theorem NewSpace.user {i : Fin 512} (hi : i ∈ userSlots) : s'.mem dst i = 0#64 := by
  have := mem_userSlots.mp hi
  rw [hnew.row]
  exact if_neg (by omega)

theorem NewSpace.info : s'.pageInfo = s.pageInfo ∧ s'.maxPages = s.maxPages := by
  rw [hnew.eq]
  exact ⟨rfl, rfl⟩

theorem NewSpace.openSlots : OpenSlots s' dst [] userSlots where
  nodup := userSlots_nodup
  user _ hi := userPath_cons.mpr (mem_userSlots.mp hi)
  empty _ hi := by rw [hnew.user hi, hasFlag_zero]

end NewSpace

theorem cowCopy_cases {srcPml4Phys dstPml4Phys : Word} {ok : Bool}
    (hsrc : ¬ s.pmm.Available (pageOf srcPml4Phys))
    (heq : cowCopy s srcPml4Phys = (dstPml4Phys, ok, s')) :
    (dstPml4Phys = 0#64 ∧ s' = s ∧ ∀ f, ¬ s.pmm.Available f) ∨
    (dstPml4Phys = pageAddr (pageOf dstPml4Phys) ∧ dstPml4Phys ≠ 0#64 ∧ ∃ s₁,
      NewSpace s s₁ (pageOf srcPml4Phys) (pageOf dstPml4Phys) ∧
      copyTables 3 userSlots s₁ (pageOf srcPml4Phys) (pageOf dstPml4Phys) = (ok, s')) := by
  unfold cowCopy at heq
  rcases allocPageTable_cases s with ha | ⟨d, pmm, ha, hd0, hav, htk⟩
  · simp only [ha, if_true, Prod.mk.injEq] at heq
    exact .inl ⟨heq.1.symm, heq.2.2.symm, allocPageTable_none (by rw [ha])⟩
  · have hd : pageOf (pageAddr d) = d := pageOf_pageAddr (by have := hav.lt; omega)
    have hrd : pageOf srcPml4Phys ≠ d := fun hc ↦ hsrc (hc ▸ hav)
    obtain ⟨s₁, hs₁⟩ : ∃ s₁, s₁ = { s with pmm := pmm }.fill d fun i ↦
      if 256 ≤ i.val then s.mem (pageOf srcPml4Phys) i else 0#64 := ⟨_, rfl⟩
    have hpmm : s₁.pmm = pmm := by rw [hs₁]; rfl
    have hfill : (({ s with pmm := pmm }.fill d fun _ ↦ 0#64).fill d fun i ↦
        if 256 ≤ i.val then ({ s with pmm := pmm }.fill d fun _ ↦ 0#64).mem (pageOf srcPml4Phys) i
        else ({ s with pmm := pmm }.fill d fun _ ↦ 0#64).mem d i) = s₁ := by
      simp only [hs₁, Vm.fill, update_self, update_idem, update_of_ne hrd]
    simp only [ha, if_neg hd0, hd, hfill] at heq
    cases hc : copyTables 3 userSlots s₁ (pageOf srcPml4Phys) d with
    | mk ok₂ s₂ =>
      simp only [hc, Prod.mk.injEq] at heq
      obtain ⟨rfl, rfl, rfl⟩ := heq
      rw [hd]
      exact .inr ⟨rfl, hd0, s₁, ⟨hav, by rwa [hpmm], hs₁.trans (by rw [hpmm])⟩, hc⟩

structure CopyStart (roots : Set ℕ) (src dst : ℕ) (s s₁ : Vm) (role : Roles) : Prop
    extends NewSpace s s₁ src dst where
  ne : src ≠ dst
  fresh : dst ∉ roots
  inv : Inv s₁ (insert dst roots) (update role dst (.table dst []))
  keeps : Keeps s s₁ role (update role dst (.table dst []))
  same : SameLeaves s s₁ roots
  zero : ∀ σ : Site, σ.Valid (insert dst roots) → σ.root = dst → leafEntry s₁.mem σ = 0#64

theorem cowCopy_tables (h : Inv s roots role) {srcPml4Phys dstPml4Phys : Word} {ok : Bool}
    (hr : pageOf srcPml4Phys ∈ roots) (heq : cowCopy s srcPml4Phys = (dstPml4Phys, ok, s')) :
    (dstPml4Phys = 0#64 ∧ s' = s ∧ ∀ f, ¬ s.pmm.Available f) ∨
    (dstPml4Phys = pageAddr (pageOf dstPml4Phys) ∧ dstPml4Phys ≠ 0#64 ∧ ∃ s₁,
      CopyStart roots (pageOf srcPml4Phys) (pageOf dstPml4Phys) s s₁ role ∧
      copyTables 3 userSlots s₁ (pageOf srcPml4Phys) (pageOf dstPml4Phys) = (ok, s')) := by
  have hroot := (h.owned_table (h.forest.root _ hr)).not_available
  rcases cowCopy_cases hroot heq with hnone | ⟨hd, hd0, s₁, hnew, hc⟩
  · exact .inl hnone
  · obtain ⟨h₁, hk₁, hfresh, hsame₁, hzero₁⟩ := newSpace_spec h
      (fun i ↦ if 256 ≤ i.val then s.mem (pageOf srcPml4Phys) i else 0#64) hnew.available
      hnew.takes (fun i hi ↦ if_neg (by omega))
      (fun i hi ↦ (if_pos hi).trans (h.kernelHalf _ hr i hi)) hnew.eq
    exact .inr ⟨hd, hd0, s₁, ⟨hnew, fun hc ↦ hroot (hc ▸ hnew.available), hfresh, h₁, hk₁, hsame₁,
      hzero₁⟩, hc⟩

/-- The copy as a whole, complete or not: a new address space stands beside the
old ones, and whatever the steps of the copy keep still holds. -/
theorem cowCopy_spec (h : Inv s roots role) {srcPml4Phys dstPml4Phys : Word} {ok : Bool}
    (hr : pageOf srcPml4Phys ∈ roots) (heq : cowCopy s srcPml4Phys = (dstPml4Phys, ok, s'))
    {P : Vm → Roles → Prop}
    (hP : CopyStable (insert (pageOf dstPml4Phys) roots) (pageOf srcPml4Phys)
      (pageOf dstPml4Phys) P)
    (hstart : ∀ {s₁ : Vm} {role₁ : Roles}, Inv s₁ (insert (pageOf dstPml4Phys) roots) role₁ →
      Keeps s s₁ role role₁ → SameLeaves s s₁ roots →
      (∀ σ : Site, σ.Valid (insert (pageOf dstPml4Phys) roots) → σ.root = pageOf dstPml4Phys →
        leafEntry s₁.mem σ = 0#64) →
      s₁.pageInfo = s.pageInfo → s₁.maxPages = s.maxPages → P s₁ role₁) :
    (dstPml4Phys = 0#64 ∧ s' = s) ∨
    (dstPml4Phys = pageAddr (pageOf dstPml4Phys) ∧ dstPml4Phys ≠ 0#64 ∧
      pageOf dstPml4Phys ∉ roots ∧
      ∃ role', Inv s' (insert (pageOf dstPml4Phys) roots) role' ∧ P s' role' ∧
        Keeps s s' role role') := by
  rcases cowCopy_tables h hr heq with ⟨hz, hs, -⟩ | ⟨hd, hne, s₁, hstart₁, hc⟩
  · exact .inl ⟨hz, hs⟩
  · have hp₁ := hstart hstart₁.inv hstart₁.keeps hstart₁.same hstart₁.zero
      hstart₁.info.1 hstart₁.info.2
    obtain ⟨role', hcopy⟩ := copyTables_run hP hstart₁.ne 3 rfl hstart₁.inv
      (by rw [update_of_ne hstart₁.ne]; exact h.forest.root _ hr) (update_self _ _ _)
      hstart₁.openSlots hp₁ hc
    exact .inr ⟨hd, hne, hstart₁.fresh, role', hcopy.inv, hcopy.prop,
      hstart₁.keeps.trans hcopy.keeps⟩

end SeedOS.Memory
