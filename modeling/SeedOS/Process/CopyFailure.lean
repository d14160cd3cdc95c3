import SeedOS.Memory.CowCopy
import SeedOS.Process.PageCost

namespace SeedOS.Process

open Foundation Memory Function

def pageLoop (below : ℕ → ℕ × Bool) (row : Fin 512 → Word) : List (Fin 512) → ℕ × Bool
  | [] => (0, false)
  | i :: slots =>
    if hasFlag (row i) ptePresent then
      match below (frameOf (row i)) with
      | (m, true) => (m + 1, true)
      | (m, false) => ((pageLoop below row slots).1 + (m + 1), (pageLoop below row slots).2)
    else pageLoop below row slots

def tablesToPage (mem : ℕ → Fin 512 → Word) : ℕ → ℕ → List (Fin 512) → ℕ × Bool
  | 0, table, slots => (0, slots.any fun l ↦ hasFlag (mem table l) ptePresent)
  | level + 1, table, slots =>
    pageLoop (fun t ↦ tablesToPage mem level t (List.finRange 512)) (mem table) slots

/-- Part of a copy that has made tables and shared no page. -/
structure OnlyLinked (roots : Set ℕ) (src dst : ℕ) (s₀ : Vm) (role₀ : Roles) (s : Vm)
    (_ : Roles) : Prop where
  same : SameLeaves s₀ s roots
  empty : ∀ σ : Site, σ.Valid (insert dst roots) → σ.root = dst → leafEntry s.mem σ = 0#64
  source : ∀ k q, role₀ k = .table src q → s.mem k = s₀.mem k
  info : s.pageInfo = s₀.pageInfo
  pages : s.maxPages = s₀.maxPages

/-- There is a page of `s₀` that both address spaces map to its frame. -/
def SharesPage (src dst : ℕ) (s₀ s : Vm) (_ : Roles) : Prop :=
  ∃ p l f, UserPath p ∧ p.length = 3 ∧ entryNext (leafEntry s₀.mem ⟨src, p, l⟩) = some f ∧
    entryNext (leafEntry s.mem ⟨src, p, l⟩) = some f ∧
    entryNext (leafEntry s.mem ⟨dst, p, l⟩) = some f

/-- A part of the copy that comes to `cost.1` tables before it comes to a page. -/
structure FirstPage (roots : Set ℕ) (src dst : ℕ) (s₀ : Vm) (role₀ : Roles) (cost : ℕ × Bool)
    (n : ℕ) (s s' : Vm) (role : Roles) (ok : Bool) : Prop where
  linked : cost.2 = false ∨ freeFrames s.pmm < cost.1 →
    ∃ role', Copied (OnlyLinked roots src dst s₀ role₀) (insert dst roots) n s s' role role'
  through : cost.2 = false → cost.1 ≤ freeFrames s.pmm →
    ok = true ∧ freeFrames s.pmm = freeFrames s'.pmm + cost.1
  stops : freeFrames s.pmm < cost.1 → ok = false
  shares : cost.2 = true → cost.1 ≤ freeFrames s.pmm →
    ∃ role', Copied (SharesPage src dst s₀) (insert dst roots) n s s' role role'

variable {roots : Set ℕ} {src dst : ℕ} {s s' s₀ : Vm} {role role₀ : Roles}

section Shared

theorem sharesPage_stable (hsrc : src ∈ roots) (hdst : dst ∈ roots) :
    CopyStable roots src dst (SharesPage src dst s₀) where
  link := by
    rintro s s' role role' - - - hsame - - ⟨p, l, f, hu, hl, hf₀, hs, hd⟩
    refine ⟨p, l, f, hu, hl, hf₀, ?_, ?_⟩
    · rw [hsame ⟨src, p, l⟩ ⟨hsrc, hu, hl⟩, hs]
    · rw [hsame ⟨dst, p, l⟩ ⟨hdst, hu, hl⟩, hd]
  leaf := by
    rintro s role S D q j h hS hD hq - ⟨p, l, f, hu, hl, hf₀, hs, hd⟩
    obtain ⟨-, -, hleaf, -⟩ := copyLeaf_spec h (l := j) hS hD hq
    have hkeep : ∀ r ∈ roots, entryNext (leafEntry s.mem ⟨r, p, l⟩) = some f →
        entryNext (leafEntry (copyLeaf S D s j).mem ⟨r, p, l⟩) = some f := by
      intro r hr hf
      rw [hleaf ⟨r, p, l⟩ ⟨hr, hu, hl⟩]
      split_ifs with hc
      · obtain ⟨rfl, rfl⟩ : p = q ∧ l = j := by
          rcases hc with hc | hc
          · exact ⟨congrArg Site.path hc, congrArg Site.index hc⟩
          · exact ⟨congrArg Site.path hc, congrArg Site.index hc⟩
        rw [cowEntry_next, hs]
      · exact hf
    exact ⟨p, l, f, hu, hl, hf₀, hkeep src hsrc hs, hkeep dst hdst hd⟩

theorem copyLeaves_shares (h : Inv s roots role) (hsrc : src ∈ roots) (hdst : dst ∈ roots)
    {S D : ℕ} {p : List (Fin 512)} (hS : role S = .table src p) (hD : role D = .table dst p)
    (hl : p.length = 3) {slots : List (Fin 512)}
    (hsame : ∀ l, leafEntry s.mem ⟨src, p, l⟩ = leafEntry s₀.mem ⟨src, p, l⟩)
    (hany : ∃ l ∈ slots, hasFlag (s.mem S l) ptePresent = true) :
    Copied (SharesPage src dst s₀) roots 3 s (copyLeaves S D slots s) role role := by
  induction slots with
  | nil => simp at hany
  | cons l slots ih =>
    rw [copyLeaves]
    cases hpres : hasFlag (s.mem S l) ptePresent with
    | false =>
      rw [if_neg (by simp)]
      apply ih
      obtain ⟨j, hj, hjpres⟩ := hany
      rcases List.mem_cons.mp hj with rfl | hj
      · rw [hpres] at hjpres
        cases hjpres
      · exact ⟨j, hj, hjpres⟩
    | true =>
      rw [if_pos rfl]
      obtain ⟨hinv, hk, hleaf, habove⟩ := copyLeaf_spec h (l := l) hS hD hl
      have hu := (h.forest.live hS).2.1
      have hentry : entryNext (leafEntry s.mem ⟨src, p, l⟩) = some (frameOf (s.mem S l)) := by
        rw [h.leafEntry_of_table hS]
        exact entryNext_some.mpr ⟨hpres, rfl⟩
      have hshares : SharesPage src dst s₀ (copyLeaf S D s l) role := by
        refine ⟨p, l, frameOf (s.mem S l), hu, hl, hsame l ▸ hentry, ?_, ?_⟩
        · rw [hleaf _ ⟨hsrc, hu, hl⟩, if_pos (.inl rfl), cowEntry_next, hentry]
        · rw [hleaf _ ⟨hdst, hu, hl⟩, if_pos (.inr rfl), cowEntry_next, hentry]
      have hstep : Copied (SharesPage src dst s₀) roots 3 s (copyLeaf S D s l) role role :=
        ⟨hinv, hshares, hk, fun _ _ _ hk ↦ hk, habove⟩
      exact hstep.trans
        (copyLeaves_run (sharesPage_stable hsrc hdst) hl slots hinv hS hD hshares) le_rfl

theorem copyLeaves_none {S D : ℕ} {slots : List (Fin 512)}
    (hnone : ∀ l ∈ slots, hasFlag (s.mem S l) ptePresent = false) :
    copyLeaves S D slots s = s := by
  induction slots with
  | nil => rfl
  | cons l slots ih =>
    rw [copyLeaves, hnone l List.mem_cons_self, if_neg (by simp)]
    exact ih fun j hj ↦ hnone j (List.mem_cons_of_mem _ hj)

end Shared

section Search

theorem OnlyLinked.link (h : OnlyLinked roots src dst s₀ role₀ s role)
    (hinv : Inv s (insert dst roots) role)
    (hne : src ≠ dst) {S D g : ℕ} {p : List (Fin 512)} {i : Fin 512}
    (hold : ∀ k r q, role₀ k = .table r q → role k = .table r q) (hD : role D = .table dst p)
    (hlink : CopyLink (insert dst roots) dst s s' role S D p i g) :
    OnlyLinked roots src dst s₀ role₀ s' (update role g (.table dst (p ++ [i]))) := by
  refine ⟨fun σ hσ ↦ ?_, fun σ hσ hroot ↦ ?_, fun k q hk ↦ ?_, hlink.info.1.trans h.info,
    hlink.info.2.trans h.pages⟩
  · rw [hlink.same σ ⟨.inr hσ.root, hσ.user, hσ.length⟩, h.same σ hσ]
  · rw [hlink.same σ hσ, h.empty σ hσ hroot]
  rw [hlink.row_other hinv hD (hold k src q hk) (.inl hne), h.source k q hk]

section Costs

variable {cost : ℕ × Bool} {n m : ℕ} {s₁ s₂ : Vm} {role₁ role₂ : Roles} {ok : Bool}

theorem FirstPage.full (h : Inv s (insert dst roots) role)
    (hlinked : OnlyLinked roots src dst s₀ role₀ s role)
    (hfull : freeFrames s.pmm = 0) (hcost : 0 < cost.1) :
    FirstPage roots src dst s₀ role₀ cost n s s role false where
  linked _ := ⟨role, .refl h hlinked⟩
  through _ hle := by omega
  stops _ := rfl
  shares _ hle := by omega

variable (hlink : Copied (OnlyLinked roots src dst s₀ role₀) (insert dst roots) n s s₁ role role₁)
  (htake : freeFrames s.pmm = freeFrames s₁.pmm + 1)

include hlink htake

theorem FirstPage.stopped
    (hbelow : FirstPage roots src dst s₀ role₀ (m, false) (n + 1) s₁ s₂ role₁ false)
    (hcost : m + 1 ≤ cost.1) : FirstPage roots src dst s₀ role₀ cost n s s₂ role false := by
  have hfew : freeFrames s₁.pmm < m := by
    by_contra hle
    exact absurd (hbelow.through rfl (by omega)).1 (by simp)
  refine ⟨fun _ ↦ ?_, fun _ hle ↦ by omega, fun _ ↦ rfl, fun _ hle ↦ by omega⟩
  obtain ⟨role₂, hcopy⟩ := hbelow.linked (.inl rfl)
  exact ⟨role₂, hlink.trans hcopy (by omega)⟩

theorem FirstPage.next
    (hbelow : FirstPage roots src dst s₀ role₀ (m, false) (n + 1) s₁ s₂ role₁ true)
    (hcopy : Copied (OnlyLinked roots src dst s₀ role₀) (insert dst roots) (n + 1) s₁ s₂ role₁ role₂)
    (hrest : FirstPage roots src dst s₀ role₀ cost n s₂ s' role₂ ok) :
    FirstPage roots src dst s₀ role₀ (cost.1 + (m + 1), cost.2) n s s' role ok := by
  have hfree : freeFrames s₁.pmm = freeFrames s₂.pmm + m := by
    refine (hbelow.through rfl ?_).2
    by_contra hle
    exact absurd (hbelow.stops (by omega)) (by simp)
  have hstep := hlink.trans hcopy (Nat.le_succ n)
  refine ⟨fun hcost ↦ ?_, fun hcost hle ↦ ?_, fun hcost ↦ ?_, fun hcost hle ↦ ?_⟩
  · obtain ⟨role₃, hlast⟩ := hrest.linked (hcost.imp id fun hlt ↦ by dsimp only at hlt; omega)
    exact ⟨role₃, hstep.trans hlast le_rfl⟩
  · dsimp only at hcost hle ⊢
    obtain ⟨hok, hlast⟩ := hrest.through hcost (by omega)
    exact ⟨hok, by omega⟩
  · dsimp only at hcost
    exact hrest.stops (by omega)
  · dsimp only at hcost hle
    obtain ⟨role₃, hlast⟩ := hrest.shares hcost (by omega)
    exact ⟨role₃, hstep.trans hlast le_rfl⟩

theorem FirstPage.found {ok₂ : Bool}
    (hbelow : FirstPage roots src dst s₀ role₀ (m, true) (n + 1) s₁ s₂ role₁ ok₂)
    (hstop : ok₂ = false → ok = false ∧ s' = s₂)
    (hrest : ok₂ = true → ∀ role₂,
      Copied (SharesPage src dst s₀) (insert dst roots) (n + 1) s₁ s₂ role₁ role₂ →
      ∃ role₃, Copied (SharesPage src dst s₀) (insert dst roots) n s₂ s' role₂ role₃) :
    FirstPage roots src dst s₀ role₀ (m + 1, true) n s s' role ok := by
  refine ⟨fun hcost ↦ ?_, fun hcost ↦ ?_, fun hcost ↦ ?_, fun _ hle ↦ ?_⟩
  · have hfew : freeFrames s₁.pmm < m := by
      rcases hcost with hcost | hcost
      · cases hcost
      · dsimp only at hcost
        omega
    obtain ⟨-, rfl⟩ := hstop (hbelow.stops hfew)
    obtain ⟨role₂, hcopy⟩ := hbelow.linked (.inr hfew)
    exact ⟨role₂, hlink.trans hcopy (Nat.le_succ n)⟩
  · cases hcost
  · dsimp only at hcost
    exact (hstop (hbelow.stops (by dsimp only; omega))).1
  · dsimp only at hle
    obtain ⟨role₂, hcopy⟩ := hbelow.shares rfl (by dsimp only; omega)
    have hstep := hlink.trans hcopy (Nat.le_succ n)
    cases ok₂ with
    | false =>
      obtain ⟨-, rfl⟩ := hstop rfl
      exact ⟨role₂, hstep⟩
    | true =>
      obtain ⟨role₃, hlast⟩ := hrest rfl role₂ hcopy
      exact ⟨role₃, hstep.trans hlast le_rfl⟩

end Costs

variable (h₀ : Inv s₀ roots role₀) (hsrc : src ∈ roots) (hne : src ≠ dst)

include h₀ hsrc hne

/-- The copy has come to the slots of a table `S` of the source, with the table `D` of the copy in
its place, and has shared no page. -/
structure FirstReady (roots : Set ℕ) (src dst : ℕ) (s₀ : Vm) (role₀ : Roles) (s : Vm) (role : Roles)
    (p slots : List (Fin 512)) (S D : ℕ) : Prop where
  inv : Inv s (insert dst roots) role
  source : role₀ S = .table src p
  old : ∀ k r q, role₀ k = .table r q → role k = .table r q
  copy : role D = .table dst p
  slots : OpenSlots s D p slots
  linked : OnlyLinked roots src dst s₀ role₀ s role

variable {p slots : List (Fin 512)} {S D : ℕ}

omit hne in
theorem copyLeaves_first (h : FirstReady roots src dst s₀ role₀ s role p slots S D)
    (hl : p.length = 3) :
    FirstPage roots src dst s₀ role₀ (tablesToPage s₀.mem 0 S slots) 3 s (copyLeaves S D slots s)
      role true := by
  rw [tablesToPage, ← h.linked.source S p h.source]
  have hnone : slots.any (fun l ↦ hasFlag (s.mem S l) ptePresent) = false →
      copyLeaves S D slots s = s := fun hany ↦ copyLeaves_none (by simpa using hany)
  refine ⟨fun hcost ↦ ?_, fun hcost _ ↦ ⟨rfl, ?_⟩,
    fun hcost ↦ absurd hcost (Nat.not_lt_zero _), fun hcost _ ↦ ?_⟩
  · rw [hnone (hcost.resolve_right (Nat.not_lt_zero _))]
    exact ⟨role, .refl h.inv h.linked⟩
  · rw [hnone hcost]
    rfl
  · refine ⟨role, copyLeaves_shares h.inv (.inr hsrc) (.inl rfl) (h.old _ _ _ h.source) h.copy hl
      (fun l ↦ h.linked.same _ ⟨hsrc, (h₀.forest.live h.source).2.1, hl⟩) ?_⟩
    simpa using hcost

omit hsrc in
theorem FirstReady.below {i : Fin 512} {g : ℕ} {s₁ : Vm}
    (h : FirstReady roots src dst s₀ role₀ s role p (i :: slots) S D) (hl : p.length < 3)
    (hpres : hasFlag (s₀.mem S i) ptePresent = true) (hnew : NewTable s s₁ S D g i) :
    CopyLink (insert dst roots) dst s s₁ role S D p i g ∧
    Copied (OnlyLinked roots src dst s₀ role₀) (insert dst roots) p.length s s₁ role
      (update role g (.table dst (p ++ [i]))) ∧
    FirstReady roots src dst s₀ role₀ s₁ (update role g (.table dst (p ++ [i]))) (p ++ [i])
      (List.finRange 512) (frameOf (s₀.mem S i)) g := by
  have hui := h.slots.user i List.mem_cons_self
  have hlink := CopyLink.of_newTable h.inv h.copy hnew (h.old _ _ _ h.source) hl h.slots
    (by rwa [h.linked.source S p h.source])
  have hcopied := hlink.copied h.inv h.copy (h.linked.link h.inv hne h.old h.copy hlink)
  exact ⟨hlink, hcopied, hlink.inv,
    h₀.forest.child h.source hl hui (entryNext_some.mpr ⟨hpres, rfl⟩),
    fun k r q hk ↦ hcopied.tables k r q (h.old k r q hk), update_self _ _ _, .new hui hlink.empty,
    hcopied.prop⟩

theorem copyLoop_first {level : ℕ} (hl : p.length + (level + 1) = 3)
    (hbody : ∀ {s s' : Vm} {role : Roles} {p : List (Fin 512)} {S D : ℕ} {ok : Bool},
      p.length + level = 3 → FirstReady roots src dst s₀ role₀ s role p (List.finRange 512) S D →
      copyTables level (List.finRange 512) s S D = (ok, s') →
      FirstPage roots src dst s₀ role₀ (tablesToPage s₀.mem level S (List.finRange 512)) p.length
        s s' role ok)
    (h : FirstReady roots src dst s₀ role₀ s role p slots S D) {ok : Bool}
    (heq : copyTables (level + 1) slots s S D = (ok, s')) :
    FirstPage roots src dst s₀ role₀ (tablesToPage s₀.mem (level + 1) S slots) p.length s s' role
      ok := by
  rw [tablesToPage]
  induction slots generalizing s role with
  | nil =>
    simp only [copyTables, copyLoop, Prod.mk.injEq] at heq
    obtain ⟨rfl, rfl⟩ := heq
    refine ⟨fun _ ↦ ⟨role, .refl h.inv h.linked⟩, fun _ _ ↦ ⟨rfl, rfl⟩,
      fun hcost ↦ absurd hcost (Nat.not_lt_zero _), fun hcost ↦ ?_⟩
    cases hcost
  | cons i slots ih =>
    have hlen : (p ++ [i]).length = p.length + 1 := by simp
    have hrow : s.mem S = s₀.mem S := h.linked.source S p h.source
    have hS' := h.old _ _ _ h.source
    rw [pageLoop]
    cases copyLoop_cases (Role.ne_of_root hS' h.copy hne) (h.inv.owned_table hS').not_available
      heq with
    | absent hnone hrest =>
      rw [hrow] at hnone
      rw [hnone, if_neg (by simp)]
      exact ih ⟨h.inv, h.source, h.old, h.copy, h.slots.tail, h.linked⟩ hrest
    | full hpres hfull hok hs =>
      rw [hrow] at hpres
      subst hok hs
      rw [hpres, if_pos rfl]
      refine FirstPage.full h.inv h.linked (freeFrames_eq_zero hfull) ?_
      split <;> simp
    | stopped hpres g s₁ hnew hb hok =>
      rw [hrow] at hpres hb
      subst hok
      obtain ⟨-, hcopied, hready⟩ := h.below h₀ hne (by omega) hpres hnew
      have hbelow := hlen ▸ hbody (by omega) hready hb
      have htake := freeFrames_take hnew.available hnew.takes
      rw [hpres, if_pos rfl]
      cases hcost : tablesToPage s₀.mem level (frameOf (s₀.mem S i)) (List.finRange 512) with
      | mk m b =>
        rw [hcost] at hbelow
        cases b with
        | false => exact hbelow.stopped hcopied htake (by dsimp only; omega)
        | true => exact hbelow.found hcopied htake (fun _ ↦ ⟨rfl, rfl⟩) fun hc ↦ by cases hc
    | next hpres g s₁ s₂ hnew hb hrest =>
      rw [hrow] at hpres hb
      obtain ⟨hlink, hcopied, hready⟩ := h.below h₀ hne (by omega) hpres hnew
      have hbelow := hlen ▸ hbody (by omega) hready hb
      have htake := freeFrames_take hnew.available hnew.takes
      rw [hpres, if_pos rfl]
      cases hcost : tablesToPage s₀.mem level (frameOf (s₀.mem S i)) (List.finRange 512) with
      | mk m b =>
        rw [hcost] at hbelow
        cases b with
        | false =>
          obtain ⟨role₂, hcopy⟩ := hbelow.linked (.inl rfl)
          have hstep := hcopied.trans hcopy (Nat.le_succ _)
          exact hbelow.next hcopied htake hcopy (ih ⟨hstep.inv, h.source,
            fun k r q hk ↦ hstep.tables k r q (h.old k r q hk), hstep.tables _ _ _ h.copy,
            hlink.rest_open h.inv h.copy h.slots hcopy, hstep.prop⟩ hrest)
        | true =>
          refine hbelow.found hcopied htake (fun hc ↦ by cases hc) fun _ role₂ hcopy ↦ ?_
          have hstep := hcopied.trans hcopy (Nat.le_succ _)
          exact copyTables_run (sharesPage_stable (.inr hsrc) (.inl rfl)) hne (level + 1) hl hstep.inv
            (hstep.tables _ _ _ hS') (hstep.tables _ _ _ h.copy)
            (hlink.rest_open h.inv h.copy h.slots hcopy) hstep.prop hrest

theorem copyTables_first (level : ℕ) (hl : p.length + level = 3)
    (h : FirstReady roots src dst s₀ role₀ s role p slots S D) {ok : Bool}
    (heq : copyTables level slots s S D = (ok, s')) :
    FirstPage roots src dst s₀ role₀ (tablesToPage s₀.mem level S slots) p.length s s' role ok := by
  induction level generalizing p slots s s' role S D ok with
  | zero =>
    simp only [copyTables, Prod.mk.injEq] at heq
    obtain ⟨rfl, rfl⟩ := heq
    have hl3 : p.length = 3 := by omega
    rw [hl3]
    exact copyLeaves_first h₀ hsrc h hl3
  | succ level ih => exact copyLoop_first h₀ hsrc hne hl (fun hl h heq ↦ ih hl h heq) h heq

end Search

end SeedOS.Process
