import SeedOS.Process.Segments

namespace SeedOS.Process

open Foundation Memory Function

def randomByte (a : Word) (i : ℕ) : BitVec 8 :=
  (a >>> (i % 8)).setWidth 8 ^^^ BitVec.ofNat 8 (i * 17)

section Pokes

variable {roots : Set ℕ} {pml4Phys : Word} {s s' : Vm} {role : Roles} {m : UserImage}

theorem pageOffset_and (va : Word) : (va &&& 0xFFF#64).toNat = va.toNat % 4096 := by
  rw [BitVec.toNat_and, show (0xFFF#64).toNat = 2 ^ 12 - 1 from rfl, Nat.and_two_pow_sub_one_eq_mod]

theorem alignDown_page {va : Word} (hva : UserAddress va) :
    UserAddress (alignDown va) ∧ pageOf (alignDown va) = pageOf va ∧
      pageOf (alignDown va) * 4096 + va.toNat % 4096 = va.toNat := by
  have hdown := alignDown_toNat va
  rw [UserAddress] at hva
  rw [UserAddress, pageOf, pageOf]
  omega

theorem Shows.page_eq_zero (h : Shows roots pml4Phys s role m) {va : Word} (hva : UserAddress va) :
    vmmGetPhysical s pml4Phys (alignDown va) = 0#64 ↔ m.flags (pageOf va) = none := by
  obtain ⟨hpage, hnum, -⟩ := alignDown_page hva
  rw [h.physical_eq_zero hpage, hnum]

theorem pokeBytes_shows (bytes : List (BitVec 8)) {va : Word} {b : ℕ → BitVec 8}
    (h : Shows roots pml4Phys s role m) (hend : va.toNat + bytes.length ≤ userSpaceTop)
    (hb : ∀ k < bytes.length, b (va.toNat + k) = bytes.getD k 0#8) :
    ((pokeBytes pml4Phys bytes va s).1 = true ↔
      ∀ k < bytes.length, m.flags ((va.toNat + k) / 4096) ≠ none) ∧
    ∀ s', pokeBytes pml4Phys bytes va s = (true, s') →
      Shows roots pml4Phys s' role (m.store va.toNat (va.toNat + bytes.length) b) := by
  induction bytes generalizing s m va with
  | nil =>
    refine ⟨⟨fun _ k hk ↦ absurd hk (Nat.not_lt_zero k), fun _ ↦ rfl⟩, fun s' heq ↦ ?_⟩
    obtain rfl := (Prod.mk.inj heq).2
    rwa [List.length_nil, Nat.add_zero, UserImage.store_empty]
  | cons byte bytes ih =>
    rw [List.length_cons] at hend hb ⊢
    have hva : UserAddress va := by
      rw [UserAddress]
      omega
    obtain ⟨hpage, -, hat⟩ := alignDown_page hva
    have hzero := h.page_eq_zero hva
    rw [pokeBytes, pokeByte, Nat.forall_lt_succ_left, Nat.add_zero]
    by_cases hz : vmmGetPhysical s pml4Phys (alignDown va) = 0#64
    · rw [if_pos hz]
      exact ⟨⟨fun hc ↦ absurd hc Bool.false_ne_true, fun hm ↦ absurd (hzero.mp hz) hm.1⟩,
        fun s' hc ↦ absurd (congrArg Prod.fst hc) Bool.false_ne_true⟩
    · rw [if_neg hz, pageOffset_and]
      have hfirst := h.writeByte hpage hz (Nat.mod_lt va.toNat (by decide)) b
      rw [hat, show b va.toNat = byte from hb 0 (by omega)] at hfirst
      have hnext : (va + 1#64).toNat = va.toNat + 1 := by
        rw [userSpaceTop] at hend
        rw [BitVec.toNat_add, show (1#64).toNat = 1 from rfl, Nat.mod_eq_of_lt (by omega)]
      have hb' : ∀ k < bytes.length, b ((va + 1#64).toNat + k) = bytes.getD k 0#8 := fun k hk ↦ by
        rw [hnext, Nat.add_assoc, Nat.add_comm 1, hb (k + 1) (by omega), List.getD_cons_succ]
      obtain ⟨hiff, hrest⟩ := ih hfirst (by omega) hb'
      simp only [hnext, Nat.add_assoc, Nat.add_comm 1] at hiff hrest
      refine ⟨hiff.trans (and_iff_right (hzero.not.mp hz)).symm, fun s' heq ↦ ?_⟩
      have hshows := hrest s' heq
      rwa [(UserImage.store_store _ (by omega) (by omega) _).1] at hshows

theorem pokeList_shows (bytes : List (BitVec 8)) (va : Word) (h : Shows roots pml4Phys s role m)
    (hend : va.toNat + bytes.length ≤ userSpaceTop) :
    ((pokeBytes pml4Phys bytes va s).1 = true ↔
      ∀ k < bytes.length, m.flags ((va.toNat + k) / 4096) ≠ none) ∧
    ∀ s', pokeBytes pml4Phys bytes va s = (true, s') →
      Shows roots pml4Phys s' role (m.store va.toNat (va.toNat + bytes.length)
        fun x ↦ bytes.getD (x - va.toNat) 0#8) :=
  pokeBytes_shows bytes h hend fun k _ ↦ by rw [Nat.add_sub_cancel_left]

theorem pokeRandom_shows {a : Word} (h : Shows roots pml4Phys s role m) (ha : UserAddress a)
    (halign : a.toNat % 16 = 0) (hmapped : m.flags (pageOf a) ≠ none) :
    Shows roots pml4Phys (pokeRandom pml4Phys a s) role
      (m.store a.toNat (a.toNat + 16) fun x ↦ randomByte a (x - a.toNat)) := by
  obtain ⟨hpage, -, hat⟩ := alignDown_page ha
  have hz : vmmGetPhysical s pml4Phys (alignDown a) ≠ 0#64 := fun hc ↦
    hmapped ((h.page_eq_zero ha).mp hc)
  have hroom : a.toNat % 4096 + 16 ≤ 4096 := by omega
  have hbytes := h.writeBytes hpage hz hroom (fun x ↦ randomByte a (x - a.toNat)) (randomByte a)
    fun k _ ↦ by rw [hat, Nat.add_sub_cancel_left]
  rw [hat] at hbytes
  rw [pokeRandom, if_neg hz, pageOffset_and]
  exact hbytes

theorem pushWords_shows (ws : List Word) {sp : Word} {b : ℕ → BitVec 8}
    (h : Shows roots pml4Phys s role m) (hlow : 8 * ws.length ≤ sp.toNat)
    (htop : sp.toNat ≤ userSpaceTop) (halign : sp.toNat % 8 = 0)
    (hb : ∀ i < ws.length, ∀ k < 8, b (sp.toNat - 8 * (i + 1) + k) = byteOf (ws.getD i 0#64) k) :
    ((pushWords pml4Phys ws sp s).1.isSome ↔
      ∀ x, sp.toNat - 8 * ws.length ≤ x → x < sp.toNat → m.flags (x / 4096) ≠ none) ∧
    ∀ sp' s', pushWords pml4Phys ws sp s = (some sp', s') →
      sp'.toNat = sp.toNat - 8 * ws.length ∧
        Shows roots pml4Phys s' role (m.store sp'.toNat sp.toNat b) := by
  induction ws generalizing s m sp with
  | nil =>
    rw [List.length_nil, Nat.mul_zero, Nat.sub_zero]
    refine ⟨⟨fun _ x hx hlt ↦ absurd hx (Nat.not_le.mpr hlt), fun _ ↦ rfl⟩, fun sp' s' heq ↦ ?_⟩
    simp only [pushWords, Prod.mk.injEq, Option.some.injEq] at heq
    obtain ⟨rfl, rfl⟩ := heq
    rw [UserImage.store_empty]
    exact ⟨rfl, h⟩
  | cons w ws ih =>
    rw [List.length_cons] at hlow hb ⊢
    have hsub : (sp - 8#64).toNat = sp.toNat - 8 := by
      rw [BitVec.toNat_sub, show (8#64).toNat = 8 from rfl]
      omega
    have hva : UserAddress (sp - 8#64) := by
      rw [UserAddress, hsub]
      omega
    obtain ⟨hpage, -, hat⟩ := alignDown_page hva
    have hzero := h.page_eq_zero hva
    rw [pageOf, hsub] at hzero
    rw [pushWords]
    by_cases hz : vmmGetPhysical s pml4Phys (alignDown (sp - 8#64)) = 0#64
    · rw [if_pos hz]
      exact ⟨⟨fun hc ↦ absurd hc Bool.false_ne_true,
        fun hm ↦ absurd (hzero.mp hz) (hm _ (by omega) (by omega))⟩,
        fun _ _ hc ↦ absurd (congrArg Prod.fst hc) (Option.some_ne_none _).symm⟩
    · rw [if_neg hz, pageOffset_and]
      have hword : ∀ k < 8, b (pageOf (alignDown (sp - 8#64)) * 4096 + (sp - 8#64).toNat % 4096 + k) =
          byteOf w k := fun k hk ↦ by
        rw [hat, hsub]
        exact hb 0 (by omega) k hk
      have hfirst := h.write hpage hz (Nat.mod_lt _ (by decide)) (by omega) hword
      rw [hat, hsub, Nat.sub_add_cancel (by omega)] at hfirst
      have hb' : ∀ i < ws.length, ∀ k < 8, b ((sp - 8#64).toNat - 8 * (i + 1) + k) =
          byteOf (ws.getD i 0#64) k := fun i hi k hk ↦ by
        have := hb (i + 1) (by omega) k hk
        rwa [List.getD_cons_succ, show sp.toNat - 8 * (i + 1 + 1) =
          (sp - 8#64).toNat - 8 * (i + 1) by omega] at this
      obtain ⟨hiff, hrest⟩ := ih hfirst (by omega) (by omega) (by omega) hb'
      rw [hsub] at hiff hrest ⊢
      refine ⟨hiff.trans ⟨fun hm x hx hlt ↦ ?_, fun hm x hx hlt ↦ hm x (by omega) (by omega)⟩,
        fun sp' s' heq ↦ ?_⟩
      · by_cases hxs : x < sp.toNat - 8
        · exact hm x (by omega) hxs
        · rw [show x / 4096 = (sp.toNat - 8) / 4096 by omega]
          exact hzero.not.mp hz
      · obtain ⟨hsp, hshows⟩ := hrest sp' s' heq
        rw [(UserImage.store_store _ (by omega) (by omega) _).2] at hshows
        exact ⟨by omega, hshows⟩

end Pokes

end SeedOS.Process
