import SeedOS.Foundation.Traced
import SeedOS.System.ReadCalls

namespace SeedOS.System

open Foundation Memory Process Function Traced

def enametoolong : Word := -36#64

/-- What `copy_string_from_user` does to memory: it loads a user byte, or stores a byte of
`dst`. -/
inductive StringOp
  | load (va : Word)
  | store (i : ℕ)
  deriving DecidableEq

/-- The loop of `copy_string_from_user` from byte `i` on, for `n` more bytes: where it finds the
`NUL`, and what `dst` holds then. -/
def copyStringTraced (user : Word → BitVec 8) (src : Word) :
    ℕ → ℕ → (ℕ → BitVec 8) → Traced StringOp (Option ℕ × (ℕ → BitVec 8))
  | 0, _, dst => pure (none, dst)
  | n + 1, i, dst => do
    let b ← touch (.load (src + BitVec.ofNat 64 i)) (user (src + BitVec.ofNat 64 i))
    let dst ← touch (.store i) (update dst i b)
    if dst i = 0#8 then pure (some i, dst) else copyStringTraced user src n (i + 1) dst

/-- `copy_string_from_user` once it has checked the pointer: it looks at `safeMax` bytes. -/
def copyStringUpTo (user : Word → BitVec 8) (src safeMax max : Word) (dst : ℕ → BitVec 8) :
    Traced StringOp (Word × (ℕ → BitVec 8)) := do
  match ← copyStringTraced user src safeMax.toNat 0 dst with
  | (some i, dst) => pure (BitVec.ofNat 64 i, dst)
  | (none, dst) => if safeMax < max then pure (efault, dst) else pure (enametoolong, dst)

/-- `copy_string_from_user` on readable pages. -/
def copyStringFromUserTraced (user : Word → BitVec 8) (src max : Word) (dst : ℕ → BitVec 8) :
    Traced StringOp (Word × (ℕ → BitVec 8)) :=
  if max = 0#64 then pure (einval, dst)
  else if vmmValidateUserRange src 1#64 = false then pure (efault, dst)
  else
    let safeMax := userTop - src
    let safeMax := if max < safeMax then max else safeMax
    copyStringUpTo user src safeMax max dst

def NulAt (user : Word → BitVec 8) (src : Word) (n : ℕ) : Prop :=
  user (src + BitVec.ofNat 64 n) = 0#8 ∧ ∀ j < n, user (src + BitVec.ofNat 64 j) ≠ 0#8

theorem NulAt.unique {user : Word → BitVec 8} {src : Word} {m n : ℕ} (hm : NulAt user src m)
    (hn : NulAt user src n) : m = n := by
  rcases Nat.lt_trichotomy m n with hlt | heq | hlt
  · exact absurd hm.1 (hn.2 m hlt)
  · exact heq
  · exact absurd hn.1 (hm.2 n hlt)

section Loop

variable (user : Word → BitVec 8) (src : Word)

theorem copyStringTraced_all (n i : ℕ) (dst : ℕ → BitVec 8) {P : StringOp → Prop}
    (hload : ∀ j, i ≤ j → j < i + n → P (.load (src + BitVec.ofNat 64 j)))
    (hstore : ∀ j, i ≤ j → j < i + n → P (.store j)) :
    (copyStringTraced user src n i dst).All P := by
  induction n generalizing i dst with
  | zero => exact all_pure _
  | succ n ih =>
    rw [copyStringTraced, all_touch_bind, all_touch_bind]
    refine ⟨hload i (Nat.le_refl i) (by omega), hstore i (Nat.le_refl i) (by omega), ?_⟩
    split_ifs
    · exact all_pure _
    · exact ih (i + 1) _ (fun j hj hlt ↦ hload j (by omega) (by omega))
        fun j hj hlt ↦ hstore j (by omega) (by omega)

theorem copyStringTraced_val (n i : ℕ) (dst : ℕ → BitVec 8) :
    (∃ j, (i ≤ j ∧ j < i + n) ∧ (copyStringTraced user src n i dst).val.1 = some j ∧
      user (src + BitVec.ofNat 64 j) = 0#8 ∧
      (∀ k, i ≤ k → k < j → user (src + BitVec.ofNat 64 k) ≠ 0#8) ∧
      ∀ k, (copyStringTraced user src n i dst).val.2 k =
        if i ≤ k ∧ k ≤ j then user (src + BitVec.ofNat 64 k) else dst k) ∨
    ((copyStringTraced user src n i dst).val.1 = none ∧
      (∀ k, i ≤ k → k < i + n → user (src + BitVec.ofNat 64 k) ≠ 0#8) ∧
      ∀ k, (copyStringTraced user src n i dst).val.2 k =
        if i ≤ k ∧ k < i + n then user (src + BitVec.ofNat 64 k) else dst k) := by
  induction n generalizing i dst with
  | zero =>
    refine .inr ⟨rfl, fun k hk hlt ↦ by omega, fun k ↦ ?_⟩
    rw [if_neg (by omega)]
    rfl
  | succ n ih =>
    simp only [copyStringTraced, val_touch_bind, update_self]
    by_cases h0 : user (src + BitVec.ofNat 64 i) = 0#8
    · rw [if_pos h0]
      refine .inl ⟨i, ⟨Nat.le_refl i, by omega⟩, rfl, h0, fun k hk hlt ↦ by omega, fun k ↦ ?_⟩
      dsimp only [val_pure]
      by_cases hk : k = i
      · subst hk
        rw [update_self, if_pos ⟨Nat.le_refl k, Nat.le_refl k⟩]
      · rw [update_of_ne hk, if_neg (by omega)]
    · rw [if_neg h0]
      -- the byte at `i` was stored before the rest of the loop
      have hbyte : ∀ (c : Prop) [Decidable c] (k : ℕ), ¬(c ∧ k = i) →
          (if c then user (src + BitVec.ofNat 64 k)
            else update dst i (user (src + BitVec.ofNat 64 i)) k) =
          if c ∨ k = i then user (src + BitVec.ofNat 64 k) else dst k := by
        intro c _ k hck
        by_cases hk : k = i
        · subst hk
          rw [if_neg fun hc ↦ hck ⟨hc, rfl⟩, update_self, if_pos (.inr rfl)]
        · rw [update_of_ne hk]
          simp only [hk, or_false]
      rcases ih (i + 1) (update dst i (user (src + BitVec.ofNat 64 i))) with
        ⟨j, hj, hval, hnul, hbefore, hdst⟩ | ⟨hval, hnone, hdst⟩
      · refine .inl ⟨j, by omega, hval, hnul, fun k hk hlt ↦ ?_, fun k ↦ ?_⟩
        · by_cases hki : k = i
          · exact hki ▸ h0
          · exact hbefore k (by omega) hlt
        · rw [hdst, hbyte _ k (by omega)]
          exact if_congr (by omega) rfl rfl
      · refine .inr ⟨hval, fun k hk hlt ↦ ?_, fun k ↦ ?_⟩
        · by_cases hki : k = i
          · exact hki ▸ h0
          · exact hnone k (by omega) (by omega)
        · rw [hdst, hbyte _ k (by omega)]
          exact if_congr (by omega) rfl rfl

end Loop

/-- A load below the top of user space, or a store into the first `max` bytes. -/
def StringOp.Within (max : ℕ) : StringOp → Prop
  | .load va => va < userTop
  | .store i => i < max

section Call

variable (user : Word → BitVec 8) {src max : Word} (dst : ℕ → BitVec 8)

theorem userTop_toNat : userTop.toNat = 2 ^ 47 := by decide

theorem validate_one_iff : vmmValidateUserRange src 1#64 = true ↔ src ≠ 0#64 ∧ src < userTop := by
  have htop := userTop_toNat
  rw [vmmValidateUserRange_iff, BitVec.lt_def, htop, show (1#64).toNat = 1 from rfl]
  constructor
  · rintro ⟨hsrc, -, hle⟩
    exact ⟨hsrc, hle⟩
  · rintro ⟨hsrc, hlt⟩
    exact ⟨hsrc, by decide, hlt⟩

theorem safeMax_toNat (max : Word) (hlt : src < userTop) :
    (if max < userTop - src then max else userTop - src).toNat =
      min max.toNat (userTop.toNat - src.toNat) := by
  have hsub : (userTop - src).toNat = userTop.toNat - src.toNat :=
    BitVec.toNat_sub_of_le (BitVec.le_of_lt hlt)
  split_ifs with h
  · rw [BitVec.lt_def, hsub] at h
    omega
  · rw [BitVec.lt_def, hsub] at h
    omega

theorem add_lt_userTop {j : ℕ} (hj : j < userTop.toNat - src.toNat) :
    src + BitVec.ofNat 64 j < userTop := by
  have htop := userTop_toNat
  rw [BitVec.lt_def, BitVec.toNat_add, BitVec.toNat_ofNat]
  omega

/-- The four ways in which `copy_string_from_user` ends. -/
inductive Copied (user : Word → BitVec 8) (src max : Word) (dst : ℕ → BitVec 8) :
    Word × (ℕ → BitVec 8) → Prop
  | bad : (src = 0#64 ∨ userTop ≤ src) → Copied user src max dst (efault, dst)
  | found {n : ℕ} {dst' : ℕ → BitVec 8} : src ≠ 0#64 → src < userTop → NulAt user src n →
      n < max.toNat → n < userTop.toNat - src.toNat →
      (∀ k, dst' k = if k ≤ n then user (src + BitVec.ofNat 64 k) else dst k) →
      Copied user src max dst (BitVec.ofNat 64 n, dst')
  | ranOff {dst' : ℕ → BitVec 8} : src ≠ 0#64 → src < userTop →
      userTop.toNat - src.toNat < max.toNat →
      (∀ j < userTop.toNat - src.toNat, user (src + BitVec.ofNat 64 j) ≠ 0#8) →
      (∀ k, max.toNat ≤ k → dst' k = dst k) → Copied user src max dst (efault, dst')
  | tooLong {dst' : ℕ → BitVec 8} : src ≠ 0#64 → src < userTop →
      max.toNat ≤ userTop.toNat - src.toNat →
      (∀ j < max.toNat, user (src + BitVec.ofNat 64 j) ≠ 0#8) →
      (∀ k, max.toNat ≤ k → dst' k = dst k) → Copied user src max dst (enametoolong, dst')

theorem copyStringUpTo_spec {safe : Word} (hsrc : src ≠ 0#64) (hlt : src < userTop)
    (hsafe : safe.toNat = min max.toNat (userTop.toNat - src.toNat)) :
    Copied user src max dst (copyStringUpTo user src safe max dst).val ∧
      (copyStringUpTo user src safe max dst).All (StringOp.Within max.toNat) := by
  have hops : (copyStringTraced user src safe.toNat 0 dst).All (StringOp.Within max.toNat) := by
    refine copyStringTraced_all user src _ _ dst (fun j _ hj ↦ ?_) fun j _ hj ↦ ?_
    · exact add_lt_userTop (by omega)
    · change j < max.toNat
      omega
  have hval := copyStringTraced_val user src safe.toNat 0 dst
  rw [copyStringUpTo, val_bind, all_bind]
  cases hr : (copyStringTraced user src safe.toNat 0 dst).val with
  | mk found dst' =>
    rw [hr] at hval
    rcases hval with ⟨n, hn, hfound, hnul, hbefore, hdst⟩ | ⟨hfound, hnone, hdst⟩
    · obtain rfl : found = some n := hfound
      refine ⟨.found hsrc hlt ⟨hnul, fun j hj ↦ hbefore j (by omega) hj⟩ (by omega) (by omega)
        fun k ↦ ?_, hops, all_pure _⟩
      simpa using hdst k
    · obtain rfl : found = none := hfound
      have hkeep : ∀ k, max.toNat ≤ k → dst' k = dst k := fun k hk ↦ by
        rw [show dst' k = _ from hdst k, if_neg (by omega)]
      have hno : ∀ j < safe.toNat, user (src + BitVec.ofNat 64 j) ≠ 0#8 :=
        fun j hj ↦ hnone j (by omega) (by omega)
      dsimp only
      by_cases hoff : safe < max
      · rw [if_pos hoff]
        rw [BitVec.lt_def] at hoff
        exact ⟨.ranOff hsrc hlt (by omega) (fun j hj ↦ hno j (by omega)) hkeep, hops, all_pure _⟩
      · rw [if_neg hoff]
        rw [BitVec.lt_def] at hoff
        exact ⟨.tooLong hsrc hlt (by omega) (fun j hj ↦ hno j (by omega)) hkeep, hops, all_pure _⟩

theorem copyStringFromUserTraced_spec (hmax : max ≠ 0#64) :
    Copied user src max dst (copyStringFromUserTraced user src max dst).val ∧
      (copyStringFromUserTraced user src max dst).All (StringOp.Within max.toNat) := by
  unfold copyStringFromUserTraced
  rw [if_neg hmax]
  by_cases hv : vmmValidateUserRange src 1#64 = false
  · rw [if_pos hv]
    refine ⟨.bad ?_, all_pure _⟩
    by_contra hno
    rw [not_or, BitVec.not_le] at hno
    rw [validate_one_iff.mpr hno] at hv
    cases hv
  · rw [if_neg hv]
    rw [Bool.not_eq_false] at hv
    obtain ⟨hsrc, hlt⟩ := validate_one_iff.mp hv
    exact copyStringUpTo_spec user dst hsrc hlt (safeMax_toNat max hlt)

end Call

section Space

variable (vm : Vm) (pml4Phys : Word)

/-- A byte that the kernel loads through a user address. The system halts if the page is not
mapped. -/
def kernelLoad (va : Word) : Option (BitVec 8) :=
  (translate vm pml4Phys va).map fun t ↦ vm.readByte (pageOf t.phys) (t.phys.toNat % 4096)

def StringOp.mapped : StringOp → Bool
  | .load va => (kernelLoad vm pml4Phys va).isSome
  | .store _ => true

def copiedString (r : Word × (ℕ → BitVec 8)) : Word ⊕ List (BitVec 8) :=
  if r.1.toInt < 0 then .inl r.1 else .inr ((List.range r.1.toNat).map r.2)

/-- `copy_string_from_user` in an address space, with no result if it loads from a page that is
not mapped. -/
def copyStringFromUser (src max : Word) : Option (Word ⊕ List (BitVec 8)) :=
  let user := fun va ↦ (kernelLoad vm pml4Phys va).getD 0#8
  let r := copyStringFromUserTraced user src max fun _ ↦ 0#8
  if r.log.all (StringOp.mapped vm pml4Phys) then some (copiedString r.val) else none

theorem copyStringFromUser_error {src max err : Word}
    (h : copyStringFromUser vm pml4Phys src max = some (.inl err)) : err.toInt < 0 := by
  unfold copyStringFromUser copiedString at h
  dsimp only at h
  split_ifs at h with _ hneg
  · cases h
    exact hneg
  · cases h

end Space

/-- `copy_string_from_user` loads from user space only and stores into the first `max` bytes only;
it returns the length of the string if its `NUL` comes before both limits, and otherwise tells
which limit it met. -/
theorem copy_string_from_user_exact (user : Word → BitVec 8) (src : Word) {max : Word}
    (hmax : max ≠ 0#64) (dst : ℕ → BitVec 8) :
    let r := copyStringFromUserTraced user src max dst
    r.All (StringOp.Within max.toNat) ∧ (∀ i, max.toNat ≤ i → r.val.2 i = dst i) ∧
      (∀ n : ℕ, r.val.1.toInt = n ↔ (src ≠ 0#64 ∧ src < userTop) ∧ NulAt user src n ∧
        n < max.toNat ∧ n < userTop.toNat - src.toNat) ∧
      (∀ n : ℕ, r.val.1.toInt = n → ∀ i ≤ n, r.val.2 i = user (src + BitVec.ofNat 64 i)) ∧
      (r.val.1 = efault ↔ (src = 0#64 ∨ userTop ≤ src) ∨
        userTop.toNat - src.toNat < max.toNat ∧
          ∀ j < userTop.toNat - src.toNat, user (src + BitVec.ofNat 64 j) ≠ 0#8) ∧
      (r.val.1 = enametoolong ↔ (src ≠ 0#64 ∧ src < userTop) ∧
        max.toNat ≤ userTop.toNat - src.toNat ∧
          ∀ j < max.toNat, user (src + BitVec.ofNat 64 j) ≠ 0#8) ∧
      (r.val.1.toInt < 0 → r.val.1 = efault ∨ r.val.1 = enametoolong) := by
  intro r
  obtain ⟨hcopied, hops⟩ := copyStringFromUserTraced_spec user dst hmax
  refine ⟨hops, ?_⟩
  change Copied user src max dst r.val at hcopied
  generalize r.val = v at hcopied
  have hfault : efault.toInt = -14 := by decide
  have hlong : enametoolong.toInt = -36 := by decide
  have hne : efault ≠ enametoolong := by decide
  cases hcopied with
  | bad hbad =>
    have hvalid : ¬(src ≠ 0#64 ∧ src < userTop) := by
      rintro ⟨hsrc, hlt⟩
      rcases hbad with h0 | hle
      · exact hsrc h0
      · exact BitVec.not_le.mpr hlt hle
    refine ⟨fun _ _ ↦ rfl, fun n ↦ ⟨fun h ↦ ?_, fun h ↦ absurd h.1 hvalid⟩, fun n h ↦ ?_,
      ⟨fun _ ↦ .inl hbad, fun _ ↦ rfl⟩, ⟨fun h ↦ absurd h hne, fun h ↦ absurd h.1 hvalid⟩,
      fun _ ↦ .inl rfl⟩
    · rw [hfault] at h
      omega
    · rw [hfault] at h
      omega
  | @found n dst' hsrc hlt hnul hn hroom hdst =>
    have htop := userTop_toNat
    have hint : (BitVec.ofNat 64 n).toInt = n := by
      rw [BitVec.toInt_eq_toNat_of_lt, BitVec.toNat_ofNat, Nat.mod_eq_of_lt (by omega)]
      rw [BitVec.toNat_ofNat, Nat.mod_eq_of_lt (by omega)]
      omega
    have hsign : ∀ e : Word, e.toInt < 0 → BitVec.ofNat 64 n ≠ e := by
      rintro e hneg rfl
      omega
    refine ⟨fun i hi ↦ ?_, fun m ↦ ⟨fun h ↦ ?_, fun h ↦ ?_⟩, fun m h i hi ↦ ?_, ⟨fun h ↦ ?_, ?_⟩,
      ⟨fun h ↦ ?_, ?_⟩, fun h ↦ ?_⟩
    · exact (hdst i).trans (if_neg (by omega))
    · obtain rfl : n = m := by exact_mod_cast hint.symm.trans h
      exact ⟨⟨hsrc, hlt⟩, hnul, hn, hroom⟩
    · rw [h.2.1.unique hnul]
      exact hint
    · obtain rfl : n = m := by exact_mod_cast hint.symm.trans h
      exact (hdst i).trans (if_pos hi)
    · exact absurd h (hsign efault (by omega))
    · rintro ((h0 | hle) | ⟨-, hno⟩)
      · exact absurd h0 hsrc
      · exact absurd hle (BitVec.not_le.mpr hlt)
      · exact absurd hnul.1 (hno n hroom)
    · exact absurd h (hsign enametoolong (by omega))
    · rintro ⟨-, -, hno⟩
      exact absurd hnul.1 (hno n hn)
    · rw [hint] at h
      omega
  | ranOff hsrc hlt hoff hno hkeep =>
    refine ⟨hkeep, fun n ↦ ⟨fun h ↦ ?_, fun h ↦ absurd h.2.1.1 (hno n h.2.2.2)⟩, fun n h ↦ ?_,
      ⟨fun _ ↦ .inr ⟨hoff, hno⟩, fun _ ↦ rfl⟩, ⟨fun h ↦ absurd h hne, fun h ↦ ?_⟩, fun _ ↦ .inl rfl⟩
    · rw [hfault] at h
      omega
    · rw [hfault] at h
      omega
    · exact absurd h.2.1 (Nat.not_le.mpr hoff)
  | tooLong hsrc hlt hle hno hkeep =>
    refine ⟨hkeep, fun n ↦ ⟨fun h ↦ ?_, fun h ↦ absurd h.2.1.1 (hno n h.2.2.1)⟩, fun n h ↦ ?_,
      ⟨fun h ↦ absurd h.symm hne, ?_⟩, ⟨fun _ ↦ ⟨⟨hsrc, hlt⟩, hle, hno⟩, fun _ ↦ rfl⟩,
      fun _ ↦ .inr rfl⟩
    · rw [hlong] at h
      omega
    · rw [hlong] at h
      omega
    · rintro ((h0 | htop) | ⟨hoff, -⟩)
      · exact absurd h0 hsrc
      · exact absurd htop (BitVec.not_le.mpr hlt)
      · exact absurd hle (Nat.not_le.mpr hoff)

def letterAt : Word → BitVec 8 := fun va ↦ if va = 0x400001#64 then 0#8 else 0x61#8

theorem letterAt_nulAt : NulAt letterAt 0x400000#64 1 := ⟨by decide, by decide⟩

theorem copy_string_letter : 256#64 ≠ 0#64 ∧
    (copyStringFromUserTraced letterAt 0x400000#64 256#64 fun _ ↦ 0#8).val.1.toInt = (1 : ℕ) :=
  have hmax : 256#64 ≠ 0#64 := by decide
  ⟨hmax, ((copy_string_from_user_exact letterAt 0x400000#64 hmax fun _ ↦ 0#8).2.2.1 1).mpr
    ⟨by decide, letterAt_nulAt, by decide, by decide⟩⟩

end SeedOS.System
