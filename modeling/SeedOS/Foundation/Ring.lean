import Mathlib.Data.Nat.ModEq
import Mathlib.Logic.Function.Basic

namespace SeedOS.Foundation

open Function

variable {α : Type*} {n : ℕ}

section Queue

/-- A ring of `n` slots holds the queue `q`, which begins at slot `tail` and ends before slot
`head`. One slot at least is not in use. -/
structure Queued (n : ℕ) (slots : ℕ → α) (head tail : ℕ) (q : List α) : Prop where
  tail_lt : tail < n
  length_lt : q.length < n
  head_eq : head = (tail + q.length) % n
  slot : ∀ k a, q[k]? = some a → slots ((tail + k) % n) = a

namespace Queued

variable {slots : ℕ → α} {head tail : ℕ} {q : List α} {a : α}

theorem empty (hn : 0 < n) (slots : ℕ → α) : Queued n slots 0 0 [] where
  tail_lt := hn
  length_lt := hn
  head_eq := by simp
  slot k a h := by simp at h

theorem offset_inj {j k : ℕ} (hj : j < n) (hk : k < n) (h : (tail + j) % n = (tail + k) % n) :
    j = k :=
  Nat.ModEq.eq_of_lt_of_lt (Nat.ModEq.add_left_cancel' tail h) hj hk

theorem empty_iff (h : Queued n slots head tail q) : head = tail ↔ q = [] := by
  have htail : (tail + 0) % n = tail := Nat.mod_eq_of_lt h.tail_lt
  rw [h.head_eq, ← List.length_eq_zero_iff]
  constructor
  · intro heq
    exact offset_inj h.length_lt (Nat.zero_lt_of_lt h.tail_lt) (heq.trans htail.symm)
  · intro h0
    rw [h0, htail]

theorem full_iff (h : Queued n slots head tail q) : (head + 1) % n = tail ↔ q.length + 1 = n := by
  have htail : (tail + 0) % n = tail := Nat.mod_eq_of_lt h.tail_lt
  rw [h.head_eq, Nat.mod_add_mod, Nat.add_assoc]
  constructor
  · intro heq
    by_contra hne
    have hlt := h.length_lt
    have h0 := offset_inj (show q.length + 1 < n by omega) (Nat.zero_lt_of_lt h.tail_lt)
      (heq.trans htail.symm)
    omega
  · intro hfull
    rw [hfull, Nat.add_mod_right, Nat.mod_eq_of_lt h.tail_lt]

theorem push (h : Queued n slots head tail q) (hroom : q.length + 1 ≠ n) (a : α) :
    Queued n (update slots head a) ((head + 1) % n) tail (q ++ [a]) where
  tail_lt := h.tail_lt
  length_lt := by
    have hlt := h.length_lt
    rw [List.length_append, List.length_singleton]
    omega
  head_eq := by
    rw [h.head_eq, Nat.mod_add_mod, List.length_append, List.length_singleton, Nat.add_assoc]
  slot k b hk := by
    have hlt := h.length_lt
    rcases Nat.lt_trichotomy k q.length with hlt' | rfl | hgt
    · have hne : (tail + k) % n ≠ head := by
        rw [h.head_eq]
        intro heq
        have := offset_inj (by omega) hlt heq
        omega
      rw [update_of_ne hne]
      exact h.slot k b (by rwa [List.getElem?_append_left hlt'] at hk)
    · rw [← h.head_eq, update_self]
      simpa using hk
    · rw [List.getElem?_eq_none (by simp; omega)] at hk
      cases hk

theorem front (h : Queued n slots head tail (a :: q)) : slots tail = a := by
  have hslot := h.slot 0 a rfl
  rwa [Nat.add_zero, Nat.mod_eq_of_lt h.tail_lt] at hslot

theorem pop (h : Queued n slots head tail (a :: q)) :
    Queued n slots head ((tail + 1) % n) q where
  tail_lt := Nat.mod_lt _ (Nat.zero_lt_of_lt h.tail_lt)
  length_lt := Nat.lt_of_succ_lt h.length_lt
  head_eq := by
    rw [h.head_eq, List.length_cons, Nat.mod_add_mod, Nat.add_assoc, Nat.add_comm 1]
  slot k b hk := by
    rw [Nat.mod_add_mod, Nat.add_assoc, Nat.add_comm 1]
    exact h.slot (k + 1) b hk

end Queued

end Queue

section Fifo

inductive FifoOp (α : Type*)
  | put (a : α) (accepted : Bool)
  | get (result : Option α)
  | nonempty (answer : Bool)

def accepted : List (FifoOp α) → List α :=
  List.filterMap fun
    | .put a true => some a
    | _ => none

def gets : List (FifoOp α) → List (Option α) :=
  List.filterMap fun
    | .get result => some result
    | _ => none

/-- The outcomes are those of a queue for `cap` elements that is empty at first and holds `q` at
the end. -/
inductive Fifo (cap : ℕ) : List (FifoOp α) → List α → Prop
  | start : Fifo cap [] []
  | accept {ops : List (FifoOp α)} {q : List α} (a : α) :
      Fifo cap ops q → q.length < cap → Fifo cap (ops ++ [.put a true]) (q ++ [a])
  | drop {ops : List (FifoOp α)} {q : List α} (a : α) :
      Fifo cap ops q → q.length = cap → Fifo cap (ops ++ [.put a false]) q
  | empty {ops : List (FifoOp α)} : Fifo cap ops [] → Fifo cap (ops ++ [.get none]) []
  | take {ops : List (FifoOp α)} {a : α} {q : List α} :
      Fifo cap ops (a :: q) → Fifo cap (ops ++ [.get (some a)]) q
  | ask {ops : List (FifoOp α)} {q : List α} {answer : Bool} :
      Fifo cap ops q → (answer = true ↔ q ≠ []) → Fifo cap (ops ++ [.nonempty answer]) q

theorem Fifo.in_order {cap : ℕ} {ops : List (FifoOp α)} {q : List α} (h : Fifo cap ops q) :
    (gets ops).filterMap id ++ q = accepted ops := by
  induction h with
  | start => rfl
  | accept a _ _ ih => simpa [gets, accepted, ← List.append_assoc] using ih
  | drop a _ _ ih => simpa [gets, accepted] using ih
  | empty _ ih => simpa [gets, accepted] using ih
  | take _ ih => simpa [gets, accepted] using ih
  | ask _ _ ih => simpa [gets, accepted] using ih

end Fifo

section Recent

variable {β : Type*} {R : β → α → Prop}

/-- The slot that was filled `k` entries before the last one, if `next` is filled next. -/
def slotBack (n next k : ℕ) : ℕ := if k < next then next - 1 - k else next + n - 1 - k

theorem slotBack_succ {next k : ℕ} (hnext : next < n) (hk : k + 1 < n) :
    slotBack n ((next + 1) % n) (k + 1) = slotBack n next k := by
  unfold slotBack
  rcases (show next + 1 < n ∨ next + 1 = n by omega) with hlt | heq
  · rw [Nat.mod_eq_of_lt hlt]
    split_ifs <;> omega
  · rw [heq, Nat.mod_self]
    split_ifs <;> omega

theorem slotBack_zero {next : ℕ} (hnext : next < n) : slotBack n ((next + 1) % n) 0 = next := by
  unfold slotBack
  rcases (show next + 1 < n ∨ next + 1 = n by omega) with hlt | heq
  · rw [Nat.mod_eq_of_lt hlt]
    split_ifs <;> omega
  · rw [heq, Nat.mod_self]
    split_ifs <;> omega

theorem slotBack_ne {next k : ℕ} (hk : k + 1 < n) : slotBack n next k ≠ next := by
  unfold slotBack
  split_ifs <;> omega

/-- A ring of `n` slots holds the last entries of `past`, whose newest comes first. -/
structure Recent (R : β → α → Prop) (n : ℕ) (slots : ℕ → β) (next count : ℕ) (past : List α) :
    Prop where
  next_lt : next < n
  count_eq : count = min past.length n
  slot : ∀ k a, k < n → past[k]? = some a → R (slots (slotBack n next k)) a

theorem Recent.empty (hn : 0 < n) (slots : ℕ → β) : Recent R n slots 0 0 [] where
  next_lt := hn
  count_eq := by simp
  slot k a _ h := by simp at h

theorem Recent.push {slots : ℕ → β} {next count : ℕ} {past : List α}
    (h : Recent R n slots next count past) {b : β} {a : α} (hb : R b a) :
    Recent R n (update slots next b) ((next + 1) % n) (if count < n then count + 1 else count)
      (a :: past) where
  next_lt := Nat.mod_lt _ (Nat.zero_lt_of_lt h.next_lt)
  count_eq := by
    rw [h.count_eq, List.length_cons]
    split_ifs <;> omega
  slot k a' hk ha' := by
    cases k with
    | zero =>
      obtain rfl : a = a' := Option.some.inj ha'
      rw [slotBack_zero h.next_lt, update_self]
      exact hb
    | succ k =>
      rw [slotBack_succ h.next_lt hk, update_of_ne (slotBack_ne hk)]
      exact h.slot k a' (by omega) ha'

end Recent

end SeedOS.Foundation
