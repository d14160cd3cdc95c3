import Mathlib.Data.List.Basic

namespace SeedOS.Foundation

variable {A : Type*}

/-- A singly linked list that ends in `NULL`: `next a` is what the link of node `a`
holds, if `a` is a node at all, and `l` are the nodes in order. -/
inductive Chain (next : A → Option (Option A)) : Option A → List A → Prop
  | nil : Chain next none []
  | cons {a : A} {h : Option A} {l : List A} (ha : next a = some h) (hl : Chain next h l) :
      Chain next (some a) (a :: l)

/-- Where the pointer to a node is stored: in the head, or in the link of a node. -/
inductive Slot (A : Type*)
  | head
  | link (a : A)
  deriving DecidableEq

/-- Walk with a pointer to a slot until the slot points to `x`. The walk is stuck if
it meets something that is not a node, and ends with no slot at the end of the list. -/
def findSlot [DecidableEq A] (next : A → Option (Option A)) (x : A) :
    ℕ → Slot A → Option A → Option (Option (Slot A))
  | 0, _, _ => none
  | _ + 1, _, none => some none
  | fuel + 1, slot, some a =>
    if a = x then some (some slot) else (next a).bind (findSlot next x fuel (.link a))

def findNode (next : A → Option (Option A)) (test : A → Bool) :
    ℕ → Option A → Option (Option A)
  | 0, _ => none
  | _ + 1, none => some none
  | fuel + 1, some a =>
    if test a then some (some a) else (next a).bind (findNode next test fuel)

/-- The slot that leads to the node after `pre`. -/
def slotAfter (slot : Slot A) : List A → Slot A
  | [] => slot
  | a :: pre => slotAfter (.link a) pre

namespace Chain

variable {next next' : A → Option (Option A)} {h h' t : Option A} {a x : A} {l l' pre post : List A}

theorem eq_nil (hc : Chain next none l) : l = [] := by
  cases hc
  rfl

theorem concat (hc : Chain next h (l ++ [a])) (hl : ∀ b ∈ l, next' b = next b)
    (ha : next' a = some (some x)) (hx : next' x = some none) :
    Chain next' h (l ++ [a] ++ [x]) := by
  induction l generalizing h with
  | nil =>
    cases hc with
    | cons _ hl => exact .cons ha (.cons hx .nil)
  | cons b l ih =>
    cases hc with
    | cons hb hc =>
      refine .cons ?_ (ih hc fun c hc ↦ hl c (List.mem_cons_of_mem _ hc))
      rw [hl b List.mem_cons_self, hb]

section

variable (hc : Chain next h l)
include hc

theorem unique (hc' : Chain next h l') : l = l' := by
  induction hc generalizing l' with
  | nil =>
    cases hc'
    rfl
  | cons ha _ ih =>
    cases hc' with
    | cons ha' hl' =>
      rw [ha] at ha'
      obtain rfl := Option.some.inj ha'
      rw [ih hl']

theorem node (ha : a ∈ l) : ∃ t, next a = some t := by
  induction hc with
  | nil => simp at ha
  | cons hb _ ih =>
    rcases List.mem_cons.mp ha with rfl | ha
    · exact ⟨_, hb⟩
    · exact ih ha

theorem suffix (ha : a ∈ l) :
    ∃ l', Chain next (some a) l' ∧ l'.length ≤ l.length := by
  induction hc with
  | nil => simp at ha
  | cons hb hl ih =>
    rcases List.mem_cons.mp ha with rfl | ha
    · exact ⟨_, .cons hb hl, Nat.le_refl _⟩
    · obtain ⟨l', hl', hle⟩ := ih ha
      exact ⟨l', hl', Nat.le_succ_of_le hle⟩

theorem nodup : l.Nodup := by
  induction hc with
  | nil => exact List.nodup_nil
  | cons ha hl ih =>
    refine List.nodup_cons.mpr ⟨fun hmem ↦ ?_, ih⟩
    obtain ⟨l', hl', hle⟩ := hl.suffix hmem
    rw [← (Chain.cons ha hl).unique hl', List.length_cons] at hle
    omega

theorem congr (hn : ∀ a ∈ l, next' a = next a) : Chain next' h l := by
  induction hc with
  | nil => exact .nil
  | cons ha _ ih =>
    refine .cons ((hn _ List.mem_cons_self).trans ha) (ih fun b hb ↦ hn b (List.mem_cons_of_mem _ hb))

theorem findNode_eq (test : A → Bool) {fuel : ℕ} {r : Option A}
    (hr : findNode next test fuel h = some r) : r = l.find? test := by
  induction hc generalizing fuel with
  | nil =>
    cases fuel with
    | zero => simp [findNode] at hr
    | succ fuel => exact (Option.some.inj hr).symm
  | @cons a h l ha _ ih =>
    cases fuel with
    | zero => simp [findNode] at hr
    | succ fuel =>
      rw [findNode] at hr
      rw [List.find?_cons]
      cases ht : test a with
      | true =>
        rw [ht, if_pos rfl] at hr
        exact (Option.some.inj hr).symm
      | false =>
        rw [ht, if_neg (by simp), ha] at hr
        exact ih hr

theorem findNode_some (test : A → Bool) {fuel : ℕ} (hfuel : l.length < fuel) :
    findNode next test fuel h = some (l.find? test) := by
  induction hc generalizing fuel with
  | nil =>
    obtain ⟨fuel, rfl⟩ := Nat.exists_eq_add_one_of_ne_zero (Nat.ne_zero_of_lt hfuel)
    rfl
  | @cons a h l ha _ ih =>
    obtain ⟨fuel, rfl⟩ := Nat.exists_eq_add_one_of_ne_zero (Nat.ne_zero_of_lt hfuel)
    rw [List.length_cons, Nat.add_lt_add_iff_right] at hfuel
    rw [findNode, List.find?_cons, ha, Option.bind_some, ih hfuel]
    cases test a with
    | true => rfl
    | false => rfl

end

theorem slotAfter_ne {slot : Slot A} {c : A} (hslot : slot ≠ .link c) (hc : c ∉ pre) :
    slotAfter slot pre ≠ .link c := by
  induction pre generalizing slot with
  | nil => exact hslot
  | cons b pre ih =>
    obtain ⟨hcb, hc'⟩ := not_or.mp (List.mem_cons.not.mp hc)
    refine ih ?_ hc'
    rintro ⟨⟩
    exact hcb rfl

theorem findSlot_eq [DecidableEq A] (hc : Chain next h (pre ++ x :: post)) (hx : x ∉ pre)
    {fuel : ℕ} {slot : Slot A} {r : Option (Slot A)}
    (hr : findSlot next x fuel slot h = some r) : r = some (slotAfter slot pre) := by
  induction pre generalizing h fuel slot with
  | nil =>
    cases fuel with
    | zero => simp [findSlot] at hr
    | succ fuel =>
      cases hc
      rw [findSlot, if_pos rfl] at hr
      exact (Option.some.inj hr).symm
  | cons a pre ih =>
    obtain ⟨hxa, hx'⟩ := not_or.mp (List.mem_cons.not.mp hx)
    cases fuel with
    | zero => simp [findSlot] at hr
    | succ fuel =>
      cases hc with
      | cons ha hl =>
        rw [findSlot, if_neg (Ne.symm hxa), ha] at hr
        exact ih hl hx' hr

theorem slotAfter_concat (slot : Slot A) : slotAfter slot (pre ++ [a]) = .link a := by
  induction pre generalizing slot with
  | nil => rfl
  | cons b pre ih => exact ih (.link b)

theorem slotAfter_eq_head {slot : Slot A} :
    slotAfter slot pre = .head ↔ slot = .head ∧ pre = [] := by
  induction pre generalizing slot with
  | nil => simp [slotAfter]
  | cons b pre ih => simp [slotAfter, ih]

theorem mem_of_slotAfter (h : slotAfter .head pre = .link a) : a ∈ pre := by
  by_contra ha
  exact slotAfter_ne (by simp) ha h

theorem unlink (slot : Slot A) (hc : Chain next h (pre ++ x :: post)) (hx : next x = some t)
    (hslot : ∀ a ∈ pre ++ post, slot ≠ .link a)
    (hhead : h' = if pre = [] then t else h)
    (hlink : ∀ a ∈ pre, slotAfter slot pre = .link a → next' a = some t)
    (hkeep : ∀ a ∈ pre ++ post, slotAfter slot pre ≠ .link a → next' a = next a) :
    Chain next' h' (pre ++ post) := by
  induction pre generalizing h h' slot with
  | nil =>
    cases hc with
    | cons ha hl =>
      rw [hx] at ha
      obtain rfl := Option.some.inj ha
      rw [hhead, if_pos rfl]
      exact hl.congr fun b hb ↦ hkeep b hb (hslot b hb)
  | cons a pre ih =>
    have hnd := hc.nodup
    rw [List.cons_append, List.nodup_cons, List.mem_append, List.mem_cons] at hnd
    have ha' : a ∉ pre ++ post := by
      rw [List.mem_append]
      tauto
    cases hc with
    | @cons _ m _ ha hl =>
      rw [hhead, if_neg (by simp)]
      have hrest : Chain next' (if pre = [] then t else m) (pre ++ post) := by
        refine ih (.link a) hl ?_ rfl (fun b hb ↦ hlink b (List.mem_cons_of_mem _ hb))
          fun b hb ↦ hkeep b (List.mem_cons_of_mem _ hb)
        rintro b hb ⟨⟩
        exact ha' hb
      refine .cons ?_ hrest
      by_cases hp : pre = []
      · subst hp
        rw [if_pos rfl]
        exact hlink a List.mem_cons_self rfl
      · rw [if_neg hp, ← ha]
        refine hkeep a List.mem_cons_self ?_
        obtain ⟨b, pre', rfl⟩ := List.exists_cons_of_ne_nil hp
        show slotAfter (.link b) pre' ≠ .link a
        refine slotAfter_ne ?_ fun hc ↦ ha' (by simp [hc])
        rintro ⟨⟩
        exact ha' (by simp)

end Chain

end SeedOS.Foundation
