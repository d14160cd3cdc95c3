import SeedOS.Thread.ThreadList
import Mathlib.Data.List.Flatten

namespace SeedOS.Thread.ThreadList

open Foundation Function

section Links

variable {s : ThreadList} {l pre post : List ThreadPtr} {a z p : ThreadPtr} {h : Option ThreadPtr}

theorem chain_head (hc : Chain s.nextOf h l) : h = l.head? := by
  cases hc with
  | nil => rfl
  | cons _ _ => rfl

theorem nextOf_eq (hc : Chain s.nextOf h (pre ++ a :: post)) : s.nextOf a = some post.head? := by
  induction pre generalizing h with
  | nil =>
    cases hc with
    | cons ha hl => rw [ha, chain_head hl]
  | cons b pre ih =>
    cases hc with
    | cons _ hl => exact ih hl

theorem next_eq {t : Tcb} (hc : Chain s.nextOf h (pre ++ a :: post)) (ha : s.tcb a = some t) :
    t.next = post.head? := by
  have hnext := nextOf_eq hc
  rw [nextOf, ha] at hnext
  exact Option.some.inj hnext

theorem lastThread_eq (hc : Chain s.nextOf (some a) (l ++ [z])) {fuel : ℕ}
    (hfuel : l.length < fuel) : s.lastThread fuel a = some z := by
  induction l generalizing a fuel with
  | nil =>
    obtain ⟨fuel, rfl⟩ := Nat.exists_eq_add_one_of_ne_zero (Nat.ne_zero_of_lt hfuel)
    cases hc with
    | cons ha hl =>
      cases hl
      obtain ⟨t, ht, hnext⟩ := Option.map_eq_some_iff.mp ha
      simp [lastThread, ht, hnext]
  | cons b l ih =>
    obtain ⟨fuel, rfl⟩ := Nat.exists_eq_add_one_of_ne_zero (Nat.ne_zero_of_lt hfuel)
    rw [List.length_cons, Nat.add_lt_add_iff_right] at hfuel
    cases hc with
    | cons ha hl =>
      obtain ⟨t, ht, rfl⟩ := Option.map_eq_some_iff.mp ha
      obtain ⟨q, hq⟩ : ∃ q, t.next = some q := by
        have hhead := chain_head hl
        cases l with
        | nil => exact ⟨_, hhead⟩
        | cons c l => exact ⟨_, hhead⟩
      simp only [lastThread, ht, Option.bind_some, hq]
      exact ih (hq ▸ hl) hfuel

theorem length_lt_loopFuel (hl : l.Nodup) : l.length < loopFuel := by
  have hcard := (hl.map (f := BitVec.toFin) fun _ _ ↦ BitVec.eq_of_toFin_eq).length_le_card
  rw [List.length_map, Fintype.card_fin] at hcard
  exact Nat.lt_succ_of_le hcard

end Links

namespace Inv

variable {s s' : ThreadList} {l pre post : List ThreadPtr} {p q prev iter : ThreadPtr}

theorem tcb_of_mem (h : Inv s l) (hp : p ∈ l) : ∃ t, s.tcb p = some t :=
  Option.isSome_iff_exists.mp ((h.alive p).mpr hp)

theorem mem_heap (h : Inv s l) (hp : p ∈ l) (hne : p ≠ genesis) : p ∈ s.heap :=
  h.heap.mem_iff.mpr (List.mem_flatMap.mpr ⟨p, hp, mem_blocks_self hne⟩)

theorem fresh_not_mem (h : Inv s l) (hp : s.Fresh p) : p ∉ l :=
  fun hmem ↦ hp.2 (h.mem_heap hmem hp.1)

theorem fresh_tcb (h : Inv s l) (hp : s.Fresh p) : s.tcb p = none := by
  rw [← Option.not_isSome_iff_eq_none, h.alive]
  exact h.fresh_not_mem hp

theorem cons (h : Inv s l) : ∃ others, l = genesis :: others := by
  have hhead := chain_head h.chain
  cases l with
  | nil => cases hhead
  | cons a others =>
    obtain rfl := Option.some.inj hhead
    exact ⟨others, rfl⟩

theorem ne_genesis (h : Inv s (pre ++ prev :: iter :: post)) : iter ≠ genesis := by
  have hnd := h.chain.nodup
  have hhead := chain_head h.chain
  rintro rfl
  cases pre with
  | nil =>
    obtain rfl := Option.some.inj hhead
    exact (List.nodup_cons.mp hnd).1 List.mem_cons_self
  | cons a pre =>
    obtain rfl := Option.some.inj hhead
    refine (List.nodup_cons.mp hnd).1 ?_
    exact List.mem_append_right _ (List.mem_cons_of_mem _ List.mem_cons_self)

theorem flatMap_perm (f : ThreadPtr → List ThreadPtr) :
    ((pre ++ prev :: iter :: post).flatMap f).Perm
      (f iter ++ (pre ++ prev :: post).flatMap f) := by
  have hmove : (pre ++ prev :: iter :: post).Perm (iter :: (pre ++ prev :: post)) := by
    have h : (pre ++ [prev] ++ iter :: post).Perm (iter :: (pre ++ [prev] ++ post)) :=
      List.perm_middle
    simpa only [List.append_assoc, List.singleton_append] using h
  exact hmove.flatMap_right f

theorem of_sublist {l' : List ThreadPtr} (h : Inv s l) (hsub : l'.Sublist l)
    (hchain : Chain s'.nextOf (some genesis) l') (halive : ∀ p, (s'.tcb p).isSome ↔ p ∈ l')
    (hheap : s'.heap.Perm (l'.flatMap s.blocks))
    (hsame : ∀ p ∈ l', s'.blocks p = s.blocks p ∧ s'.idOf p = s.idOf p)
    (hcurrent : s'.current = s.current) (hgiven : s'.given = s.given)
    (hnext : s'.nextThreadId = s.nextThreadId) : Inv s' l' := by
  have hblocks : l'.flatMap s'.blocks = l'.flatMap s.blocks :=
    List.flatMap_congr fun p hp ↦ (hsame p hp).1
  have hflat := hsub.flatMap s.blocks
  refine ⟨hchain, halive, hblocks ▸ hheap, hblocks ▸ h.distinct.sublist hflat, fun hg ↦ ?_,
    hcurrent ▸ h.current, fun hlt ↦ ?_, fun p hp ↦ ?_, ?_, ?_⟩
  · exact h.outside (h.heap.mem_iff.mpr (hflat.subset (hheap.mem_iff.mp hg)))
  · rw [hgiven] at hlt
    rw [List.map_congr_left fun q hq ↦ congrArg BitVec.toNat (hsame q hq).2]
    exact (h.ids hlt).sublist (hsub.map _)
  · rw [(hsame p hp).2, hgiven]
    exact h.bound p (hsub.subset hp)
  · rw [hnext, hgiven]
    exact h.nextId
  · rw [hgiven]
    exact h.given

section Remove

theorem sublist_remove : (pre ++ prev :: post).Sublist (pre ++ prev :: iter :: post) :=
  List.Sublist.append_left (.cons_cons _ (.cons _ (.refl _))) _

variable (h : Inv s (pre ++ prev :: iter :: post))
include h

theorem distinct_remove : (s.blocks iter ++ (pre ++ prev :: post).flatMap s.blocks).Nodup :=
  (flatMap_perm s.blocks).nodup_iff.mp h.distinct

theorem not_mem_blocks (hq : q ∈ pre ++ prev :: post) : q ∉ s.blocks iter := by
  intro hmem
  by_cases hg : q = genesis
  · refine h.outside (h.heap.mem_iff.mpr ?_)
    rw [(flatMap_perm s.blocks).mem_iff]
    exact List.mem_append_left _ (hg ▸ hmem)
  · exact List.disjoint_of_nodup_append h.distinct_remove hmem
      (List.mem_flatMap.mpr ⟨q, hq, mem_blocks_self hg⟩)

theorem coreOf_remove (hs' : s.setNext prev post.head? = some s') (hq : q ∈ pre ++ prev :: post) :
    ((s.blocks iter).foldl kfree s').coreOf q = s.coreOf q := by
  rw [← coreOf_setNext hs' q]
  unfold coreOf
  rw [foldl_kfree_tcb, if_neg (h.not_mem_blocks hq)]

theorem nextOf_remove (hs' : s.setNext prev post.head? = some s') (hq : q ∈ pre ++ prev :: post) :
    ((s.blocks iter).foldl kfree s').nextOf q = if q = prev then some post.head? else s.nextOf q := by
  obtain ⟨u, hu, rfl⟩ := Option.map_eq_some_iff.mp hs'
  unfold nextOf
  rw [foldl_kfree_tcb, if_neg (h.not_mem_blocks hq)]
  split_ifs with hqp
  · simp [hqp]
  · simp only [update_of_ne hqp]

theorem chain_remove (hs' : s.setNext prev post.head? = some s') :
    Chain ((s.blocks iter).foldl kfree s').nextOf (some genesis) (pre ++ prev :: post) := by
  have hc := h.chain
  have hnext := fun q hq ↦ h.nextOf_remove hs' (q := q) hq
  rw [List.append_cons] at hc hnext ⊢
  refine hc.unlink .head (nextOf_eq hc) (fun _ _ ↦ nofun) ?_ ?_ ?_
  · rw [if_neg (List.append_ne_nil_of_right_ne_nil _ (List.cons_ne_nil _ _))]
  · intro q hq hslot
    rw [Chain.slotAfter_concat] at hslot
    cases hslot
    rw [hnext prev (List.mem_append_left _ hq), if_pos rfl]
  · intro q hq hslot
    rw [Chain.slotAfter_concat] at hslot
    rw [hnext q hq, if_neg]
    rintro rfl
    exact hslot rfl

theorem remove (hs' : s.setNext prev post.head? = some s') :
    Inv ((s.blocks iter).foldl kfree s') (pre ++ prev :: post) := by
  obtain ⟨hheap, -, hcurrent, hgiven, hnextId⟩ := setNext_frame hs'
  obtain ⟨hcurrent', hgiven', hnextId'⟩ := @foldl_kfree_frame s' (s.blocks iter)
  refine h.of_sublist sublist_remove (h.chain_remove hs') (fun q ↦ ?_)
    (foldl_kfree_heap (hheap ▸ h.heap.trans (flatMap_perm s.blocks))) (fun q hq ↦ ?_)
    (hcurrent'.trans hcurrent) (hgiven'.trans hgiven) (hnextId'.trans hnextId)
  · by_cases hq : q ∈ s.blocks iter
    · rw [foldl_kfree_tcb, if_pos hq]
      simp only [Option.isSome_none, Bool.false_eq_true, false_iff]
      exact fun hmem ↦ h.not_mem_blocks hmem hq
    · have hne : q ≠ iter := by
        rintro rfl
        exact hq (mem_blocks_self h.ne_genesis)
      rw [foldl_kfree_tcb, if_neg hq, isSome_congr (coreOf_setNext hs' q), h.alive]
      simp [hne]
  · have hcore := h.coreOf_remove hs' hq
    exact ⟨blocks_congr hcore, idOf_congr hcore⟩

end Remove

end Inv

/-- What `kthread_reap`, which started in `s₀`, makes of the threads of a list. -/
structure Reaped (s₀ s s' : ThreadList) (before after : List ThreadPtr) : Prop where
  inv : Inv s' after
  freed : s'.freed = s.freed ++ (before.filter s₀.isExited).flatMap s₀.blocks
  kept : ∀ p ∈ after, s'.coreOf p = s₀.coreOf p
  nextId : s'.nextThreadId = s.nextThreadId

theorem blocks_of_tcb {s : ThreadList} {p : ThreadPtr} {t : Tcb} (ht : s.tcb p = some t)
    (hp : p ≠ genesis) : s.blocks p = t.stackBase.toList ++ [p] := by
  rw [blocks, if_neg hp, ht]
  rfl

theorem reapLoop_spec {s₀ s : ThreadList} {pre rest : List ThreadPtr} {prev : ThreadPtr} {fuel : ℕ}
    (h : Inv s (pre ++ prev :: rest))
    (hcore : ∀ q ∈ pre ++ prev :: rest, s.coreOf q = s₀.coreOf q) (hfuel : rest.length < fuel) :
    ∃ s', reapLoop fuel prev rest.head? s = some s' ∧
      Reaped s₀ s s' rest (pre ++ prev :: rest.filter fun p ↦ !s₀.isExited p) := by
  induction rest generalizing s pre prev fuel with
  | nil =>
    obtain ⟨fuel, rfl⟩ := Nat.exists_eq_add_one_of_ne_zero (Nat.ne_zero_of_lt hfuel)
    exact ⟨s, rfl, h, (List.append_nil _).symm, hcore, rfl⟩
  | cons iter post ih =>
    obtain ⟨fuel, rfl⟩ := Nat.exists_eq_add_one_of_ne_zero (Nat.ne_zero_of_lt hfuel)
    rw [List.length_cons, Nat.add_lt_add_iff_right] at hfuel
    have hiter : iter ∈ pre ++ prev :: iter :: post :=
      List.mem_append_right _ (List.mem_cons_of_mem _ List.mem_cons_self)
    have hprev : prev ∈ pre ++ prev :: iter :: post := List.mem_append_right _ List.mem_cons_self
    obtain ⟨t, ht⟩ := h.tcb_of_mem hiter
    have hsplit := h
    rw [List.append_cons] at hsplit
    have hexited : s₀.isExited iter = decide (t.state = .exited) := by
      rw [← isExited_congr (hcore iter hiter), isExited, ht]
      simp
    rw [List.head?_cons, reapLoop, ht, Option.bind_some, next_eq hsplit.chain ht]
    by_cases hstate : t.state = .exited
    · -- `iter` is unlinked and freed, and `prev` stays
      obtain ⟨u, hu⟩ := h.tcb_of_mem hprev
      obtain ⟨s₁, hs₁⟩ : ∃ s₁, s.setNext prev post.head? = some s₁ := by
        rw [setNext, hu]
        exact ⟨_, rfl⟩
      have hfree : (t.stackBase.elim s₁ s₁.kfree).kfree iter = (s.blocks iter).foldl kfree s₁ := by
        rw [blocks_of_tcb ht h.ne_genesis]
        cases t.stackBase with
        | none => rfl
        | some b => rfl
      rw [if_pos hstate, hs₁, Option.bind_some]
      dsimp only
      rw [hfree]
      obtain ⟨s', hs', hinv, hfreed, hkept, hnextId⟩ := ih (h.remove hs₁) (fun q hq ↦
        (h.coreOf_remove hs₁ hq).trans (hcore q (Inv.sublist_remove.subset hq))) hfuel
      have hexited' : s₀.isExited iter = true := by rw [hexited, hstate, decide_eq_true rfl]
      rw [List.filter_cons_of_neg (by rw [hexited']; exact Bool.false_ne_true)]
      refine ⟨s', hs', hinv, ?_, hkept,
        hnextId.trans (foldl_kfree_frame.2.2.trans (setNext_frame hs₁).2.2.2.2)⟩
      rw [hfreed, foldl_kfree_freed, (setNext_frame hs₁).2.1, blocks_congr (hcore iter hiter),
        List.filter_cons_of_pos hexited', List.flatMap_cons, List.append_assoc]
    · -- `iter` stays and becomes `prev`
      rw [if_neg hstate]
      obtain ⟨s', hs', hinv, hfreed, hkept, hnextId⟩ := ih hsplit (by rwa [← List.append_cons]) hfuel
      have hexited' : s₀.isExited iter = false := by rw [hexited, decide_eq_false hstate]
      rw [← List.append_cons] at hinv hkept
      rw [List.filter_cons_of_pos (by rw [hexited', Bool.not_false])]
      refine ⟨s', hs', hinv, ?_, hkept, hnextId⟩
      rwa [List.filter_cons_of_neg (by rw [hexited']; exact Bool.false_ne_true)]

theorem kthreadReap_spec {s : ThreadList} {others : List ThreadPtr}
    (h : Inv s (genesis :: others)) :
    ∃ s', s.kthreadReap = some s' ∧
      Reaped s s s' others (genesis :: others.filter fun p ↦ !s.isExited p) := by
  obtain ⟨t, ht⟩ := h.tcb_of_mem List.mem_cons_self
  have hnext : t.next = others.head? :=
    next_eq (show Chain s.nextOf (some genesis) ([] ++ genesis :: others) from h.chain) ht
  have hlen := length_lt_loopFuel h.chain.nodup
  rw [List.length_cons] at hlen
  rw [kthreadReap, ht, Option.bind_some, hnext]
  exact reapLoop_spec (show Inv s ([] ++ genesis :: others) from h) (fun _ _ ↦ rfl) (by omega)

theorem Inv.next_id_gt {s : ThreadList} {l : List ThreadPtr} (h : Inv s l)
    (hlt : s.given.length + 1 < 2 ^ 64) {p : ThreadPtr} (hp : p ∈ l) :
    (s.idOf p).toNat < s.nextThreadId.toNat := by
  have hbound := h.bound p hp
  rw [h.nextId, BitVec.toNat_ofNat, Nat.mod_eq_of_lt hlt]
  omega

theorem given_concat {n : ℕ} {given : List (BitVec 64)}
    (hgiven : given = (List.range n).map fun i ↦ BitVec.ofNat 64 (i + 1)) :
    given ++ [BitVec.ofNat 64 (n + 1)] =
      (List.range (n + 1)).map fun i ↦ BitVec.ofNat 64 (i + 1) := by
  rw [hgiven, List.range_succ, List.map_append, List.map_singleton]

theorem Inv.create_fails {s : ThreadList} {l : List ThreadPtr} {p : ThreadPtr} (h : Inv s l)
    (hp : s.Fresh p) : Inv (kfree { s with
      nextThreadId := s.nextThreadId + 1#64
      heap := p :: s.heap
      given := s.given ++ [s.nextThreadId] } p) l := by
  have htcb : update s.tcb p none = s.tcb := by rw [← h.fresh_tcb hp, update_eq_self]
  have hheap : (p :: s.heap).erase p = s.heap := List.erase_cons_head _ _
  unfold kfree
  dsimp only
  rw [htcb, hheap]
  refine ⟨h.chain, h.alive, h.heap, h.distinct, h.outside, h.current, fun hlt ↦ ?_, fun q hq ↦ ?_,
    ?_, ?_⟩
  · rw [List.length_append] at hlt
    exact h.ids (Nat.lt_of_le_of_lt (Nat.le_add_right _ _) hlt)
  · rw [List.length_append]
    exact Nat.le_add_right_of_le (h.bound q hq)
  · rw [List.length_append, List.length_singleton, h.nextId, ← BitVec.ofNat_add]
  · rw [List.length_append, List.length_singleton, ← given_concat h.given, ← h.nextId]

section Create

variable {s s' : ThreadList} {l : List ThreadPtr} {p b z : ThreadPtr}

def allocated (s : ThreadList) (p b : ThreadPtr) : ThreadList :=
  { s with
    nextThreadId := s.nextThreadId + 1#64
    heap := b :: p :: s.heap
    given := s.given ++ [s.nextThreadId]
    tcb := update s.tcb p (some ⟨s.nextThreadId, .ready, some b, none⟩) }

theorem coreOf_created (hs' : (s.allocated p b).setNext z (some p) = some s') {q : ThreadPtr}
    (hq : q ≠ p) : s'.coreOf q = s.coreOf q := by
  rw [coreOf_setNext hs', coreOf, allocated, coreOf]
  simp only [update_of_ne hq]

theorem coreOf_created_self (hs' : (s.allocated p b).setNext z (some p) = some s') :
    s'.coreOf p = some (s.nextThreadId, .ready, some b) := by
  rw [coreOf_setNext hs', coreOf, allocated]
  simp

theorem tcb_created (hs' : (s.allocated p b).setNext z (some p) = some s') :
    ∃ t, s'.tcb p = some t ∧ t.id = s.nextThreadId ∧ t.stackBase = some b := by
  have hcore := coreOf_created_self hs'
  obtain ⟨t, ht, heq⟩ := Option.map_eq_some_iff.mp hcore
  exact ⟨t, ht, congrArg Prod.fst heq, congrArg (fun c ↦ c.2.2) heq⟩

theorem Inv.chain_created (h : Inv s (l ++ [z])) (hp : s.Fresh p)
    (hs' : (s.allocated p b).setNext z (some p) = some s') :
    Chain s'.nextOf (some genesis) (l ++ [z] ++ [p]) := by
  have hnd := h.chain.nodup
  have hpl := h.fresh_not_mem hp
  have hzl : z ∉ l := fun hmem ↦
    List.disjoint_of_nodup_append hnd hmem List.mem_cons_self
  have hpz : p ≠ z := by
    rintro rfl
    exact hpl (List.mem_append_right _ List.mem_cons_self)
  obtain ⟨u, hu, rfl⟩ := Option.map_eq_some_iff.mp hs'
  refine h.chain.concat (fun q hq ↦ ?_) ?_ ?_
  · have hqz : q ≠ z := by
      rintro rfl
      exact hzl hq
    have hqp : q ≠ p := by
      rintro rfl
      exact hpl (List.mem_append_left _ hq)
    simp only [nextOf, allocated, update_of_ne hqz, update_of_ne hqp]
  · simp only [nextOf, update_self, Option.map_some]
  · simp only [nextOf, allocated, update_of_ne hpz, update_self, Option.map_some]

theorem Inv.create_succeeds (h : Inv s (l ++ [z])) (hp : s.Fresh p) (hb : s.Fresh b) (hpb : p ≠ b)
    (hs' : (s.allocated p b).setNext z (some p) = some s') : Inv s' (l ++ [z] ++ [p]) := by
  have hchain := h.chain_created hp hs'
  generalize l ++ [z] = l at h hchain ⊢
  obtain ⟨t, ht, htid, hstack⟩ := tcb_created hs'
  have hcore : ∀ q ∈ l, s'.coreOf q = s.coreOf q := by
    intro q hq
    refine coreOf_created hs' ?_
    rintro rfl
    exact h.fresh_not_mem hp hq
  have hblocks : (l ++ [p]).flatMap s'.blocks = l.flatMap s.blocks ++ [b, p] := by
    rw [List.flatMap_append, List.flatMap_congr fun q hq ↦ blocks_congr (hcore q hq),
      List.flatMap_singleton, blocks_of_tcb ht hp.1, hstack]
    rfl
  have hid : s'.idOf p = s.nextThreadId := by
    rw [idOf, ht]
    exact htid
  obtain ⟨hheap, -, hcurrent, hgiven, hnextId⟩ := setNext_frame hs'
  dsimp only [allocated] at hheap hcurrent hgiven hnextId
  constructor
  case chain => exact hchain
  case alive =>
    intro q
    by_cases hq : q = p
    · rw [hq, ht]
      simp
    · rw [isSome_congr (coreOf_created hs' hq), h.alive]
      simp [hq]
  case heap =>
    rw [hblocks, hheap]
    exact (h.heap.append_left [b, p]).trans List.perm_append_comm
  case distinct =>
    rw [hblocks, List.perm_append_comm.nodup_iff, ← (h.heap.append_left [b, p]).nodup_iff]
    refine List.nodup_cons.mpr ⟨?_, List.nodup_cons.mpr ⟨hp.2, h.heap.nodup_iff.mpr h.distinct⟩⟩
    intro hmem
    rcases List.mem_cons.mp hmem with hbp | hmem
    · exact hpb hbp.symm
    · exact hb.2 hmem
  case outside =>
    rw [hheap, List.mem_cons, List.mem_cons]
    rintro (hg | hg | hg)
    · exact hb.1 hg.symm
    · exact hp.1 hg.symm
    · exact h.outside hg
  case current =>
    rw [hcurrent]
    exact h.current
  case ids =>
    intro hlt
    rw [hgiven, List.length_append, List.length_singleton] at hlt
    rw [List.map_append, List.map_singleton, List.pairwise_append, hid,
      List.map_congr_left fun q hq ↦ congrArg BitVec.toNat (idOf_congr (hcore q hq))]
    refine ⟨h.ids (by omega), List.pairwise_singleton _ _, fun i hi j hj ↦ ?_⟩
    obtain ⟨q, hq, rfl⟩ := List.mem_map.mp hi
    rw [List.mem_singleton.mp hj]
    exact h.next_id_gt hlt hq
  case bound =>
    intro q hq
    rw [hgiven, List.length_append, List.length_singleton]
    rcases List.mem_append.mp hq with hq | hq
    · rw [idOf_congr (hcore q hq)]
      exact Nat.le_add_right_of_le (h.bound q hq)
    · rw [List.mem_singleton.mp hq, hid, h.nextId, BitVec.toNat_ofNat]
      exact Nat.mod_le _ _
  case nextId =>
    rw [hnextId, hgiven, List.length_append, List.length_singleton, h.nextId, ← BitVec.ofNat_add]
  case given =>
    rw [hgiven, List.length_append, List.length_singleton, ← given_concat h.given, ← h.nextId]

end Create

theorem Inv.setState {s : ThreadList} {l : List ThreadPtr} {p : ThreadPtr} {t : Tcb} (h : Inv s l)
    (ht : s.tcb p = some t) (x : ThreadState) :
    Inv { s with tcb := update s.tcb p (some { t with state := x }) } l := by
  have hfield {α : Type} (f : Tcb → α) (hf : f { t with state := x } = f t) (q : ThreadPtr) :
      (update s.tcb p (some { t with state := x }) q).map f = (s.tcb q).map f := by
    by_cases hq : q = p
    · simp [hq, ht, hf]
    · rw [update_of_ne hq]
  refine h.of_sublist (.refl l) (h.chain.congr fun q _ ↦ hfield Tcb.next rfl q) (fun q ↦ ?_) h.heap
    (fun q _ ↦ ⟨?_, ?_⟩) rfl rfl rfl
  · rw [← h.alive, ← Option.isSome_map (f := Tcb.id), hfield Tcb.id rfl, Option.isSome_map]
  · have hstack := congrArg (Option.bind · id) (hfield Tcb.stackBase rfl q)
    simp only [Option.bind_map, Function.id_comp] at hstack
    rw [blocks, blocks, hstack]
  · rw [idOf, idOf, hfield Tcb.id rfl]

section Runs

variable {s s' : ThreadList} {l : List ThreadPtr}

theorem inv_kthreadInit : Inv kthreadInit [genesis] where
  chain := .cons rfl .nil
  alive p := by
    rw [List.mem_singleton]
    unfold kthreadInit
    dsimp only
    split_ifs with hp
    · simp [hp]
    · simp only [Option.isSome_none, Bool.false_eq_true, hp]
  heap := .refl _
  distinct := List.nodup_nil
  outside := List.not_mem_nil
  current := rfl
  ids _ := List.pairwise_singleton _ _
  bound p hp := by
    rw [List.mem_singleton.mp hp]
    exact Nat.le_refl _
  nextId := rfl
  given := rfl

theorem Inv.kthreadCreate_linked {p b z : ThreadPtr} (h : Inv s (l ++ [z])) (hp : s.Fresh p) :
    ∃ s', s.kthreadCreate (some p) (some b) = some (s.nextThreadId, s') ∧
      (s.allocated p b).setNext z (some p) = some s' := by
  obtain ⟨c, hc⟩ := Option.isSome_iff_exists.mp h.current
  have htcb : ∀ q ∈ l ++ [z], (s.allocated p b).tcb q = s.tcb q := by
    intro q hq
    refine update_of_ne ?_ _ _
    rintro rfl
    exact h.fresh_not_mem hp hq
  have hchain : Chain (s.allocated p b).nextOf (some genesis) (l ++ [z]) :=
    h.chain.congr fun q hq ↦ congrArg (Option.map Tcb.next) (htcb q hq)
  have hlen := length_lt_loopFuel h.chain.nodup
  rw [List.length_append] at hlen
  have hlast : (s.allocated p b).lastThread loopFuel genesis = some z :=
    lastThread_eq hchain (by omega)
  have hz : z ∈ l ++ [z] := List.mem_append_right _ List.mem_cons_self
  obtain ⟨u, hu⟩ := h.tcb_of_mem hz
  obtain ⟨s', hs'⟩ : ∃ s', (s.allocated p b).setNext z (some p) = some s' := by
    rw [setNext, htcb z hz, hu]
    exact ⟨_, rfl⟩
  refine ⟨s', ?_, hs'⟩
  unfold allocated at hlast hs'
  rw [hc] at hlast hs'
  unfold ThreadList.kthreadCreate
  dsimp only
  rw [hc]
  dsimp only
  rw [hlast, Option.bind_some, hs', Option.map_some]

theorem Inv.kthreadCreate (h : Inv s l) {tcb stack : Option ThreadPtr}
    (ha : s.Enabled (.create tcb stack)) :
    ∃ r s' l', s.kthreadCreate tcb stack = some (r, s') ∧ Inv s' l' := by
  obtain ⟨htcb, hstack, hne⟩ := ha
  cases tcb with
  | none => exact ⟨0#64, s, l, rfl, h⟩
  | some p =>
    have hp := htcb p rfl
    cases stack with
    | none => exact ⟨0#64, _, l, rfl, h.create_fails hp⟩
    | some b =>
      have hb := hstack b rfl
      have hpb : p ≠ b := fun hpb ↦ hne p rfl (congrArg some hpb.symm)
      obtain ⟨l, z, rfl⟩ := l.eq_nil_or_concat'.resolve_left fun hl ↦ by
        obtain ⟨others, rfl⟩ := h.cons
        cases hl
      obtain ⟨s', hrun, hs'⟩ := h.kthreadCreate_linked (b := b) hp
      exact ⟨_, s', _, hrun, h.create_succeeds hp hb hpb hs'⟩

theorem Inv.exec (h : Inv s l) {a : ListAct} (ha : s.Enabled a) (hs' : s.exec a = some s') :
    ∃ l', Inv s' l' := by
  cases a with
  | create tcb stack =>
    obtain ⟨r, s₁, l', hrun, hinv⟩ := h.kthreadCreate ha
    rw [ThreadList.exec, hrun] at hs'
    obtain rfl := Option.some.inj hs'
    exact ⟨l', hinv⟩
  | setState p x =>
    obtain ⟨t, ht, rfl⟩ := Option.map_eq_some_iff.mp hs'
    exact ⟨l, h.setState ht x⟩
  | setCurrent p =>
    obtain rfl := Option.some.inj hs'
    exact ⟨l, { h with current := rfl }⟩
  | reap =>
    obtain ⟨others, rfl⟩ := h.cons
    obtain ⟨s₁, hrun, hreaped⟩ := kthreadReap_spec h
    rw [ThreadList.exec, hrun] at hs'
    obtain rfl := Option.some.inj hs'
    exact ⟨_, hreaped.inv⟩

theorem Inv.of_runs (hrun : PartialRuns ThreadList.exec Enabled kthreadInit s) :
    ∃ l, Inv s l :=
  hrun.invariant (I := fun s ↦ ∃ l, Inv s l) ⟨_, inv_kthreadInit⟩
    fun _ _ _ ⟨_, h⟩ ha hs' ↦ h.exec ha hs'

theorem Inv.idOf_injOn (h : Inv s l) (hlt : s.given.length < 2 ^ 64) {p q : ThreadPtr} (hp : p ∈ l)
    (hq : q ∈ l) (heq : s.idOf p = s.idOf q) : p = q := by
  have hnd : (l.map fun p ↦ (s.idOf p).toNat).Nodup := (h.ids hlt).imp fun hij ↦ Nat.ne_of_lt hij
  exact List.inj_on_of_nodup_map hnd hp hq (congrArg BitVec.toNat heq)

theorem Inv.kthreadGetKthread_eq (h : Inv s l) (id : BitVec 64) :
    s.kthreadGetKthread id = some (l.find? fun p ↦ s.idOf p = id) := by
  rw [ThreadList.kthreadGetKthread, h.chain.findNode_some _ (length_lt_loopFuel h.chain.nodup)]
  rw [← List.head?_filter, ← List.head?_filter, List.filter_congr fun p hp ↦ ?_]
  obtain ⟨t, ht⟩ := h.tcb_of_mem hp
  simp [idOf, ht]

theorem Inv.kthreadGetKthread (h : Inv s l) (hlt : s.given.length < 2 ^ 64) (id : BitVec 64) :
    ∃ r, s.kthreadGetKthread id = some r ∧ ∀ p, r = some p ↔ p ∈ l ∧ s.idOf p = id := by
  refine ⟨_, h.kthreadGetKthread_eq id, fun p ↦ ⟨fun hr ↦ ?_, fun hp ↦ ?_⟩⟩
  · exact ⟨List.mem_of_find?_eq_some hr, by simpa using List.find?_some hr⟩
  · obtain ⟨hp, hid⟩ := hp
    obtain ⟨q, hq⟩ : ∃ q, l.find? (fun p ↦ s.idOf p = id) = some q :=
      Option.isSome_iff_exists.mp (List.find?_isSome.mpr ⟨p, hp, decide_eq_true hid⟩)
    have hqid : s.idOf q = id := by simpa using List.find?_some hq
    rw [hq, h.idOf_injOn hlt (List.mem_of_find?_eq_some hq) hp (hqid.trans hid.symm)]

theorem Inv.given_nodup (h : Inv s l) (hlt : s.given.length < 2 ^ 64) :
    (0#64 :: s.given).Nodup := by
  have hall : 0#64 :: s.given = (List.range (s.given.length + 1)).map (BitVec.ofNat 64) := by
    rw [List.range_succ_eq_map, List.map_cons, List.map_map]
    exact congrArg _ h.given
  rw [hall]
  refine List.Nodup.map_on (fun i hi j hj heq ↦ ?_) List.nodup_range
  rw [List.mem_range] at hi hj
  have := congrArg BitVec.toNat heq
  rw [BitVec.toNat_ofNat, BitVec.toNat_ofNat, Nat.mod_eq_of_lt (by omega),
    Nat.mod_eq_of_lt (by omega)] at this
  exact this

theorem Inv.idOf_mem_given {others : List ThreadPtr} (h : Inv s (genesis :: others))
    (hlt : s.given.length < 2 ^ 64) {p : ThreadPtr} (hp : p ∈ others) : s.idOf p ∈ s.given := by
  have hpos := List.rel_of_pairwise_cons (h.ids hlt) (List.mem_map_of_mem hp)
  have hbound := h.bound p (List.mem_cons_of_mem _ hp)
  rw [h.given, List.mem_map]
  refine ⟨(s.idOf p).toNat - 1, List.mem_range.mpr (by omega), ?_⟩
  rw [Nat.sub_add_cancel (by omega), BitVec.ofNat_toNat, BitVec.setWidth_eq]

/-- The list after a run, and what `kthread_reap` and `kthread_get_kthread` do with it: the list
starts with genesis and ends, the exited threads are taken out and their blocks freed, and as long
as the ids have not wrapped around they increase along the list and none is given out twice. -/
theorem thread_list_reaped (s : ThreadList)
    (hrun : PartialRuns ThreadList.exec Enabled kthreadInit s) :
    ∃ others, Chain s.nextOf (some genesis) (genesis :: others) ∧
      (∃ s', s.kthreadReap = some s' ∧
        Chain s'.nextOf (some genesis) (genesis :: others.filter fun p ↦ !s.isExited p) ∧
        (∀ p ∈ genesis :: others.filter fun p ↦ !s.isExited p, s'.coreOf p = s.coreOf p) ∧
        s'.freed = s.freed ++ (others.filter s.isExited).flatMap s.blocks ∧
        ((others.filter s.isExited).flatMap s.blocks).Nodup ∧
        ∀ b ∈ (others.filter s.isExited).flatMap s.blocks, b ∈ s.heap) ∧
      (s.given.length < 2 ^ 64 →
        ((genesis :: others).map fun p ↦ (s.idOf p).toNat).Pairwise (· < ·) ∧
        (0#64 :: s.given).Nodup ∧ (∀ p ∈ others, s.idOf p ∈ s.given) ∧
        ∀ id, ∃ r, s.kthreadGetKthread id = some r ∧
          ∀ p, r = some p ↔ p ∈ genesis :: others ∧ s.idOf p = id) := by
  obtain ⟨l, h⟩ := Inv.of_runs hrun
  obtain ⟨others, rfl⟩ := h.cons
  obtain ⟨s', hreap, hreaped⟩ := kthreadReap_spec h
  have hsub : ((others.filter s.isExited).flatMap s.blocks).Sublist
      ((genesis :: others).flatMap s.blocks) :=
    (List.filter_sublist.cons _).flatMap _
  refine ⟨others, h.chain, ⟨s', hreap, hreaped.inv.chain, hreaped.kept, hreaped.freed,
    h.distinct.sublist hsub, fun b hb ↦ h.heap.mem_iff.mpr (hsub.subset hb)⟩, fun hlt ↦ ?_⟩
  exact ⟨h.ids hlt, h.given_nodup hlt, fun p hp ↦ h.idOf_mem_given hlt hp,
    h.kthreadGetKthread hlt⟩

theorem Inv.heap_eq_nil (h : Inv s [genesis]) : s.heap = [] := by
  have hheap := h.heap
  rw [List.flatMap_singleton, blocks, if_pos rfl] at hheap
  exact hheap.eq_nil

theorem runs_failing (n : ℕ) : ∃ s, PartialRuns ThreadList.exec Enabled kthreadInit s ∧
    Inv s [genesis] ∧ s.given.length = n := by
  induction n with
  | zero => exact ⟨kthreadInit, .refl, inv_kthreadInit, rfl⟩
  | succ n ih =>
    obtain ⟨s, hrun, h, hlen⟩ := ih
    have hfresh : s.Fresh 16#64 := ⟨by decide, by rw [h.heap_eq_nil]; exact List.not_mem_nil⟩
    have ha : s.Enabled (.create (some 16#64) none) := by
      refine ⟨?_, nofun, fun _ _ ↦ nofun⟩
      rintro p ⟨⟩
      exact hfresh
    refine ⟨_, hrun.step ha rfl, h.create_fails hfresh, ?_⟩
    change (s.given ++ [_]).length = n + 1
    rw [List.length_append, hlen, List.length_singleton]

theorem runs_created (n : ℕ) : ∃ s, PartialRuns ThreadList.exec Enabled kthreadInit s ∧
    Inv s [genesis, 16#64] ∧ s.idOf 16#64 = BitVec.ofNat 64 (n + 1) := by
  obtain ⟨s, hrun, h, hlen⟩ := runs_failing n
  have hfresh : ∀ p, p ≠ genesis → s.Fresh p := by
    intro p hp
    refine ⟨hp, ?_⟩
    rw [h.heap_eq_nil]
    exact List.not_mem_nil
  have hp : s.Fresh 16#64 := hfresh _ (by decide)
  have hb : s.Fresh 32#64 := hfresh _ (by decide)
  have ha : s.Enabled (.create (some 16#64) (some 32#64)) := by
    refine ⟨?_, ?_, ?_⟩
    · rintro p ⟨⟩
      exact hp
    · rintro p ⟨⟩
      exact hb
    · rintro p ⟨⟩
      decide
  have h' : Inv s ([] ++ [genesis]) := h
  obtain ⟨s', hcreate, hs'⟩ := h'.kthreadCreate_linked (b := 32#64) hp
  obtain ⟨t, ht, htid, -⟩ := tcb_created hs'
  refine ⟨s', hrun.step ha ?_, h'.create_succeeds hp hb (by decide) hs', ?_⟩
  · rw [ThreadList.exec, hcreate, Option.map_some]
  · rw [idOf, ht, Option.map_some, Option.getD_some, htid, h.nextId, hlen]

/-- A thread is created and exits. -/
theorem thread_list_reaped_once : ∃ s, PartialRuns ThreadList.exec Enabled kthreadInit s ∧
    s.isExited 16#64 = true ∧ ∃ s', s.kthreadReap = some s' := by
  obtain ⟨s, hrun, h, -⟩ := runs_created 0
  obtain ⟨t, ht⟩ := h.tcb_of_mem (List.mem_cons_of_mem _ List.mem_cons_self)
  obtain ⟨s₁, hs₁⟩ : ∃ s₁, s₁ = { s with
      tcb := update s.tcb 16#64 (some { t with state := .exited }) } := ⟨_, rfl⟩
  have hexec : s.exec (.setState 16#64 .exited) = some s₁ := by
    rw [ThreadList.exec, ht, Option.map_some, hs₁]
  have hrun₁ := hrun.step (a := .setState 16#64 .exited) trivial hexec
  obtain ⟨others, -, ⟨s', hreap, -⟩, -⟩ := thread_list_reaped s₁ hrun₁
  refine ⟨s₁, hrun₁, ?_, s', hreap⟩
  rw [hs₁, isExited]
  simp

/-- After 2^64 - 1 failures the next thread gets the id of genesis. -/
theorem ids_wrap : ∃ s others, PartialRuns ThreadList.exec Enabled kthreadInit s ∧
    Chain s.nextOf (some genesis) (genesis :: others) ∧
    ¬((genesis :: others).map fun p ↦ (s.idOf p).toNat).Pairwise (· < ·) := by
  obtain ⟨s, hrun, h, hid⟩ := runs_created (2 ^ 64 - 1)
  refine ⟨s, [16#64], hrun, h.chain, fun hids ↦ ?_⟩
  have hlt := List.rel_of_pairwise_cons hids (List.mem_singleton.mpr rfl)
  dsimp only at hlt
  rw [hid] at hlt
  exact Nat.not_lt_zero _ hlt

end Runs

end SeedOS.Thread.ThreadList
