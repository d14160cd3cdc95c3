import SeedOS.Thread.ForkKthread
import SeedOS.Thread.Reaping

namespace SeedOS.Thread

open Foundation Function

/-- The control blocks in memory are the threads of `s`, linked in the order of its list. -/
structure Represents (l : ThreadList) (s : ForkSys) : Prop where
  inv : l.Inv s.threads.list
  core : ∀ p ∈ s.threads.list, ∃ stack, l.coreOf p = some (s.id p, s.threads.state p, stack)
  nextId : l.nextThreadId = s.nextThreadId

namespace Represents

variable {l : ThreadList} {s : ForkSys}

theorem boot : Represents ThreadList.kthreadInit bootForks := by
  refine ⟨ThreadList.inv_kthreadInit, fun p hp ↦ ?_, rfl⟩
  rw [List.mem_singleton.mp hp]
  exact ⟨none, rfl⟩

theorem idOf (h : Represents l s) {p : ThreadPtr} (hp : p ∈ s.threads.list) :
    l.idOf p = s.id p := by
  obtain ⟨stack, hcore⟩ := h.core p hp
  obtain ⟨t, ht, heq⟩ := Option.map_eq_some_iff.mp hcore
  rw [ThreadList.idOf, ht, Option.map_some, Option.getD_some]
  exact congrArg Prod.fst heq

theorem isExited (h : Represents l s) {p : ThreadPtr} (hp : p ∈ s.threads.list) :
    l.isExited p = decide (s.threads.state p = .exited) := by
  obtain ⟨stack, hcore⟩ := h.core p hp
  obtain ⟨t, ht, heq⟩ := Option.map_eq_some_iff.mp hcore
  have hstate : t.state = s.threads.state p := congrArg (fun c ↦ c.2.1) heq
  rw [ThreadList.isExited, ht, Option.map_some, hstate]
  simp

theorem create (h : Represents l s) {p b : ThreadPtr} (hp : l.Fresh p) (hb : l.Fresh b)
    (hpb : p ≠ b) (entry : Option ProcPtr) :
    ∃ l', l.kthreadCreate (some p) (some b) = some (s.nextThreadId, l') ∧
      Represents l' (s.addThread p entry) := by
  have hinv := h.inv
  obtain ⟨pre, z, hlist⟩ : ∃ pre z, s.threads.list = pre ++ [z] :=
    s.threads.list.eq_nil_or_concat'.resolve_left (List.cons_ne_nil _ _)
  rw [hlist] at hinv
  obtain ⟨l', hrun, hs'⟩ := hinv.kthreadCreate_linked (b := b) hp
  have hinv' := hinv.create_succeeds hp hb hpb hs'
  rw [← hlist] at hinv'
  refine ⟨l', h.nextId ▸ hrun, hinv', fun q hq ↦ ?_, ?_⟩
  · by_cases hqp : q = p
    · subst hqp
      refine ⟨some b, ?_⟩
      rw [ThreadList.coreOf_created_self hs', h.nextId]
      simp [ForkSys.addThread, kthreadCreate, Threads.setState]
    · have hq' : q ∈ s.threads.list ++ [p] := hq
      obtain ⟨stack, hcore⟩ := h.core q (by simpa [hqp] using hq')
      refine ⟨stack, ?_⟩
      rw [ThreadList.coreOf_created hs' hqp, hcore]
      simp [ForkSys.addThread, kthreadCreate, Threads.setState, hqp]
  · rw [(ThreadList.setNext_frame hs').2.2.2.2]
    exact congrArg (· + 1#64) h.nextId

theorem reap (h : Represents l s) : ∃ l', l.kthreadReap = some l' ∧
    Represents l' { s with threads := kthreadReap s.threads } := by
  obtain ⟨l', hrun, hreaped⟩ := ThreadList.kthreadReap_spec h.inv
  have hlist : (kthreadReap s.threads).list =
      genesis :: s.threads.others.filter fun p ↦ !l.isExited p := by
    refine congrArg (genesis :: ·) (List.filter_congr fun p hp ↦ ?_)
    simp [h.isExited (List.mem_cons_of_mem _ hp)]
  rw [← hlist] at hreaped
  refine ⟨l', hrun, hreaped.inv, fun p hp ↦ ?_, hreaped.nextId.trans h.nextId⟩
  rw [hreaped.kept p hp]
  exact h.core p (List.filter_sublist.cons_cons _ |>.subset hp)

theorem getKthread (h : Represents l s) (id : BitVec 64) :
    l.kthreadGetKthread id = some (kthreadGetKthread s id) := by
  rw [h.inv.kthreadGetKthread_eq, kthreadGetKthread, ← List.head?_filter, ← List.head?_filter,
    List.filter_congr fun p hp ↦ by rw [h.idOf hp]]

end Represents

end SeedOS.Thread
