import Mathlib.Data.List.TakeWhile
import SeedOS.Fs.Ext2

namespace SeedOS.Fs

open Foundation

def components (path : List (BitVec 8)) : List (List (BitVec 8)) :=
  (path.splitOn 0x2f#8).filter (· ≠ [])

def lookupNames (fs : Ext2) (img : Image) (fuel : ℕ) : List (List (BitVec 8)) → ℕ → Disk ℕ
  | [], ino => pure ino
  | name :: names, ino => do
    match ← ext2ReadInode fs img ino with
    | none => pure 0
    | some dir => do
      if ← ext2IsDirectory img dir then
        let ino ← ext2LookupInDir fs img fuel dir name
        if ino = 0 then pure 0 else lookupNames fs img fuel names ino
      else pure 0

theorem components_append (xs ys : List (BitVec 8)) :
    components (xs ++ 0x2f#8 :: ys) = components xs ++ components ys := by
  rw [components, List.splitOn_append_cons_self, List.filter_append, components, components]

@[simp] theorem components_nil : components [] = [] := by
  simp [components]

@[simp] theorem components_slash (p : List (BitVec 8)) :
    components (0x2f#8 :: p) = components p := by
  have h := components_append [] p
  rwa [components_nil] at h

theorem components_name {name : List (BitVec 8)} (hne : name ≠ []) (h : 0x2f#8 ∉ name) :
    components name = [name] := by
  simp [components, List.splitOn_eq_singleton h, hne]

theorem components_dropWhile (p : List (BitVec 8)) :
    components (p.dropWhile (· = 0x2f#8)) = components p := by
  induction p with
  | nil => rfl
  | cons c p ih =>
    by_cases hc : c = 0x2f#8
    · subst hc
      rw [List.dropWhile_cons_of_pos (by simp), ih, components_slash]
    · rw [List.dropWhile_cons_of_neg (by simpa using hc)]

theorem head_dropWhile {f : BitVec 8 → Bool} {p q : List (BitVec 8)} {c : BitVec 8}
    (h : p.dropWhile f = c :: q) : f c = false := by
  have hnot := List.head?_dropWhile_not f p
  rwa [h] at hnot

theorem components_cons {c : BitVec 8} (hc : c ≠ 0x2f#8) (p : List (BitVec 8)) :
    components (c :: p) = (c :: p).takeWhile (· ≠ 0x2f#8) ::
      components ((c :: p).dropWhile (· ≠ 0x2f#8)) := by
  have hname : components ((c :: p).takeWhile (· ≠ 0x2f#8)) =
      [(c :: p).takeWhile (· ≠ 0x2f#8)] := by
    refine components_name (by simp [hc]) fun hmem ↦ ?_
    have := List.mem_takeWhile_imp hmem
    simp at this
  have hsplit : (c :: p).takeWhile (· ≠ 0x2f#8) ++ (c :: p).dropWhile (· ≠ 0x2f#8) = c :: p :=
    List.takeWhile_append_dropWhile
  cases hrest : (c :: p).dropWhile (· ≠ 0x2f#8) with
  | nil =>
    rw [hrest, List.append_nil] at hsplit
    rw [components_nil, ← hname, hsplit]
  | cons d rest =>
    obtain rfl : d = 0x2f#8 := by simpa using head_dropWhile hrest
    rw [hrest] at hsplit
    have hsum := components_append ((c :: p).takeWhile (· ≠ 0x2f#8)) rest
    rwa [hsplit, hname, List.singleton_append, ← components_slash rest] at hsum

theorem dropWhile_shorter {c : BitVec 8} (hc : c ≠ 0x2f#8) (p : List (BitVec 8)) :
    ((c :: p).dropWhile (· ≠ 0x2f#8)).length ≤ p.length := by
  rw [List.dropWhile_cons_of_pos (by simpa using hc)]
  exact (List.dropWhile_suffix _).length_le

/-- The loop over a path makes the same reads and has the same result as one over the list of
its components. -/
theorem pathStep_run (fs : Ext2) (img : Image) (k : ℕ) {fuel : ℕ} {p : List (BitVec 8)} (ino : ℕ)
    (hfuel : p.length < fuel) :
    Faulting.iterate (pathStep fs img k) fuel (p, ino) =
      lookupNames fs img k (components p) ino := by
  induction fuel generalizing p ino with
  | zero => omega
  | succ fuel ih =>
    rw [Faulting.iterate, pathStep, ← components_dropWhile p]
    have hlen : (p.dropWhile (· = 0x2f#8)).length ≤ p.length := (List.dropWhile_suffix _).length_le
    dsimp only
    cases hq : p.dropWhile (· = 0x2f#8) with
    | nil => rw [if_pos rfl, Faulting.pure_bind, components_nil, lookupNames]
    | cons c q =>
      have hc : c ≠ 0x2f#8 := by simpa using head_dropWhile hq
      rw [hq, List.length_cons] at hlen
      have hshort := dropWhile_shorter hc q
      rw [if_neg (by simp), components_cons hc, lookupNames, Faulting.bind_assoc]
      refine bind_congr fun x ↦ ?_
      cases x with
      | none => rw [Faulting.pure_bind]
      | some dir =>
        rw [Faulting.bind_assoc]
        refine bind_congr fun isDir ↦ ?_
        cases isDir with
        | false => simp only [Bool.false_eq_true, if_false, Faulting.pure_bind]
        | true =>
          simp only [if_true, Faulting.bind_assoc]
          refine bind_congr fun found ↦ ?_
          by_cases hz : found = 0
          · simp only [if_pos hz, Faulting.pure_bind]
          · simp only [if_neg hz, Faulting.pure_bind]
            exact ih found (by omega)

theorem ext2Lookup_eq (fs : Ext2) (img : Image) (fuel : ℕ) (path : List (BitVec 8)) :
    ext2Lookup fs img fuel path =
      if path.head? = some 0x2f#8 then lookupNames fs img fuel (components path) 2 else pure 0 := by
  unfold ext2Lookup
  split
  · rename_i hslash
    obtain ⟨p, rfl⟩ := List.head?_eq_some_iff.mp hslash
    rw [List.tail_cons, pathStep_run fs img fuel 2 (by simp), components_slash]
  · rfl

end SeedOS.Fs
