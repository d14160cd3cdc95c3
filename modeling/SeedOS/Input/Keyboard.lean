import SeedOS.Foundation.Machine
import SeedOS.Foundation.Ring

namespace SeedOS.Input

open Foundation Function

def kbdBufferSize : ℕ := 64

structure Keyboard where
  buffer : ℕ → BitVec 8
  head : ℕ
  tail : ℕ

namespace Keyboard

def hasRoom (k : Keyboard) : Bool := (k.head + 1) % kbdBufferSize ≠ k.tail

def bufferPut (k : Keyboard) (c : BitVec 8) : Keyboard :=
  if k.hasRoom then
    { k with buffer := update k.buffer k.head c, head := (k.head + 1) % kbdBufferSize }
  else k

end Keyboard

def getcharValue : Option (BitVec 8) → ℤ
  | none => -1
  | some c => c.toNat

/-- The statement that the consumer executes next, with the value of `c` once it has one. -/
inductive Consumer
  | idle
  | test
  | load
  | advance (c : BitVec 8)
  | ret (result : Option (BitVec 8))
  | hasInput
  deriving DecidableEq

/-- The ring, the consumer and what it got back from `keyboard_getchar`. The history records each
operation where it takes effect. -/
structure KbdSystem where
  kbd : Keyboard
  consumer : Consumer
  returned : List ℤ
  history : List (FifoOp (BitVec 8))

inductive KbdAct
  /-- An interrupt handler calls `buffer_put`. -/
  | interrupt (c : BitVec 8)
  | getchar
  | hasInput
  /-- The consumer executes its next statement. -/
  | step

namespace KbdSystem

def start (buffer : ℕ → BitVec 8) : KbdSystem := ⟨⟨buffer, 0, 0⟩, .idle, [], []⟩

/-- The next statement of `buffer_get` or of `keyboard_has_input`. -/
def consume (s : KbdSystem) : KbdSystem :=
  match s.consumer with
  | .idle => s
  | .test =>
    if s.kbd.head = s.kbd.tail then
      { s with consumer := .ret none, history := s.history ++ [.get none] }
    else { s with consumer := .load }
  | .load => { s with consumer := .advance (s.kbd.buffer s.kbd.tail) }
  | .advance c =>
    { s with
      kbd := { s.kbd with tail := (s.kbd.tail + 1) % kbdBufferSize }
      consumer := .ret (some c)
      history := s.history ++ [.get (some c)] }
  | .ret result =>
    { s with consumer := .idle, returned := s.returned ++ [getcharValue result] }
  | .hasInput =>
    { s with
      consumer := .idle
      history := s.history ++ [.nonempty (s.kbd.head ≠ s.kbd.tail)] }

def exec (s : KbdSystem) : KbdAct → KbdSystem
  | .interrupt c =>
    { s with kbd := s.kbd.bufferPut c, history := s.history ++ [.put c s.kbd.hasRoom] }
  | .getchar => { s with consumer := .test }
  | .hasInput => { s with consumer := .hasInput }
  | .step => s.consume

/-- There is one consumer: it makes a call when it has returned from the one before. -/
def enabled (s : KbdSystem) : KbdAct → Prop
  | .interrupt _ => True
  | .getchar => s.consumer = .idle
  | .hasInput => s.consumer = .idle
  | .step => s.consumer ≠ .idle

def inHand (s : KbdSystem) : List (Option (BitVec 8)) :=
  match s.consumer with
  | .ret result => [result]
  | _ => []

end KbdSystem

def Consumer.Knows (q : List (BitVec 8)) : Consumer → Prop
  | .load => q ≠ []
  | .advance c => q.head? = some c
  | _ => True

/-- The ring is a queue, and its history that of a FIFO for 63 characters. -/
structure KbdInv (s : KbdSystem) (q : List (BitVec 8)) : Prop where
  queued : Queued kbdBufferSize s.kbd.buffer s.kbd.head s.kbd.tail q
  fifo : Fifo 63 s.history q
  returned : s.returned ++ s.inHand.map getcharValue = (gets s.history).map getcharValue
  knows : s.consumer.Knows q

namespace KbdInv

variable {s : KbdSystem} {q : List (BitVec 8)}

theorem start (buffer : ℕ → BitVec 8) : KbdInv (.start buffer) [] where
  queued := .empty (by decide) buffer
  fifo := .start
  returned := rfl
  knows := trivial

theorem hasRoom_iff (h : KbdInv s q) : s.kbd.hasRoom = true ↔ q.length ≠ 63 := by
  have hlt := h.queued.length_lt
  have hfull := h.queued.full_iff
  unfold Keyboard.hasRoom
  rw [decide_eq_true_eq, ne_eq, hfull]
  unfold kbdBufferSize
  omega

theorem knows_append {a : BitVec 8} {pc : Consumer} (h : pc.Knows q) : pc.Knows (q ++ [a]) := by
  cases pc with
  | load => exact List.append_ne_nil_of_left_ne_nil h _
  | advance c =>
    cases q with
    | nil => cases h
    | cons b q => exact h
  | _ => trivial

theorem interrupt (h : KbdInv s q) (c : BitVec 8) : ∃ q', KbdInv (s.exec (.interrupt c)) q' := by
  have hlt := h.queued.length_lt
  have hgets : ∀ b, gets (s.history ++ [.put c b]) = gets s.history := fun b ↦ by simp [gets]
  unfold KbdSystem.exec Keyboard.bufferPut
  dsimp only
  by_cases hroom : s.kbd.hasRoom = true
  · have hne := h.hasRoom_iff.mp hroom
    rw [hroom, if_pos rfl]
    refine ⟨q ++ [c], h.queued.push ?_ c, .accept c h.fifo ?_, ?_, knows_append h.knows⟩
    · unfold kbdBufferSize
      omega
    · unfold kbdBufferSize at hlt
      omega
    · rw [hgets]
      exact h.returned
  · have hfull : q.length = 63 := by
      by_contra hne
      exact hroom (h.hasRoom_iff.mpr hne)
    rw [Bool.not_eq_true] at hroom
    rw [hroom, if_neg Bool.false_ne_true]
    refine ⟨q, h.queued, .drop c h.fifo hfull, ?_, h.knows⟩
    rw [hgets]
    exact h.returned

theorem consume (h : KbdInv s q) : ∃ q', KbdInv s.consume q' := by
  obtain ⟨kbd, pc, returned, history⟩ := s
  obtain ⟨hqueued, hfifo, hreturned, hknows⟩ := h
  have hgets : ∀ r, gets (history ++ [.get r]) = gets history ++ [r] := fun r ↦ by simp [gets]
  cases pc with
  | idle => exact ⟨q, hqueued, hfifo, hreturned, hknows⟩
  | test =>
    by_cases hempty : kbd.head = kbd.tail
    · obtain rfl := hqueued.empty_iff.mp hempty
      refine ⟨[], ?_⟩
      rw [KbdSystem.consume, if_pos hempty]
      refine ⟨hqueued, .empty hfifo, ?_, trivial⟩
      rw [hgets, List.map_append, ← hreturned]
      simp [KbdSystem.inHand]
    · refine ⟨q, ?_⟩
      rw [KbdSystem.consume, if_neg hempty]
      exact ⟨hqueued, hfifo, hreturned, fun hq ↦ hempty (hqueued.empty_iff.mpr hq)⟩
  | load =>
    cases q with
    | nil => exact absurd rfl hknows
    | cons c q => exact ⟨c :: q, hqueued, hfifo, hreturned, congrArg some hqueued.front.symm⟩
  | advance c =>
    cases q with
    | nil => cases hknows
    | cons b q =>
      obtain rfl : b = c := Option.some.inj hknows
      refine ⟨q, hqueued.pop, .take hfifo, ?_, trivial⟩
      change returned ++ [getcharValue (some b)] = (gets (history ++ [.get (some b)])).map _
      rw [hgets, List.map_append, ← hreturned]
      simp [KbdSystem.inHand]
  | ret result =>
    refine ⟨q, hqueued, hfifo, ?_, trivial⟩
    simpa [KbdSystem.consume, KbdSystem.inHand] using hreturned
  | hasInput =>
    refine ⟨q, hqueued, .ask hfifo ?_, ?_, trivial⟩
    · rw [decide_eq_true_eq, ne_eq, hqueued.empty_iff]
    · simpa [KbdSystem.consume, KbdSystem.inHand, gets] using hreturned

theorem returned_of_idle (h : KbdInv s q) (hidle : s.consumer = .idle) :
    s.returned ++ [] = (gets s.history).map getcharValue := by
  have hreturned := h.returned
  rwa [KbdSystem.inHand, hidle] at hreturned

theorem exec (h : KbdInv s q) {a : KbdAct} (ha : s.enabled a) : ∃ q', KbdInv (s.exec a) q' := by
  cases a with
  | interrupt c => exact h.interrupt c
  | getchar => exact ⟨q, h.queued, h.fifo, h.returned_of_idle ha, trivial⟩
  | hasInput => exact ⟨q, h.queued, h.fifo, h.returned_of_idle ha, trivial⟩
  | step => exact h.consume

end KbdInv

theorem getcharValue_range (r : Option (BitVec 8)) :
    -1 ≤ getcharValue r ∧ getcharValue r ≤ 255 := by
  cases r with
  | none => decide
  | some c =>
    have hlt := c.isLt
    simp only [getcharValue]
    omega

/-- The values that `keyboard_getchar` returns are those of a FIFO for 63 characters, however the
interrupts fall: the characters come out as they were accepted, one is dropped when 63 are
pending, and -1 is returned when none is. -/
theorem keyboard_is_fifo {buffer : ℕ → BitVec 8} {s : KbdSystem}
    (h : Runs KbdSystem.exec KbdSystem.enabled (.start buffer) s) :
    ∃ pending, Fifo 63 s.history pending ∧
      s.returned ++ s.inHand.map getcharValue = (gets s.history).map getcharValue ∧
      (gets s.history).filterMap id ++ pending = accepted s.history ∧
      (∀ v ∈ s.returned, -1 ≤ v ∧ v ≤ 255) ∧
      Queued kbdBufferSize s.kbd.buffer s.kbd.head s.kbd.tail pending := by
  obtain ⟨q, hq⟩ := h.invariant (I := fun s ↦ ∃ q, KbdInv s q) ⟨[], .start buffer⟩
    fun s a ⟨q, hq⟩ ha ↦ hq.exec ha
  refine ⟨q, hq.fifo, hq.returned, hq.fifo.in_order, fun v hv ↦ ?_, hq.queued⟩
  have hmem : v ∈ (gets s.history).map getcharValue := hq.returned ▸ List.mem_append_left _ hv
  obtain ⟨r, -, rfl⟩ := List.mem_map.mp hmem
  exact getcharValue_range r

/-- Two interrupts come while the consumer is in `keyboard_getchar`. -/
def typedLate : KbdSystem :=
  [.getchar, .interrupt 0x61#8, .step, .step, .interrupt 0x62#8, .step].foldl KbdSystem.exec
    (.start fun _ ↦ 0#8)

theorem typedLate_run : Runs KbdSystem.exec KbdSystem.enabled (.start fun _ ↦ 0#8) typedLate := by
  have hstart : Runs KbdSystem.exec KbdSystem.enabled (.start fun _ ↦ 0#8)
    (.start fun _ ↦ 0#8) := .refl
  have hput := (hstart.step (a := .getchar) rfl).step (a := .interrupt 0x61#8) trivial
  have hload := (hput.step (a := .step) nofun).step (a := .step) nofun
  exact (hload.step (a := .interrupt 0x62#8) trivial).step (a := .step) nofun

theorem keyboard_typedLate : ∃ pending, Fifo 63 typedLate.history pending ∧
    typedLate.returned ++ typedLate.inHand.map getcharValue =
      (gets typedLate.history).map getcharValue := by
  obtain ⟨pending, hfifo, hreturned, -⟩ := keyboard_is_fifo typedLate_run
  exact ⟨pending, hfifo, hreturned⟩

end SeedOS.Input
