import GemOS.Lib.Threads
import Mathlib.Data.List.Range

/-!
# A counter under a mutex

A transcription of `mutex_testing` of `src/pthreads/0pthread.c`, which three threads of `main` run
at the same time. Every access to `counter` and every call is a step of its own, so that the threads
interleave between them; `pthread_mutex_lock` waits while another thread has the mutex. The threads
join in no other way, and a thread that was not created yet is one that has made no step.

`mutex_testing_run`: whatever the schedule, the lines show 1, 2, and so on without a gap, up to 15
in the end, and there is no deadlock.
-/

namespace GemOS.Pthreads

open Threads

/-- The threads that run `mutex_testing`, by the names of their arguments. -/
inductive Fruit where
  | apple
  | mango
  | banana
  deriving DecidableEq

instance : Fintype Fruit := ⟨{.apple, .mango, .banana}, fun t => by cases t <;> decide⟩

/-- The argument of a thread. -/
def Fruit.param : Fruit → ℕ
  | .apple => 1
  | .mango => 2
  | .banana => 3

/-- Where a thread is in `mutex_testing`. -/
inductive Place where
  /-- At `i < 5`. -/
  | cond
  /-- At `pthread_mutex_lock`. -/
  | lock
  /-- At `counter ++`, before `counter` is read. -/
  | load
  /-- At `counter ++`, after `v` was read. -/
  | store (v : ℕ)
  /-- At `usleep`. -/
  | usleep
  /-- At `printf`, before `counter` is read. -/
  | reload
  /-- At `printf`, after `v` was read. -/
  | printf (v : ℕ)
  /-- At `pthread_mutex_unlock`. -/
  | unlock
  /-- Behind the loop. -/
  | ended

/-- The local state of a thread. -/
structure Worker where
  i : ℕ
  place : Place

/-- What the threads share. -/
structure Shared where
  /-- The thread that has `myMutex`. -/
  myMutex : Option Fruit
  counter : ℕ
  /-- The lines so far: the number of the thread and the counter. -/
  lines : List (ℕ × ℕ)

/-- A step of a thread in `mutex_testing`. -/
def mutexTesting (t : Fruit) (w : Worker) (g : Shared) : Option (Worker × Shared) :=
  match w.place with
  | .cond => some (⟨w.i, if w.i < 5 then .lock else .ended⟩, g)
  | .lock => if g.myMutex = none then some (⟨w.i, .load⟩, { g with myMutex := some t }) else none
  | .load => some (⟨w.i, .store g.counter⟩, g)
  | .store v => some (⟨w.i, .usleep⟩, { g with counter := v + 1 })
  | .usleep => some (⟨w.i, .reload⟩, g)
  | .reload => some (⟨w.i, .printf g.counter⟩, g)
  | .printf v => some (⟨w.i, .unlock⟩, { g with lines := g.lines ++ [(t.param, v)] })
  | .unlock => some (⟨w.i + 1, .cond⟩, { g with myMutex := none })
  | .ended => none

/-- The threads when they are created. -/
def mutexStart : State Fruit Worker Shared := ⟨fun _ => ⟨0, .cond⟩, ⟨none, 0, []⟩⟩

/-! ## The invariant -/

/-- A thread is between the calls of `pthread_mutex_lock` and `pthread_mutex_unlock`. -/
def Worker.Inside (w : Worker) : Prop :=
  match w.place with
  | .cond | .lock | .ended => False
  | _ => True

/-- The increments of a thread so far. -/
def Worker.increments (w : Worker) : ℕ :=
  match w.place with
  | .usleep | .reload | .printf _ | .unlock => w.i + 1
  | _ => w.i

/-- The lines of a thread so far. -/
def Worker.printed (w : Worker) : ℕ :=
  match w.place with
  | .unlock => w.i + 1
  | _ => w.i

/-- The value of `counter` that a thread has read. -/
def Worker.value (w : Worker) : Option ℕ :=
  match w.place with
  | .store v | .printf v => some v
  | _ => none

/-- The steps that a thread still has to make. -/
def Worker.way (w : Worker) : ℕ :=
  match w.place with
  | .cond => 8 * (5 - w.i) + 1
  | .lock => 8 * (5 - w.i)
  | .load => 8 * (5 - w.i) - 1
  | .store _ => 8 * (5 - w.i) - 2
  | .usleep => 8 * (5 - w.i) - 3
  | .reload => 8 * (5 - w.i) - 4
  | .printf _ => 8 * (5 - w.i) - 5
  | .unlock => 8 * (5 - w.i) - 6
  | .ended => 0

/-- The rounds of the loop. -/
def Worker.Ok (w : Worker) : Prop :=
  match w.place with
  | .cond => w.i ≤ 5
  | .ended => w.i = 5
  | _ => w.i < 5

/-- The invariant of the counter. -/
structure MutexInv (s : State Fruit Worker Shared) : Prop where
  /-- The thread inside has the mutex. -/
  held : Held Worker.Inside Shared.myMutex s
  /-- The rounds of the loops are right. -/
  ok : ∀ t, (s.own t).Ok
  /-- No increment is lost. -/
  counter : s.shared.counter = ∑ t, (s.own t).increments
  /-- What a thread has read is up to date. -/
  value : ∀ t v, (s.own t).value = some v → v = s.shared.counter
  /-- The lines show the counters in order. -/
  lines : s.shared.lines.map Prod.snd = List.range' 1 (∑ t, (s.own t).printed)
  /-- Every line is that of its thread. -/
  each : ∀ t, (s.shared.lines.filter fun l => l.1 = t.param).length = (s.own t).printed

/-- All threads have ended, and all lines are printed. -/
structure MutexFinal (s : State Fruit Worker Shared) : Prop where
  ended : ∀ t, (s.own t).place = .ended
  mutex : s.shared.myMutex = none
  counter : s.shared.counter = 15
  lines : s.shared.lines.map Prod.snd = List.range' 1 15
  each : ∀ t : Fruit, (s.shared.lines.filter fun l => l.1 = t.param).length = 5

variable {s s' : State Fruit Worker Shared} {t u : Fruit} {w w' : Worker} {g g' : Shared} {v : ℕ}

/-! ## Steps -/

/-- What a step does. -/
structure Effect (t : Fruit) (w : Worker) (g : Shared) (w' : Worker) (g' : Shared) : Prop where
  /-- The mutex is taken at the entry of the section, and given back at its end. -/
  mutex : (w.Inside ↔ w'.Inside) ∧ g'.myMutex = g.myMutex ∨
    ¬w.Inside ∧ w'.Inside ∧ g.myMutex = none ∧ g'.myMutex = some t ∨
    w.Inside ∧ ¬w'.Inside ∧ g'.myMutex = none
  /-- The rounds stay right, and the thread comes nearer to its end. -/
  ok : w.Ok → w'.Ok ∧ w'.way < w.way
  /-- The counter is incremented from the value that was read. -/
  counter : g'.counter = g.counter ∧ w'.increments = w.increments ∨
    ∃ v, w.value = some v ∧ g'.counter = v + 1 ∧ w'.increments = w.increments + 1 ∧ w.Inside
  /-- A value that is read is that of the counter. -/
  value : ∀ v, w'.value = some v → v = g'.counter ∧ g'.counter = g.counter
  /-- A line shows the value that was read, behind the increment. -/
  lines : g'.lines = g.lines ∧ w'.printed = w.printed ∨
    ∃ v, w.value = some v ∧ g'.lines = g.lines ++ [(t.param, v)] ∧ w'.printed = w.printed + 1 ∧
      w.increments = w.printed + 1 ∧ w.Inside

/-- A step keeps the rounds right, and brings the thread nearer to its end. -/
theorem ok_of_some (h : mutexTesting t w g = some (w', g')) (hok : w.Ok) :
    w'.Ok ∧ w'.way < w.way := by
  obtain ⟨i, place⟩ := w
  cases place with
  | cond =>
    obtain ⟨rfl, -⟩ := Prod.mk.inj (Option.some.inj h)
    by_cases hi : i < 5
    · rw [if_pos hi]
      exact ⟨hi, Nat.lt_succ_self _⟩
    · rw [if_neg hi]
      exact ⟨le_antisymm hok (Nat.not_lt.mp hi), Nat.succ_pos _⟩
  | lock =>
    obtain ⟨-, h⟩ := Option.ite_none_right_eq_some.mp h
    obtain ⟨rfl, -⟩ := Prod.mk.inj (Option.some.inj h)
    simp only [Worker.Ok, Worker.way] at hok ⊢
    omega
  | ended => exact absurd h (by simp [mutexTesting])
  | _ =>
    obtain ⟨rfl, -⟩ := Prod.mk.inj (Option.some.inj h)
    simp only [Worker.Ok, Worker.way] at hok ⊢
    omega

theorem effect_of_some (h : mutexTesting t w g = some (w', g')) : Effect t w g w' g' := by
  have hok := ok_of_some h
  obtain ⟨i, place⟩ := w
  cases place with
  | cond =>
    obtain ⟨rfl, rfl⟩ := Prod.mk.inj (Option.some.inj h)
    refine ⟨?_, hok, ?_, ?_, ?_⟩ <;> by_cases hi : i < 5 <;>
      simp [hi, Worker.Inside, Worker.increments, Worker.value, Worker.printed]
  | lock =>
    obtain ⟨hfree, h⟩ := Option.ite_none_right_eq_some.mp h
    obtain ⟨rfl, rfl⟩ := Prod.mk.inj (Option.some.inj h)
    refine ⟨?_, hok, ?_, ?_, ?_⟩ <;>
      simp [hfree, Worker.Inside, Worker.increments, Worker.value, Worker.printed]
  | ended => exact absurd h (by simp [mutexTesting])
  | _ =>
    obtain ⟨rfl, rfl⟩ := Prod.mk.inj (Option.some.inj h)
    refine ⟨?_, hok, ?_, ?_, ?_⟩ <;>
      simp [Worker.Inside, Worker.increments, Worker.value, Worker.printed]

/-- `pthread_mutex_lock` and `pthread_mutex_unlock` guard the section between them. -/
theorem guards_mutexTesting : Guards mutexTesting Worker.Inside Shared.myMutex := by
  refine ⟨fun t w g w' g' h hw hw' => ?_, fun t w g w' g' h hw hw' => ?_,
    fun t w g w' g' h hw => ?_⟩ <;>
    rcases (effect_of_some h).mutex with ⟨hiff, hmutex⟩ | ⟨hout, hin, hmutex⟩ | ⟨hin, hout, hmutex⟩
  · exact absurd (hiff.mpr hw') hw
  · exact hmutex
  · exact absurd hin hw
  · exact absurd (hiff.mp hw) hw'
  · exact absurd hw hout
  · exact hmutex
  · exact hmutex
  · exact absurd (hw.mpr hin) hout
  · exact absurd (hw.mp hin) hout

theorem inside_of_value (h : w.value = some v) : w.Inside := by
  obtain ⟨i, place⟩ := w
  cases place with
  | store v => trivial
  | printf v => trivial
  | _ => exact absurd h (by simp [Worker.value])

theorem param_injective (h : t.param = u.param) : t = u := by
  cases t <;> cases u <;> first | rfl | exact absurd h (by decide)

/-- The lines of the threads after a line of the thread `t`. -/
theorem filter_concat (lines : List (ℕ × ℕ)) (t u : Fruit) (v : ℕ) :
    ((lines ++ [(t.param, v)]).filter fun l => l.1 = u.param).length =
      (lines.filter fun l => l.1 = u.param).length + if u = t then 1 else 0 := by
  rw [List.filter_append, List.length_append]
  by_cases hu : u = t
  · simp [hu]
  · have hne : t.param ≠ u.param := fun heq => hu (param_injective heq).symm
    simp [hu, hne]

/-- Outside, all increments of a thread are printed. -/
theorem increments_of_outside (h : ¬w.Inside) : w.increments = w.printed := by
  obtain ⟨i, place⟩ := w
  cases place <;> first | rfl | exact absurd trivial h

namespace MutexInv

/-- While a thread is inside, the others have printed all their increments. -/
theorem increments_eq (h : MutexInv s) (ht : (s.own t).Inside) :
    (∑ u, (s.own u).increments) + (s.own t).printed =
      (∑ u, (s.own u).printed) + (s.own t).increments :=
  sum_congr_but (f := s.own) (t := t) fun _ hu =>
    increments_of_outside fun hin => hu (h.held.exclusive hin ht)

/-- Every step keeps the invariant, and takes its thread nearer to its end. -/
theorem step (h : MutexInv s) (hnext : mutexTesting t (s.own t) s.shared = some (w, g)) :
    MutexInv ⟨Function.update s.own t w, g⟩ ∧ w.way < (s.own t).way := by
  have heff := effect_of_some hnext
  have hincrements := sum_update Worker.increments s.own t w
  have hprinted := sum_update Worker.printed s.own t w
  refine ⟨⟨guards_mutexTesting.held h.held hnext, fun u => ?_, ?_, fun u v hv => ?_, ?_,
    fun u => ?_⟩, (heff.ok (h.ok t)).2⟩ <;> dsimp only
  · by_cases hu : u = t
    · rw [hu, Function.update_self]
      exact (heff.ok (h.ok t)).1
    · rw [Function.update_of_ne hu]
      exact h.ok u
  · have hcounter := h.counter
    rcases heff.counter with ⟨hsame, hinc⟩ | ⟨v, hv, hcount, hinc, -⟩
    · omega
    · -- The value that was read is up to date, so that no increment is lost.
      have hvalue := h.value t v hv
      omega
  · by_cases hu : u = t
    · dsimp only at hv
      rw [hu, Function.update_self] at hv
      exact (heff.value v hv).1
    · dsimp only at hv
      rw [Function.update_of_ne hu] at hv
      rcases heff.counter with ⟨hsame, -⟩ | ⟨-, -, -, -, hin⟩
      · rw [hsame]
        exact h.value u v hv
      · exact absurd (h.held.exclusive (inside_of_value hv) hin) hu
  · rcases heff.lines with ⟨hsame, heq⟩ | ⟨v, hv, hline, heq, hbehind, hin⟩
    · rw [hsame, h.lines]
      exact congrArg (List.range' 1) (by omega)
    · have hall := h.increments_eq hin
      have hvalue := h.value t v hv
      have hcounter := h.counter
      have hsum : ∑ u, (Function.update s.own t w u).printed =
          (∑ u, (s.own u).printed) + 1 := by omega
      have hnext : v = 1 + ∑ u, (s.own u).printed := by omega
      rw [hline, List.map_append, h.lines, hsum, List.range'_1_concat, ← hnext]
      rfl
  · rcases heff.lines with ⟨hsame, heq⟩ | ⟨v, -, hline, heq, -, -⟩
    · rw [hsame, h.each u]
      by_cases hu : u = t
      · rw [hu, Function.update_self, heq]
      · rw [Function.update_of_ne hu]
    · rw [hline, filter_concat, h.each u]
      by_cases hu : u = t
      · rw [hu, Function.update_self, if_pos rfl, heq]
      · rw [Function.update_of_ne hu, if_neg hu, Nat.add_zero]

end MutexInv

theorem mutexInv_start : MutexInv mutexStart := by
  refine ⟨fun t => ?_, fun t => ?_, rfl, fun t v hv => ?_, rfl, fun t => rfl⟩
  · exact iff_of_false id (by simp [mutexStart])
  · exact Nat.zero_le 5
  · exact absurd hv (by simp [mutexStart, Worker.value])

/-- A thread that makes no step has ended, or waits for the mutex. -/
theorem waits_of_none (h : mutexTesting t w g = none) :
    w.place = .ended ∨ w.place = .lock ∧ g.myMutex ≠ none := by
  obtain ⟨i, place⟩ := w
  cases place with
  | ended => exact Or.inl rfl
  | lock => exact Or.inr ⟨rfl, fun hfree => absurd h (by simp [mutexTesting, hfree])⟩
  | _ => exact absurd h (by simp [mutexTesting])

/-- When no thread can make a step, all have ended: there is no deadlock. -/
theorem MutexInv.final (h : MutexInv s)
    (hnone : ∀ t, mutexTesting t (s.own t) s.shared = none) : MutexFinal s := by
  -- A thread that has the mutex is inside, where it does not wait.
  have hfree : s.shared.myMutex = none := by
    cases hmutex : s.shared.myMutex with
    | none => rfl
    | some u =>
      have hin := (h.held u).mpr hmutex
      unfold Worker.Inside at hin
      rcases waits_of_none (hnone u) with hplace | ⟨hplace, -⟩ <;> rw [hplace] at hin <;>
        exact hin.elim
  have hended : ∀ t, (s.own t).place = .ended := fun t =>
    (waits_of_none (hnone t)).resolve_right fun hwait => hwait.2 hfree
  have hrounds : ∀ t, (s.own t).i = 5 ∧ (s.own t).increments = 5 ∧ (s.own t).printed = 5 := by
    intro t
    have hok := h.ok t
    unfold Worker.Ok at hok
    unfold Worker.increments Worker.printed
    rw [hended t] at hok ⊢
    exact ⟨hok, hok, hok⟩
  have hcounter := h.counter
  have hlines := h.lines
  simp only [(hrounds _).2.1] at hcounter
  simp only [(hrounds _).2.2] at hlines
  exact ⟨hended, hfree, hcounter, hlines, fun t => (h.each t).trans (hrounds t).2.2⟩

/-- After every schedule at most one thread is in the section of the mutex, the lines show the
counters 1, 2, and so on, and no more than 123 steps were made; and when no thread can make a step,
all have ended, with 15 lines, 5 of each thread. -/
theorem mutex_testing_run (ts : List Fruit) (s : State Fruit Worker Shared)
    (h : Leads mutexTesting mutexStart ts s) :
    (∀ t u, (s.own t).Inside → (s.own u).Inside → t = u) ∧
    s.shared.lines.map Prod.snd = List.range' 1 s.shared.lines.length ∧ ts.length ≤ 123 ∧
    ((∀ t, mutexTesting t (s.own t) s.shared = none) → MutexFinal s) := by
  have hinv : MutexInv s :=
    of_schedule MutexInv (fun _ _ _ _ hs hnext => (hs.step hnext).1) mutexInv_start h
  have hlength := length_add_le MutexInv (m := Worker.way) (fun _ _ _ _ hs hnext => hs.step hnext)
    mutexInv_start h
  have hstart : ∑ t, (mutexStart.own t).way = 123 := rfl
  have hlines := congrArg List.length hinv.lines
  rw [List.length_map, List.length_range'] at hlines
  exact ⟨fun t u => hinv.held.exclusive, by rw [hinv.lines, hlines], by omega, hinv.final⟩

/-- Two threads print a line, of which the second one begins while the first one has the mutex. -/
def twoLines : List Fruit :=
  [.apple, .apple, .mango, .apple, .apple, .banana, .apple, .apple, .apple, .apple, .mango, .mango,
    .mango, .apple, .mango, .mango, .mango]

/-- The lines of two threads. -/
theorem mutex_testing_run_two : ∃ s, Leads mutexTesting mutexStart twoLines s ∧
    s.shared.lines = [(1, 1), (2, 2)] ∧ (∀ t u, (s.own t).Inside → (s.own u).Inside → t = u) ∧
    s.shared.lines.map Prod.snd = List.range' 1 s.shared.lines.length ∧ twoLines.length ≤ 123 ∧
    ((∀ t, mutexTesting t (s.own t) s.shared = none) → MutexFinal s) :=
  ⟨_, ⟨_, rfl⟩, rfl, mutex_testing_run twoLines _ ⟨_, rfl⟩⟩

end GemOS.Pthreads
