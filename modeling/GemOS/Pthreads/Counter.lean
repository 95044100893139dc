import GemOS.Lib.Threads

/-!
# A counter without a mutex

A transcription of `src/pthreads/create.c`: two threads increment `counter`, which is volatile, so
that `counter ++` is a load and a store. The threads interleave between them, and a store of one
thread may undo all increments that the other one has made since the load.

`create_counter_iff` says what `main` may print in the end: any number from 2 to 2000000, and no
other. At least 2 increments are left, since the last load of the thread that stores last comes
after its first store.
-/

namespace GemOS.Pthreads

open Threads

/-- The threads, by their arguments. -/
inductive Arg where
  | a
  | b
  deriving DecidableEq

instance : Fintype Arg := ⟨{.a, .b}, fun t => by cases t <;> decide⟩

/-- The lines of the program. -/
inductive Line where
  /-- `main: begin`. -/
  | mainBegin (counter : ℕ)
  /-- `A: begin`. -/
  | begins (t : Arg)
  /-- `A: Done`. -/
  | done (t : Arg)
  /-- `main: done with both`. -/
  | mainDone (counter : ℕ)

/-- Where a thread is in `mythread`. -/
inductive CountPlace where
  /-- At the first `printf`. -/
  | start
  /-- At the condition of the loop, and the load of `counter` behind it. -/
  | load
  /-- At the store of `counter`, after `v` was read. -/
  | store (v : ℕ)
  /-- Behind `return`. -/
  | ended
  deriving DecidableEq

/-- The local state of a thread. -/
structure Count where
  i : ℕ
  place : CountPlace

/-- What the threads share. -/
structure CountShared where
  counter : ℕ
  /-- The lines so far. -/
  lines : List Line

/-- A step of a thread in `mythread`, with `n` rounds of its loop. -/
def mythread (n : ℕ) (t : Arg) (w : Count) (g : CountShared) : Option (Count × CountShared) :=
  match w.place with
  | .start => some (⟨w.i, .load⟩, { g with lines := g.lines ++ [.begins t] })
  | .load =>
    if w.i < n then some (⟨w.i, .store g.counter⟩, g)
    else some (⟨w.i, .ended⟩, { g with lines := g.lines ++ [.done t] })
  | .store v => some (⟨w.i + 1, .load⟩, { g with counter := v + 1 })
  | .ended => none

/-- The threads when they are created. -/
def countStart : State Arg Count CountShared := ⟨fun _ => ⟨0, .start⟩, ⟨0, [.mainBegin 0]⟩⟩

/-- The lines of `main`, for a schedule of its threads. It waits in `pthread_join` until both of
them have ended. -/
def main (n : ℕ) (ts : List Arg) : Option (List Line) :=
  match Run.run (step (mythread n)) countStart ts with
  | none => none
  | some (_, s) =>
    if (s.own .a).place = .ended ∧ (s.own .b).place = .ended then
      some (s.shared.lines ++ [.mainDone s.shared.counter])
    else none

/-! ## Bounds -/

/-- The rounds of the loop. -/
def Count.Ok (n : ℕ) (w : Count) : Prop :=
  match w.place with
  | .start => w.i = 0
  | .load => w.i ≤ n
  | .store _ => w.i < n
  | .ended => w.i = n

/-- The invariant of the counter. -/
structure CountInv (n : ℕ) (s : State Arg Count CountShared) : Prop where
  /-- The rounds of the loops are right. -/
  ok : ∀ t, (s.own t).Ok n
  /-- There are no more increments than rounds. -/
  le : s.shared.counter ≤ ∑ t, (s.own t).i
  /-- No value that was read is larger. -/
  value_le : ∀ t v, (s.own t).place = .store v → v ≤ ∑ t, (s.own t).i
  /-- After the first round of a thread the counter is not 0. -/
  pos : ∀ t, 1 ≤ (s.own t).i → 1 ≤ s.shared.counter
  /-- What a thread reads after its first round is not 0. -/
  value_pos : ∀ t v, (s.own t).place = .store v → 1 ≤ (s.own t).i → 1 ≤ v
  /-- After the last round of both threads the counter is not 1. -/
  last : (∀ t, (s.own t).i = n) → 2 ≤ s.shared.counter

/-- What a step does. -/
structure CountEffect (n : ℕ) (w : Count) (g : CountShared) (w' : Count) (g' : CountShared) :
    Prop where
  /-- The rounds stay right. -/
  ok : w.Ok n → w'.Ok n
  /-- A round ends with a store. -/
  counter : g'.counter = g.counter ∧ w'.i = w.i ∨
    ∃ v, w.place = .store v ∧ g'.counter = v + 1 ∧ w'.i = w.i + 1 ∧ w'.place = .load
  /-- A value that is read is that of the counter. -/
  value : ∀ v, w'.place = .store v → v = g.counter ∧ w'.i = w.i

variable {n i k v c : ℕ} {s s' : State Arg Count CountShared} {t u : Arg} {w w' x x' y y' : Count}
  {g g' : CountShared} {l l' : List Line}

theorem effect_of_mythread (h : mythread n t w g = some (w', g')) : CountEffect n w g w' g' := by
  obtain ⟨i, place⟩ := w
  cases place with
  | start =>
    obtain ⟨rfl, rfl⟩ := Prod.mk.inj (Option.some.inj h)
    exact ⟨fun hok => (le_of_eq hok).trans (Nat.zero_le n), Or.inl ⟨rfl, rfl⟩, by simp⟩
  | load =>
    unfold mythread at h
    dsimp only at h
    split_ifs at h with hi
    · obtain ⟨rfl, rfl⟩ := Prod.mk.inj (Option.some.inj h)
      exact ⟨fun _ => hi, Or.inl ⟨rfl, rfl⟩, by simp⟩
    · obtain ⟨rfl, rfl⟩ := Prod.mk.inj (Option.some.inj h)
      exact ⟨fun hok => le_antisymm hok (Nat.not_lt.mp hi), Or.inl ⟨rfl, rfl⟩, by simp⟩
  | store v =>
    obtain ⟨rfl, rfl⟩ := Prod.mk.inj (Option.some.inj h)
    exact ⟨Nat.succ_le_of_lt, Or.inr ⟨v, rfl, rfl, rfl, rfl⟩, by simp⟩
  | ended => exact absurd h (by simp [mythread])

theorem countInv_start (hn : 2 ≤ n) : CountInv n countStart := by
  refine ⟨fun t => rfl, le_of_eq rfl, fun t v hv => ?_, fun t ht => ?_, fun t v hv => ?_,
    fun h => ?_⟩
  · exact absurd hv (by simp [countStart])
  · exact absurd ht (by simp [countStart])
  · exact absurd hv (by simp [countStart])
  · have := h .a
    simp only [countStart] at this
    omega

/-- Every step keeps the bounds. -/
theorem CountInv.step (h : CountInv n s) (hn : 2 ≤ n)
    (hnext : mythread n t (s.own t) s.shared = some (w, g)) :
    CountInv n ⟨Function.update s.own t w, g⟩ := by
  have heff := effect_of_mythread hnext
  have hsum := sum_update Count.i s.own t w
  have hmono : ∑ u, (s.own u).i ≤ ∑ u, (Function.update s.own t w u).i := by
    rcases heff.counter with ⟨-, hi⟩ | ⟨v, -, -, hi, -⟩ <;> omega
  refine ⟨(Function.forall_update_iff s.own fun _ w => w.Ok n).mpr
      ⟨heff.ok (h.ok t), fun u _ => h.ok u⟩, ?_, ?_, ?_, ?_, fun hall => ?_⟩ <;> dsimp only
  · have hle := h.le
    rcases heff.counter with ⟨hsame, -⟩ | ⟨v, hv, hstore, hi, -⟩
    · omega
    · have := h.value_le t v hv
      omega
  · refine (Function.forall_update_iff s.own fun _ w => ∀ v, w.place = .store v → v ≤ _).mpr
      ⟨fun v hv => ?_, fun u _ v hv => (h.value_le u v hv).trans hmono⟩
    rw [(heff.value v hv).1]
    exact h.le.trans hmono
  · rcases heff.counter with ⟨hsame, hi⟩ | ⟨v, -, hstore, -, -⟩
    · rw [hsame]
      refine (Function.forall_update_iff s.own fun _ w => 1 ≤ w.i → _).mpr
        ⟨fun h1 => h.pos t (hi ▸ h1), fun u _ => h.pos u⟩
    · exact fun u _ => by omega
  · refine (Function.forall_update_iff s.own fun _ w =>
      ∀ v, w.place = .store v → 1 ≤ w.i → 1 ≤ v).mpr ⟨fun v hv h1 => ?_, fun u _ => h.value_pos u⟩
    obtain ⟨rfl, hi⟩ := heff.value v hv
    exact h.pos t (hi ▸ h1)
  · obtain ⟨hw, hother⟩ := (Function.forall_update_iff s.own fun _ w => w.i = n).mp hall
    rcases heff.counter with ⟨hsame, hi⟩ | ⟨v, hv, hstore, hi, -⟩
    · rw [hsame]
      refine h.last fun u => ?_
      by_cases hu : u = t
      · rw [hu, ← hi, hw]
      · exact hother u hu
    · -- The thread that stores last has read the counter after its own first store.
      have := h.value_pos t v hv (by omega)
      omega

/-- When both threads have ended, the counter is between 2 and the number of all rounds. -/
theorem CountInv.bounds (h : CountInv n s) (ha : (s.own .a).place = .ended)
    (hb : (s.own .b).place = .ended) : 2 ≤ s.shared.counter ∧ s.shared.counter ≤ 2 * n := by
  have hrounds : ∀ t, (s.own t).i = n := by
    intro t
    have hok := h.ok t
    unfold Count.Ok at hok
    cases t with
    | a => rwa [ha] at hok
    | b => rwa [hb] at hok
  refine ⟨h.last hrounds, h.le.trans (le_of_eq ?_)⟩
  simp only [hrounds]
  exact (Nat.two_mul n).symm

/-! ## Schedules -/

/-- A schedule leads from one state to another. -/
def Reaches (n : ℕ) (s s' : State Arg Count CountShared) : Prop :=
  ∃ ts, Leads (mythread n) s ts s'

theorem Reaches.trans {s'' : State Arg Count CountShared} (h : Reaches n s s')
    (h' : Reaches n s' s'') : Reaches n s s'' := by
  obtain ⟨ts, hts⟩ := h
  obtain ⟨ts', hts'⟩ := h'
  exact ⟨ts ++ ts', hts.append hts'⟩

/-- The other thread. -/
def Arg.other : Arg → Arg
  | .a => .b
  | .b => .a

/-- The thread `t` is in the state `x`, and the other one in `y`. -/
def duo (t : Arg) (x y : Count) (c : ℕ) (l : List Line) : State Arg Count CountShared :=
  ⟨fun u => if u = t then x else y, ⟨c, l⟩⟩

theorem duo_swap (t : Arg) (x y : Count) (c : ℕ) (l : List Line) :
    duo t x y c l = duo t.other y x c l := by
  refine State.ext (funext fun u => ?_) rfl
  cases t <;> cases u <;> rfl

/-- A step of the thread `t`. -/
theorem reaches_first (h : mythread n t x ⟨c, l⟩ = some (x', ⟨k, l'⟩)) :
    Reaches n (duo t x y c l) (duo t x' y k l') := by
  have hnext : mythread n t ((duo t x y c l).own t) (duo t x y c l).shared =
      some (x', ⟨k, l'⟩) := by
    rw [← h]
    simp [duo]
  have hstep := Leads.single hnext
  have hend : (⟨Function.update (duo t x y c l).own t x', ⟨k, l'⟩⟩ : State Arg Count CountShared) =
      duo t x' y k l' := by
    refine State.ext (funext fun u => ?_) rfl
    by_cases hu : u = t <;> simp [duo, hu]
  rw [hend] at hstep
  exact ⟨[t], hstep⟩

/-- What the thread `t` can do, the other one can do as well. -/
theorem Reaches.swap (h : Reaches n (duo t.other y x c l) (duo t.other y' x' k l')) :
    Reaches n (duo t x y c l) (duo t x' y' k l') := by
  rwa [duo_swap t x y, duo_swap t x' y']

theorem reaches_load (t : Arg) (y : Count) (c : ℕ) (l : List Line) (hi : i < n) :
    Reaches n (duo t ⟨i, .load⟩ y c l) (duo t ⟨i, .store c⟩ y c l) :=
  reaches_first (if_pos hi)

theorem reaches_store (n i v : ℕ) (t : Arg) (y : Count) (c : ℕ) (l : List Line) :
    Reaches n (duo t ⟨i, .store v⟩ y c l) (duo t ⟨i + 1, .load⟩ y (v + 1) l) :=
  reaches_first rfl

/-- A thread makes rounds while the other one does nothing. -/
theorem reaches_rounds (t : Arg) (y : Count) (c : ℕ) (l : List Line) (hk : i + k ≤ n) :
    Reaches n (duo t ⟨i, .load⟩ y c l) (duo t ⟨i + k, .load⟩ y (c + k) l) := by
  induction k with
  | zero => exact ⟨[], Leads.nil _⟩
  | succ k ih =>
    have hload := reaches_load t y (c + k) l (by omega : i + k < n)
    exact ((ih (by omega)).trans hload).trans (reaches_store n (i + k) (c + k) t y (c + k) l)

/-- Both threads read the same value, `k` times, so that of every two increments one is lost. -/
theorem reaches_lost (c : ℕ) (l : List Line) (hk : i + k ≤ n) :
    Reaches n (duo .a ⟨i, .load⟩ ⟨i, .load⟩ c l)
      (duo .a ⟨i + k, .load⟩ ⟨i + k, .load⟩ (c + k) l) := by
  induction k with
  | zero => exact ⟨[], Leads.nil _⟩
  | succ k ih =>
    have hlt : i + k < n := by omega
    have hload := reaches_load .a ⟨i + k, .load⟩ (c + k) l hlt
    have hload' := (reaches_load .b ⟨i + k, .store (c + k)⟩ (c + k) l hlt).swap (t := .a)
    have hstore := reaches_store n (i + k) (c + k) .a ⟨i + k, .store (c + k)⟩ (c + k) l
    have hstore' := (reaches_store n (i + k) (c + k) .b ⟨i + k + 1, .load⟩ (c + k + 1) l).swap
      (t := .a)
    exact ((((ih (by omega)).trans hload).trans hload').trans hstore).trans hstore'

/-- Almost all increments of one thread are undone by the first store of the other one, and almost
all of the other one by the last store of the first. -/
theorem reaches_low {j : ℕ} (l : List Line) (hj : j + 1 ≤ n) :
    Reaches n (duo .a ⟨0, .load⟩ ⟨0, .load⟩ 0 l) (duo .a ⟨n, .load⟩ ⟨n, .load⟩ (j + 2) l) := by
  obtain ⟨m, rfl⟩ : ∃ m, n = j + m + 1 := ⟨n - j - 1, by omega⟩
  -- The other thread makes all its rounds but one while the first one holds 0.
  have hload := reaches_load .a ⟨0, .load⟩ 0 l (by omega : 0 < j + m + 1)
  have hother := (reaches_rounds .b ⟨0, .store 0⟩ 0 l (by omega : 0 + (j + m) ≤ j + m + 1)).swap
    (t := .a)
  have hstore := reaches_store (j + m + 1) 0 0 .a ⟨0 + (j + m), .load⟩ (0 + (j + m)) l
  -- The first one makes its rounds, the last `m` of them while the other one holds `j + 1`.
  have hrounds := reaches_rounds .a ⟨0 + (j + m), .load⟩ 1 l (by omega : 1 + j ≤ j + m + 1)
  have hload' := (reaches_load .b ⟨1 + j, .load⟩ (1 + j) l
    (by omega : 0 + (j + m) < j + m + 1)).swap (t := .a)
  have hrest := reaches_rounds .a ⟨0 + (j + m), .store (1 + j)⟩ (1 + j) l
    (by omega : 1 + j + m ≤ j + m + 1)
  have hstore' := (reaches_store (j + m + 1) (0 + (j + m)) (1 + j) .b ⟨1 + j + m, .load⟩
    (1 + j + m) l).swap (t := .a)
  have hall :=
    (((((hload.trans hother).trans hstore).trans hrounds).trans hload').trans hrest).trans hstore'
  have hend : duo .a ⟨1 + j + m, .load⟩ ⟨0 + (j + m) + 1, .load⟩ (1 + j + 1) l =
      duo .a ⟨j + m + 1, .load⟩ ⟨j + m + 1, .load⟩ (j + 2) l := by
    rw [show 1 + j + m = j + m + 1 by omega, show 0 + (j + m) + 1 = j + m + 1 by omega,
      show 1 + j + 1 = j + 2 by omega]
  rwa [hend] at hall

/-- The first `k` increments of one thread are lost. -/
theorem reaches_high (l : List Line) (hk : k ≤ n) :
    Reaches n (duo .a ⟨0, .load⟩ ⟨0, .load⟩ 0 l)
      (duo .a ⟨n, .load⟩ ⟨n, .load⟩ (2 * n - k) l) := by
  have hlost := reaches_lost (n := n) (i := 0) 0 l (by omega : 0 + k ≤ n)
  have hfirst := reaches_rounds .a ⟨0 + k, .load⟩ (0 + k) l (by omega : 0 + k + (n - k) ≤ n)
  have hsecond := (reaches_rounds .b ⟨0 + k + (n - k), .load⟩ (0 + k + (n - k)) l
    (by omega : 0 + k + (n - k) ≤ n)).swap (t := .a)
  have hall := (hlost.trans hfirst).trans hsecond
  have hn : 0 + k + (n - k) = n := by omega
  have hcounter : 0 + k + (n - k) + (n - k) = 2 * n - k := by omega
  rwa [hcounter, hn] at hall

/-- Every number between the bounds is reached. -/
theorem reaches_between (l : List Line) (hlow : 2 ≤ v) (hhigh : v ≤ 2 * n) :
    Reaches n (duo .a ⟨0, .load⟩ ⟨0, .load⟩ 0 l) (duo .a ⟨n, .load⟩ ⟨n, .load⟩ v l) := by
  rcases Nat.le_total v n with hv | hv
  · have h := reaches_low (n := n) (j := v - 2) l (by omega)
    rwa [Nat.sub_add_cancel hlow] at h
  · have h := reaches_high (n := n) (k := 2 * n - v) l (by omega)
    rwa [Nat.sub_sub_self hhigh] at h

/-! ## The program -/

/-- The lines before the threads increment the counter. -/
def beginLines : List Line := [.mainBegin 0, .begins .a, .begins .b]

/-- The program, up to the first increment and from the last one on. -/
theorem main_of_reaches
    (h : Reaches n (duo .a ⟨0, .load⟩ ⟨0, .load⟩ 0 beginLines)
      (duo .a ⟨n, .load⟩ ⟨n, .load⟩ v beginLines)) :
    ∃ ts, main n ts = some (beginLines ++ [.done .a, .done .b] ++ [.mainDone v]) := by
  have hbegin : Reaches n (duo .a ⟨0, .start⟩ ⟨0, .start⟩ 0 [.mainBegin 0])
      (duo .a ⟨0, .load⟩ ⟨0, .load⟩ 0 beginLines) :=
    (reaches_first rfl).trans ((reaches_first rfl).swap (t := .a))
  have hdone : mythread n .a ⟨n, .load⟩ ⟨v, beginLines⟩ =
      some (⟨n, .ended⟩, ⟨v, beginLines ++ [.done .a]⟩) := if_neg (lt_irrefl n)
  have hdone' : mythread n .b ⟨n, .load⟩ ⟨v, beginLines ++ [.done .a]⟩ =
      some (⟨n, .ended⟩, ⟨v, beginLines ++ [.done .a] ++ [.done .b]⟩) := if_neg (lt_irrefl n)
  obtain ⟨ts, hist, hrun⟩ := ((hbegin.trans h).trans (reaches_first hdone)).trans
    ((reaches_first hdone').swap (t := .a))
  have hstart : duo .a ⟨0, .start⟩ ⟨0, .start⟩ 0 [.mainBegin 0] = countStart :=
    State.ext (funext fun u => ite_self _) rfl
  rw [hstart] at hrun
  refine ⟨ts, ?_⟩
  unfold main
  rw [hrun]
  simp [duo]

/-- What `main` prints of the counter in the end is a number from 2 to 2000000, and any of them for
some schedule of the threads. -/
theorem create_counter_iff (v : ℕ) :
    (∃ ts lines, main 1000000 ts = some (lines ++ [.mainDone v])) ↔ 2 ≤ v ∧ v ≤ 2000000 := by
  constructor
  · rintro ⟨ts, lines, hmain⟩
    unfold main at hmain
    cases hrun : Run.run (step (mythread 1000000)) countStart ts with
    | none =>
      rw [hrun] at hmain
      exact absurd hmain (by simp)
    | some r =>
      obtain ⟨hist, s⟩ := r
      rw [hrun] at hmain
      dsimp only at hmain
      split_ifs at hmain with hended
      have hinv : CountInv 1000000 s := of_schedule (CountInv 1000000)
        (fun _ _ _ _ hs hnext => hs.step (by omega) hnext) (countInv_start (by omega)) ⟨hist, hrun⟩
      have hbounds := hinv.bounds hended.1 hended.2
      have hlast := (List.append_inj' (Option.some.inj hmain) rfl).2
      obtain rfl : s.shared.counter = v := by simpa using hlast
      exact hbounds
  · rintro ⟨hlow, hhigh⟩
    obtain ⟨ts, hmain⟩ := main_of_reaches (n := 1000000) (reaches_between beginLines hlow hhigh)
    exact ⟨ts, _, hmain⟩

end GemOS.Pthreads
