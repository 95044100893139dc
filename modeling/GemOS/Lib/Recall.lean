import GemOS.Lib.Run

/-!
# Memories and histories

What a memory should hold follows from the history of its operations: the value that was stored last
at an address, unless the address was lost since. `recalled` reads this off a history. The rule
`recalled_of_run` says when a system keeps such a memory: every step changes what is to be seen at
an address only as its `Touch` says.
-/

namespace GemOS.Run

variable {σ ι ο α β : Type*}

/-- What an operation does to the memory at an address. -/
inductive Touch (β : Type*) where
  /-- The value stays. -/
  | keep
  /-- The value is stored. -/
  | put (v : β)
  /-- The value is lost. -/
  | lose

/-- What is known of the value after the operation. -/
def Touch.apply : Touch β → Option β → Option β
  | .keep, x => x
  | .put v, _ => some v
  | .lose, _ => none

/-- The value at an address after a history: the one stored last, unless it was lost since. -/
def recalled (touch : ι × ο → α → Touch β) (h : List (ι × ο)) (a : α) : Option β :=
  h.foldl (fun x e => (touch e a).apply x) none

variable {step : σ → ι → Option (ο × σ)} {P : σ → ι → Prop} {s s' : σ} {is : List ι} {o : ο}
  {h : List (ι × ο)} {touch : ι × ο → α → Touch β} {a : α} {v : β}

@[simp] theorem recalled_nil (touch : ι × ο → α → Touch β) (a : α) : recalled touch [] a = none :=
  rfl

theorem recalled_concat (touch : ι × ο → α → Touch β) (h : List (ι × ο)) (e : ι × ο) (a : α) :
    recalled touch (h ++ [e]) a = (touch e a).apply (recalled touch h a) := by
  rw [recalled, List.foldl_append, List.foldl_cons, List.foldl_nil, recalled]

/-- The run of two lists is a run of the first one, and a run of the second one from there. -/
theorem run_append_some {is' : List ι} {s'' : σ} (hr : run step s (is ++ is') = some (h, s'')) :
    ∃ h₁ s' h₂, run step s is = some (h₁, s') ∧ run step s' is' = some (h₂, s'') ∧
      h = h₁ ++ h₂ := by
  induction is generalizing s h with
  | nil => exact ⟨[], s, h, rfl, hr, rfl⟩
  | cons i is ih =>
    obtain ⟨o, s₁, tail, hi, ht, rfl⟩ := run_cons_some hr
    obtain ⟨h₁, s', h₂, hr₁, hr₂, rfl⟩ := ih ht
    exact ⟨_, s', h₂, run_cons hi hr₁, hr₂, rfl⟩

/-- A property of the whole history is one of every operation and what was served before it. -/
theorem Throughout.of_run_split {Q : List (ι × ο) → ι → Prop}
    (hQ : Throughout (fun pre i _ => Q pre i) h) (hr : run step s is = some (h, s')) {pre : List ι}
    {i : ι} {post : List ι} {h₁ : List (ι × ο)} {s₁ : σ} (his : is = pre ++ i :: post)
    (hr₁ : run step s pre = some (h₁, s₁)) : Q h₁ i := by
  rw [his] at hr
  obtain ⟨_, _, _, hpre, hpost, rfl⟩ := run_append_some hr
  obtain ⟨rfl, rfl⟩ := Prod.mk.inj (Option.some.inj (hr₁.symm.trans hpre))
  obtain ⟨o, _, tail, -, -, rfl⟩ := run_cons_some hpost
  exact hQ _ i o tail rfl

/-- What a step has to leave of the memory `view`. -/
def Respects (view : σ → α → Option β) (touch : ι × ο → α → Touch β) (s : σ) (i : ι) (o : ο)
    (s' : σ) (a : α) : Prop :=
  ∀ v, (touch (i, o) a).apply (view s a) = some v → view s' a = some v

/-- The rule of memories: when every step respects what the operations do to the memory, what is
recalled is there, and a property `C` of the results that holds when the memory is what is recalled
holds along the run. -/
theorem recalled_of_run (I : σ → Prop) (dom : α → Prop) (view : σ → α → Option β)
    (touch : ι × ο → α → Touch β) (C : (α → Option β) → ι → ο → Prop)
    (hstep : ∀ s i o s', I s → P s i → step s i = some (o, s') →
      I s' ∧ ∀ a, dom a → Respects view touch s i o s' a)
    (hC : ∀ s i o s' known, I s → P s i → step s i = some (o, s') →
      (∀ a, dom a → ∀ v, known a = some v → view s a = some v) → C known i o)
    (hI : I s) (ha : Along step P s is) (hr : run step s is = some (h, s')) :
    (I s' ∧ ∀ a, dom a → ∀ v, recalled touch h a = some v → view s' a = some v) ∧
      Throughout (fun pre => C (recalled touch pre)) h := by
  refine history_of_run
    (fun s h => I s ∧ ∀ a, dom a → ∀ v, recalled touch h a = some v → view s a = some v)
    (fun h => C (recalled touch h)) (fun s h i o s' hs hi heq => ?_)
    ⟨hI, fun a _ v hv => by simp at hv⟩ ha hr
  obtain ⟨hI', hresp⟩ := hstep s i o s' hs.1 hi heq
  refine ⟨⟨hI', fun a hdom v hv => hresp a hdom v ?_⟩, hC s i o s' _ hs.1 hi heq hs.2⟩
  rw [recalled_concat] at hv
  -- What is recalled before the operation is in the memory.
  cases htouch : touch (i, o) a with
  | keep =>
    rw [htouch] at hv
    exact hs.2 a hdom v hv
  | put w =>
    rw [htouch] at hv
    exact hv
  | lose =>
    rw [htouch] at hv
    exact absurd hv (by simp [Touch.apply])

end GemOS.Run
