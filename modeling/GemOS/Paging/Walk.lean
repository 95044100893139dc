import GemOS.Paging.Tree

/-!
# Walks of the page table

`walk` follows a path from the top table, as the processor does, and collects the entries on the
way: the last one says which frame the page has, and all of them together what may be done with it.
`fillPath` fills up the entries on a path with new frames. `walk_fillPath` says that in a tree of
tables this shows at the path only: the entries that were present stay, the others get the given
flags, and all other walks are as they were.
-/

namespace GemOS.Paging

/-- The frames in the order in which they are allocated. -/
def Fresh.frames (fresh : Fresh) : List ℕ := [fresh.pfnL3, fresh.pfnL2, fresh.pfnL1, fresh.dataPfn]

/-- The bit `us` of an entry. -/
def userBit (entry : ℕ) : Bool := entry.testBit 2

/-- The bit `rw` of an entry. -/
def writeBit (entry : ℕ) : Bool := entry.testBit 1

namespace Memory

/-- One step of a walk: the frame that the entry `i` points to, and the entries so far. -/
def edge (mem : Memory) (w : ℕ × List ℕ) (i : Fin 512) : Option (ℕ × List ℕ) :=
  if present (mem w.1 i) then some (entryPfn (mem w.1 i), w.2 ++ [mem w.1 i]) else none

/-- The walk of a path from the table `pgd`: the frame at the end, and the entries on the way. -/
def walk (mem : Memory) (pgd : ℕ) (p : List (Fin 512)) : Option (ℕ × List ℕ) :=
  Radix.node mem.edge (pgd, []) p

/-- The tables are a tree: none is at two places. -/
def TreeShaped (mem : Memory) (pgd : ℕ) : Prop :=
  ∀ p q v w, p.length < 4 → q.length < 4 → mem.walk pgd p = some v → mem.walk pgd q = some w →
    v.1 = w.1 → p = q

/-- A frame is not that of a table. -/
def NotTable (mem : Memory) (pgd g : ℕ) : Prop :=
  ∀ p w, p.length < 4 → mem.walk pgd p = some w → w.1 ≠ g

/-- The frame `g` is hung into the entry `i` of a table. A new table is filled with zeros. -/
def link (mem : Memory) (region : Region) (flags frame : ℕ) (i : Fin 512) (g : ℕ) : Memory :=
  let mem := if region = .osPtReg then Function.update mem g fun _ => 0 else mem
  Function.update mem frame (Function.update (mem frame) i (mkEntry g flags))

/-- The frame that the entry `i` points to, or `g` when it is not present. -/
def next (mem : Memory) (frame : ℕ) (i : Fin 512) (g : ℕ) : ℕ :=
  if present (mem frame i) then entryPfn (mem frame i) else g

/-- The entry `i` of a table is filled up. -/
def fill (mem : Memory) (region : Region) (flags frame : ℕ) (i : Fin 512) (g : ℕ) : Memory :=
  if present (mem frame i) then mem else mem.link region flags frame i g

/-- The entries on a path from a table are filled up with the frames `gs`. The last one is that of a
page. -/
def fillPath (flags : ℕ) : Memory → ℕ → List (Fin 512) → List ℕ → Memory
  | mem, frame, i :: p, g :: gs =>
    fillPath flags (mem.fill (if p = [] then .userReg else .osPtReg) flags frame i g)
      (mem.next frame i g) p gs
  | mem, _, _, _ => mem

/-- The frames that are hung into entries on a path, with their regions. -/
def created (flags : ℕ) : Memory → ℕ → List (Fin 512) → List ℕ → List (Region × ℕ)
  | mem, frame, i :: p, g :: gs =>
    (if present (mem frame i) then [] else [(if p = [] then .userReg else .osPtReg, g)]) ++
      created flags (mem.fill (if p = [] then .userReg else .osPtReg) flags frame i g)
        (mem.next frame i g) p gs
  | _, _, _, _ => []

end Memory

namespace PageTables

/-- The frame that an entry points to after it was filled up. -/
theorem ensureEntry_fst (t : PageTables) (region : Region) (flags frame : ℕ) (i : Fin 512)
    (pfn : ℕ) : (t.ensureEntry region flags frame i pfn).1 = t.mem.next frame i pfn := by
  unfold ensureEntry Memory.next
  split_ifs <;> rfl

/-- The code fills up one entry. -/
theorem ensureEntry_mem (t : PageTables) (region : Region) (flags frame : ℕ) (i : Fin 512)
    (pfn : ℕ) :
    (t.ensureEntry region flags frame i pfn).2.mem = t.mem.fill region flags frame i pfn := by
  unfold ensureEntry Memory.fill
  split_ifs <;> rfl

end PageTables

namespace Memory

variable {mem mem' : Memory} {pgd flags frame g : ℕ} {i : Fin 512}
  {p q r : List (Fin 512)} {es : List ℕ} {gs : List ℕ} {v w : ℕ × List ℕ} {region : Region}

/-! ## One entry -/

theorem walk_nil (mem : Memory) (pgd : ℕ) : mem.walk pgd [] = some (pgd, []) := rfl

theorem walk_concat (p : List (Fin 512)) (i : Fin 512) :
    mem.walk pgd (p ++ [i]) = (mem.walk pgd p).bind fun w => mem.edge w i := Radix.node_concat p i

/-- Nothing is behind an entry that is not present. -/
theorem walk_eq_none (h : mem.walk pgd p = none) (hpq : p <+: q) : mem.walk pgd q = none := by
  obtain ⟨r, rfl⟩ := hpq
  rw [walk, Radix.node_append, ← walk, h, Option.bind_none]

theorem walk_of_prefix (h : mem.walk pgd q = some w) (hpq : p <+: q) :
    ∃ v, mem.walk pgd p = some v := by
  cases hp : mem.walk pgd p with
  | none => exact absurd ((walk_eq_none hp hpq).symm.trans h) (by simp)
  | some v => exact ⟨v, rfl⟩

/-- Stores to other frames do not change a walk. -/
theorem walk_congr (h : ∀ q w, q.length ≤ 4 → mem.walk pgd q = some w → mem' w.1 = mem w.1)
    (hp : p.length ≤ 4) : mem'.walk pgd p = mem.walk pgd p := by
  refine Radix.node_congr fun q j w hpre hq => ?_
  have hlen := hpre.length_le
  rw [List.length_append, List.length_singleton] at hlen
  have hsame := congrFun (h q w (by omega) hq) j
  unfold edge
  rw [hsame]

/-- The first entry of a walk is present, and the walk goes on behind it. -/
theorem node_edge_some (h : Radix.node mem.edge w (i :: p) = some v) :
    present (mem w.1 i) = true ∧
      Radix.node mem.edge (entryPfn (mem w.1 i), w.2 ++ [mem w.1 i]) p = some v := by
  obtain ⟨u, hu, h⟩ := Option.bind_eq_some_iff.mp h
  unfold edge at hu
  split_ifs at hu with hpres
  obtain rfl := Option.some.inj hu
  exact ⟨hpres, h⟩

/-- The entries of a walk are the last entries of the walks on the way. -/
theorem mem_entries (h : mem.walk pgd p = some w) {e : ℕ} (he : e ∈ w.2) :
    ∃ r i g es, r ++ [i] <+: p ∧ mem.walk pgd (r ++ [i]) = some (g, es ++ [e]) := by
  induction p using List.reverseRecOn generalizing w with
  | nil =>
    obtain rfl : (pgd, []) = w := Option.some.inj ((walk_nil mem pgd).symm.trans h)
    simp at he
  | append_singleton p i ih =>
    have hstep := h
    rw [walk_concat] at hstep
    obtain ⟨v, hv, hedge⟩ := Option.bind_eq_some_iff.mp hstep
    unfold edge at hedge
    split_ifs at hedge
    obtain rfl := Option.some.inj hedge
    rcases List.mem_append.mp he with he | he
    · obtain ⟨r, j, g, es, hr, hwalk⟩ := ih hv he
      exact ⟨r, j, g, es, hr.trans (List.prefix_append p [i]), hwalk⟩
    · rw [List.mem_singleton.mp he]
      exact ⟨p, i, _, _, List.prefix_refl _, h⟩

/-- The last entry on the way is one of the entries. -/
theorem entries_of_prefix (h : mem.walk pgd p = some w) (hq : q <+: p)
    (hv : mem.walk pgd q = some v) {e : ℕ} (he : e ∈ v.2) : e ∈ w.2 := by
  obtain ⟨r, rfl⟩ := hq
  induction r using List.reverseRecOn generalizing w with
  | nil =>
    rw [List.append_nil, hv] at h
    rwa [← Option.some.inj h]
  | append_singleton r i ih =>
    rw [← List.append_assoc, walk_concat] at h
    obtain ⟨u, hu, hedge⟩ := Option.bind_eq_some_iff.mp h
    unfold edge at hedge
    split_ifs at hedge
    obtain rfl := Option.some.inj hedge
    exact List.mem_append_left _ (ih hu)

/-- The entries of a table that is not written to are as they were. -/
theorem link_other {x : ℕ} {j : Fin 512} (hg : x ≠ g) (h : x ≠ frame ∨ j ≠ i) :
    mem.link region flags frame i g x j = mem x j := by
  unfold link
  have halloc : ∀ y, y ≠ g →
      (if region = .osPtReg then Function.update mem g fun _ => 0 else mem) y =
        mem y := fun y hy => by
    split_ifs
    · exact Function.update_of_ne hy _ _
    · rfl
  by_cases hx : x = frame
  · rw [hx, Function.update_self, Function.update_of_ne (h.resolve_left (not_not.mpr hx)), halloc]
    rwa [← hx]
  · rw [Function.update_of_ne hx, halloc x hg]

theorem link_self : mem.link region flags frame i g frame i = mkEntry g flags := by
  simp [link]

/-- A new table has no entries. -/
theorem link_new (hne : g ≠ frame) (j : Fin 512) : mem.link .osPtReg flags frame i g g j = 0 := by
  simp [link, Function.update_of_ne hne]

/-- A change of one entry in the tree, and of tables outside, shows at the paths through the entry
only. -/
theorem walk_of_not_prefix (htree : mem.TreeShaped pgd) (hp : mem.walk pgd p = some (frame, es))
    (hlen : p.length < 4) (hsame : ∀ r x j, r.length < 4 → mem.walk pgd r = some x →
      x.1 ≠ frame ∨ j ≠ i → mem' x.1 j = mem x.1 j) (hq : q.length ≤ 4) (hpre : ¬p ++ [i] <+: q) :
    mem'.walk pgd q = mem.walk pgd q := by
  refine Radix.node_congr fun r j x hrj hr => ?_
  have hlt : r.length < 4 := by
    have := hrj.length_le
    rw [List.length_append, List.length_singleton] at this
    omega
  have hx : x.1 ≠ frame ∨ j ≠ i := by
    by_contra hcon
    obtain ⟨hx, rfl⟩ : x.1 = frame ∧ j = i := by simpa using hcon
    obtain rfl := htree r p x _ hlt hlen hr hp hx
    exact hpre hrj
  rw [edge, edge, hsame r x j hlt hr hx]

/-- What filling up the entry at the path `p` shows. -/
structure Filled (mem mem' : Memory) (pgd flags : ℕ) (p : List (Fin 512)) (i : Fin 512) (g : ℕ)
    (es : List ℕ) : Prop where
  /-- The entry was present, or has the flags now. -/
  entry : mem'.walk pgd (p ++ [i]) =
    some ((mem.walk pgd (p ++ [i])).getD (g, es ++ [mkEntry g flags]))
  /-- The other walks are as they were. -/
  other : ∀ q, q.length ≤ 4 → q ≠ p ++ [i] → mem'.walk pgd q = mem.walk pgd q

/-- A new frame is hung into an entry that was not present. -/
theorem Filled.link (htree : mem.TreeShaped pgd) (hp : mem.walk pgd p = some (frame, es))
    (hlen : p.length < 4) (habsent : present (mem frame i) = false) (hnew : mem.NotTable pgd g)
    (hg : g < 2^20) (hflags : flags.testBit 0 = true) (hflags' : flags < 2^12)
    (hregion : p.length + 1 < 4 → region = .osPtReg) :
    Filled mem (mem.link region flags frame i g) pgd flags p i g es := by
  have hnone : mem.walk pgd (p ++ [i]) = none := by
    rw [walk_concat, hp, Option.bind_some, edge, if_neg (by simp [habsent])]
  -- A walk that does not come through the entry does not meet the new frame, and no written entry.
  have hother : ∀ q, q.length ≤ 4 → ¬p ++ [i] <+: q →
      (mem.link region flags frame i g).walk pgd q = mem.walk pgd q := fun q hq hpre =>
    walk_of_not_prefix htree hp hlen
      (fun r x j hlt hr hx => link_other (hnew r x hlt hr) hx) hq hpre
  have hp' : (mem.link region flags frame i g).walk pgd p = some (frame, es) := by
    rw [hother p (by omega) (Radix.not_prefix_concat p i), hp]
  have hentry : (mem.link region flags frame i g).walk pgd (p ++ [i]) =
      some (g, es ++ [mkEntry g flags]) := by
    rw [walk_concat, hp', Option.bind_some, edge, link_self, if_pos (present_mkEntry g hflags),
      entryPfn_mkEntry hg hflags']
  refine ⟨by rw [hentry, hnone, Option.getD_none], fun q hq hne => ?_⟩
  by_cases hpre : p ++ [i] <+: q
  · -- The new table is empty, and behind the entry was nothing before.
    rw [walk_eq_none hnone hpre]
    obtain ⟨r, rfl⟩ := hpre
    cases r with
    | nil => exact absurd (List.append_nil _) hne
    | cons j r =>
      simp only [List.length_append, List.length_cons, List.length_nil] at hq
      have hgf : g ≠ frame := fun h => hnew p _ hlen hp h.symm
      refine walk_eq_none (p := p ++ [i] ++ [j]) ?_ ⟨r, by simp⟩
      rw [walk_concat, hentry, Option.bind_some, edge, hregion (by omega), link_new hgf]
      rfl
  · exact hother q hq hpre

/-- An entry is filled up. -/
theorem filled_fill (htree : mem.TreeShaped pgd) (hp : mem.walk pgd p = some (frame, es))
    (hlen : p.length < 4) (hnew : mem.NotTable pgd g) (hg : g < 2^20)
    (hflags : flags.testBit 0 = true)
    (hflags' : flags < 2^12) (hregion : p.length + 1 < 4 → region = .osPtReg) :
    Filled mem (mem.fill region flags frame i g) pgd flags p i g es := by
  unfold fill
  split_ifs with hpres
  · refine ⟨?_, fun _ _ _ => rfl⟩
    rw [walk_concat, hp, Option.bind_some, edge, if_pos hpres, Option.getD_some]
  · exact Filled.link htree hp hlen (by simpa using hpres) hnew hg hflags hflags' hregion

/-- The frame at the path is the one with which a page fault goes on. -/
theorem getD_walk (hp : mem.walk pgd p = some (frame, es)) :
    ((mem.walk pgd (p ++ [i])).getD (g, es ++ [mkEntry g flags])).1 = mem.next frame i g := by
  rw [walk_concat, hp, Option.bind_some, edge, next]
  split_ifs <;> rfl

/-- A walk after an entry was filled up is an old one, or ends at the new frame. -/
theorem Filled.cases (h : Filled mem mem' pgd flags p i g es) (hq : q.length ≤ 4)
    (hw : mem'.walk pgd q = some w) :
    mem.walk pgd q = some w ∨ mem.walk pgd q = none ∧ q = p ++ [i] ∧ w.1 = g := by
  by_cases hqp : q = p ++ [i]
  · subst hqp
    rw [h.entry] at hw
    cases hold : mem.walk pgd (p ++ [i]) with
    | none =>
      rw [hold, Option.getD_none, Option.some.injEq] at hw
      exact Or.inr ⟨rfl, rfl, congrArg Prod.fst hw.symm⟩
    | some v =>
      rw [hold, Option.getD_some] at hw
      exact Or.inl hw
  · exact Or.inl ((h.other q hq hqp).symm.trans hw)

/-- The tables are a tree as before. -/
theorem Filled.treeShaped (h : Filled mem mem' pgd flags p i g es) (htree : mem.TreeShaped pgd)
    (hnew : mem.NotTable pgd g) : mem'.TreeShaped pgd := by
  intro q r v w hq hr hv hw hvw
  rcases h.cases (by omega) hv with hv | ⟨-, rfl, hvg⟩
  · rcases h.cases (by omega) hw with hw | ⟨-, rfl, hwg⟩
    · exact htree q r v w hq hr hv hw hvw
    · exact absurd (hvw.trans hwg) (hnew q v hq hv)
  · rcases h.cases (by omega) hw with hw | ⟨-, rfl, -⟩
    · exact absurd (hvw.symm.trans hvg) (hnew r w hr hw)
    · rfl

/-- A frame that is not the new one is no table as before. -/
theorem Filled.notTable (h : Filled mem mem' pgd flags p i g es) {x : ℕ} (hx : mem.NotTable pgd x)
    (hne : x ≠ g) : mem'.NotTable pgd x := by
  intro q w hq hw
  rcases h.cases (by omega) hw with hw | ⟨-, -, hwg⟩
  · exact hx q w hq hw
  · rw [hwg]
    exact hne.symm

/-! ## A path -/

/-- New frames for the entries on a path. -/
structure Fillable (mem : Memory) (pgd : ℕ) (gs : List ℕ) : Prop where
  /-- The tables are a tree. -/
  treeShaped : mem.TreeShaped pgd
  /-- The frames are different. -/
  nodup : gs.Nodup
  /-- They are not those of tables. -/
  notTable : ∀ g ∈ gs, mem.NotTable pgd g
  /-- They are below `2^20`. -/
  lt : ∀ g ∈ gs, g < 2^20

/-- After the first entry was filled up, the other frames are new. -/
theorem Filled.fillable {g : ℕ} (h : Filled mem mem' pgd flags p i g es)
    (hgs : Fillable mem pgd (g :: gs)) :
    Fillable mem' pgd gs := by
  obtain ⟨hg, hnodup⟩ := List.nodup_cons.mp hgs.nodup
  exact ⟨h.treeShaped hgs.treeShaped (hgs.notTable g (by simp)), hnodup,
    fun x hx => h.notTable (hgs.notTable x (by simp [hx])) fun hxg => hg (hxg ▸ hx),
    fun x hx => hgs.lt x (by simp [hx])⟩

/-- The first entry on a path is filled up. -/
theorem Fillable.filled {pre : List (Fin 512)} (hgs : Fillable mem pgd (g :: gs))
    (hpre : mem.walk pgd pre = some (frame, es)) (hlen : pre.length + (i :: p).length = 4)
    (hflags : flags.testBit 0 = true) (hflags' : flags < 2^12) :
    Filled mem (mem.fill (if p = [] then .userReg else .osPtReg) flags frame i g) pgd flags
      pre i g es := by
  rw [List.length_cons] at hlen
  refine filled_fill hgs.treeShaped hpre (by omega) (hgs.notTable g (by simp))
    (hgs.lt g (by simp)) hflags hflags' fun h => if_neg fun hp => ?_
  rw [hp, List.length_nil] at hlen
  omega

/-- The path goes on at the frame that the entry points to. -/
theorem Filled.walk_next (h : Filled mem mem' pgd flags p i g es)
    (hp : mem.walk pgd p = some (frame, es)) :
    ∃ es', mem'.walk pgd (p ++ [i]) = some (mem.next frame i g, es') := by
  refine ⟨((mem.walk pgd (p ++ [i])).getD (g, es ++ [mkEntry g flags])).2, ?_⟩
  rw [h.entry, ← getD_walk hp]

/-- What filling up the entries on the path `p` behind the path `pre` shows. -/
structure PathFilled (mem mem' : Memory) (pgd flags : ℕ) (pre p : List (Fin 512)) (gs : List ℕ) :
    Prop where
  /-- The tables are a tree. -/
  treeShaped : mem'.TreeShaped pgd
  /-- An entry on the path was present, or has the flags now. -/
  entry : ∀ r i, r ++ [i] <+: p → ∃ w, mem'.walk pgd (pre ++ r) = some w ∧
    mem'.walk pgd (pre ++ r ++ [i]) = some ((mem.walk pgd (pre ++ r ++ [i])).getD
      (gs.getD r.length 0, w.2 ++ [mkEntry (gs.getD r.length 0) flags]))
  /-- The other walks are as they were. -/
  other : ∀ q, q.length ≤ 4 → (∀ r, r <+: p → r ≠ [] → q ≠ pre ++ r) →
    mem'.walk pgd q = mem.walk pgd q

theorem walk_fillPath {pre : List (Fin 512)} (hfill : Fillable mem pgd gs)
    (hpre : mem.walk pgd pre = some (frame, es)) (hlen : pre.length + p.length = 4)
    (hgs : gs.length = p.length) (hflags : flags.testBit 0 = true) (hflags' : flags < 2^12) :
    PathFilled mem (fillPath flags mem frame p gs) pgd flags pre p gs := by
  induction p generalizing mem pre frame es gs with
  | nil =>
    have heq : fillPath flags mem frame [] gs = mem := by
      cases gs <;> rfl
    rw [heq]
    refine ⟨hfill.treeShaped, fun r i h => ?_, fun _ _ _ => rfl⟩
    simp at h
  | cons i p ih =>
    obtain ⟨g, gs, rfl⟩ : ∃ g l, gs = g :: l := List.exists_cons_of_length_eq_add_one hgs
    have hfirst := hfill.filled hpre hlen hflags hflags'
    rw [List.length_cons] at hlen
    rw [fillPath]
    generalize mem.fill (if p = [] then .userReg else .osPtReg) flags frame i g = mem₁ at hfirst ⊢
    obtain ⟨es', hnext⟩ := hfirst.walk_next hpre
    have h : PathFilled mem₁ (fillPath flags mem₁ (mem.next frame i g) p gs) pgd flags
        (pre ++ [i]) p gs :=
      ih (hfirst.fillable hfill) hnext (by rw [List.length_append, List.length_singleton]; omega)
        (by simpa using hgs)
    refine ⟨h.treeShaped, fun r j hrj => ?_, fun q hq hne => ?_⟩
    · cases r with
      | nil =>
        obtain rfl : j = i := by simpa using hrj
        -- The entries behind this one are written later, and show at longer paths.
        have hlater : ∀ q, q.length ≤ pre.length + 1 → ∀ r, r <+: p → r ≠ [] →
            q ≠ pre ++ [j] ++ r := by
          rintro q hq r - hr rfl
          have := List.length_pos_of_ne_nil hr
          simp only [List.length_append, List.length_cons, List.length_nil] at hq
          omega
        refine ⟨(frame, es), ?_, ?_⟩
        · rw [List.append_nil, h.other pre (by omega) (hlater pre (by omega)),
            hfirst.other pre (by omega) (by simp), hpre]
        · rw [List.append_nil, h.other _ (by simp; omega) (hlater _ (by simp)), hfirst.entry]
          simp
      | cons i' r =>
        obtain ⟨rfl, hpre'⟩ := List.cons_prefix_cons.mp hrj
        obtain ⟨w, hw, hentry⟩ := h.entry r j hpre'
        have hlen' : (r ++ [j]).length ≤ p.length := hpre'.length_le
        simp only [List.length_append, List.length_cons, List.length_nil] at hlen'
        rw [hfirst.other _ (by simp; omega) (by simp)] at hentry
        exact ⟨w, by simpa using hw, by simpa using hentry⟩
    · rw [h.other q hq fun r hr hr0 => ?_, hfirst.other q hq ?_]
      · exact hne [i] (List.cons_prefix_cons.mpr ⟨rfl, List.nil_prefix⟩) (by simp)
      · have := hne (i :: r) (List.cons_prefix_cons.mpr ⟨rfl, hr⟩) (by simp)
        simpa using this

/-- The frames that are hung into the entries which were not present. -/
theorem mem_created {pre : List (Fin 512)} {a : ℕ} (hfill : Fillable mem pgd gs)
    (hpre : mem.walk pgd pre = some (frame, es)) (hlen : pre.length + p.length = 4)
    (hgs : gs.length = p.length) (hflags : flags.testBit 0 = true) (hflags' : flags < 2^12) :
    (region, a) ∈ created flags mem frame p gs ↔ ∃ r i, r ++ [i] <+: p ∧
      mem.walk pgd (pre ++ r ++ [i]) = none ∧ a = gs.getD r.length 0 ∧
      region = if r ++ [i] = p then .userReg else .osPtReg := by
  induction p generalizing mem pre frame es gs with
  | nil =>
    have heq : created flags mem frame [] gs = [] := by
      cases gs <;> rfl
    simp [heq]
  | cons i p ih =>
    obtain ⟨g, gs, rfl⟩ : ∃ g l, gs = g :: l := List.exists_cons_of_length_eq_add_one hgs
    have hfirst := hfill.filled hpre hlen hflags hflags'
    rw [List.length_cons] at hlen
    have habsent : mem.walk pgd (pre ++ [i]) = none ↔ ¬present (mem frame i) = true := by
      rw [walk_concat, hpre, Option.bind_some, edge]
      split_ifs with hpres <;> simp [hpres]
    rw [created]
    generalize mem.fill (if p = [] then .userReg else .osPtReg) flags frame i g = mem₁ at hfirst ⊢
    obtain ⟨es', hnext⟩ := hfirst.walk_next hpre
    rw [List.mem_append, ih (hfirst.fillable hfill) hnext
        (by rw [List.length_append, List.length_singleton]; omega) (by simpa using hgs)]
    -- The first entry, or one behind it, where filling up the first one does not show.
    have hbehind : ∀ r j, r ++ [j] <+: p → mem₁.walk pgd (pre ++ [i] ++ r ++ [j]) =
        mem.walk pgd (pre ++ (i :: r) ++ [j]) := fun r j hrj => by
      have hlen' : (r ++ [j]).length ≤ p.length := hrj.length_le
      simp only [List.length_append, List.length_cons, List.length_nil] at hlen'
      rw [hfirst.other _ (by simp; omega) (by simp)]
      simp
    constructor
    · rintro (ha | ⟨r, j, hrj, hnone, ha, hr⟩)
      · split_ifs at ha with hpres hp
        · simp at ha
        · obtain ⟨rfl, rfl⟩ := Prod.mk.inj (List.mem_singleton.mp ha)
          exact ⟨[], i, by simp, by simpa using habsent.mpr hpres, rfl, by simp [hp]⟩
        · obtain ⟨rfl, rfl⟩ := Prod.mk.inj (List.mem_singleton.mp ha)
          exact ⟨[], i, by simp, by simpa using habsent.mpr hpres, rfl, by simp [Ne.symm hp]⟩
      · rw [hbehind r j hrj] at hnone
        exact ⟨i :: r, j, List.cons_prefix_cons.mpr ⟨rfl, hrj⟩,
          hnone, by simpa using ha, by simpa using hr⟩
    · rintro ⟨r, j, hrj, hnone, ha, hr⟩
      cases r with
      | nil =>
        obtain rfl : j = i := by simpa using hrj
        rw [List.append_nil, habsent] at hnone
        refine Or.inl ?_
        rw [if_neg hnone, List.mem_singleton, ha, hr]
        rcases eq_or_ne p [] with rfl | hp
        · simp
        · simp [hp, hp.symm]
      | cons i' r =>
        obtain ⟨rfl, hpre'⟩ := List.cons_prefix_cons.mp hrj
        rw [← hbehind r j hpre'] at hnone
        exact Or.inr ⟨r, j, hpre', hnone, by simpa using ha, by simpa using hr⟩

/-! ## What a filled path has -/

namespace PathFilled

/-- A walk whose entries were present is as it was. -/
theorem kept (h : PathFilled mem mem' pgd flags [] p gs) (hq : q.length ≤ 4)
    (hw : mem.walk pgd q = some w) : mem'.walk pgd q = some w := by
  by_cases hpre : q <+: p ∧ q ≠ []
  · obtain ⟨r, i, rfl⟩ := List.eq_nil_or_concat q |>.resolve_left hpre.2
    rw [List.concat_eq_append] at hpre hw ⊢
    obtain ⟨v, -, hentry⟩ := h.entry r i hpre.1
    rwa [List.nil_append, hw, Option.getD_some] at hentry
  · rw [h.other q hq fun r hr hr0 hqr => hpre (by simpa [hqr] using ⟨hr, hr0⟩), hw]

/-- All entries on the path are present. -/
theorem present (h : PathFilled mem mem' pgd flags [] p gs) (hq : q <+: p) :
    ∃ w, mem'.walk pgd q = some w := by
  rcases List.eq_nil_or_concat q with rfl | ⟨r, i, rfl⟩
  · exact ⟨_, walk_nil mem' pgd⟩
  · rw [List.concat_eq_append] at hq ⊢
    obtain ⟨v, -, hentry⟩ := h.entry r i hq
    exact ⟨_, hentry⟩

/-- An entry on the path that was not present. -/
theorem created (h : PathFilled mem mem' pgd flags [] p gs) (hq : r ++ [i] <+: p)
    (hnone : mem.walk pgd (r ++ [i]) = none) :
    ∃ w, mem'.walk pgd r = some w ∧ mem'.walk pgd (r ++ [i]) =
      some (gs.getD r.length 0, w.2 ++ [mkEntry (gs.getD r.length 0) flags]) := by
  obtain ⟨w, hw, hentry⟩ := h.entry r i hq
  rw [List.nil_append] at hw hentry
  rw [hnone, Option.getD_none] at hentry
  exact ⟨w, hw, hentry⟩

/-- A frame that is not one of the new tables is no table as before. -/
theorem notTable (h : PathFilled mem mem' pgd flags [] p gs) {x : ℕ} (hx : mem.NotTable pgd x)
    (hne : ∀ n < 3, gs.getD n 0 ≠ x) : mem'.NotTable pgd x := by
  intro q w hq hw
  cases hmem : mem.walk pgd q with
  | some v =>
    obtain rfl := Option.some.inj (hw.symm.trans (h.kept hq.le hmem))
    exact hx q w hq hmem
  | none =>
    rcases List.eq_nil_or_concat q with rfl | ⟨r, i, rfl⟩
    · exact absurd hmem (by simp [walk_nil])
    · rw [List.concat_eq_append] at hq hw hmem
      have hr : r.length < 3 := by
        rw [List.length_append, List.length_singleton] at hq
        omega
      by_cases hpre : r ++ [i] <+: p
      · obtain ⟨v, -, hentry⟩ := h.created hpre hmem
        obtain rfl := Option.some.inj (hw.symm.trans hentry)
        exact hne r.length hr
      · have hother := h.other (r ++ [i]) hq.le fun q hq' _ heq => hpre (by simpa [heq] using hq')
        rw [hother, hmem] at hw
        exact absurd hw (by simp)

/-- What every entry had before, and the new ones have, every entry on the path has. -/
theorem forall_entry (h : PathFilled mem mem' pgd flags [] p gs) {P : ℕ → Prop}
    (hold : ∀ q w, q <+: p → mem.walk pgd q = some w → ∀ e ∈ w.2, P e)
    (hnew : ∀ r i, r ++ [i] <+: p → mem.walk pgd (r ++ [i]) = none →
      P (mkEntry (gs.getD r.length 0) flags)) (hq : q <+: p) (hw : mem'.walk pgd q = some w) :
    ∀ e ∈ w.2, P e := by
  induction q using List.reverseRecOn generalizing w with
  | nil =>
    obtain rfl : (pgd, []) = w := Option.some.inj ((walk_nil mem' pgd).symm.trans hw)
    simp
  | append_singleton r i ih =>
    cases hmem : mem.walk pgd (r ++ [i]) with
    | some v =>
      obtain ⟨u, -, hentry⟩ := h.entry r i hq
      rw [List.nil_append, hmem, Option.getD_some, hw, Option.some.injEq] at hentry
      rw [hentry]
      exact hold _ v hq hmem
    | none =>
      obtain ⟨u, hu, hentry⟩ := h.created hq hmem
      obtain rfl := Option.some.inj (hw.symm.trans hentry)
      intro e he
      rcases List.mem_append.mp he with he | he
      · exact ih ((List.prefix_append r [i]).trans hq) hu e he
      · rw [List.mem_singleton.mp he]
        exact hnew r i hq hmem

end PathFilled

end Memory

theorem testBit_mkEntry (g flags : ℕ) {n : ℕ} (hn : n < 12) :
    (mkEntry g flags).testBit n = flags.testBit n := by
  rw [mkEntry, Nat.testBit_or, Nat.testBit_mod_two_pow, Nat.testBit_shiftLeft,
    decide_eq_false (p := n ≥ 0x00C) (by omega)]
  simp

end GemOS.Paging
