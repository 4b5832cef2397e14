/-
What one step does.

A step looks at the cells that its seeds can affect.  `Examined` says which these are,
without the table that gathers them: whatever the table was used for before, it ends up
with the affected cells in the order of their first appearance.  The buffers of a step are
emptied before they are filled, so what they held shows as little (`step_eq`).  From there
on a step is described cell by cell: an examined cell takes its next state, every other
cell stays, and the cells that changed are the examined ones whose next state is another.

An examined cell is a cell of the surface.  The other way round, a cell that reads
nothing but background is quiet, and `examined_of_reads` says that a cell is examined as
soon as it reads a seed.
-/
import Cellular.Proofs.CoordSet
import Cellular.Proofs.Affected

namespace Cellular

/-! ### The reach of a rule -/

theorem Offset.radius_neg (o : Offset) : (-o).radius = o.radius := by
  unfold Offset.radius
  rw [Offset.neg_dy, Offset.neg_dx, Int.natAbs_neg, Int.natAbs_neg]

theorem mem_reachOf {ns : List Neighbourhood} {o : Offset} :
    o ∈ reachOf ns ↔ o = .zero ∨ ∃ n ∈ ns, ∃ p ∈ n.offsets, o = p ∨ o = -p := by
  unfold reachOf
  simp only [Std.ExtTreeSet.mem_toList, Std.ExtTreeSet.mem_ofList, List.contains_eq_mem,
    decide_eq_true_eq, List.mem_flatMap, List.mem_cons, List.not_mem_nil, or_false]

theorem le_foldl_max (l : List Nat) :
    ∀ m : Nat, m ≤ l.foldl max m ∧ ∀ n ∈ l, n ≤ l.foldl max m := by
  induction l with
  | nil => intro m; simp
  | cons x rest ih =>
      intro m
      obtain ⟨hm, hall⟩ := ih (max m x)
      refine ⟨Nat.le_trans (Nat.le_max_left m x) hm, ?_⟩
      intro n hn
      rcases List.mem_cons.mp hn with rfl | hn'
      · exact Nat.le_trans (Nat.le_max_right m n) hm
      · exact hall n hn'

theorem cyclic_mem {α : Type} {xs : List α} (hne : xs ≠ []) (i : Nat) :
    ∃ x ∈ xs, cyclic xs i = some x := by
  have hlt : i % xs.length < xs.length := Nat.mod_lt _ (List.length_pos_of_ne_nil hne)
  exact ⟨_, List.getElem_mem hlt, List.getElem?_eq_getElem hlt⟩

namespace Rule

variable {r : Rule}

theorem neighbourhood_mem (r : Rule) (phase : Nat) : r.neighbourhood phase ∈ r.neighbourhoods := by
  obtain ⟨n, hmem, hn⟩ := cyclic_mem r.neighbourhoods_ne phase
  unfold neighbourhood
  rw [hn]
  exact hmem

theorem period_pos (r : Rule) : 0 < r.period := List.length_pos_of_ne_nil r.neighbourhoods_ne

theorem phase_lt (r : Rule) (generation : Nat) : r.phase generation < r.period :=
  Nat.mod_lt _ r.period_pos

theorem zero_mem_reach (r : Rule) : Offset.zero ∈ r.reach := by
  rw [r.reach_eq, mem_reachOf]
  exact Or.inl rfl

theorem neg_mem_reach {phase : Nat} {o : Offset} (ho : o ∈ r.offsets phase) : -o ∈ r.reach := by
  rw [r.reach_eq, mem_reachOf]
  exact Or.inr ⟨_, r.neighbourhood_mem phase, o, ho, Or.inr rfl⟩

theorem radius_le_margin {o : Offset} (ho : o ∈ r.reach) : o.radius ≤ r.margin :=
  (le_foldl_max _ 0).2 _ (List.mem_map_of_mem ho)

/-- The state of a cell in the next generation, when `look` tells the states now. -/
def nextAt (r : Rule) (s : Surface) (phase : Nat) (look : Coord → State) (c : Coord) : State :=
  let neighbours := (r.neighbourhood phase).entries.map fun (o, _) => look (s.resolve (c + o))
  r.next phase neighbours (look c)

/-- The neighbours are read in the order of the offsets. -/
theorem nextAt_eq (r : Rule) (s : Surface) (phase : Nat) (look : Coord → State) (c : Coord) :
    r.nextAt s phase look c
      = r.next phase ((r.offsets phase).map fun o => look (s.resolve (c + o))) (look c) := by
  unfold nextAt offsets Neighbourhood.offsets
  rw [List.map_map]
  rfl

/-- A cell that reads the same states has the same next state. -/
theorem nextAt_congr {s : Surface} {phase : Nat} {look look' : Coord → State} {c : Coord}
    (hself : look c = look' c)
    (hread : ∀ o ∈ r.offsets phase, look (s.resolve (c + o)) = look' (s.resolve (c + o))) :
    r.nextAt s phase look c = r.nextAt s phase look' c := by
  rw [nextAt_eq, nextAt_eq, hself, List.map_congr_left hread]

/-- Background surrounded by background stays background, in every phase. -/
def Quiescent (r : Rule) : Prop :=
  ∀ phase < r.period, r.next phase (List.replicate (r.offsets phase).length 0) 0 = 0

instance (r : Rule) : Decidable r.Quiescent :=
  inferInstanceAs (Decidable (∀ phase < r.period,
    r.next phase (List.replicate (r.offsets phase).length 0) 0 = 0))

theorem Quiescent.nextAt_eq_zero (h : r.Quiescent) {s : Surface} {generation : Nat}
    {look : Coord → State} {c : Coord} (hself : look c = 0)
    (hread : ∀ o ∈ r.offsets (r.phase generation), look (s.resolve (c + o)) = 0) :
    r.nextAt s (r.phase generation) look c = 0 := by
  rw [nextAt_eq, hself, List.map_congr_left hread, List.map_const']
  exact h _ (r.phase_lt generation)

/-! ### The cells that a step looks at -/

/-- Is the cell one of those that the seeds of a step can affect? -/
def Examined (r : Rule) (s : Surface) (g : Grid) (active : ActiveSet) (c : Coord) : Prop :=
  ∃ a ∈ r.seeds g active, c ∈ s.affected r.reach r.margin a

theorem Examined.contains {s : Surface} {g : Grid} {active : ActiveSet} {c : Coord}
    (h : r.Examined s g active c) : s.contains c = true := by
  obtain ⟨a, -, hc⟩ := h
  exact Surface.contains_of_mem_affected hc

/-- A cell that reads a seed is examined. -/
theorem examined_of_reads {s : Surface} {g : Grid} {active : ActiveSet} {phase : Nat} {c : Coord}
    {o : Offset} (hc : s.contains c = true) (hne : s.mirrors = true ∨ c ≠ Surface.nowhere)
    (ho : o ∈ r.offsets phase) (hread : s.contains (s.resolve (c + o)) = true)
    (hseed : s.resolve (c + o) ∈ r.seeds g active) : r.Examined s g active c := by
  have hback := neg_mem_reach ho
  have hm := radius_le_margin hback
  rw [Offset.radius_neg] at hm
  exact ⟨_, hseed, Surface.mem_affected hc hne hback hm hread⟩

/-- A seed is examined. -/
theorem examined_of_seed {s : Surface} {g : Grid} {active : ActiveSet} {c : Coord}
    (hc : s.contains c = true) (hne : s.mirrors = true ∨ c ≠ Surface.nowhere)
    (hseed : c ∈ r.seeds g active) : r.Examined s g active c := by
  have hself : s.resolve (c + Offset.zero) = c := by
    rw [Coord.add_zero, Surface.resolve_of_contains hc]
  have hmem : c ∈ s.affected r.reach r.margin (s.resolve (c + Offset.zero)) :=
    Surface.mem_affected hc hne r.zero_mem_reach (Nat.zero_le _) (by rw [hself]; exact hc)
  rw [hself] at hmem
  exact ⟨c, hseed, hmem⟩

end Rule

/-! ### One step -/

namespace Stepper

variable {t : Stepper} {r : Rule} {s : Surface}

theorem valid_fresh : fresh.candidates.Valid := CoordSet.valid_withCapacity 256

/-- A buffer that is filled again holds nothing of before. -/
@[simp]
theorem toList_refill {α : Type} (buffer : Array α) (xs : List α) :
    (refill buffer xs).toList = xs := by
  simp [refill]

/-! #### Gathering the candidates -/

theorem candidates_seed (t : Stepper) (c : Coord) :
    (t.seed r s c).candidates = t.candidates.insertAll (s.affected r.reach r.margin c) := by
  cases t
  simp only [seed, toList_refill, Surface.affected]
  split <;> rfl

private theorem candidates_foldl_seed (seeds : List Coord) :
    ∀ t : Stepper, (seeds.foldl (seed r s) t).candidates
      = seeds.foldl (fun set c => set.insertAll (s.affected r.reach r.margin c)) t.candidates := by
  induction seeds with
  | nil => intro t; rfl
  | cons c rest ih =>
      intro t
      rw [List.foldl_cons, ih, candidates_seed, List.foldl_cons]

private theorem foldl_insertAll (f : Coord → List Coord) (seeds : List Coord) :
    ∀ {set : CoordSet}, set.Valid →
      (seeds.foldl (fun set c => set.insertAll (f c)) set).Valid ∧
      (seeds.foldl (fun set c => set.insertAll (f c)) set).toList
        = (seeds.flatMap f).foldl CoordSet.addNew set.toList := by
  induction seeds with
  | nil => intro set h; exact ⟨h, rfl⟩
  | cons c rest ih =>
      intro set h
      obtain ⟨hv, hlist⟩ := h.insertAll (f c)
      obtain ⟨hv', hlist'⟩ := ih hv
      refine ⟨hv', ?_⟩
      rw [List.foldl_cons, hlist', hlist, List.flatMap_cons, List.foldl_append]

/-- **The candidates depend on the seeds alone,** not on what was gathered before. -/
theorem gather_spec (h : t.candidates.Valid) (seeds : List Coord) :
    (t.gather r s seeds).candidates.Valid ∧ (t.gather r s seeds).candidates.toList
      = (seeds.flatMap (s.affected r.reach r.margin)).foldl CoordSet.addNew [] := by
  obtain ⟨hclear, hnil⟩ := h.clear
  obtain ⟨hreserve, hlist⟩ := hclear.reserve (seeds.length * r.reach.length)
  have hall := foldl_insertAll (s.affected r.reach r.margin) seeds hreserve
  rw [hlist, hnil] at hall
  unfold gather
  rw [candidates_foldl_seed]
  exact hall

theorem mem_gather (h : t.candidates.Valid) {seeds : List Coord} {c : Coord} :
    c ∈ (t.gather r s seeds).candidates.toList ↔
      ∃ a ∈ seeds, c ∈ s.affected r.reach r.margin a := by
  rw [(gather_spec h seeds).2, CoordSet.mem_foldl_addNew, List.mem_flatMap]
  simp

/-! #### Evaluating them -/

/-- The new states of the candidates that change. -/
def updates (r : Rule) (s : Surface) (phase : Nat) (g : Grid) (candidates : List Coord) :
    List (Coord × State) :=
  candidates.filterMap fun c =>
    let next := r.nextAt s phase g.get c
    if next = g.get c then none else some (c, next)

private theorem toList_changes_visit (phase : Nat) (g : Grid) (t : Stepper) (c : Coord) :
    (visit r s phase (r.offsets phase) g t c).changes.toList
      = t.changes.toList ++ updates r s phase g [c] := by
  unfold visit updates
  simp only [toList_refill, ← Rule.nextAt_eq, List.filterMap_cons, List.filterMap_nil]
  split <;> simp

private theorem foldl_visit (phase : Nat) (g : Grid) (cs : List Coord) :
    ∀ t : Stepper, (cs.foldl (visit r s phase (r.offsets phase) g) t).candidates = t.candidates ∧
      (cs.foldl (visit r s phase (r.offsets phase) g) t).changes.toList
        = t.changes.toList ++ updates r s phase g cs := by
  induction cs with
  | nil => intro t; exact ⟨rfl, (List.append_nil _).symm⟩
  | cons c rest ih =>
      intro t
      obtain ⟨hcandidates, hchanges⟩ := ih (visit r s phase (r.offsets phase) g t c)
      refine ⟨hcandidates, ?_⟩
      rw [List.foldl_cons, hchanges, toList_changes_visit, List.append_assoc]
      unfold updates
      rw [← List.filterMap_append, List.singleton_append]

/-- **What is noted down depends on the candidates alone,** not on what the buffers held. -/
theorem evaluate_spec (t : Stepper) (phase : Nat) (g : Grid) :
    (t.evaluate r s phase g).candidates = t.candidates ∧
      (t.evaluate r s phase g).changes.toList = updates r s phase g t.candidates.toList := by
  obtain ⟨hcandidates, hchanges⟩ := foldl_visit (r := r) (s := s) phase g t.candidates.toList
    { t with changes := t.changes.shrink 0 }
  refine ⟨hcandidates, hchanges.trans ?_⟩
  rw [Array.toList_shrink, List.take_zero, List.nil_append]

/-- A step writes the new states of its candidates and reports where they are. -/
theorem step_eq (t : Stepper) (generation : Nat) (g : Grid) (active : ActiveSet) :
    (t.step r s generation g active).2 =
      let changes := updates r s (r.phase generation) g
        (t.gather r s (r.seeds g active)).candidates.toList
      (g.extend changes, changes.map Prod.fst) := by
  unfold step
  simp only [(evaluate_spec _ _ g).2]

theorem valid_step (h : t.candidates.Valid) (generation : Nat) (g : Grid) (active : ActiveSet) :
    (t.step r s generation g active).1.candidates.Valid := by
  unfold step
  simp only [(evaluate_spec _ _ g).1]
  exact (gather_spec h _).1

private theorem mem_updates {phase : Nat} {g : Grid} {cs : List Coord} {p : Coord × State} :
    p ∈ updates r s phase g cs ↔
      p.1 ∈ cs ∧ p.2 = r.nextAt s phase g.get p.1 ∧ r.nextAt s phase g.get p.1 ≠ g.get p.1 := by
  unfold updates
  rw [List.mem_filterMap]
  constructor
  · intro h
    obtain ⟨c, hc, hp⟩ := h
    simp only at hp
    split at hp
    · simp at hp
    · rename_i hne
      obtain rfl := Option.some.inj hp
      exact ⟨hc, rfl, hne⟩
  · intro h
    obtain ⟨hc, hs, hne⟩ := h
    exact ⟨p.1, hc, by simp only; rw [if_neg hne, ← hs]⟩

theorem mem_map_fst_updates {phase : Nat} {g : Grid} {cs : List Coord} {c : Coord} :
    c ∈ (updates r s phase g cs).map Prod.fst ↔ c ∈ cs ∧ r.nextAt s phase g.get c ≠ g.get c := by
  rw [List.mem_map]
  constructor
  · intro h
    obtain ⟨p, hp, rfl⟩ := h
    obtain ⟨hmem, -, hne⟩ := mem_updates.mp hp
    exact ⟨hmem, hne⟩
  · intro h
    obtain ⟨hmem, hne⟩ := h
    exact ⟨(c, r.nextAt s phase g.get c), mem_updates.mpr ⟨hmem, rfl, hne⟩, rfl⟩

/-- **The cells that changed are the examined ones whose next state is another.** -/
theorem mem_changed (h : t.candidates.Valid) {generation : Nat} {g : Grid} {active : ActiveSet}
    {c : Coord} : c ∈ (t.step r s generation g active).2.2 ↔
      r.Examined s g active c ∧ r.nextAt s (r.phase generation) g.get c ≠ g.get c := by
  rw [step_eq]
  simp only
  rw [mem_map_fst_updates, mem_gather h]
  rfl

/-- **An examined cell takes its next state.** -/
theorem get_step_of_examined (h : t.candidates.Valid) (generation : Nat) {g : Grid}
    {active : ActiveSet} {c : Coord} (hc : r.Examined s g active c) :
    (t.step r s generation g active).2.1.get c = r.nextAt s (r.phase generation) g.get c := by
  rw [step_eq]
  simp only
  rw [Grid.get_extend (f := r.nextAt s (r.phase generation) g.get) _ _
    (fun p hp => (mem_updates.mp hp).2.1)]
  split
  · rfl
  · rename_i hnot
    rw [mem_map_fst_updates, mem_gather h] at hnot
    by_contra hne
    exact hnot ⟨hc, fun heq => hne heq.symm⟩

/-- **Every other cell stays as it is.** -/
theorem get_step_of_not_examined (h : t.candidates.Valid) (generation : Nat) {g : Grid}
    {active : ActiveSet} {c : Coord} (hc : ¬r.Examined s g active c) :
    (t.step r s generation g active).2.1.get c = g.get c := by
  rw [step_eq]
  simp only
  rw [Grid.get_extend (f := r.nextAt s (r.phase generation) g.get) _ _
    (fun p hp => (mem_updates.mp hp).2.1), if_neg]
  rw [mem_map_fst_updates, mem_gather h]
  exact fun hmem => hc hmem.1

/-- **Rules of the same reach that make the same of a pattern** step it in the same way. -/
theorem step_congr {t' : Stepper} {r' : Rule} (h : t.candidates.Valid) (h' : t'.candidates.Valid)
    (hperiod : r'.period = r.period) (hreach : r'.reach = r.reach) {generation : Nat} {g : Grid}
    (hnext : ∀ c, r'.nextAt s (r.phase generation) g.get c = r.nextAt s (r.phase generation) g.get c)
    (active : ActiveSet) :
    (t'.step r' s generation g active).2 = (t.step r s generation g active).2 := by
  have hseeds : r'.seeds g active = r.seeds g active := by
    unfold Rule.seeds
    rw [hperiod]
  have hphase : r'.phase generation = r.phase generation := by
    unfold Rule.phase
    rw [hperiod]
  have hmargin : r'.margin = r.margin := by
    unfold Rule.margin
    rw [hreach]
  have hcandidates : (t'.gather r' s (r'.seeds g active)).candidates.toList
      = (t.gather r s (r.seeds g active)).candidates.toList := by
    rw [(gather_spec h' _).2, (gather_spec h _).2, hreach, hmargin, hseeds]
  have hupdates : updates r' s (r'.phase generation) g
        (t'.gather r' s (r'.seeds g active)).candidates.toList
      = updates r s (r.phase generation) g (t.gather r s (r.seeds g active)).candidates.toList := by
    rw [hcandidates, hphase]
    unfold updates
    simp only [hnext]
  rw [step_eq, step_eq]
  simp only [hupdates]

/-- No cell is listed twice among those that changed. -/
theorem nodup_changed (h : t.candidates.Valid) (generation : Nat) (g : Grid)
    (active : ActiveSet) : (t.step r s generation g active).2.2.Nodup := by
  rw [step_eq]
  show ((updates r s (r.phase generation) g _).map Prod.fst).Nodup
  have hsub : ((updates r s (r.phase generation) g
      (t.gather r s (r.seeds g active)).candidates.toList).map Prod.fst).Sublist
        (t.gather r s (r.seeds g active)).candidates.toList := by
    generalize (t.gather r s (r.seeds g active)).candidates.toList = cs
    unfold updates
    induction cs with
    | nil => exact List.Sublist.slnil
    | cons c rest ih =>
        rw [List.filterMap_cons]
        simp only
        split
        · exact ih.cons c
        · rename_i p hp
          split at hp
          · simp at hp
          · obtain rfl := Option.some.inj hp
            exact ih.cons_cons c
  exact (gather_spec h _).1.nodup.sublist hsub

end Stepper

end Cellular
