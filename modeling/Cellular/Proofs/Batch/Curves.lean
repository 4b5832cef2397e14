/-
The totals do not depend on how the soups are shared out.

The curves of a run may be added up in any grouping: each of those that share the work starts
from the empty curve and adds what it has to what another one has.  A `Reduction` is one such
grouping, and its totals are settled by two facts about the curves alone, the length of the
longest and the sum in each generation.  Both stay as they are when the curves change places, so
adding them one after the other comes to the same, in whatever order.

Populations are unbounded here.  Where the totals fit a machine word nothing is lost by that,
since no sum on the way is larger than the total it becomes a part of.
-/
import Mathlib.Algebra.Order.BigOperators.Group.List
import Mathlib.Algebra.Order.Group.Nat
import Mathlib.Algebra.Ring.Nat
import Mathlib.Data.List.GetD
import Mathlib.Data.List.Induction
import Cellular.Proofs.Chain
import Cellular.Batch.PopulationCurve

namespace Cellular

namespace PopulationCurve

/-! ### Generation by generation -/

theorem length_add (as : List Nat) : ∀ bs, (add as bs).length = max as.length bs.length := by
  induction as with
  | nil => intro bs; simp [add]
  | cons a as ih =>
      intro bs
      cases bs with
      | nil => simp [add]
      | cons b bs => simp only [add, List.length_cons, ih]; omega

theorem getD_add (as : List Nat) :
    ∀ bs g, (add as bs).getD g 0 = as.getD g 0 + bs.getD g 0 := by
  induction as with
  | nil => intro bs g; simp [add]
  | cons a as ih =>
      intro bs g
      cases bs with
      | nil => simp [add]
      | cons b bs =>
          cases g with
          | zero => rfl
          | succ g => exact ih bs g

/-- The number of generations of the longest curve. -/
def longest (curves : List (List Nat)) : Nat := (curves.map List.length).foldr max 0

/-- The populations that the curves have in a generation, added up. -/
def populationAt (curves : List (List Nat)) (g : Nat) : Nat := (curves.filterMap (·[g]?)).sum

theorem longest_append (cs ds : List (List Nat)) :
    longest (cs ++ ds) = max (longest cs) (longest ds) := by
  induction cs with
  | nil => exact (Nat.zero_max _).symm
  | cons c cs ih =>
      show max c.length (longest (cs ++ ds)) = max (max c.length (longest cs)) (longest ds)
      rw [ih, Nat.max_assoc]

theorem longest_of_perm {cs ds : List (List Nat)} (h : cs.Perm ds) : longest cs = longest ds :=
  (h.map List.length).foldr_eq 0

theorem populationAt_append (cs ds : List (List Nat)) (g : Nat) :
    populationAt (cs ++ ds) g = populationAt cs g + populationAt ds g := by
  unfold populationAt
  rw [List.filterMap_append, List.sum_append]

theorem populationAt_of_perm {cs ds : List (List Nat)} (h : cs.Perm ds) (g : Nat) :
    populationAt cs g = populationAt ds g := (h.filterMap _).sum_eq

theorem populationAt_le {cs ds : List (List Nat)} (h : cs.Sublist ds) (g : Nat) :
    populationAt cs g ≤ populationAt ds g :=
  (h.filterMap _).sum_le_sum fun _ _ => Nat.zero_le _

/-! ### What a total owes to the curves -/

/-- The total goes on as long as the longest curve and counts what there is in each
generation. -/
structure Totals (curves : List (List Nat)) (total : List Nat) : Prop where
  length : total.length = longest curves
  population : ∀ g, total.getD g 0 = populationAt curves g

namespace Totals

variable {cs ds : List (List Nat)} {as bs : List Nat}

theorem nil : Totals [] [] := ⟨rfl, fun _ => rfl⟩

theorem single (curve : List Nat) : Totals [curve] curve where
  length := (Nat.max_zero _).symm
  population := by
    intro g
    unfold populationAt
    rw [List.getD_eq_getElem?_getD]
    cases h : curve[g]? with
    | none => simp [h]
    | some n => simp [h]

/-- **The sum of two totals is the total of both.** -/
theorem add (h : Totals cs as) (h' : Totals ds bs) : Totals (cs ++ ds) (add as bs) where
  length := by rw [length_add, h.length, h'.length, longest_append]
  population g := by rw [getD_add, h.population, h'.population, populationAt_append]

/-- The order of the curves does not matter. -/
theorem of_perm (h : Totals cs as) (hp : cs.Perm ds) : Totals ds as where
  length := h.length.trans (longest_of_perm hp)
  population g := (h.population g).trans (populationAt_of_perm hp g)

/-- There is one total only. -/
theorem unique (h : Totals cs as) (h' : Totals cs bs) : as = bs := by
  refine List.ext_getElem (h.length.trans h'.length.symm) fun g hg hg' => ?_
  rw [← List.getD_eq_getElem as 0 hg, ← List.getD_eq_getElem bs 0 hg', h.population, h'.population]

/-- Adding one curve after the other gives the total. -/
theorem foldl (cs : List (List Nat)) : Totals cs (cs.foldl PopulationCurve.add []) := by
  induction cs using List.reverseRecOn with
  | nil => exact nil
  | append_singleton cs c ih =>
      rw [List.foldl_append]
      exact ih.add (single c)

/-- No population of a total that fits is too large. -/
theorem lt_of_mem {bound : Nat} (h : Totals cs as) (hfit : ∀ g, populationAt cs g < bound)
    {n : Nat} (hn : n ∈ as) : n < bound := by
  obtain ⟨g, hg, rfl⟩ := List.getElem_of_mem hn
  rw [← List.getD_eq_getElem as 0 hg, h.population]
  exact hfit g

end Totals

/-! ### Sharing out the soups -/

/-- A way of adding up curves: each part of the work starts from nothing or from the curve of a
soup, and two neighbouring parts are joined. -/
inductive Reduction where
  | nothing
  | soup (curve : List Nat)
  | join (first second : Reduction)

namespace Reduction

/-- The curves that are added up, from left to right. -/
def curves : Reduction → List (List Nat)
  | nothing => []
  | soup curve => [curve]
  | join first second => first.curves ++ second.curves

/-- What they are added up to. -/
def total : Reduction → List Nat
  | nothing => []
  | soup curve => curve
  | join first second => add first.total second.total

/-- All parts of the work, each of which has a sum of its own on the way. -/
def parts : Reduction → List Reduction
  | nothing => [nothing]
  | soup curve => [soup curve]
  | join first second => join first second :: (first.parts ++ second.parts)

theorem totals (t : Reduction) : Totals t.curves t.total := by
  induction t with
  | nothing => exact .nil
  | soup curve => exact .single curve
  | join first second ih ih' => exact ih.add ih'

/-- A part of the work adds up some of the curves. -/
theorem curves_sublist (t : Reduction) : ∀ part ∈ t.parts, part.curves.Sublist t.curves := by
  induction t with
  | nothing =>
      intro part hpart
      rw [List.mem_singleton.mp hpart]
  | soup curve =>
      intro part hpart
      rw [List.mem_singleton.mp hpart]
  | join first second ih ih' =>
      intro part hpart
      rcases List.mem_cons.mp hpart with rfl | hrest
      · exact List.Sublist.refl _
      · rcases List.mem_append.mp hrest with hfirst | hsecond
        · exact (ih part hfirst).trans (List.sublist_append_left _ _)
        · exact (ih' part hsecond).trans (List.sublist_append_right _ _)

/-- However a list of curves is shared out, and in whatever order, the total is the one of the
sequence. -/
theorem total_of_perm (t : Reduction) {curves : List (List Nat)} (h : curves.Perm t.curves) :
    curves.foldl add [] = t.total :=
  ((Totals.foldl curves).of_perm h).unique t.totals

/--
**Totals do not depend on how the soups are shared out.**  Whatever the curves and their
lengths, and however their addition is grouped, with nothing added anywhere: the total goes on
as long as the longest curve, it has in each generation the sum of the populations that there
are, and it is what adding up the curves one after the other gives, in any order.  If the sums of
all curves are unsigned numbers of 64 bits, so is every sum on the way.
-/
theorem total_of_any_grouping (t : Reduction) :
    t.total.length = longest t.curves ∧
    (∀ g, t.total.getD g 0 = populationAt t.curves g) ∧
    (∀ curves : List (List Nat), curves.Perm t.curves → curves.foldl add [] = t.total) ∧
    ((∀ g, populationAt t.curves g < 2 ^ 64) →
      ∀ part ∈ t.parts, ∀ n ∈ part.total, n < 2 ^ 64) := by
  refine ⟨t.totals.length, t.totals.population, fun curves h => t.total_of_perm h, ?_⟩
  intro hfit part hpart n hn
  refine part.totals.lt_of_mem (fun g => ?_) hn
  exact Nat.lt_of_le_of_lt (populationAt_le (t.curves_sublist part hpart) g) (hfit g)

example : (join (join nothing (soup [4, 4])) (join (soup [3, 1, 1]) nothing)).total = [7, 5, 1] :=
  rfl

end Reduction

end PopulationCurve

namespace PopulationReport

open PopulationCurve

/-- **A report has the totals of every way to share out its soups.** -/
theorem totals_of_run {source : RandomSource} {rule : Rule} {s : Settings}
    {report : PopulationReport} (h : run source rule s = .ok report) :
    ∃ chance, s.probability source = .ok chance ∧
      ∀ t : Reduction, ((List.range s.soups).map fun i =>
          ofSoup rule (s.surface.getD .plane)
            (Soup.draw source s.soupSize s.soupSize chance (Soup.stream source s.seed i)).1
            s.generations).Perm t.curves →
        report.totals = t.total := by
  obtain ⟨chance, hchance, h⟩ := ok_of_bind h
  refine ⟨chance, hchance, fun t ht => ?_⟩
  simp only at h
  split at h
  · cases h
  · injection h with h
    subst h
    rw [← t.total_of_perm ht, List.foldl_map]

end PopulationReport

end Cellular
