/-
Chains of steps that may fail.

A chain that ends well has taken every step well, so what the steps establish can be
read off the outcome.
-/
import Mathlib.Data.List.Forall2

namespace Cellular

variable {ε α β σ : Type}

theorem ok_of_bind {x : Except ε α} {f : α → Except ε β} {b : β} (h : x >>= f = .ok b) :
    ∃ a, x = .ok a ∧ f a = .ok b := by
  cases x with
  | error e => cases h
  | ok a => exact ⟨a, rfl, h⟩

theorem ok_of_map {x : Except ε α} {f : α → β} {b : β} (h : x.map f = .ok b) :
    ∃ a, x = .ok a ∧ f a = b := by
  cases x with
  | error e => cases h
  | ok a => exact ⟨a, rfl, Except.ok.inj h⟩

theorem ok_of_mapError {ε' : Type} {x : Except ε α} {f : ε → ε'} {a : α}
    (h : x.mapError f = .ok a) : x = .ok a := by
  cases x with
  | error e => cases h
  | ok b => exact congrArg Except.ok (Except.ok.inj h)

theorem ok_of_toOption {x : Except ε α} {a : α} (h : x.toOption = some a) : x = .ok a := by
  cases x with
  | error e => cases h
  | ok b => exact congrArg Except.ok (Option.some.inj h)

theorem eq_ok_of_isSome {x : Except ε α} (h : x.toOption.isSome = true) (d : α) :
    x = .ok (x.toOption.getD d) := by
  cases x with
  | error e => cases h
  | ok a => rfl

theorem exists_ok_of_any {x : Except ε α} {p : α → Bool} (h : x.toOption.any p = true) :
    ∃ a, x = .ok a ∧ p a = true := by
  cases x with
  | error e => cases h
  | ok a => exact ⟨a, rfl, h⟩

theorem toOption_bind (x : Except ε α) (f : α → Except ε β) :
    (x >>= f).toOption = x.toOption.bind fun a => (f a).toOption := by
  cases x <;> rfl

theorem toOption_map (f : α → β) (x : Except ε α) : (f <$> x).toOption = x.toOption.map f := by
  cases x <;> rfl

theorem toOption_mapError {ε' : Type} (x : Except ε α) (f : ε → ε') :
    (x.mapError f).toOption = x.toOption := by
  cases x <;> rfl

theorem mapM_eq_ok {f : α → Except ε β} {g : α → β} {l : List α}
    (h : ∀ x ∈ l, f x = .ok (g x)) : l.mapM f = .ok (l.map g) := by
  induction l with
  | nil => rfl
  | cons x rest ih =>
      rw [List.mapM_cons, h x List.mem_cons_self, ih fun y hy => h y (List.mem_cons_of_mem x hy)]
      rfl

/-- The outcomes come in the order of the elements. -/
theorem forall₂_of_mapM {f : α → Except ε β} {l : List α} :
    ∀ {ys : List β}, l.mapM f = .ok ys → List.Forall₂ (fun x y => f x = .ok y) l ys := by
  induction l with
  | nil =>
      intro ys h
      injection h with h
      subst h
      exact .nil
  | cons x rest ih =>
      intro ys h
      rw [List.mapM_cons] at h
      obtain ⟨y, hy, h⟩ := ok_of_bind h
      obtain ⟨ys, hys, h⟩ := ok_of_bind h
      injection h with h
      subst h
      exact .cons hy (ih hys)

/-- A list has the outcomes that its elements have. -/
theorem mapM_eq_ok_iff {f : α → Except ε β} {l : List α} {ys : List β} :
    l.mapM f = .ok ys ↔ List.Forall₂ (fun x y => f x = .ok y) l ys := by
  refine ⟨forall₂_of_mapM, fun h => ?_⟩
  induction h with
  | nil => rfl
  | cons hx _ ih =>
      rw [List.mapM_cons, hx, ih]
      rfl

/-- Elements that succeed one by one succeed as a list. -/
theorem exists_ok_mapM {f : α → Except ε β} {l : List α} (h : ∀ x ∈ l, ∃ y, f x = .ok y) :
    ∃ ys, l.mapM f = .ok ys := by
  induction l with
  | nil => exact ⟨[], rfl⟩
  | cons x rest ih =>
      obtain ⟨y, hy⟩ := h x List.mem_cons_self
      obtain ⟨ys, hys⟩ := ih fun z hz => h z (List.mem_cons_of_mem x hz)
      refine ⟨y :: ys, ?_⟩
      rw [List.mapM_cons, hy, hys]
      rfl

/-- What succeeds with each element in one way succeeds in every way that gives the same
outcomes. -/
theorem ok_mapM_of_ok {f g : α → Except ε β} (hfg : ∀ x y, f x = .ok y → g x = .ok y)
    {l : List α} : ∀ {ys : List β}, l.mapM f = .ok ys → l.mapM g = .ok ys := by
  induction l with
  | nil => exact fun h => h
  | cons x rest ih =>
      intro ys h
      rw [List.mapM_cons] at h ⊢
      obtain ⟨y, hy, h⟩ := ok_of_bind h
      obtain ⟨zs, hzs, h⟩ := ok_of_bind h
      rw [hfg x y hy, ih hzs]
      exact h

/-- Outcomes that are converted one by one are converted as a list. -/
theorem toOption_mapM_map {α' γ : Type} {f : α → Except ε β} {g : α' → Except ε γ} {e : α → α'}
    {F : β → γ} {l : List α}
    (h : ∀ x ∈ l, (g (e x)).toOption = (f x).toOption.map F) :
    ((l.map e).mapM g).toOption = (l.mapM f).toOption.map (List.map F) := by
  induction l with
  | nil => rfl
  | cons x rest ih =>
      have hx := h x List.mem_cons_self
      have hrest := ih fun y hy => h y (List.mem_cons_of_mem x hy)
      rw [List.map_cons, List.mapM_cons, List.mapM_cons]
      simp only [toOption_bind, hx, hrest]
      cases (f x).toOption with
      | none => rfl
      | some y => cases (rest.mapM f).toOption <;> rfl

theorem exists_of_mem_left {R : α → β → Prop} {l : List α} {l' : List β}
    (h : List.Forall₂ R l l') : ∀ x ∈ l, ∃ y ∈ l', R x y := by
  induction h with
  | nil => exact fun x hx => absurd hx List.not_mem_nil
  | @cons x y _ _ hxy _ ih =>
      intro z hz
      rcases List.mem_cons.mp hz with rfl | htail
      · exact ⟨y, List.mem_cons_self, hxy⟩
      · obtain ⟨v, hv, hzv⟩ := ih z htail
        exact ⟨v, List.mem_cons_of_mem y hv, hzv⟩

theorem exists_of_mem_right {R : α → β → Prop} {l : List α} {l' : List β}
    (h : List.Forall₂ R l l') : ∀ y ∈ l', ∃ x ∈ l, R x y :=
  exists_of_mem_left (R := fun y x => R x y) h.flip

theorem exists_forall₂ {R : α → β → Prop} {l : List β} (h : ∀ y ∈ l, ∃ x, R x y) :
    ∃ xs, List.Forall₂ R xs l := by
  induction l with
  | nil => exact ⟨[], .nil⟩
  | cons y rest ih =>
      obtain ⟨x, hx⟩ := h y List.mem_cons_self
      obtain ⟨xs, hxs⟩ := ih fun z hz => h z (List.mem_cons_of_mem y hz)
      exact ⟨x :: xs, .cons hx hxs⟩

/-- Every element has an outcome, and there are no others. -/
theorem ok_of_mapM {f : α → Except ε β} {l : List α} {ys : List β} (h : l.mapM f = .ok ys) :
    (∀ x ∈ l, ∃ y ∈ ys, f x = .ok y) ∧ ∀ y ∈ ys, ∃ x ∈ l, f x = .ok y :=
  ⟨exists_of_mem_left (forall₂_of_mapM h), exists_of_mem_right (forall₂_of_mapM h)⟩

/-- Related elements have related outcomes. -/
theorem forall₂_outcomes {α' β' : Type} {R : α → α' → Prop} {S : β → β' → Prop}
    {F : α → β → Prop} {G : α' → β' → Prop}
    (hread : ∀ x x' y z, R x x' → F x y → G x' z → S y z) {l : List α} {l' : List α'}
    (h : List.Forall₂ R l l') :
    ∀ {ys zs}, List.Forall₂ F l ys → List.Forall₂ G l' zs → List.Forall₂ S ys zs := by
  induction h with
  | nil =>
      intro ys zs hys hzs
      cases hys
      cases hzs
      exact .nil
  | cons hx _ ih =>
      intro ys zs hys hzs
      cases hys with
      | cons hy hys =>
          cases hzs with
          | cons hz hzs => exact .cons (hread _ _ _ _ hx hy hz) (ih hys hzs)

/-- A list of checks that passes has passed each of them. -/
theorem ok_of_forM {f : α → Except ε Unit} {l : List α} (h : l.forM f = .ok ⟨⟩) :
    ∀ x ∈ l, f x = .ok ⟨⟩ := by
  induction l with
  | nil => exact fun x hx => absurd hx List.not_mem_nil
  | cons x rest ih =>
      have hboth : (f x >>= fun _ => rest.forM f) = .ok ⟨⟩ := h
      obtain ⟨⟨⟩, hx, hrest⟩ := ok_of_bind hboth
      intro y hy
      rcases List.mem_cons.mp hy with rfl | htail
      · exact hx
      · exact ih hrest y htail

/-- A run goes through if every step does. -/
theorem exists_ok_of_foldlM {f : σ → α → Except ε σ} {l : List α}
    (h : ∀ x ∈ l, ∀ s, ∃ t, f s x = .ok t) : ∀ s, ∃ t, l.foldlM f s = .ok t := by
  induction l with
  | nil => exact fun s => ⟨s, rfl⟩
  | cons x rest ih =>
      intro s
      obtain ⟨t, ht⟩ := h x List.mem_cons_self s
      obtain ⟨u, hu⟩ := ih (fun y hy => h y (List.mem_cons_of_mem x hy)) t
      refine ⟨u, ?_⟩
      rw [List.foldlM_cons, ht]
      exact hu

/-- Every step of a run that went through went through. -/
theorem steps_of_foldlM {f : σ → α → Except ε σ} {l : List α} :
    ∀ {s t : σ}, l.foldlM f s = .ok t → ∀ x ∈ l, ∃ u v, f u x = .ok v := by
  induction l with
  | nil => exact fun _ x hx => absurd hx List.not_mem_nil
  | cons x rest ih =>
      intro s t h y hy
      rw [List.foldlM_cons] at h
      obtain ⟨u, hu, hrest⟩ := ok_of_bind h
      rcases List.mem_cons.mp hy with rfl | htail
      · exact ⟨s, u, hu⟩
      · exact ih hrest y htail

/-- What every step of a run keeps, the run keeps. -/
theorem invariant_of_foldlM {f : σ → α → Except ε σ} (P : σ → Prop) {l : List α}
    (hstep : ∀ s, ∀ x ∈ l, ∀ t, P s → f s x = .ok t → P t) :
    ∀ {s t : σ}, P s → l.foldlM f s = .ok t → P t := by
  induction l with
  | nil =>
      intro s t hs h
      injection h with h
      exact h ▸ hs
  | cons x rest ih =>
      intro s t hs h
      rw [List.foldlM_cons] at h
      obtain ⟨u, hu, hrest⟩ := ok_of_bind h
      exact ih (fun s y hy => hstep s y (List.mem_cons_of_mem x hy))
        (hstep s x List.mem_cons_self u hs hu) hrest

end Cellular
