import Mathlib.Data.List.Forall2
/-!
# Results of failing computations

A sequence of steps succeeds when each step does.
-/
namespace Repin

variable {α β ε ε' : Type} {x : Except ε α} {f : α → Except ε β} {a : α} {b : β}

@[simp] theorem ok_bind : (Except.ok a >>= f) = f a := rfl

@[simp] theorem error_bind {e : ε} : (Except.error e >>= f) = .error e := rfl

theorem bind_eq_ok : x >>= f = .ok b ↔ ∃ a, x = .ok a ∧ f a = .ok b := by
  cases x <;> simp [bind, Except.bind]

theorem map_eq_ok {f : α → β} : f <$> x = .ok b ↔ ∃ a, x = .ok a ∧ f a = b := by
  cases x <;> simp [Functor.map, Except.map]

theorem toOption_ok : (Except.ok a : Except ε α).toOption = some a := rfl

theorem toOption_eq_some_iff : x.toOption = some a ↔ x = .ok a := by
  cases x <;> simp [Except.toOption]

theorem toOption_bind : (x >>= f).toOption = x.toOption.bind fun a => (f a).toOption := by
  cases x <;> rfl

@[simp] theorem mapError_ok {f : ε → ε'} : (Except.ok a).mapError f = .ok a := rfl

@[simp] theorem mapError_error {f : ε → ε'} {e : ε} :
    (Except.error e : Except ε α).mapError f = .error (f e) := rfl

theorem mapError_eq_ok {f : ε → ε'} : x.mapError f = .ok a ↔ x = .ok a := by
  cases x <;> simp

theorem bind_eq_error {e : ε} :
    x >>= f = .error e ↔ x = .error e ∨ ∃ a, x = .ok a ∧ f a = .error e := by
  cases x <;> simp [bind, Except.bind]

theorem map_eq_error {f : α → β} {e : ε} : f <$> x = .error e ↔ x = .error e := by
  cases x <;> simp [Functor.map, Except.map]

theorem mapError_eq_error {f : ε → ε'} {e : ε'} :
    x.mapError f = .error e ↔ ∃ e', x = .error e' ∧ f e' = e := by
  cases x <;> simp

theorem exists_error_iff : (∃ e, x = .error e) ↔ ¬ ∃ a, x = .ok a := by
  cases x <;> simp

variable {r : α → β → Prop} {as cs : List α} {bs : List β}

-- Lists that are related member by member.
theorem exists_of_forall₂_left (h : List.Forall₂ r as bs) (ha : a ∈ as) : ∃ b ∈ bs, r a b := by
  induction h with
  | nil => cases ha
  | cons first _ ih =>
    obtain rfl | ha := List.mem_cons.mp ha
    · exact ⟨_, List.mem_cons_self, first⟩
    · have ⟨b, hb, related⟩ := ih ha
      exact ⟨b, List.mem_cons_of_mem _ hb, related⟩

theorem exists_of_forall₂_right (h : List.Forall₂ r as bs) (hb : b ∈ bs) : ∃ a ∈ as, r a b :=
  exists_of_forall₂_left h.flip hb

theorem exists_of_forall₂_append (h : List.Forall₂ r (as ++ cs) bs) :
    ∃ front back, bs = front ++ back ∧ List.Forall₂ r as front ∧ List.Forall₂ r cs back := by
  induction as generalizing bs with
  | nil => exact ⟨[], bs, rfl, .nil, h⟩
  | cons a as ih =>
    cases h with
    | cons first h =>
      obtain ⟨front, back, rfl, hf, hb⟩ := ih h
      exact ⟨_ :: front, back, rfl, .cons first hf, hb⟩

theorem mapM_eq_ok {xs : List α} {ys : List β} :
    xs.mapM f = .ok ys ↔ List.Forall₂ (fun x y => f x = .ok y) xs ys := by
  induction xs generalizing ys with
  | nil => simp [pure, Except.pure, eq_comm]
  | cons x xs ih =>
    simp only [List.mapM_cons, bind_eq_ok, ih, pure, Except.pure, Except.ok.injEq,
      List.forall₂_cons_left_iff]
    constructor
    case mp =>
      rintro ⟨y, hy, ys', hys, rfl⟩
      exact ⟨y, ys', hy, hys, rfl⟩
    case mpr =>
      rintro ⟨y, ys', hy, hys, rfl⟩
      exact ⟨y, hy, ys', hys, rfl⟩

theorem exists_mapM_eq_ok {xs : List α} (h : ∀ x ∈ xs, ∃ y, f x = .ok y) :
    ∃ ys, xs.mapM f = .ok ys := by
  induction xs with
  | nil => exact ⟨[], rfl⟩
  | cons x xs ih =>
    have ⟨⟨y, hy⟩, rest⟩ := List.forall_mem_cons.mp h
    have ⟨ys, hys⟩ := ih rest
    exact ⟨y :: ys, mapM_eq_ok.mpr (.cons hy (mapM_eq_ok.mp hys))⟩

theorem filterMap_of_mapM {γ : Type} {xs : List α} {ys : List β} (h : xs.mapM f = .ok ys)
    (g : β → Option γ) : ys.filterMap g = xs.filterMap fun x => (f x).toOption.bind g := by
  rw [mapM_eq_ok] at h
  induction h with
  | nil => rfl
  | cons first _ ih => simp only [List.filterMap_cons, first, toOption_ok, Option.bind_some, ih]

theorem mapM_eq_some_iff {g : α → Option β} {xs : List α} {ys : List β} :
    xs.mapM g = some ys ↔ List.Forall₂ (fun x y => g x = some y) xs ys := by
  induction xs generalizing ys with
  | nil => simp [eq_comm]
  | cons x xs ih =>
    simp only [List.mapM_cons, Option.bind_eq_bind, Option.bind_eq_some_iff, Option.pure_def,
      Option.some.injEq, ih, List.forall₂_cons_left_iff]
    constructor
    case mp =>
      rintro ⟨y, hy, ys', hys, rfl⟩
      exact ⟨y, ys', hy, hys, rfl⟩
    case mpr =>
      rintro ⟨y, ys', hy, hys, rfl⟩
      exact ⟨y, hy, ys', hys, rfl⟩

theorem exists_of_mem_mapM {g : α → Option β} {xs : List α} {ys : List β} {x : α}
    (h : xs.mapM g = some ys) (hx : x ∈ xs) : ∃ y, g x = some y := by
  have ⟨y, _, hy⟩ := exists_of_forall₂_left (mapM_eq_some_iff.mp h) hx
  exact ⟨y, hy⟩

-- The first step that fails decides.
theorem mapM_eq_error {xs : List α} {e : ε} :
    xs.mapM f = .error e ↔ ∃ before x after, xs = before ++ x :: after ∧
      (∀ y ∈ before, ∃ b, f y = .ok b) ∧ f x = .error e := by
  induction xs with
  | nil => simp [pure, Except.pure]
  | cons x xs ih =>
    simp only [List.mapM_cons, bind_eq_error, ih, pure, Except.pure, reduceCtorEq,
      and_false, exists_false, or_false]
    constructor
    case mp =>
      rintro (h | ⟨b, hb, before, y, after, rfl, hbs, h⟩)
      · exact ⟨[], x, xs, rfl, by simp, h⟩
      · refine ⟨x :: before, y, after, rfl, ?_, h⟩
        exact List.forall_mem_cons.mpr ⟨⟨b, hb⟩, hbs⟩
    case mpr =>
      rintro ⟨before, y, after, heq, hbs, h⟩
      cases before with
      | nil =>
        cases heq
        exact .inl h
      | cons z before =>
        cases heq
        have ⟨⟨b, hb⟩, hbs⟩ := List.forall_mem_cons.mp hbs
        exact .inr ⟨b, hb, before, y, after, rfl, hbs, h⟩

end Repin
