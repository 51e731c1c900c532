import Mathlib.Data.List.Forall2

/-!
# Computations that may fail

What the success of a whole says about its steps, and the other way round.
-/

namespace GoBindings

open List

variable {ε α β : Type}
variable {xs : List α} {f g : α → Except ε β} {ys : List β} {x : Except ε α} {b : β}
  {R : α → β → Prop} {a : α}

theorem exists_forall₂ (h : ∀ x ∈ xs, ∃ y, R x y) : ∃ ys, Forall₂ R xs ys := by
  induction xs with
  | nil => exact ⟨[], .nil⟩
  | cons x xs ih =>
    obtain ⟨y, hy⟩ := h x (by simp)
    obtain ⟨ys, hys⟩ := ih fun x' hx => h x' (by simp [hx])
    exact ⟨y :: ys, .cons hy hys⟩

theorem exists_of_mem_forall₂ (h : Forall₂ R xs ys) {x : α} (hx : x ∈ xs) :
    ∃ y ∈ ys, R x y := by
  induction h with
  | nil => cases hx
  | cons hxy _ ih =>
    rcases mem_cons.mp hx with rfl | hx
    · exact ⟨_, by simp, hxy⟩
    · obtain ⟨y, hy, hR⟩ := ih hx
      exact ⟨y, by simp [hy], hR⟩

theorem forall₂_with_mem (h : Forall₂ R xs ys) :
    Forall₂ (fun x y => R x y ∧ x ∈ xs ∧ y ∈ ys) xs ys := by
  rw [forall₂_iff_zip] at h ⊢
  exact ⟨h.1, fun hxy => ⟨h.2 hxy, of_mem_zip hxy⟩⟩

@[simp] theorem ok_bind : (.ok a >>= f) = f a := rfl

@[simp] theorem error_bind {e : ε} : (.error e >>= f) = .error e := rfl

@[simp] theorem pure_eq : (pure a : Except ε α) = .ok a := rfl

theorem bind_eq_ok : (x >>= f) = .ok b ↔ ∃ a, x = .ok a ∧ f a = .ok b := by
  cases x with
  | error e => simp
  | ok a => simp

theorem pure_eq_ok {b : α} : (pure a : Except ε α) = .ok b ↔ a = b := by
  simp

/-- A block succeeds exactly if all its steps do. -/
theorem steps_eq_ok : (∀ {α β : Type} {x : Except ε α} {f : α → Except ε β} {b : β},
      (x >>= f) = .ok b ↔ ∃ a, x = .ok a ∧ f a = .ok b) ∧
    ∀ {α : Type} {a b : α}, (pure a : Except ε α) = .ok b ↔ a = b :=
  ⟨bind_eq_ok, pure_eq_ok⟩

theorem map_eq_ok {f : α → β} : x.map f = .ok b ↔ ∃ a, x = .ok a ∧ f a = b := by
  cases x with
  | error e | ok a => simp [Except.map]

theorem eq_ok_of_isOk (a : α) (h : x.isOk = true) : x = .ok (x.toOption.getD a) := by
  cases x with
  | error e => cases h
  | ok b => rfl

theorem eq_ok_of_toOption (h : x.toOption = some a) : x = .ok a := by
  cases x with
  | error e => cases h
  | ok b => exact congrArg Except.ok (Option.some.inj h)

theorem mapM_eq_ok (h : xs.mapM f = .ok ys) : Forall₂ (fun x y => f x = .ok y) xs ys := by
  induction xs generalizing ys with
  | nil =>
    rw [mapM_nil, pure_eq_ok] at h
    exact h ▸ .nil
  | cons x xs ih =>
    rw [mapM_cons, bind_eq_ok] at h
    obtain ⟨y, hy, h⟩ := h
    rw [bind_eq_ok] at h
    obtain ⟨ys', hys, h⟩ := h
    rw [pure_eq_ok] at h
    exact h ▸ .cons hy (ih hys)

theorem mapM_eq_ok_iff : xs.mapM f = .ok ys ↔ Forall₂ (fun x y => f x = .ok y) xs ys := by
  refine ⟨mapM_eq_ok, fun h => ?_⟩
  induction h with
  | nil => rfl
  | cons hx _ ih =>
    rw [mapM_cons, hx, ih]
    rfl

theorem mapM_eq_of_forall {g : α → β} (h : ∀ x ∈ xs, f x = .ok (g x)) :
    xs.mapM f = .ok (xs.map g) := by
  induction xs with
  | nil => rfl
  | cons x xs ih =>
    rw [mapM_cons, h x (by simp), ih fun y hy => h y (by simp [hy])]
    rfl

theorem exists_mapM (h : ∀ x ∈ xs, ∃ y, f x = .ok y) : ∃ ys, xs.mapM f = .ok ys := by
  obtain ⟨ys, hys⟩ := exists_forall₂ h
  exact ⟨ys, mapM_eq_ok_iff.mpr hys⟩

theorem exists_of_mem_mapM (h : xs.mapM f = .ok ys) {y : β} (hy : y ∈ ys) :
    ∃ x ∈ xs, f x = .ok y := by
  obtain ⟨i, hi, rfl⟩ := mem_iff_getElem.mp hy
  obtain ⟨hlen, hget⟩ := forall₂_iff_get.mp (mapM_eq_ok h)
  exact ⟨xs[i], getElem_mem _, hget i (hlen ▸ hi) hi⟩

theorem exists_of_mapM_error {e : ε} (h : xs.mapM f = .error e) : ∃ x ∈ xs, f x = .error e := by
  induction xs with
  | nil => cases h
  | cons x xs ih =>
    rw [mapM_cons] at h
    cases hx : f x with
    | error e' =>
      rw [hx] at h
      exact ⟨x, by simp, by rw [hx, Except.error.inj h]⟩
    | ok y =>
      cases hxs : xs.mapM f with
      | ok ys => simp [hx, hxs] at h
      | error e' =>
        obtain rfl : e' = e := by simpa [hx, hxs] using h
        obtain ⟨x', hx', herror⟩ := ih hxs
        exact ⟨x', by simp [hx'], herror⟩

theorem exists_of_foldlM_error {f : β → α → Except ε β} {e : ε} (h : xs.foldlM f b = .error e) :
    ∃ b', ∃ x ∈ xs, f b' x = .error e := by
  induction xs generalizing b with
  | nil => cases h
  | cons x xs ih =>
    rw [foldlM_cons] at h
    cases hx : f b x with
    | error e' =>
      rw [hx] at h
      exact ⟨b, x, by simp, by rw [hx, Except.error.inj h]⟩
    | ok b' =>
      rw [hx] at h
      obtain ⟨c, x', hx', herror⟩ := ih h
      exact ⟨c, x', by simp [hx'], herror⟩

theorem foldlM_invariant {f : β → α → Except ε β} {P : β → Prop} {b' : β}
    (h : xs.foldlM f b = .ok b') (hb : P b)
    (hstep : ∀ b a b', a ∈ xs → P b → f b a = .ok b' → P b') : P b' := by
  induction xs generalizing b with
  | nil =>
    rw [foldlM_nil, pure_eq_ok] at h
    exact h ▸ hb
  | cons x xs ih =>
    rw [foldlM_cons, bind_eq_ok] at h
    obtain ⟨c, hc, h⟩ := h
    exact ih h (hstep b x c (by simp) hb hc) fun b a b' ha => hstep b a b' (by simp [ha])

/-- Steps that lead to related results whenever others succeed do so as a whole. -/
theorem mapM_follows {γ : Type} {g : α → Except ε γ} {R : β → γ → Prop} (h : xs.mapM f = .ok ys)
    (hstep : ∀ x ∈ xs, ∀ y, f x = .ok y → ∃ z, g x = .ok z ∧ R y z) :
    ∃ zs, xs.mapM g = .ok zs ∧ Forall₂ R ys zs := by
  induction xs generalizing ys with
  | nil =>
    rw [mapM_nil, pure_eq_ok] at h
    exact ⟨[], rfl, h ▸ .nil⟩
  | cons x xs ih =>
    simp only [mapM_cons, steps_eq_ok] at h
    obtain ⟨y, hy, ys, hys, rfl⟩ := h
    rw [forall_mem_cons] at hstep
    obtain ⟨z, hz, hyz⟩ := hstep.1 y hy
    obtain ⟨zs, hzs, hrel⟩ := ih hys hstep.2
    refine ⟨z :: zs, ?_, .cons hyz hrel⟩
    rw [mapM_cons, hz, hzs]
    rfl

theorem mapM_of_mapM (h : xs.mapM f = .ok ys) (hstep : ∀ x ∈ xs, ∀ y, f x = .ok y → g x = .ok y) :
    xs.mapM g = .ok ys := by
  obtain ⟨zs, hzs, hrel⟩ := mapM_follows h fun x hx y hy => ⟨y, hstep x hx y hy, rfl⟩
  rw [forall₂_eq_eq_eq] at hrel
  rw [hzs, hrel]

theorem foldlM_of_foldlM {f g : β → α → Except ε β} {c : β} (h : xs.foldlM f b = .ok c)
    (hstep : ∀ b, ∀ x ∈ xs, ∀ c, f b x = .ok c → g b x = .ok c) : xs.foldlM g b = .ok c := by
  induction xs generalizing b with
  | nil => exact h
  | cons x xs ih =>
    rw [foldlM_cons, bind_eq_ok] at h ⊢
    obtain ⟨d, hd, h⟩ := h
    exact ⟨d, hstep b x (by simp) d hd, ih h fun b y hy => hstep b y (by simp [hy])⟩

theorem ite_ok {c : Prop} [Decidable c] {x' y y' : Except ε α} (hx : x = .ok a → x' = .ok a)
    (hy : y = .ok a → y' = .ok a) :
    (if c then x else y) = .ok a → (if c then x' else y') = .ok a := by
  split
  · exact hx
  · exact hy

theorem mapM_congr (h : ∀ x ∈ xs, f x = g x) : xs.mapM f = xs.mapM g := by
  induction xs with
  | nil => rfl
  | cons x xs ih =>
    rw [forall_mem_cons] at h
    rw [mapM_cons, mapM_cons, h.1, ih h.2]

theorem mapM_sublist {xs' : List α} (h : xs.Sublist xs') {ys' : List β} (hys : xs.mapM f = .ok ys)
    (hys' : xs'.mapM f = .ok ys') : ys.Sublist ys' := by
  induction h generalizing ys ys' with
  | slnil =>
    cases hys
    exact nil_sublist _
  | cons x _ ih =>
    simp only [mapM_cons, steps_eq_ok] at hys'
    obtain ⟨y, -, zs, hzs, rfl⟩ := hys'
    exact (ih hys hzs).cons _
  | cons_cons x _ ih =>
    simp only [mapM_cons, steps_eq_ok] at hys hys'
    obtain ⟨y, hy, zs, hzs, rfl⟩ := hys
    obtain ⟨y', hy', zs', hzs', rfl⟩ := hys'
    cases hy.symm.trans hy'
    exact (ih hzs hzs').cons_cons _

theorem exists_of_mapM_both (hf : xs.mapM f = .ok ys) (hg : xs.mapM g = .ok ys) {x : α}
    (hx : x ∈ xs) : ∃ y, f x = .ok y ∧ g x = .ok y := by
  induction xs generalizing ys with
  | nil => cases hx
  | cons x' xs ih =>
    simp only [mapM_cons, steps_eq_ok] at hf hg
    obtain ⟨y, hy, zs, hzs, rfl⟩ := hf
    obtain ⟨y', hy', zs', hzs', heq⟩ := hg
    obtain ⟨rfl, rfl⟩ := cons.inj heq
    rcases mem_cons.mp hx with rfl | hx
    · exact ⟨y', hy, hy'⟩
    · exact ih hzs hzs' hx

end GoBindings
