import Flipbook.Logged
import Mathlib.Data.List.Forall2

/-!
# Proofs/Steps — opening sequences of steps that may fail

A computation in `Except` that succeeds is one whose steps all succeed.  The lemmas here say so for
two steps in a row, for the same step over a list, and for a check on every entry of a list; the
results of a step over a list are related to its entries by `List.Forall₂`.  A computation that
raises notices has no steps that fail; what holds of each of its steps and is kept from one to the
next holds of all of them (`Logged.foldlM_rel`).
-/

namespace Flipbook

variable {ε α β : Type}

/-- Two steps succeed where both do. -/
theorem bind_eq_ok {x : Except ε α} {f : α → Except ε β} {b : β} :
    (x >>= f) = .ok b ↔ ∃ a, x = .ok a ∧ f a = .ok b := by
  cases x with
  | error e => simp [bind, Except.bind]
  | ok a => simp [bind, Except.bind]

/-- A step that succeeds hands its result on. -/
theorem bind_of_ok {x : Except ε α} {a : α} (h : x = .ok a) (f : α → Except ε β) :
    (x >>= f) = f a := by
  subst h
  rfl

/-- A step that fails ends the sequence. -/
theorem bind_of_error {x : Except ε α} {e : ε} (h : x = .error e) (f : α → Except ε β) :
    (x >>= f) = .error e := by
  subst h
  rfl

/-- Two steps fail where the first one does, or the second one behind it. -/
theorem bind_eq_error {x : Except ε α} {f : α → Except ε β} {e : ε} :
    (x >>= f) = .error e ↔ x = .error e ∨ ∃ a, x = .ok a ∧ f a = .error e := by
  cases x with
  | error e' => simp [bind, Except.bind]
  | ok a => simp [bind, Except.bind]

/-- A result is changed where there is one. -/
theorem map_eq_ok {x : Except ε α} {f : α → β} {b : β} :
    (f <$> x) = .ok b ↔ ∃ a, x = .ok a ∧ f a = b := by
  cases x with
  | error e => simp [Functor.map, Except.map]
  | ok a => simp [Functor.map, Except.map]

/-- Changing a result keeps a failure. -/
theorem map_eq_error {x : Except ε α} {f : α → β} {e : ε} :
    (f <$> x) = .error e ↔ x = .error e := by
  cases x with
  | error e' => simp [Functor.map, Except.map]
  | ok a => simp [Functor.map, Except.map]

@[simp] theorem pure_eq_ok {a b : α} : (pure a : Except ε α) = .ok b ↔ a = b := by
  simp [pure, Except.pure]

theorem exists_ok_of_isSome_toOption {x : Except ε α} (h : x.toOption.isSome) :
    ∃ a, x = .ok a := by
  cases x with
  | error e => cases h
  | ok a => exact ⟨a, rfl⟩

/-- **A step succeeds over a list where it does on every entry**, and the results stand in the same
order. -/
theorem mapM_eq_ok {f : α → Except ε β} {xs : List α} {ys : List β} :
    xs.mapM f = .ok ys ↔ List.Forall₂ (fun x y => f x = .ok y) xs ys := by
  induction xs generalizing ys with
  | nil => cases ys <;> simp
  | cons x xs ih =>
    simp only [List.mapM_cons, bind_eq_ok, pure_eq_ok, ih]
    constructor
    · rintro ⟨y, hy, zs, hzs, rfl⟩
      exact .cons hy hzs
    · rintro (_ | ⟨hy, hzs⟩)
      exact ⟨_, hy, _, hzs, rfl⟩

/-- A step that may have no result has results over a list where it has one on every entry. -/
theorem mapM_eq_some {f : α → Option β} {xs : List α} {ys : List β} :
    xs.mapM f = some ys ↔ List.Forall₂ (fun x y => f x = some y) xs ys := by
  induction xs generalizing ys with
  | nil => cases ys <;> simp
  | cons x xs ih =>
    simp only [List.mapM_cons, Option.bind_eq_bind, Option.bind_eq_some_iff, Option.pure_def,
      Option.some.injEq, ih]
    constructor
    · rintro ⟨y, hy, zs, hzs, rfl⟩
      exact .cons hy hzs
    · rintro (_ | ⟨hy, hzs⟩)
      exact ⟨_, hy, _, hzs, rfl⟩

/-- A step that may have no result has results over a list exactly where it has one on every
entry. -/
theorem isSome_mapM {f : α → Option β} {xs : List α} :
    (xs.mapM f).isSome ↔ ∀ x ∈ xs, (f x).isSome := by
  induction xs with
  | nil => simp
  | cons x xs ih =>
    rw [List.forall_mem_cons, ← ih, List.mapM_cons]
    cases f x <;> cases xs.mapM f <;> simp

/-- A check succeeds over a list where it does on every entry. -/
theorem forM_eq_ok {f : α → Except ε Unit} {xs : List α} {u : Unit} :
    xs.forM f = .ok u ↔ ∀ x ∈ xs, f x = .ok () := by
  induction xs with
  | nil => simp [List.forM, pure, Except.pure]
  | cons x xs ih =>
    have hcons : (x :: xs).forM f = f x >>= fun _ => xs.forM f := rfl
    rw [hcons, bind_eq_ok, List.forall_mem_cons, ih]
    exact ⟨fun ⟨_, hx, hxs⟩ => ⟨hx, hxs⟩, fun ⟨hx, hxs⟩ => ⟨(), hx, hxs⟩⟩

/-- Lists made entry by entry from the same lists are related where their entries are. -/
theorem forall₂_zipWith {γ δ : Type} {R : γ → δ → Prop} {f : α → β → γ} {g : α → β → δ}
    {xs : List α} {ys : List β} (h : ∀ x, ∀ y ∈ ys, R (f x y) (g x y)) :
    List.Forall₂ R (List.zipWith f xs ys) (List.zipWith g xs ys) := by
  induction xs generalizing ys with
  | nil => exact .nil
  | cons x xs ih =>
    cases ys with
    | nil => exact .nil
    | cons y ys =>
      obtain ⟨hy, hys⟩ := List.forall_mem_cons.1 fun y hy => h x y hy
      exact .cons hy (ih fun x y hy => h x y (List.mem_cons_of_mem _ hy))

/-- A relation to the entries of a list carries over to what is made of them. -/
theorem forall₂_zipWith_right {γ δ : Type} {R : γ → β → Prop} {Q : γ → δ → Prop} {f : α → β → δ}
    {xs : List α} {ys : List β} {zs : List γ} (h : List.Forall₂ R zs ys)
    (hlen : xs.length = ys.length) (hf : ∀ x y z, R z y → Q z (f x y)) :
    List.Forall₂ Q zs (List.zipWith f xs ys) := by
  induction h generalizing xs with
  | nil =>
    rw [List.zipWith_nil_right]
    exact .nil
  | cons hzy _ ih =>
    cases xs with
    | nil => cases hlen
    | cons x xs => exact .cons (hf _ _ _ hzy) (ih (Nat.succ.inj hlen))

/-- An entry of a list has the related one at the same position. -/
theorem exists_getElem?_of_forall₂ {R : α → β → Prop} {xs : List α} {ys : List β}
    (h : List.Forall₂ R xs ys) {i : Nat} {y : β} (hi : ys[i]? = some y) :
    ∃ x, xs[i]? = some x ∧ R x y := by
  induction h generalizing i with
  | nil => simp at hi
  | @cons x _ xs _ hxy _ ih =>
    cases i with
    | zero =>
      obtain rfl := Option.some.inj hi
      exact ⟨x, rfl, hxy⟩
    | succ i => exact ih hi

/-- Entries that have a related one each are related to a list of them. -/
theorem exists_forall₂_iff {R : α → β → Prop} {xs : List α} :
    (∃ ys, List.Forall₂ R xs ys) ↔ ∀ x ∈ xs, ∃ y, R x y := by
  induction xs with
  | nil => exact iff_of_true ⟨[], .nil⟩ nofun
  | cons x xs ih =>
    rw [List.forall_mem_cons, ← ih]
    constructor
    · rintro ⟨_, _ | ⟨hxy, hrest⟩⟩
      exact ⟨⟨_, hxy⟩, _, hrest⟩
    · rintro ⟨⟨y, hxy⟩, ys, hrest⟩
      exact ⟨y :: ys, .cons hxy hrest⟩

/-! ## Steps with notices -/

/-- Changing a result raises nothing. -/
theorem Logged.notices_map {ν : Type} (f : α → β) (x : Logged ν α) :
    (f <$> x).notices = x.notices := by
  simp [Functor.map]

/-- A step over a list gives what it gives on every entry. -/
theorem Logged.value_mapM {ν : Type} (f : α → Logged ν β) (xs : List α) :
    (xs.mapM f).value = xs.map fun x => (f x).value := by
  induction xs with
  | nil => rfl
  | cons x xs ih => rw [List.mapM_cons, Logged.value_bind, Logged.value_bind, ih]; rfl

/-- A step over a list raises what it raises on every entry. -/
theorem Logged.notices_mapM {ν : Type} (f : α → Logged ν β) (xs : List α) :
    (xs.mapM f).notices = xs.flatMap fun x => (f x).notices := by
  induction xs with
  | nil => rfl
  | cons x xs ih =>
    rw [List.mapM_cons, Logged.notices_bind, Logged.notices_bind, ih, Logged.notices_pure,
      List.append_nil, List.flatMap_cons]

/-- **A relation that every step keeps, and that steps one after the other keep, is kept by a list
of steps.** -/
theorem Logged.foldlM_rel {ν σ α : Type} {R : σ → Logged ν σ → Prop} (hpure : ∀ s, R s (pure s))
    (hbind : ∀ s x (f : σ → Logged ν σ), R s x → R x.value (f x.value) → R s (x >>= f))
    {step : σ → α → Logged ν σ} {xs : List α} (hstep : ∀ x ∈ xs, ∀ s, R s (step s x)) (s : σ) :
    R s (xs.foldlM step s) := by
  induction xs generalizing s with
  | nil => exact hpure s
  | cons x xs ih =>
    obtain ⟨hx, hxs⟩ := List.forall_mem_cons.1 hstep
    rw [List.foldlM_cons]
    exact hbind s _ _ (hx s) (ih hxs _)

end Flipbook
