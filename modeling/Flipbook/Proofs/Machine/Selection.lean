import Flipbook.Machine.Record
import Flipbook.Proofs.Number.Order
import Mathlib.Data.List.Basic

/-!
# Proofs/Machine/Selection — the heaviest animation

Of the animations of a state a tick shows the first one of the heaviest.  `Record.Leads` says this
of a weighed animation and the list that it stands in, and `Record.heaviest_eq_some` says that
folding over the list finds the one of which it is true.
-/

namespace Flipbook.Machine.Record

/-! ## Weighed animations -/

/-- Whether a weighed animation is the first one of the heaviest in a list. -/
def Leads (weighed : List (LongHash × Except String Single)) (weight : Single) (name : LongHash) :
    Prop :=
  ∃ front back, weighed = front ++ (name, .ok weight) :: back ∧
    (∀ x ∈ front, ∀ w, x.2 = .ok w → w.less weight) ∧
    ∀ x ∈ back, ∀ w, x.2 = .ok w → ¬ weight.less w

variable {weighed : List (LongHash × Except String Single)} {x : LongHash × Except String Single}
  {weight weight' top : Single} {name name' leader : LongHash}

theorem Leads.mem (h : Leads weighed weight name) : (name, .ok weight) ∈ weighed := by
  obtain ⟨front, back, rfl, -⟩ := h
  simp

/-- An animation leads from the front if none behind it is heavier. -/
theorem leads_head (h : ∀ x ∈ weighed, ∀ w, x.2 = .ok w → ¬ weight.less w) :
    Leads ((name, .ok weight) :: weighed) weight name :=
  ⟨[], weighed, rfl, by simp, h⟩

/-- A lighter animation may stand in front. -/
theorem Leads.cons (h : Leads weighed weight name) (hx : ∀ w, x.2 = .ok w → w.less weight) :
    Leads (x :: weighed) weight name := by
  obtain ⟨front, back, rfl, hfront, hback⟩ := h
  exact ⟨x :: front, back, rfl, List.forall_mem_cons.2 ⟨hx, hfront⟩, hback⟩

/-- Among weighed animations only one leads. -/
theorem Leads.unique (h : Leads weighed weight name) (h' : Leads weighed weight' name') :
    weight' = weight ∧ name' = name := by
  obtain ⟨front, back, rfl, hfront, hback⟩ := h
  obtain ⟨front', back', hsplit, hfront', hback'⟩ := h'
  -- if one of the two stood before the other, it would be lighter than that and not lighter
  rcases List.append_eq_append_iff.1 hsplit with ⟨mid, rfl, hrest⟩ | ⟨mid, rfl, hrest⟩
  · cases mid with
    | nil =>
      obtain ⟨heq, -⟩ := List.cons.inj hrest
      cases heq
      exact ⟨rfl, rfl⟩
    | cons y mid =>
      obtain ⟨rfl, rfl⟩ := List.cons.inj hrest
      exact absurd (hfront' (name, .ok weight) (by simp) weight rfl)
        (hback (name', .ok weight') (by simp) weight' rfl)
  · cases mid with
    | nil =>
      obtain ⟨heq, -⟩ := List.cons.inj hrest
      cases heq
      exact ⟨rfl, rfl⟩
    | cons y mid =>
      obtain ⟨rfl, rfl⟩ := List.cons.inj hrest
      exact absurd (hfront (name', .ok weight') (by simp) weight' rfl)
        (hback' (name, .ok weight) (by simp) weight rfl)

/-- The heaviest animation is the first choice, if none is heavier, or leads among those behind it
and is heavier. -/
theorem heaviest_some (hfinite : ∀ x ∈ weighed, ∀ w, x.2 = .ok w → w.isFinite)
    (h : heaviest (some (top, leader)) weighed = some (weight, name)) :
    (weight = top ∧ name = leader ∧ ∀ x ∈ weighed, ∀ w, x.2 = .ok w → ¬ top.less w) ∨
      (top.less weight ∧ Leads weighed weight name) := by
  induction weighed generalizing top leader with
  | nil =>
    obtain ⟨rfl, rfl⟩ := Prod.mk.inj (Option.some.inj h)
    exact .inl ⟨rfl, rfl, by simp⟩
  | cons x weighed ih =>
    obtain ⟨hx, hrest⟩ := List.forall_mem_cons.1 hfinite
    obtain ⟨other, reason | v⟩ := x
    · rcases ih hrest h with ⟨rfl, rfl, hnone⟩ | ⟨hless, hleads⟩
      · exact .inl ⟨rfl, rfl, List.forall_mem_cons.2 ⟨by simp, hnone⟩⟩
      · exact .inr ⟨hless, hleads.cons (by simp)⟩
    · have hv := Single.isNaN_eq_false (hx v rfl)
      rw [heaviest] at h
      by_cases hless : top.less v
      · rw [if_pos hless] at h
        rcases ih hrest h with ⟨rfl, rfl, hnone⟩ | ⟨hless', hleads⟩
        · exact .inr ⟨hless, leads_head hnone⟩
        · exact .inr ⟨Single.less_trans hless hless', hleads.cons (by simpa using hless')⟩
      · rw [if_neg hless] at h
        rcases ih hrest h with ⟨rfl, rfl, hnone⟩ | ⟨hless', hleads⟩
        · exact .inl ⟨rfl, rfl, List.forall_mem_cons.2 ⟨by simpa using hless, hnone⟩⟩
        · exact .inr ⟨hless', hleads.cons (by
            simpa using Single.less_of_not_less hv hless hless')⟩

/-- Folding with a first choice finds something. -/
theorem heaviest_some_ne_none (weighed : List (LongHash × Except String Single))
    (best : Single × LongHash) : heaviest (some best) weighed ≠ none := by
  induction weighed generalizing best with
  | nil => simp [heaviest]
  | cons x weighed ih =>
    obtain ⟨other, reason | v⟩ := x
    · exact ih best
    · rw [heaviest]
      split
      · exact ih (v, other)
      · exact ih best

/-- **Nothing is the heaviest exactly if nothing has a weight.** -/
theorem heaviest_eq_none : heaviest none weighed = none ↔ ∀ x ∈ weighed, ∀ w, x.2 ≠ .ok w := by
  induction weighed with
  | nil => simp [heaviest]
  | cons x weighed ih =>
    obtain ⟨other, reason | v⟩ := x
    · rw [heaviest, ih]
      simp
    · rw [heaviest]
      exact iff_of_false (heaviest_some_ne_none _ _) fun h => h _ List.mem_cons_self v rfl

/-- **What is the heaviest leads**, and only that. -/
theorem heaviest_eq_some (hfinite : ∀ x ∈ weighed, ∀ w, x.2 = .ok w → w.isFinite) :
    heaviest none weighed = some (weight, name) ↔ Leads weighed weight name := by
  have hleads : ∀ weight name, heaviest none weighed = some (weight, name) →
      Leads weighed weight name := by
    intro weight name h
    induction weighed with
    | nil => cases h
    | cons x weighed ih =>
      obtain ⟨hx, hrest⟩ := List.forall_mem_cons.1 hfinite
      obtain ⟨other, reason | v⟩ := x
      · exact (ih hrest h).cons (by simp)
      · rcases heaviest_some hrest h with ⟨rfl, rfl, hnone⟩ | ⟨hless, hleads⟩
        · exact leads_head hnone
        · exact hleads.cons (by simpa using hless)
  refine ⟨hleads weight name, fun h => ?_⟩
  cases hbest : heaviest none weighed with
  | none => exact absurd rfl (heaviest_eq_none.1 hbest _ h.mem weight)
  | some best =>
    obtain ⟨rfl, rfl⟩ := h.unique (hleads best.1 best.2 hbest)
    rfl

end Flipbook.Machine.Record
