import Flipbook.Machine.Verify
import Flipbook.Proofs.Expr.Effect

/-!
# Proofs/Machine/Verifying — what a verified program is

`SoundBody` says of words without an end that none of them can fail: every variable exists, at every
word there are the operands that it takes, and one value is left.  Verification accepts exactly the
places of the byte code from which a sound body and an end can be read (`verifyProgram_eq_ok`).
-/

namespace Flipbook.Expr.Word

/-- The number of values that a word takes. -/
def operands : Word → Nat
  | call op => op.arity
  | _ => 0

/-- The number of values after several words. -/
def depthAfterAll (depth : Nat) (ws : List Word) : Nat := ws.foldl depthAfter depth

@[simp] theorem depthAfterAll_cons (depth : Nat) (w : Word) (ws : List Word) :
    depthAfterAll depth (w :: ws) = depthAfterAll (w.depthAfter depth) ws := rfl

end Flipbook.Expr.Word

namespace Flipbook.Machine

open Flipbook.Expr (Word)

/-- Whether words that find `depth` values cannot fail where `vars` variables exist, and leave one
value. -/
structure SoundBody (vars depth : Nat) (body : List Word) : Prop where
  /-- Nothing ends the words early. -/
  endless : .finish ∉ body
  /-- Every variable exists. -/
  loads : ∀ index, .load index ∈ body → index < vars
  /-- Every word finds its operands. -/
  operands : ∀ before w after, body = before ++ w :: after →
    w.operands ≤ Word.depthAfterAll depth before
  /-- One value is left. -/
  leavesOne : Word.depthAfterAll depth body = 1

/-- Whether words that find `depth` values begin with a sound body and an end. -/
def SoundFrom (vars depth : Nat) (ws : List Word) : Prop :=
  ∃ body rest, ws = body ++ .finish :: rest ∧ SoundBody vars depth body

/-- Whether a program that cannot fail begins at a place of the byte code. -/
def SoundAt (vars : Nat) (byteCode : List Word) (place : Nat) : Prop :=
  place < byteCode.length ∧ SoundFrom vars 0 (byteCode.drop place)

variable {vars depth : Nat}

theorem soundBody_nil : SoundBody vars depth [] ↔ depth = 1 := by
  refine ⟨fun h => h.leavesOne, fun h => ⟨List.not_mem_nil, by simp, ?_, h⟩⟩
  intro before w after hsplit
  exact absurd hsplit.symm (List.append_ne_nil_of_right_ne_nil _ (List.cons_ne_nil _ _))

/-- **A sound body is a sound word and a sound body behind it.** -/
theorem soundBody_cons {w : Word} {ws : List Word} :
    SoundBody vars depth (w :: ws) ↔ w ≠ .finish ∧ (∀ index, w = .load index → index < vars) ∧
      w.operands ≤ depth ∧ SoundBody vars (w.depthAfter depth) ws := by
  constructor
  · rintro ⟨hno, hloads, hoperands, hone⟩
    refine ⟨fun h => hno (h ▸ List.mem_cons_self), ?_, hoperands [] w ws rfl, ?_⟩
    · exact fun index h => hloads index (h ▸ List.mem_cons_self)
    · refine ⟨fun h => hno (List.mem_cons_of_mem _ h),
        fun index h => hloads index (List.mem_cons_of_mem _ h), ?_, hone⟩
      rintro before v after rfl
      exact hoperands (w :: before) v after rfl
  · rintro ⟨hw, hload, hoperand, hno, hloads, hoperands, hone⟩
    refine ⟨?_, ?_, ?_, hone⟩
    · rintro (_ | ⟨_, h⟩)
      · exact hw rfl
      · exact hno h
    · intro index h
      rcases List.mem_cons.1 h with h | h
      · exact hload index h.symm
      · exact hloads index h
    · intro before v after hsplit
      rcases List.cons_eq_append_iff.1 hsplit with ⟨rfl, hnil⟩ | ⟨before', rfl, hws⟩
      · obtain ⟨rfl, -⟩ := List.cons.inj hnil
        exact hoperand
      · exact hoperands before' v after hws

theorem not_soundFrom_nil : ¬ SoundFrom vars depth [] := by
  rintro ⟨body, rest, hsplit, -⟩
  exact absurd hsplit.symm (List.append_ne_nil_of_right_ne_nil _ (List.cons_ne_nil _ _))

theorem soundFrom_finish {ws : List Word} : SoundFrom vars depth (.finish :: ws) ↔ depth = 1 := by
  constructor
  · rintro ⟨_ | ⟨v, body⟩, rest, hsplit, hbody⟩
    · exact soundBody_nil.1 hbody
    · obtain ⟨rfl, -⟩ := List.cons.inj hsplit
      exact absurd rfl (soundBody_cons.1 hbody).1
  · exact fun h => ⟨[], ws, rfl, soundBody_nil.2 h⟩

theorem soundFrom_cons {w : Word} (hw : w ≠ .finish) {ws : List Word} :
    SoundFrom vars depth (w :: ws) ↔ (∀ index, w = .load index → index < vars) ∧
      w.operands ≤ depth ∧ SoundFrom vars (w.depthAfter depth) ws := by
  constructor
  · rintro ⟨_ | ⟨v, body⟩, rest, hsplit, hbody⟩
    · exact absurd (List.cons.inj hsplit).1 hw
    · obtain ⟨rfl, rfl⟩ := List.cons.inj hsplit
      obtain ⟨-, hload, hoperand, hbody⟩ := soundBody_cons.1 hbody
      exact ⟨hload, hoperand, body, rest, rfl, hbody⟩
  · rintro ⟨hload, hoperand, body, rest, rfl, hbody⟩
    exact ⟨w :: body, rest, rfl, soundBody_cons.2 ⟨hw, hload, hoperand, hbody⟩⟩

/-- **Words are verified exactly if they begin with a sound body and an end.** -/
theorem verifyWords_eq_ok {ws : List Word} :
    verifyWords vars depth ws = .ok () ↔ SoundFrom vars depth ws := by
  induction ws generalizing depth with
  | nil => exact iff_of_false (by simp [verifyWords]) not_soundFrom_nil
  | cons w ws ih =>
    cases w with
    | finish =>
      rw [soundFrom_finish, verifyWords]
      split <;> simp_all
    | push value =>
      rw [soundFrom_cons (by simp), verifyWords, ih]
      simp [Word.operands, Word.depthAfter]
    | load index =>
      rw [soundFrom_cons (by simp), verifyWords]
      split
      · rename_i hindex
        rw [ih]
        simp [Word.operands, Word.depthAfter, hindex]
      · rename_i hindex
        simp [hindex]
    | call op =>
      rw [soundFrom_cons (by simp), verifyWords]
      split
      · rename_i hargs
        simp [Word.operands, Nat.not_le.2 hargs]
      · rename_i hargs
        rw [ih]
        simp [Word.operands, Word.depthAfter, Nat.le_of_not_lt hargs]

/-- **A place of the byte code is verified exactly if a sound program begins there.** -/
theorem verifyProgram_eq_ok {byteCode : List Word} {place : Nat} :
    verifyProgram vars byteCode place = .ok () ↔ SoundAt vars byteCode place := by
  unfold verifyProgram SoundAt
  rw [← verifyWords_eq_ok]
  split
  · rename_i hplace
    simp [Nat.not_lt.2 hplace]
  · rename_i hplace
    rw [and_iff_right (Nat.lt_of_not_le hplace)]
    split <;> simp_all

/-- Words that leave one value of those they find are a sound body. -/
theorem soundBody_of_effects? {values items : List Single} {value : Single} {ws : List Word}
    (hno : .finish ∉ ws) (h : Word.effects? values ws items = some [value]) :
    SoundBody values.length items.length ws := by
  induction ws generalizing items with
  | nil =>
    obtain rfl := Option.some.inj h
    exact soundBody_nil.2 rfl
  | cons w ws ih =>
    obtain ⟨mid, hmid, hrest⟩ := Option.bind_eq_some_iff.1 h
    have hw : w ≠ .finish := fun e => hno (e ▸ List.mem_cons_self)
    have hbody := ih (fun hm => hno (List.mem_cons_of_mem _ hm)) hrest
    rw [Word.length_effect? hmid] at hbody
    refine soundBody_cons.2 ⟨hw, ?_, ?_, hbody⟩
    · rintro index rfl
      obtain ⟨v, hv, -⟩ := Option.map_eq_some_iff.1 hmid
      exact (List.getElem?_eq_some_iff.1 hv).1
    · cases w with
      | call op =>
        refine Nat.le_of_not_lt fun hargs => ?_
        have hnone : (Word.call op).effect? values items = none := if_pos hargs
        exact absurd (hnone.symm.trans hmid) (by simp)
      | push | load | finish => exact Nat.zero_le _

/-- **A sound body leaves one value of those it finds**, wherever its variables exist. -/
theorem exists_effects?_of_soundBody {values items : List Single} {ws : List Word}
    (h : SoundBody vars items.length ws) (hvars : vars ≤ values.length) :
    ∃ value, Word.effects? values ws items = some [value] := by
  induction ws generalizing items with
  | nil =>
    obtain ⟨value, rfl⟩ := List.length_eq_one_iff.1 (soundBody_nil.1 h)
    exact ⟨value, rfl⟩
  | cons w ws ih =>
    obtain ⟨hw, hload, hoperands, hbody⟩ := soundBody_cons.1 h
    obtain ⟨mid, hmid⟩ : ∃ mid, w.effect? values items = some mid := by
      cases w with
      | push value => exact ⟨_, rfl⟩
      | load index =>
        have hlt := Nat.lt_of_lt_of_le (hload index rfl) hvars
        exact ⟨_, by rw [Word.effect?, List.getElem?_eq_getElem hlt, Option.map_some]⟩
      | call op => exact ⟨_, if_neg (Nat.not_lt.2 hoperands)⟩
      | finish => exact absurd rfl hw
    rw [← Word.length_effect? hmid] at hbody
    obtain ⟨value, hvalue⟩ := ih hbody
    exact ⟨value, by rw [Word.effects?_cons, hmid, Option.bind_some, hvalue]⟩

end Flipbook.Machine
