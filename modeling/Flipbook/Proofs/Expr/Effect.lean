import Flipbook.Expr.Run
import Flipbook.Expr.Program

/-!
# Proofs/Expr/Effect — what words do to the values they find

`Word.effect?` is the meaning of a word on values that are not bounded in number, and `effects?`
that of several words.  `Stack.run` adds to this only the bound: `run_of_effects?` says that words
with an effect have it on every stack that holds their `peak`.
-/

namespace Flipbook.Expr

/-- Only the right number of operands has a result. -/
theorem Operation.length_of_result? {op : Operation} {operands : List Single} {v : Single}
    (h : op.result? operands = some v) : operands.length = op.arity := by
  unfold result? at h
  split at h <;> first | rfl | cases h

namespace Word

/-- The values after a word, the top first; `none` where it lacks operands or its variable. -/
def effect? (vars : List Single) : Word → List Single → Option (List Single)
  | push value, items => some (value :: items)
  | load index, items => vars[index]?.map (· :: items)
  | call op, items =>
    if items.length < op.arity then none
    else some ((op.result? (items.take op.arity).reverse).toList ++ items.drop op.arity)
  | finish, items => some items

/-- The values after several words. -/
def effects? (vars : List Single) (ws : List Word) (items : List Single) : Option (List Single) :=
  ws.foldlM (fun items w => w.effect? vars items) items

@[simp] theorem effects?_cons (vars : List Single) (w : Word) (ws : List Word)
    (items : List Single) :
    effects? vars (w :: ws) items = (w.effect? vars items).bind (effects? vars ws) := rfl

@[simp] theorem effects?_append (vars : List Single) (us ws : List Word) (items : List Single) :
    effects? vars (us ++ ws) items = (effects? vars us items).bind (effects? vars ws) := by
  simp only [effects?, List.foldlM_append]
  rfl

/-- Literals stack up. -/
theorem effects?_map_push (vars values items : List Single) :
    effects? vars (values.map push) items = some (values.reverse ++ items) := by
  induction values generalizing items with
  | nil => rfl
  | cons v vs ih => simp [effect?, ih]

/-- **An operation behind its operands leaves its result in their place.** -/
theorem effect?_call_of_result? {vars items : List Single} {op : Operation} {v : Single}
    (operands : List Single) (h : op.result? operands = some v) :
    (call op).effect? vars (operands.reverse ++ items) = some (v :: items) := by
  have hlen : operands.reverse.length = op.arity := by
    rw [List.length_reverse]
    exact Operation.length_of_result? h
  have htake : (operands.reverse ++ items).take op.arity = operands.reverse := by
    rw [← hlen, List.take_left]
  have hdrop : (operands.reverse ++ items).drop op.arity = items := by
    rw [← hlen, List.drop_left]
  have henough : ¬ (operands.reverse ++ items).length < op.arity := by
    rw [List.length_append, hlen]
    omega
  simp only [effect?, henough, if_false, htake, hdrop, List.reverse_reverse, h, Option.toList_some,
    List.singleton_append]

/-! ## Counting values -/

/-- The number of values after a word that finds `depth` of them. -/
def depthAfter (depth : Nat) : Word → Nat
  | push _ | load _ => depth + 1
  | call op => depth - op.arity + if op.producesValue then 1 else 0
  | finish => depth

/-- The most values there are while words run up to the first end. -/
def peak : (depth : Nat) → List Word → Nat
  | depth, [] => depth
  | depth, finish :: _ => depth
  | depth, w :: ws => max depth (peak (w.depthAfter depth) ws)

theorem length_effect? {vars items items' : List Single} {w : Word}
    (h : w.effect? vars items = some items') : items'.length = w.depthAfter items.length := by
  cases w with
  | push v =>
    obtain rfl := Option.some.inj h
    rfl
  | load i =>
    obtain ⟨v, -, rfl⟩ := Option.map_eq_some_iff.1 h
    rfl
  | call op =>
    simp only [effect?] at h
    split at h
    · cases h
    · rename_i hargs
      obtain rfl := Option.some.inj h
      have hsome := op.isSome_result? (items.take op.arity).reverse (by simp; omega)
      rw [List.length_append, List.length_drop, depthAfter, ← hsome]
      cases op.result? (items.take op.arity).reverse with
      | none => simp
      | some v => simp; omega
  | finish =>
    obtain rfl := Option.some.inj h
    rfl

theorem peak_cons (depth : Nat) {w : Word} (hw : w ≠ finish) (ws : List Word) :
    peak depth (w :: ws) = max depth (peak (w.depthAfter depth) ws) := by
  cases w <;> first | rfl | exact absurd rfl hw

theorem le_peak (depth : Nat) (ws : List Word) : depth ≤ peak depth ws := by
  cases ws with
  | nil => exact Nat.le_refl _
  | cons w ws =>
    cases w with
    | finish => exact Nat.le_refl _
    | push _ | load _ | call _ => exact Nat.le_max_left _ _

/-- What follows an end needs no room. -/
theorem peak_append_finish (depth : Nat) {ws : List Word} (hno : finish ∉ ws) (rest : List Word) :
    peak depth (ws ++ finish :: rest) = peak depth ws := by
  induction ws generalizing depth with
  | nil => rfl
  | cons w ws ih =>
    have hw : w ≠ finish := fun e => hno (e ▸ List.mem_cons_self)
    have hws : finish ∉ ws := fun h => hno (List.mem_cons_of_mem _ h)
    rw [List.cons_append, peak_cons _ hw, peak_cons _ hw, ih _ hws]

end Word

/-- The most values that a program ever holds. -/
def Program.peak (p : Program) : Nat := Word.peak 0 p.words

namespace Stack

/-- A word with an effect has it on a stack with room for the result. -/
theorem step_of_effect? {vars items : List Single} {w : Word} {s : Stack}
    (h : w.effect? vars s.items = some items) (hroom : w.depthAfter s.size ≤ s.capacity) :
    s.step vars w = (.ok (), { s with items }) := by
  cases w with
  | push v =>
    obtain rfl := Option.some.inj h
    have hlt : s.size < s.capacity := hroom
    simp [step, pushValue, Stack.push, hlt]
  | load i =>
    obtain ⟨v, hv, rfl⟩ := Option.map_eq_some_iff.1 h
    have hlt : s.size < s.capacity := hroom
    simp [step, pushValue, Stack.push, hlt, hv]
  | call op =>
    simp only [Word.effect?] at h
    split at h
    · cases h
    · rename_i hargs
      obtain rfl := Option.some.inj h
      simp [step, execute, size, hargs]
  | finish =>
    obtain rfl := Option.some.inj h
    rfl

theorem run_cons (vars : List Single) {w : Word} (hw : w ≠ .finish) (ws : List Word) (s : Stack) :
    s.run vars (w :: ws) =
      match s.step vars w with
      | (.ok (), s') => s'.run vars ws
      | (.error e, s') => (.error e, s') := by
  cases w <;> first | rfl | exact absurd rfl hw

/-- **Words with an effect have it on every stack that holds their peak**, whatever follows their
end. -/
theorem run_of_effects? {vars items : List Single} {ws : List Word} {s : Stack}
    (hno : Word.finish ∉ ws) (h : Word.effects? vars ws s.items = some items)
    (hpeak : Word.peak s.size ws ≤ s.capacity) (rest : List Word) :
    s.run vars (ws ++ .finish :: rest) = (.ok (), { s with items }) := by
  induction ws generalizing s with
  | nil =>
    obtain rfl := Option.some.inj h
    rfl
  | cons w ws ih =>
    have hw : w ≠ .finish := fun e => hno (e ▸ List.mem_cons_self)
    obtain ⟨mid, hmid, hrest⟩ := Option.bind_eq_some_iff.1 h
    have hsize : mid.length = w.depthAfter s.size := Word.length_effect? hmid
    rw [Word.peak_cons _ hw] at hpeak
    have hroom : w.depthAfter s.size ≤ s.capacity :=
      Nat.le_trans (Word.le_peak _ ws) (Nat.le_trans (Nat.le_max_right _ _) hpeak)
    rw [List.cons_append, run_cons vars hw, step_of_effect? hmid hroom]
    refine ih (s := { s with items := mid }) (fun hm => hno (List.mem_cons_of_mem _ hm)) hrest ?_
    rw [size, hsize]
    exact Nat.le_trans (Nat.le_max_right _ _) hpeak

/-- **Words that leave values evaluate to the one on top**, on every stack that holds their peak. -/
theorem eval_of_effects? {vars items : List Single} {value : Single} {ws : List Word} {s : Stack}
    (hno : Word.finish ∉ ws) (h : Word.effects? vars ws [] = some (value :: items))
    (hpeak : Word.peak 0 (ws ++ [.finish]) ≤ s.capacity) :
    (s.eval vars (ws ++ [.finish])).1 = .ok value := by
  rw [Word.peak_append_finish 0 hno] at hpeak
  have hrun := run_of_effects? (s := s.clear) hno h hpeak []
  simp only [eval, hrun]
  rfl

end Stack

end Flipbook.Expr
