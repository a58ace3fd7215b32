import Flipbook.Proofs.Expr.Compiled

/-!
# Proofs/Expr/Execution — running programs in limited room

Words with an effect have it where the stack holds their peak (`Stack.run_of_effects?`), and
overflow where it does not (`Stack.run_overflow`): want of room is all that can stop them.  A
compiled program leaves one value of what it finds on an empty stack, so `compiled_executable` says
exactly what becomes of it on any stack.
-/

namespace Flipbook.Expr

open Word (effects?)

/-- An operation takes at least as many values as it leaves. -/
theorem Operation.producesValue_le_arity (op : Operation) :
    (if op.producesValue then 1 else 0) ≤ op.arity := by
  cases op <;> decide

namespace Stack

/-- A word whose effect has no room overflows, and leaves the stack as it is. -/
theorem step_overflow {vars items : List Single} {w : Word} {s : Stack}
    (h : w.effect? vars s.items = some items) (hs : s.size ≤ s.capacity)
    (hfull : s.capacity < w.depthAfter s.size) :
    s.step vars w = (.error (.stack (.overflow s.capacity)), s) := by
  cases w with
  | push v =>
    have hnot : ¬ s.size < s.capacity := Nat.not_lt.2 (Nat.le_of_lt_succ hfull)
    simp [step, pushValue, Stack.push, hnot]
  | load i =>
    obtain ⟨v, hv, -⟩ := Option.map_eq_some_iff.1 h
    have hnot : ¬ s.size < s.capacity := Nat.not_lt.2 (Nat.le_of_lt_succ hfull)
    simp [step, pushValue, Stack.push, hnot, hv]
  | call op =>
    -- the operands make room for the result, so an operation never overflows
    have hargs : op.arity ≤ s.size := by
      refine Nat.le_of_not_lt fun hfew => ?_
      have hnone : (Word.call op).effect? vars s.items = none := if_pos hfew
      exact absurd (hnone.symm.trans h) (by simp)
    have hle := op.producesValue_le_arity
    rw [Word.depthAfter] at hfull
    omega
  | finish => exact absurd hfull (Nat.not_lt.2 hs)

/-- **Words with an effect overflow on every stack that does not hold their peak**, whatever follows
their end. -/
theorem run_overflow {vars items : List Single} {ws : List Word} {s : Stack}
    (hno : Word.finish ∉ ws) (h : effects? vars ws s.items = some items)
    (hs : s.size ≤ s.capacity) (hpeak : s.capacity < Word.peak s.size ws) (rest : List Word) :
    (s.run vars (ws ++ .finish :: rest)).1 = .error (.stack (.overflow s.capacity)) := by
  induction ws generalizing s with
  | nil => exact absurd hpeak (Nat.not_lt.2 hs)
  | cons w ws ih =>
    have hw : w ≠ .finish := fun e => hno (e ▸ List.mem_cons_self)
    obtain ⟨mid, hmid, hrest⟩ := Option.bind_eq_some_iff.1 h
    have hsize : mid.length = w.depthAfter s.size := Word.length_effect? hmid
    rw [List.cons_append, run_cons vars hw]
    by_cases hroom : w.depthAfter s.size ≤ s.capacity
    · rw [step_of_effect? hmid hroom]
      rw [Word.peak_cons _ hw, ← hsize] at hpeak
      have hlater : s.capacity < Word.peak mid.length ws := by omega
      exact ih (s := { s with items := mid }) (fun hm => hno (List.mem_cons_of_mem _ hm)) hrest
        (hsize.trans_le hroom) hlater
    · rw [step_overflow hmid hs (Nat.lt_of_not_le hroom)]

/-- A run that fails leaves no value. -/
theorem eval_of_run_error {vars : List Single} {ws : List Word} {s : Stack} {e : EvalError}
    (h : (s.clear.run vars ws).1 = .error e) : (s.eval vars ws).1 = .error e := by
  rw [eval]
  generalize s.clear.run vars ws = outcome at h
  obtain ⟨_ | _, s'⟩ := outcome
  · obtain rfl := Except.error.inj h
    rfl
  · cases h

/-- **Words that leave one value evaluate to it where the stack holds their peak, and overflow
elsewhere**, whatever the stack held before and whatever follows their end. -/
theorem eval_of_leavesOne {vars : List Single} {value : Single} {ws : List Word}
    (hno : Word.finish ∉ ws) (h : effects? vars ws [] = some [value]) (s : Stack)
    (rest : List Word) :
    (Word.peak 0 ws ≤ s.capacity →
        s.eval vars (ws ++ .finish :: rest) = (.ok value, { s with items := [value] })) ∧
      (s.capacity < Word.peak 0 ws →
        (s.eval vars (ws ++ .finish :: rest)).1 = .error (.stack (.overflow s.capacity))) := by
  constructor
  · intro hpeak
    rw [eval, run_of_effects? (s := s.clear) hno h hpeak rest]
    rfl
  · intro hpeak
    exact eval_of_run_error (run_overflow (s := s.clear) hno h (Nat.zero_le _) hpeak rest)

end Stack

/-! ## Compiled programs -/

/-- Whether a program of an environment can be run: it has one end, which is its last word, and
nothing stops it but want of room. -/
structure Program.Executable (env : Environment) (p : Program) : Prop where
  /-- There is no further end. -/
  count_finish : p.words.count .finish = 1
  /-- The end is the last word. -/
  getLast?_words : p.words.getLast? = some .finish
  /-- Every operation computes something. -/
  nop_notMem : .call .nop ∉ p.words
  /-- Every variable is declared. -/
  loads : ∀ index, .load index ∈ p.words → index < env.variableCount
  /-- On a stack that holds the peak the value of the program is left, and nothing else. -/
  eval_of_peak_le : ∀ (vars : List Single) (s : Stack), env.variableCount ≤ vars.length →
    p.peak ≤ s.capacity → ∃ value, s.eval vars p.words = (.ok value, { s with items := [value] })
  /-- On a smaller one the program overflows. -/
  eval_of_lt_peak : ∀ (vars : List Single) (s : Stack), env.variableCount ≤ vars.length →
    s.capacity < p.peak → (s.eval vars p.words).1 = .error (.stack (.overflow s.capacity))

/-- **Every compiled program can be run.** -/
theorem compiled_executable {source : String} {env : Environment} {p : Program}
    (h : compile source env = .ok p) : p.Executable env := by
  obtain ⟨body, hwords, hbody, heffects⟩ := compiled_spec h
  have hno : Word.finish ∉ body := fun hm => hbody _ hm
  have hpeak : p.peak = Word.peak 0 body := by
    rw [Program.peak, hwords, Word.peak_append_finish 0 hno]
  refine ⟨?_, ?_, ?_, ?_, fun vars s hvars hroom => ?_, fun vars s hvars hroom => ?_⟩
  · rw [hwords, List.count_append, List.count_eq_zero.2 hno]
    rfl
  · rw [hwords, List.getLast?_concat]
  · rw [hwords, List.mem_append, List.mem_singleton]
    rintro (hm | hm)
    · exact hbody _ hm rfl
    · cases hm
  · intro index hm
    rw [hwords, List.mem_append, List.mem_singleton] at hm
    rcases hm with hm | hm
    · exact hbody _ hm
    · cases hm
  · obtain ⟨value, hvalue⟩ := heffects vars hvars
    rw [hwords]
    exact ⟨value, (Stack.eval_of_leavesOne hno hvalue s []).1 (hpeak ▸ hroom)⟩
  · obtain ⟨value, hvalue⟩ := heffects vars hvars
    rw [hwords]
    exact (Stack.eval_of_leavesOne hno hvalue s []).2 (hpeak ▸ hroom)

/-- A call with an operation among its arguments, which needs room for three values. -/
theorem compiled_executable_match :
    compile "match(speed, 1 + speed)" (.ofVariables ["speed"])
        = .ok ⟨[.load 0, .push ⟨0x3f800000⟩, .load 0, .call .add, .call .near, .finish]⟩ ∧
      Program.Executable (.ofVariables ["speed"])
        ⟨[.load 0, .push ⟨0x3f800000⟩, .load 0, .call .add, .call .near, .finish]⟩ := by
  have hcompile : compile "match(speed, 1 + speed)" (.ofVariables ["speed"])
      = .ok ⟨[.load 0, .push ⟨0x3f800000⟩, .load 0, .call .add, .call .near, .finish]⟩ := by
    decide +kernel
  exact ⟨hcompile, compiled_executable hcompile⟩

end Flipbook.Expr
