import Flipbook.Proofs.Expr.Arrangement
import Flipbook.Proofs.Expr.Folding
import Flipbook.Proofs.Expr.Tokens

/-!
# Proofs/Expr/Compiled — what every compiled program is like

`compiled_spec`: a compiled program is a body and an end.  The words of the body load declared
variables, apply operations that compute something and push literals that are finite or named by the
source; and on any values for the variables the body leaves exactly one value.
-/

namespace Flipbook.Expr

open Word (effects?)

/-! ## The stages of a compilation -/

theorem Postfix.check_eq_ok {items : Postfix} : items.check = .ok () ↔ items.settle 0 = .ok 1 := by
  unfold Postfix.check
  rw [bind_eq_ok]
  constructor
  · rintro ⟨count, hcount, h⟩
    split at h
    · cases h
    · exact hcount
    · cases h
  · exact fun h => ⟨1, h, rfl⟩

/-- **A compilation succeeds where each of its stages does.** -/
theorem compile_eq_ok {source : String} {env : Environment} {p : Program} :
    compile source env = .ok p ↔ ∃ tokens items folded, tokenize source env = .ok tokens ∧
      Postfix.arrange tokens = .ok items ∧ items.settle 0 = .ok 1 ∧ items.fold = .ok folded ∧
      folded.program = p := by
  simp only [compile, Compilation.ofSource, map_eq_ok, bind_eq_ok, pure_eq_ok]
  constructor
  · rintro ⟨_, ⟨tokens, htokens, items, hitems, _, hcheck, folded, hfolded, rfl⟩, rfl⟩
    exact ⟨tokens, items, folded, htokens, hitems, Postfix.check_eq_ok.1 hcheck, hfolded, rfl⟩
  · rintro ⟨tokens, items, folded, htokens, hitems, hsettle, hfolded, rfl⟩
    exact ⟨_, ⟨tokens, htokens, items, hitems, (), Postfix.check_eq_ok.2 hsettle, folded, hfolded,
      rfl⟩, rfl⟩

/-- A source whose tokens are arranged and settle fails at most where it is folded. -/
theorem compile_of_settle {source : String} {env : Environment} {tokens : List (Located Token)}
    {items : Postfix} (htokens : tokenize source env = .ok tokens)
    (hitems : Postfix.arrange tokens = .ok items) (hsettle : items.settle 0 = .ok 1) :
    compile source env = Postfix.program <$> items.fold := by
  have hcheck := Postfix.check_eq_ok.2 hsettle
  simp only [compile, Compilation.ofSource, htokens, hitems, hcheck, bind, Except.bind]
  cases items.fold <;> rfl

/-- The name of a variable is an expression that reads the variable. -/
theorem compile_of_variable {env : Environment} {name : String} {index : Nat}
    (hname : IsName name.toList) (h : Token.ofName? env name = some (.variable index)) :
    compile name env = .ok ⟨[.load index, .finish]⟩ :=
  compile_eq_ok.2 ⟨_, _, _, tokenize_name hname h, rfl, rfl, rfl, rfl⟩

/-! ## Counting operands -/

/-- **An arrangement that settles has an effect**, as soon as its variables have values. -/
theorem Postfix.effects?_of_settle {vars : List Single} {items : Postfix} {depth count : Nat}
    (h : items.settle depth = .ok count)
    (hvars : ∀ i ∈ items, ∀ index, i.value = .variable index → index < vars.length)
    {values : List Single} (hvalues : values.length = depth) :
    ∃ results, effects? vars items.words values = some results ∧ results.length = count := by
  fun_induction Postfix.settle depth items generalizing values with
  | case1 depth =>
    obtain rfl := Except.ok.inj h
    exact ⟨values, rfl, hvalues⟩
  | case2 => cases h
  | case3 depth b span rest hargs ih =>
    have henough : ¬ values.length < b.operation.arity := hvalues ▸ hargs
    obtain ⟨mid, hmid⟩ : ∃ mid, (Word.call b.operation).effect? vars values = some mid :=
      ⟨_, if_neg henough⟩
    have hlen : mid.length = depth - b.arity + if b.operation.producesValue then 1 else 0 := by
      rw [Word.length_effect? hmid, hvalues]
      rfl
    have hrest : ∀ i ∈ rest, ∀ index, i.value = .variable index → index < vars.length :=
      fun i hi => hvars i (List.mem_cons_of_mem _ hi)
    obtain ⟨results, hresults, hcount⟩ := ih h hrest hlen
    refine ⟨results, ?_, hcount⟩
    rw [Postfix.words_cons, Item.word, Word.effects?_cons, hmid, Option.bind_some, hresults]
  | case4 depth item rest hitem ih =>
    obtain ⟨mid, hmid, hlen⟩ : ∃ mid, item.value.word.effect? vars values = some mid ∧
        mid.length = depth + 1 := by
      obtain ⟨value | index | b, span⟩ := item
      · exact ⟨value :: values, rfl, by simp [hvalues]⟩
      · have hindex := hvars _ List.mem_cons_self index rfl
        refine ⟨vars[index] :: values, ?_, by simp [hvalues]⟩
        simp [Item.word, Word.effect?, List.getElem?_eq_getElem hindex]
      · exact absurd rfl (hitem b span)
    have hrest : ∀ i ∈ rest, ∀ index, i.value = .variable index → index < vars.length :=
      fun i hi => hvars i (List.mem_cons_of_mem _ hi)
    obtain ⟨results, hresults, hcount⟩ := ih h hrest hlen
    refine ⟨results, ?_, hcount⟩
    rw [Postfix.words_cons, Word.effects?_cons, hmid, Option.bind_some, hresults]

/-- An arrangement with an effect settles, and as many values are counted as there are. -/
theorem Postfix.settle_of_effects? {vars values results : List Single} {items : Postfix}
    (h : effects? vars items.words values = some results) :
    items.settle values.length = .ok results.length := by
  induction items generalizing values with
  | nil =>
    obtain rfl := Option.some.inj h
    rfl
  | cons i items ih =>
    obtain ⟨mid, hmid, hrest⟩ := Option.bind_eq_some_iff.1 h
    have hlen : mid.length = i.value.word.depthAfter values.length := Word.length_effect? hmid
    rw [← ih hrest, hlen]
    obtain ⟨value | index | b, span⟩ := i
    · rfl
    · rfl
    · have hargs : ¬ values.length < b.arity := by
        intro hfew
        have hnone : (Word.call b.operation).effect? vars values = none := if_pos hfew
        exact absurd (hnone.symm.trans hmid) (by simp)
      rw [Postfix.settle, if_neg hargs]
      rfl

/-! ## Compiled programs -/

/-- What a word in the body of a program compiled in an environment may be. -/
def Word.CompiledIn (env : Environment) : Word → Prop
  | push value => value.isFinite ∨ ∃ name, env.Names name value
  | load index => index < env.variableCount
  | call op => op ≠ .nop
  | finish => False

/-- The entry of a valid token becomes a sound word, unless it applies nothing. -/
theorem Token.compiledIn_word {env : Environment} {t : Token} (ht : t.Valid env) {i : Item}
    (hi : t.item? = some i) (hnop : ¬ Postfix.IsNop i) : i.word.CompiledIn env := by
  cases t with
  | number v | «variable» index =>
    obtain rfl := Option.some.inj hi
    exact ht
  | builtin b =>
    obtain rfl := Option.some.inj hi
    exact fun h => hnop ⟨b, rfl, h⟩
  | opening | closing => cases hi

/-- The entries of an arrangement are valid tokens. -/
theorem Postfix.valid_of_mem_arrange {source : String} {env : Environment}
    {tokens : List (Located Token)} {items : Postfix} (htokens : tokenize source env = .ok tokens)
    (hitems : arrange tokens = .ok items) {i : Located Item} (hi : i ∈ items) :
    ∃ t : Token, t.Valid env ∧ t.item? = some i.value := by
  obtain ⟨t, ht, hvalue, -⟩ := exists_token_of_arrange hitems hi
  exact ⟨t.value, valid_of_mem_tokenize htokens ht, hvalue⟩

/-- **A compiled program is a body of sound words and an end, and the body leaves one value.** -/
theorem compiled_spec {source : String} {env : Environment} {p : Program}
    (h : compile source env = .ok p) :
    ∃ body, p.words = body ++ [.finish] ∧ (∀ w ∈ body, w.CompiledIn env) ∧
      ∀ vars : List Single, env.variableCount ≤ vars.length →
        ∃ value, effects? vars body [] = some [value] := by
  obtain ⟨tokens, items, folded, htokens, hitems, hsettle, hfolded, rfl⟩ := compile_eq_ok.1 h
  refine ⟨folded.words, rfl, ?_, ?_⟩
  · intro w hw
    obtain ⟨i, hi, rfl⟩ := List.mem_map.1 hw
    rcases Postfix.mem_fold hfolded hi with ⟨hmem, hnop⟩ | ⟨v, hv, hfin⟩
    · obtain ⟨t, ht, hitem⟩ := Postfix.valid_of_mem_arrange htokens hitems hmem
      exact t.compiledIn_word ht hitem hnop
    · rw [hv]
      exact .inl hfin
  · intro vars hvars
    have hindex : ∀ i ∈ items, ∀ index, i.value = .variable index → index < vars.length := by
      intro i hi index hvalue
      obtain ⟨t, ht, hitem⟩ := Postfix.valid_of_mem_arrange htokens hitems hi
      have hload : i.value.word.CompiledIn env := by
        refine t.compiledIn_word ht hitem ?_
        rintro ⟨b, hb, -⟩
        rw [hvalue] at hb
        cases hb
      rw [hvalue] at hload
      exact Nat.lt_of_lt_of_le hload hvars
    obtain ⟨results, hresults, hlen⟩ :=
      Postfix.effects?_of_settle hsettle hindex (List.length_nil)
    obtain ⟨value, rfl⟩ := List.length_eq_one_iff.1 hlen
    exact ⟨value, by rw [Postfix.effects?_fold hfolded, hresults]⟩

end Flipbook.Expr
