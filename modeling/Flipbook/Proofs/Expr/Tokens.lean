import Flipbook.Expr.Token
import Flipbook.Proofs.Steps
import Mathlib.Data.List.TakeWhile

/-!
# Proofs/Expr/Tokens — what tokens stand for

A number among the tokens of a source is written there, and then finite, or it is the value of a
constant that the source names; a variable is one of the declared ones.  `tokenize_name` is the
converse for names: the name of a variable or a constant is itself a source, with one token.
-/

namespace Flipbook.Expr

/-! ## Names -/

/-- The characters of names: a letter or `_`, then letters, digits and `_`. -/
def IsName : List Char → Prop
  | [] => False
  | c :: cs => Lexeme.isNameStart c ∧ ∀ d ∈ cs, Lexeme.isNamePart d

/-- Whether `name` stands for the constant `value` in a source: it has the characters of a name, no
variable hides it, and `value` is its value. -/
structure Environment.Names (env : Environment) (name : String) (value : Single) : Prop where
  isName : IsName name.toList
  notVariable : env.variableIndex? name = none
  isValue : env.constantValue? name = some value

namespace Environment

/-- A constant that a name stands for is one of the environment. -/
theorem Names.mem_constants {env : Environment} {name : String} {value : Single}
    (h : env.Names name value) : (name, value) ∈ env.constants := by
  obtain ⟨before, after, hsplit, -⟩ := List.lookup_eq_some_iff.1 h.isValue
  rw [hsplit]
  exact List.mem_append_right _ List.mem_cons_self

theorem Names.ofName?_eq {env : Environment} {name : String} {value : Single}
    (h : env.Names name value) : Token.ofName? env name = some (.number value) := by
  simp only [Token.ofName?, h.notVariable, h.isValue]

@[simp] theorem constants_withConstants (env : Environment) (cs : List (String × Single)) :
    (env.withConstants cs).constants = cs.reverse ++ env.constants := by
  induction cs generalizing env with
  | nil => rfl
  | cons c cs ih =>
    rw [withConstants, List.foldl_cons, ← withConstants, ih, List.reverse_cons, List.append_assoc]
    rfl

@[simp] theorem vars_withConstants (env : Environment) (cs : List (String × Single)) :
    (env.withConstants cs).vars = env.vars := by
  induction cs generalizing env with
  | nil => rfl
  | cons c cs ih =>
    rw [withConstants, List.foldl_cons, ← withConstants, ih]
    rfl

@[simp] theorem variableCount_withConstants (env : Environment) (cs : List (String × Single)) :
    (env.withConstants cs).variableCount = env.variableCount :=
  congrArg List.length (env.vars_withConstants cs)

/-- Declaring variables adds no constant, and at most as many variables as there are names. -/
theorem ofVariables_spec (names : List String) :
    (ofVariables names).constants = [] ∧ (ofVariables names).variableCount ≤ names.length := by
  suffices key : ∀ env : Environment, (names.foldl declare env).constants = env.constants ∧
      (names.foldl declare env).variableCount ≤ env.variableCount + names.length by
    simpa [ofVariables, empty, variableCount] using key empty
  intro env
  induction names generalizing env with
  | nil => exact ⟨rfl, Nat.le_refl _⟩
  | cons name names ih =>
    obtain ⟨hconstants, hcount⟩ := ih (env.declare name)
    have hdeclare : (env.declare name).constants = env.constants ∧
        (env.declare name).variableCount ≤ env.variableCount + 1 := by
      unfold declare
      split
      · exact ⟨rfl, Nat.le_succ _⟩
      · exact ⟨rfl, by simp [variableCount]⟩
    rw [List.foldl_cons, List.length_cons]
    exact ⟨hconstants.trans hdeclare.1, by omega⟩

/-- Names without repetitions are the variables, in their order. -/
theorem vars_ofVariables {names : List String} (h : names.Nodup) :
    (ofVariables names).vars = names := by
  suffices key : ∀ env : Environment, (env.vars ++ names).Nodup →
      (names.foldl declare env).vars = env.vars ++ names by
    exact key empty h
  clear h
  intro env h
  induction names generalizing env with
  | nil => exact (List.append_nil _).symm
  | cons name names ih =>
    have hnew : name ∉ env.vars := fun hmem =>
      (List.nodup_append.1 h).2.2 name hmem name List.mem_cons_self rfl
    have hdeclare : (env.declare name).vars = env.vars ++ [name] := by rw [declare, if_neg hnew]
    rw [List.foldl_cons, ih _ (by simpa [hdeclare] using h), hdeclare, List.append_assoc]
    rfl

end Environment

namespace Lexeme

theorem not_isBlank_of_isNameStart {c : Char} (h : isNameStart c) : ¬ isBlank c := by
  intro hblank
  simp only [isBlank, Bool.or_eq_true, decide_eq_true_eq] at hblank
  rcases hblank with (((rfl | rfl) | rfl) | rfl) | rfl <;> exact absurd h (by decide)

/-- The letters lie behind the digits. -/
theorem not_isDigit_of_isAlpha {c : Char} (h : c.isAlpha) : ¬ c.isDigit := by
  intro hdigit
  have hmax : c.val ≤ '9'.val := of_decide_eq_true (Bool.and_eq_true_iff.1 hdigit).2
  rcases Bool.or_eq_true_iff.1 h with hupper | hlower
  · exact absurd (UInt32.le_trans (of_decide_eq_true hupper).1 hmax) (by decide)
  · have hmin : 'a'.val ≤ c.val := of_decide_eq_true (Bool.and_eq_true_iff.1 hlower).1
    exact absurd (UInt32.le_trans hmin hmax) (by decide)

theorem not_startsNumber_of_isNameStart {c : Char} (h : isNameStart c) (cs : List Char) :
    ¬ startsNumber c cs := by
  intro hnumber
  simp only [startsNumber, Bool.or_eq_true, Bool.and_eq_true, decide_eq_true_eq] at hnumber
  rcases hnumber with hdigit | ⟨rfl, -⟩
  · simp only [isNameStart, Bool.or_eq_true, decide_eq_true_eq] at h
    rcases h with halpha | rfl
    · exact not_isDigit_of_isAlpha halpha hdigit
    · exact absurd hdigit (by decide)
  · exact absurd h (by decide)

theorem next_of_isNameStart {c : Char} (h : isNameStart c) (cs : List Char) :
    next c cs = (⟨.name, c :: cs.takeWhile isNamePart⟩, cs.dropWhile isNamePart) := by
  rw [next, if_neg (not_isBlank_of_isNameStart h), if_neg (not_startsNumber_of_isNameStart h cs),
    if_pos h]

/-- A piece that is a name has the characters of one. -/
theorem isName_of_next {c : Char} {cs : List Char} (h : (next c cs).1.kind = .name) :
    IsName (next c cs).1.chars := by
  by_cases hstart : isNameStart c
  · rw [next_of_isNameStart hstart]
    exact ⟨hstart, fun d hd => List.mem_takeWhile_imp hd⟩
  · exfalso
    revert h
    simp only [next, hstart, Bool.false_eq_true, if_false]
    repeat' split
    all_goals simp

theorem isName_of_mem_split {cs : List Char} {l : Lexeme} (hl : l ∈ split cs)
    (h : l.kind = .name) : IsName l.chars := by
  fun_induction split cs with
  | case1 => cases hl
  | case2 c cs ih =>
    rcases List.mem_cons.1 hl with rfl | hl
    · exact isName_of_next h
    · exact ih hl

/-- A name by itself is one piece. -/
theorem split_of_isName {cs : List Char} (h : IsName cs) : split cs = [⟨.name, cs⟩] := by
  cases cs with
  | nil => cases h
  | cons c cs =>
    obtain ⟨hstart, hparts⟩ := h
    have htake : cs.takeWhile isNamePart = cs := List.takeWhile_eq_self_iff.2 hparts
    have hdrop : cs.dropWhile isNamePart = [] := List.dropWhile_eq_nil_iff.2 hparts
    rw [split, next_of_isNameStart hstart, htake, hdrop, split]

end Lexeme

/-! ## Tokens -/

/-- What a token of a source may be in an environment. -/
def Token.Valid (env : Environment) : Token → Prop
  | .number value => value.isFinite ∨ ∃ name, env.Names name value
  | .variable index => index < env.variableCount
  | _ => True

theorem Token.valid_of_ofName? {env : Environment} {name : String} {t : Token}
    (hname : IsName name.toList) (h : Token.ofName? env name = some t) : t.Valid env := by
  unfold Token.ofName? at h
  split at h
  · rename_i index hindex
    obtain rfl := Option.some.inj h
    exact (List.idxOf?_eq_some_iff.1 hindex).1
  · rename_i value hvar hvalue
    obtain rfl := Option.some.inj h
    exact .inr ⟨name, hname, hvar, hvalue⟩
  · obtain ⟨b, -, rfl⟩ := Option.map_eq_some_iff.1 h
    trivial

theorem Token.valid_of_ofSymbol? {env : Environment} {after : Bool} {symbol : String} {t : Token}
    (h : Token.ofSymbol? after symbol = some t) : t.Valid env := by
  unfold Token.ofSymbol? at h
  split at h
  · obtain rfl := Option.some.inj h
    trivial
  split at h
  · obtain rfl := Option.some.inj h
    trivial
  · obtain ⟨b, -, rfl⟩ := Option.map_eq_some_iff.1 h
    trivial

theorem Lexeme.valid_of_token? {env : Environment} {after : Bool} {l : Lexeme} {span : Span}
    {t : Token} (hname : l.kind = .name → IsName l.chars)
    (h : l.token? env after span = .ok (some t)) : t.Valid env := by
  unfold Lexeme.token? at h
  split at h
  · cases h
  · split at h
    · rename_i value hvalue
      obtain rfl := Option.some.inj (Except.ok.inj h)
      exact .inl (Option.filter_eq_some_iff.1 hvalue).2
    · cases h
  · rename_i hkind
    split at h
    · rename_i token htoken
      obtain rfl := Option.some.inj (Except.ok.inj h)
      refine Token.valid_of_ofName? ?_ htoken
      rw [Lexeme.text, String.toList_ofList]
      exact hname hkind
    · cases h
  · obtain rfl := Option.some.inj (Except.ok.inj h)
    trivial
  · obtain rfl := Option.some.inj (Except.ok.inj h)
    trivial
  · split at h
    · rename_i token htoken
      obtain rfl := Option.some.inj (Except.ok.inj h)
      exact Token.valid_of_ofSymbol? htoken
    · cases h

theorem Lexeme.valid_of_mem_tokens {env : Environment} {after : Bool} {start : Nat}
    {ls : List Lexeme} {ts : List (Located Token)}
    (hnames : ∀ l ∈ ls, l.kind = .name → IsName l.chars)
    (h : Lexeme.tokens env after start ls = .ok ts) {t : Located Token} (ht : t ∈ ts) :
    t.value.Valid env := by
  induction ls generalizing after start ts with
  | nil =>
    obtain rfl := Except.ok.inj h
    cases ht
  | cons l ls ih =>
    obtain ⟨hl, hls⟩ := List.forall_mem_cons.1 hnames
    obtain ⟨token?, htoken, h⟩ := bind_eq_ok.1 h
    cases token? with
    | none => exact ih hls h ht
    | some token =>
      obtain ⟨rest, hrest, h⟩ := bind_eq_ok.1 h
      obtain rfl := pure_eq_ok.1 h
      rcases List.mem_cons.1 ht with rfl | ht
      · exact Lexeme.valid_of_token? hl htoken
      · exact ih hls hrest ht

/-- **Every token of a source is valid in its environment.** -/
theorem valid_of_mem_tokenize {source : String} {env : Environment} {ts : List (Located Token)}
    (h : tokenize source env = .ok ts) {t : Located Token} (ht : t ∈ ts) : t.value.Valid env :=
  Lexeme.valid_of_mem_tokens (fun _ => Lexeme.isName_of_mem_split) h ht

/-- **A name with a meaning is a source of one token.** -/
theorem tokenize_name {env : Environment} {name : String} {token : Token}
    (hname : IsName name.toList) (htoken : Token.ofName? env name = some token) :
    tokenize name env = .ok [⟨token, ⟨0, utf8Length name.toList⟩⟩] := by
  have hlexeme : Lexeme.token? env false ⟨.name, name.toList⟩ ⟨0, 0 + utf8Length name.toList⟩
      = .ok (some token) := by
    simp only [Lexeme.token?, Lexeme.text, String.ofList_toList, htoken]
  rw [tokenize, Lexeme.split_of_isName hname, Lexeme.tokens, hlexeme]
  simp [Lexeme.tokens, bind, Except.bind, pure, Except.pure]

end Flipbook.Expr
