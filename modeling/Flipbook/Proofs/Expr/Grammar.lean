import Flipbook.Proofs.Expr.Compiled
import Flipbook.Proofs.Expr.Yield

/-!
# Proofs/Expr/Grammar — compiling infix notation

`Derivation n` is a derivation of the nonterminal `n` in the grammar of infix notation:

    primary   ::= number | variable | ( summation ) | prefix primary
                | match ( summation , summation )
                | match2d ( summation , summation , summation , summation )
    product   ::= primary | product (* | /) primary
    summation ::= product | summation (+ | -) product

`Derivation.value?` evaluates a derivation by recursion, with nothing but the arithmetic of
`Single`, and `Derivation.items` lists it in postfix order.  The tokens of a derivation are arranged
as its items (`Derivation.arranges`) and the words of its items leave its value
(`Derivation.leaves`), so a source with these tokens compiles to a program of that value.
-/

namespace Flipbook.Expr

open Word (effects?)

/-! ## The grammar -/

/-- The parts of infix notation, the tightest first. -/
inductive Nonterminal where
  | primary
  | product
  | summation
deriving DecidableEq, Repr

/-- What stands before a single operand. -/
inductive Prefix where
  | negate
  | keep
  | sin
  | cos
  | abs
deriving DecidableEq, Repr

/-- What stands between the operands of a product or a summation. -/
inductive Infix : Nonterminal → Type where
  | times : Infix .product
  | divide : Infix .product
  | plus : Infix .summation
  | minus : Infix .summation
deriving DecidableEq, Repr

/-- The derivations of a nonterminal. -/
inductive Derivation : Nonterminal → Type where
  | number (value : Single) : Derivation .primary
  | load (index : Nat) : Derivation .primary
  | parenthesized (inner : Derivation .summation) : Derivation .primary
  | before (op : Prefix) (operand : Derivation .primary) : Derivation .primary
  | near (a b : Derivation .summation) : Derivation .primary
  | near2d (a b c d : Derivation .summation) : Derivation .primary
  | factor (single : Derivation .primary) : Derivation .product
  | scaled (left : Derivation .product) (op : Infix .product)
      (right : Derivation .primary) : Derivation .product
  | term (single : Derivation .product) : Derivation .summation
  | added (left : Derivation .summation) (op : Infix .summation)
      (right : Derivation .product) : Derivation .summation
deriving Repr

/-- The least precedence of a builtin in a part, outside parentheses. -/
def Nonterminal.loosest : Nonterminal → Nat
  | primary => 16
  | product => 13
  | summation => 12

namespace Prefix

/-- The builtin of a prefix. -/
def builtin : Prefix → Builtin
  | negate => .negate
  | keep => .keep
  | sin => .sin
  | cos => .cos
  | abs => .abs

/-- The value of a prefix and its operand. -/
def apply : Prefix → Single → Single
  | negate, a => -a
  | keep, a => a
  | sin, a => a.sin
  | cos, a => a.cos
  | abs, a => a.abs

theorem fixity_builtin (op : Prefix) : op.builtin.fixity = .before := by
  cases op <;> rfl

theorem precedence_builtin (op : Prefix) :
    16 ≤ op.builtin.precedence ∧ op.builtin.precedence < 18 := by
  cases op <;> decide

theorem effect?_word (op : Prefix) (vars : List Single) (a : Single) (items : List Single) :
    (Item.apply op.builtin).word.effect? vars (a :: items) = some (op.apply a :: items) := by
  cases op with
  | keep => rfl
  | negate | sin | cos | abs => exact Word.effect?_call_of_result? [a] rfl

end Prefix

namespace Infix

variable {n : Nonterminal}

/-- The builtin of an operator. -/
def builtin : Infix n → Builtin
  | times => .times
  | divide => .divide
  | plus => .plus
  | minus => .minus

/-- The value of an operator and its operands. -/
def apply : Infix n → Single → Single → Single
  | times, a, b => a * b
  | divide, a, b => a / b
  | plus, a, b => a + b
  | minus, a, b => a - b

theorem fixity_builtin (op : Infix n) : op.builtin.fixity = .between := by
  cases op <;> rfl

theorem precedence_builtin (op : Infix n) : op.builtin.precedence = n.loosest := by
  cases op <;> rfl

theorem effect?_word (op : Infix n) (vars : List Single) (a b : Single) (items : List Single) :
    (Item.apply op.builtin).word.effect? vars (b :: a :: items) = some (op.apply a b :: items) := by
  cases op <;> exact Word.effect?_call_of_result? [a, b] rfl

end Infix

namespace Derivation

/-- The yield of a derivation. -/
def tokens {n : Nonterminal} : Derivation n → List Token
  | number value => [.number value]
  | load index => [.variable index]
  | parenthesized inner => .opening :: inner.tokens ++ [.closing]
  | before op operand => .builtin op.builtin :: operand.tokens
  | near a b =>
    .builtin .near :: .opening :: (a.tokens ++ .builtin .comma :: b.tokens) ++ [.closing]
  | near2d a b c d =>
    .builtin .near2d :: .opening ::
      (a.tokens ++ .builtin .comma :: b.tokens ++ .builtin .comma :: c.tokens ++
        .builtin .comma :: d.tokens) ++ [.closing]
  | factor single => single.tokens
  | scaled left op right => left.tokens ++ .builtin op.builtin :: right.tokens
  | term single => single.tokens
  | added left op right => left.tokens ++ .builtin op.builtin :: right.tokens

/-- The value of a derivation; `none` where a variable has no value.  Of the operands of `match2d`
only the first two count. -/
def value? {n : Nonterminal} (vars : List Single) : Derivation n → Option Single
  | number value => some value
  | load index => vars[index]?
  | parenthesized inner => inner.value? vars
  | before op operand => do return op.apply (← operand.value? vars)
  | near a b => do return (← a.value? vars).closeness (← b.value? vars)
  | near2d a b c d => do
    let x ← a.value? vars
    let y ← b.value? vars
    let _ ← c.value? vars
    let _ ← d.value? vars
    return x.closeness y
  | factor single => single.value? vars
  | scaled left op right => do return op.apply (← left.value? vars) (← right.value? vars)
  | term single => single.value? vars
  | added left op right => do return op.apply (← left.value? vars) (← right.value? vars)

/-- The entries of a derivation in postfix order. -/
def items {n : Nonterminal} : Derivation n → List Item
  | number value => [.literal value]
  | load index => [.variable index]
  | parenthesized inner => inner.items
  | before op operand => operand.items ++ [.apply op.builtin]
  | near a b => a.items ++ b.items ++ [.apply .comma] ++ [.apply .near]
  | near2d a b c d =>
    a.items ++ b.items ++ [.apply .comma] ++ c.items ++ [.apply .comma] ++ d.items ++
      [.apply .comma] ++ [.apply .near2d]
  | factor single => single.items
  | scaled left op right => left.items ++ right.items ++ [.apply op.builtin]
  | term single => single.items
  | added left op right => left.items ++ right.items ++ [.apply op.builtin]

/-! ## Arranging -/

/-- The precedence that nothing may reach that waits before a part: a builtin within the part would
send it off. -/
def entry : Nonterminal → Nat
  | .primary => 18
  | n => n.loosest

/-- Two arguments with their separator. -/
theorem arranges_comma {ts ts' : List Token} {is is' : List Item}
    (hfirst : Postfix.Arranges 1 1 ts is) (hsecond : Postfix.Arranges 12 12 ts' is') :
    Postfix.Arranges 1 1 (ts ++ .builtin .comma :: ts') (is ++ is' ++ [.apply .comma]) :=
  Postfix.Arranges.between rfl rfl hfirst (hsecond.weaken (by decide) (by decide))

/-- A function before its arguments in parentheses. -/
theorem arranges_arguments {b : Builtin} (hb : b.fixity = .before)
    (hprec : 16 ≤ b.precedence ∧ b.precedence < 18) {ts : List Token} {is : List Item}
    (h : Postfix.Arranges 1 1 ts is) :
    Postfix.Arranges 18 16 (.builtin b :: .opening :: ts ++ [.closing]) (is ++ [.apply b]) :=
  Postfix.Arranges.before hb hprec.2 hprec.1 (h.parenthesized 18 16)

/-- **The tokens of a derivation are arranged as its items.** -/
theorem arranges {n : Nonterminal} (t : Derivation n) :
    Postfix.Arranges (entry n) n.loosest t.tokens t.items := by
  induction t with
  | number value => exact .literal _ _ value
  | load index => exact .load _ _ index
  | parenthesized inner ih => exact (ih.weaken (by decide) (by decide)).parenthesized _ _
  | before op operand ih =>
    exact ih.before op.fixity_builtin op.precedence_builtin.2 op.precedence_builtin.1
  | near a b iha ihb =>
    exact arranges_arguments rfl (by decide)
      (arranges_comma (iha.weaken (by decide) (by decide)) ihb)
  | near2d a b c d iha ihb ihc ihd =>
    have hab := arranges_comma (iha.weaken (by decide) (by decide)) ihb
    exact arranges_arguments rfl (by decide) (arranges_comma (arranges_comma hab ihc) ihd)
  | factor single ih => exact ih.weaken (by decide) (by decide)
  | scaled left op right ihl ihr =>
    exact ihl.between op.fixity_builtin op.precedence_builtin (ihr.weaken (by decide) (by decide))
  | term single ih => exact ih.weaken (by decide) (by decide)
  | added left op right ihl ihr =>
    exact ihl.between op.fixity_builtin op.precedence_builtin (ihr.weaken (by decide) (by decide))

/-! ## Evaluating -/

/-- Whether the words of some items put `values` on whatever stands below, the last one on top. -/
def Leaves (vars : List Single) (is : List Item) (values : List Single) : Prop :=
  ∀ below, effects? vars (is.map Item.word) below = some (values ++ below)

namespace Leaves

variable {vars values values' : List Single} {is is' : List Item}

theorem append (h : Leaves vars is values) (h' : Leaves vars is' values') :
    Leaves vars (is ++ is') (values' ++ values) := by
  intro below
  rw [List.map_append, Word.effects?_append, h below, Option.bind_some, h', List.append_assoc]

/-- A builtin behind its operands leaves what it makes of them. -/
theorem apply {b : Builtin} (h : Leaves vars is values)
    (hb : ∀ below, (Item.apply b).word.effect? vars (values ++ below) = some (values' ++ below)) :
    Leaves vars (is ++ [.apply b]) values' := by
  intro below
  rw [List.map_append, Word.effects?_append, h below, Option.bind_some, List.map_singleton,
    Word.effects?_cons, hb]
  rfl

/-- The separator of two arguments does nothing. -/
theorem comma (h : Leaves vars is values) : Leaves vars (is ++ [.apply .comma]) values :=
  h.apply fun _ => rfl

end Leaves

/-- **The words of a derivation leave its value.** -/
theorem leaves {n : Nonterminal} {vars : List Single} (t : Derivation n) {v : Single}
    (h : t.value? vars = some v) : Leaves vars t.items [v] := by
  induction t generalizing v with
  | number value =>
    obtain rfl := Option.some.inj h
    exact fun below => rfl
  | load index =>
    intro below
    have hload : (Word.load index).effect? vars below = some (v :: below) :=
      Option.map_eq_some_iff.2 ⟨v, h, rfl⟩
    exact Option.bind_eq_some_iff.2 ⟨_, hload, rfl⟩
  | parenthesized inner ih | factor inner ih | term inner ih => exact ih h
  | before op operand ih =>
    obtain ⟨a, ha, hv⟩ := Option.bind_eq_some_iff.1 h
    obtain rfl := Option.some.inj hv
    exact (ih ha).apply (op.effect?_word vars a)
  | near a b iha ihb =>
    obtain ⟨x, hx, hrest⟩ := Option.bind_eq_some_iff.1 h
    obtain ⟨y, hy, hv⟩ := Option.bind_eq_some_iff.1 hrest
    obtain rfl := Option.some.inj hv
    have hargs := ((iha hx).append (ihb hy)).comma
    exact hargs.apply fun below => Word.effect?_call_of_result? [x, y] rfl
  | near2d a b c d iha ihb ihc ihd =>
    obtain ⟨x, hx, hrest⟩ := Option.bind_eq_some_iff.1 h
    obtain ⟨y, hy, hrest⟩ := Option.bind_eq_some_iff.1 hrest
    obtain ⟨z, hz, hrest⟩ := Option.bind_eq_some_iff.1 hrest
    obtain ⟨w, hw, hv⟩ := Option.bind_eq_some_iff.1 hrest
    obtain rfl := Option.some.inj hv
    have hab := ((iha hx).append (ihb hy)).comma
    have hargs := ((hab.append (ihc hz)).comma.append (ihd hw)).comma
    exact hargs.apply fun below => Word.effect?_call_of_result? [x, y, z, w] rfl
  | scaled left op right ihl ihr | added left op right ihl ihr =>
    obtain ⟨x, hx, hrest⟩ := Option.bind_eq_some_iff.1 h
    obtain ⟨y, hy, hv⟩ := Option.bind_eq_some_iff.1 hrest
    obtain rfl := Option.some.inj hv
    exact ((ihl hx).append (ihr hy)).apply (op.effect?_word vars x y)

/-- A derivation whose variables have values has one. -/
theorem exists_value? {n : Nonterminal} {vars : List Single} (t : Derivation n)
    (hvars : ∀ index, .variable index ∈ t.tokens → index < vars.length) :
    ∃ v, t.value? vars = some v := by
  induction t with
  | number value => exact ⟨value, rfl⟩
  | load index =>
    have hindex := hvars index (List.mem_singleton_self _)
    exact ⟨vars[index], List.getElem?_eq_getElem hindex⟩
  | factor single ih | term single ih => exact ih hvars
  | parenthesized inner ih => exact ih fun index h => hvars index (by simp [tokens, h])
  | before op operand ih =>
    obtain ⟨a, ha⟩ := ih fun index h => hvars index (by simp [tokens, h])
    exact ⟨op.apply a, by simp [value?, ha]⟩
  | near a b iha ihb =>
    obtain ⟨x, hx⟩ := iha fun index h => hvars index (by simp [tokens, h])
    obtain ⟨y, hy⟩ := ihb fun index h => hvars index (by simp [tokens, h])
    exact ⟨x.closeness y, by simp [value?, hx, hy]⟩
  | near2d a b c d iha ihb ihc ihd =>
    obtain ⟨x, hx⟩ := iha fun index h => hvars index (by simp [tokens, h])
    obtain ⟨y, hy⟩ := ihb fun index h => hvars index (by simp [tokens, h])
    obtain ⟨z, hz⟩ := ihc fun index h => hvars index (by simp [tokens, h])
    obtain ⟨w, hw⟩ := ihd fun index h => hvars index (by simp [tokens, h])
    exact ⟨x.closeness y, by simp [value?, hx, hy, hz, hw]⟩
  | scaled left op right ihl ihr | added left op right ihl ihr =>
    obtain ⟨x, hx⟩ := ihl fun index h => hvars index (by simp [tokens, h])
    obtain ⟨y, hy⟩ := ihr fun index h => hvars index (by simp [tokens, h])
    exact ⟨op.apply x y, by simp [value?, hx, hy]⟩

/-! ## Sources -/

/-- The variables of a source derived from the grammar are declared, so its derivation has a
value. -/
theorem exists_value?_of_tokenize {n : Nonterminal} {source : String} {env : Environment}
    {tokens : List (Located Token)} (t : Derivation n) (htokens : tokenize source env = .ok tokens)
    (hyield : tokens.map Located.value = t.tokens) {vars : List Single}
    (hvars : env.variableCount ≤ vars.length) : ∃ v, t.value? vars = some v := by
  refine t.exists_value? fun index hindex => ?_
  obtain ⟨token, htoken, hvar⟩ := List.mem_map.1 (hyield ▸ hindex)
  have hvalid := valid_of_mem_tokenize htokens htoken
  rw [hvar] at hvalid
  exact Nat.lt_of_lt_of_le hvalid hvars

/-- The tokens of a source derived from the grammar are arranged so that they leave its value. -/
theorem exists_arrange {n : Nonterminal} {tokens : List (Located Token)} (t : Derivation n)
    (hyield : tokens.map Located.value = t.tokens) :
    ∃ items, Postfix.arrange tokens = .ok items ∧
      ∀ vars v, t.value? vars = some v → effects? vars items.words [] = some [v] := by
  obtain ⟨items, hitems, hlist⟩ := t.arranges.arrange hyield
  have hwords : items.words = t.items.map Item.word := by
    rw [← hlist, List.map_map]
    rfl
  refine ⟨items, hitems, fun vars v hv => ?_⟩
  rw [hwords, t.leaves hv, List.append_nil]

end Derivation

/-! ## Compiling -/

/-- **A source derived from the grammar compiles to the value of its derivation.**  Compilation
fails at most because a constant part is not finite, and a compiled program evaluates to the value,
for whatever values of the variables, on every stack that holds its peak. -/
theorem compile_of_derivation {source : String} {env : Environment} {tokens : List (Located Token)}
    (t : Derivation .summation) (htokens : tokenize source env = .ok tokens)
    (hyield : tokens.map Located.value = t.tokens) :
    (∀ fault, compile source env = .error fault → ∃ span, fault = .nonFiniteConstant span) ∧
      ∀ p, compile source env = .ok p → ∀ vars : List Single, env.variableCount ≤ vars.length →
        ∀ s : Stack, p.peak ≤ s.capacity →
          ∃ v, t.value? vars = some v ∧ (s.eval vars p.words).1 = .ok v := by
  obtain ⟨items, hitems, heffect⟩ := t.exists_arrange hyield
  -- the number of values left does not depend on the variables, so any values show that it is one
  have hsettle : items.settle 0 = .ok 1 := by
    have hlen : env.variableCount ≤ (List.replicate env.variableCount (default : Single)).length :=
      Nat.le_of_eq List.length_replicate.symm
    obtain ⟨v, hv⟩ := t.exists_value?_of_tokenize htokens hyield hlen
    exact Postfix.settle_of_effects? (heffect _ v hv)
  have hcompile := compile_of_settle htokens hitems hsettle
  constructor
  · intro fault hfault
    rw [hcompile] at hfault
    cases hfold : items.fold with
    | error e =>
      rw [hfold] at hfault
      obtain rfl := Except.error.inj hfault
      exact Postfix.fold_eq_error hfold
    | ok folded =>
      rw [hfold] at hfault
      cases hfault
  · intro p hp vars hvars s hroom
    obtain ⟨v, hv⟩ := t.exists_value?_of_tokenize htokens hyield hvars
    rw [hcompile] at hp
    obtain ⟨folded, hfolded, rfl⟩ := map_eq_ok.1 hp
    have hfold : effects? vars folded.words [] = some [v] := by
      rw [Postfix.effects?_fold hfolded, heffect vars v hv]
    exact ⟨v, hv, Stack.eval_of_effects? folded.finish_notMem_words hfold hroom⟩

/-- A product whose second operand has a sign in front of it. -/
theorem compile_of_derivation_scaled :
    (∃ tokens, tokenize "speed * -speed" (.ofVariables ["speed"]) = .ok tokens ∧
        tokens.map Located.value =
          (Derivation.scaled (.factor (.load 0)) .times (.before .negate (.load 0))).tokens) ∧
      compile "speed * -speed" (.ofVariables ["speed"])
        = .ok ⟨[.load 0, .load 0, .call .neg, .call .mul, .finish]⟩ ∧
      ∃ v, Derivation.value? [⟨0x40000000⟩]
            (.term (.scaled (.factor (.load 0)) .times (.before .negate (.load 0)))) = some v ∧
        (Stack.eval [⟨0x40000000⟩] [.load 0, .load 0, .call .neg, .call .mul, .finish]
          ⟨2, []⟩).1 = .ok v := by
  have htokens : tokenize "speed * -speed" (.ofVariables ["speed"]) =
      .ok [⟨.variable 0, ⟨0, 5⟩⟩, ⟨.builtin .times, ⟨6, 7⟩⟩, ⟨.builtin .negate, ⟨8, 9⟩⟩,
        ⟨.variable 0, ⟨9, 14⟩⟩] := by decide +kernel
  have hcompile : compile "speed * -speed" (.ofVariables ["speed"])
      = .ok ⟨[.load 0, .load 0, .call .neg, .call .mul, .finish]⟩ := by decide +kernel
  refine ⟨⟨_, htokens, rfl⟩, hcompile, ?_⟩
  exact (compile_of_derivation (.term (.scaled (.factor (.load 0)) .times
    (.before .negate (.load 0)))) htokens rfl).2 _ hcompile _ (by decide) ⟨2, []⟩ (by decide)

end Flipbook.Expr
