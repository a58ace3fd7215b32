import Flipbook.Proofs.Expr.Tokens

/-!
# Proofs/Expr/Pieces — tokens and the pieces of source text they stand for

Tokenizing pieces one behind the other is tokenizing the first ones and then the others
(`Lexeme.tokens_append`).  So every token is the meaning of one piece (`exists_piece_of_tokens`),
and where there is a fault, it is at the first piece without a meaning (`exists_fault_of_tokens`).
A sign is the one piece that may mean either of two operators, and `sign_iff` tells which.
-/

namespace Flipbook.Expr

/-- The characters that stand for two operators each. -/
inductive Sign where
  | minus
  | plus
deriving DecidableEq, Repr

namespace Sign

/-- The text of a sign. -/
def text : Sign → String
  | minus => "-"
  | plus => "+"

/-- The operator before an operand. -/
def before : Sign → Builtin
  | minus => .negate
  | plus => .keep

/-- The operator between two operands. -/
def between : Sign → Builtin
  | minus => .minus
  | plus => .plus

end Sign

/-- Whether an operand has just ended behind some tokens; `after` tells it in front of them. -/
def operandEnds (after : Bool) (ts : List (Located Token)) : Bool :=
  ts.foldl (fun _ t => t.value.endsOperand) after

namespace Lexeme

/-- The number of bytes of some pieces. -/
def width (ls : List Lexeme) : Nat := utf8Length (ls.flatMap Lexeme.chars)

@[simp] theorem width_nil : width [] = 0 := rfl

@[simp] theorem width_cons (l : Lexeme) (ls : List Lexeme) :
    width (l :: ls) = utf8Length l.chars + width ls := by
  rw [width, List.flatMap_cons, utf8Length_append]
  rfl

/-! ## The meaning of one piece -/

section Meaning

variable {env : Environment} {after : Bool} {l : Lexeme} {span : Span}

/-- Only blanks have no meaning. -/
theorem kind_of_token?_none (h : l.token? env after span = .ok none) : l.kind = .blank := by
  unfold token? at h
  split at h
  · assumption
  · split at h <;> cases h
  · split at h <;> cases h
  · cases h
  · cases h
  · split at h <;> cases h

/-- The fault of a piece points at the piece. -/
theorem span?_of_token?_error {f : Fault} (h : l.token? env after span = .error f) :
    f.span? = some span := by
  unfold token? at h
  split at h
  · cases h
  · split at h
    · cases h
    · obtain rfl := Except.error.inj h
      rfl
  · split at h
    · cases h
    · obtain rfl := Except.error.inj h
      rfl
  · cases h
  · cases h
  · split at h
    · cases h
    · obtain rfl := Except.error.inj h
      rfl

end Meaning

/-! ## Tokens of pieces one behind the other -/

section Tokens

variable {env : Environment} {after : Bool} {start : Nat} {ls ls₁ ls₂ : List Lexeme} {l : Lexeme}
  {ts : List (Located Token)} {f : Fault}

/-- The tokens of pieces behind a first one that has a meaning or is blank. -/
theorem tokens_cons_eq_ok : tokens env after start (l :: ls) = .ok ts ↔
    (l.token? env after ⟨start, start + utf8Length l.chars⟩ = .ok none ∧
      tokens env after (start + utf8Length l.chars) ls = .ok ts) ∨
    ∃ token rest, l.token? env after ⟨start, start + utf8Length l.chars⟩ = .ok (some token) ∧
      tokens env token.endsOperand (start + utf8Length l.chars) ls = .ok rest ∧
      ts = ⟨token, ⟨start, start + utf8Length l.chars⟩⟩ :: rest := by
  rw [tokens, bind_eq_ok]
  constructor
  · rintro ⟨_ | token, htoken, h⟩
    · exact .inl ⟨htoken, h⟩
    · obtain ⟨rest, hrest, h⟩ := bind_eq_ok.1 h
      exact .inr ⟨token, rest, htoken, hrest, (pure_eq_ok.1 h).symm⟩
  · rintro (⟨htoken, h⟩ | ⟨token, rest, htoken, hrest, rfl⟩)
    · exact ⟨none, htoken, h⟩
    · exact ⟨some token, htoken, bind_eq_ok.2 ⟨rest, hrest, rfl⟩⟩

/-- A fault is that of the first piece or that of the pieces behind it. -/
theorem tokens_cons_eq_error : tokens env after start (l :: ls) = .error f ↔
    l.token? env after ⟨start, start + utf8Length l.chars⟩ = .error f ∨
    (l.token? env after ⟨start, start + utf8Length l.chars⟩ = .ok none ∧
      tokens env after (start + utf8Length l.chars) ls = .error f) ∨
    ∃ token, l.token? env after ⟨start, start + utf8Length l.chars⟩ = .ok (some token) ∧
      tokens env token.endsOperand (start + utf8Length l.chars) ls = .error f := by
  rw [tokens, bind_eq_error]
  refine or_congr_right ?_
  constructor
  · rintro ⟨_ | token, htoken, h⟩
    · exact .inl ⟨htoken, h⟩
    · rcases bind_eq_error.1 h with hrest | ⟨_, -, ⟨⟩⟩
      exact .inr ⟨token, htoken, hrest⟩
  · rintro (⟨htoken, h⟩ | ⟨token, htoken, hrest⟩)
    · exact ⟨none, htoken, h⟩
    · exact ⟨some token, htoken, bind_eq_error.2 (.inl hrest)⟩

/-- **The tokens of pieces one behind the other are those of the first ones and of the others.** -/
theorem tokens_append : tokens env after start (ls₁ ++ ls₂) = .ok ts ↔
    ∃ front back, tokens env after start ls₁ = .ok front ∧
      tokens env (operandEnds after front) (start + width ls₁) ls₂ = .ok back ∧
      ts = front ++ back := by
  induction ls₁ generalizing after start ts with
  | nil =>
    constructor
    · exact fun h => ⟨[], ts, rfl, h, rfl⟩
    · rintro ⟨_, _, ⟨⟩, h, rfl⟩
      exact h
  | cons l ls₁ ih =>
    simp only [List.cons_append, tokens_cons_eq_ok, ih, width_cons, ← Nat.add_assoc]
    constructor
    · rintro (⟨htoken, front, back, hfront, hback, rfl⟩ |
        ⟨token, _, htoken, ⟨front, back, hfront, hback, rfl⟩, rfl⟩)
      · exact ⟨front, back, .inl ⟨htoken, hfront⟩, hback, rfl⟩
      · exact ⟨_, back, .inr ⟨token, front, htoken, hfront, rfl⟩, hback, rfl⟩
    · rintro ⟨_, back, ⟨htoken, hfront⟩ | ⟨token, front, htoken, hfront, rfl⟩, hback, rfl⟩
      · exact .inl ⟨htoken, _, back, hfront, hback, rfl⟩
      · exact .inr ⟨token, _, htoken, ⟨front, back, hfront, hback, rfl⟩, rfl⟩

/-- Tokens in front of a token, and those behind it, are those of the pieces there. -/
theorem exists_split_of_tokens {front back : List (Located Token)} {t : Located Token}
    (h : tokens env after start ls = .ok (front ++ t :: back)) :
    ∃ ls₁ l ls₂, ls = ls₁ ++ l :: ls₂ ∧
      t.span = ⟨start + width ls₁, start + width ls₁ + utf8Length l.chars⟩ ∧
      l.token? env (operandEnds after front) t.span = .ok (some t.value) ∧
      tokens env after start ls₁ = .ok front ∧
      tokens env t.value.endsOperand t.span.stop ls₂ = .ok back := by
  induction ls generalizing after start front with
  | nil => exact absurd (Except.ok.inj h) (by simp)
  | cons l ls ih =>
    rcases tokens_cons_eq_ok.1 h with ⟨htoken, hrest⟩ | ⟨token, rest, htoken, hrest, hts⟩
    · obtain ⟨ls₁, l', ls₂, rfl, hspan, hvalue, hfront, hback⟩ := ih hrest
      rw [Nat.add_assoc, ← width_cons] at hspan
      exact ⟨l :: ls₁, l', ls₂, rfl, hspan, hvalue,
        tokens_cons_eq_ok.2 (.inl ⟨htoken, hfront⟩), hback⟩
    · cases front with
      | nil =>
        obtain ⟨rfl, rfl⟩ := List.cons.inj hts
        exact ⟨[], l, ls, rfl, rfl, htoken, rfl, hrest⟩
      | cons first front =>
        obtain ⟨rfl, rfl⟩ := List.cons.inj hts
        obtain ⟨ls₁, l', ls₂, rfl, hspan, hvalue, hfront, hback⟩ := ih hrest
        rw [Nat.add_assoc, ← width_cons] at hspan
        exact ⟨l :: ls₁, l', ls₂, rfl, hspan, hvalue,
          tokens_cons_eq_ok.2 (.inr ⟨token, front, htoken, hfront, rfl⟩), hback⟩

/-- **Every token is the meaning of a piece.** -/
theorem exists_piece_of_tokens {front back : List (Located Token)} {t : Located Token}
    (h : tokens env after start ls = .ok (front ++ t :: back)) :
    ∃ ls₁ l ls₂, ls = ls₁ ++ l :: ls₂ ∧
      t.span = ⟨start + width ls₁, start + width ls₁ + utf8Length l.chars⟩ ∧
      l.token? env (operandEnds after front) t.span = .ok (some t.value) := by
  obtain ⟨ls₁, l, ls₂, hsplit, hspan, hvalue, -⟩ := exists_split_of_tokens h
  exact ⟨ls₁, l, ls₂, hsplit, hspan, hvalue⟩

/-- A piece is blank or has a token. -/
theorem exists_token_of_tokens (h : tokens env after start (ls₁ ++ l :: ls₂) = .ok ts) :
    l.kind = .blank ∨
      ∃ t ∈ ts, t.span = ⟨start + width ls₁, start + width ls₁ + utf8Length l.chars⟩ := by
  obtain ⟨front, back, -, hback, rfl⟩ := tokens_append.1 h
  rcases tokens_cons_eq_ok.1 hback with ⟨htoken, -⟩ | ⟨token, rest, -, -, rfl⟩
  · exact .inl (kind_of_token?_none htoken)
  · exact .inr ⟨_, List.mem_append_right _ List.mem_cons_self, rfl⟩

/-- The fault of some pieces is that of a piece behind tokens. -/
theorem exists_error_of_tokens (h : tokens env after start ls = .error f) :
    ∃ ls₁ l ls₂ front, ls = ls₁ ++ l :: ls₂ ∧ tokens env after start ls₁ = .ok front ∧
      l.token? env (operandEnds after front)
        ⟨start + width ls₁, start + width ls₁ + utf8Length l.chars⟩ = .error f := by
  induction ls generalizing after start with
  | nil => cases h
  | cons l ls ih =>
    rcases tokens_cons_eq_error.1 h with htoken | ⟨htoken, hrest⟩ | ⟨token, htoken, hrest⟩
    · exact ⟨[], l, ls, [], rfl, rfl, htoken⟩
    · obtain ⟨ls₁, l', ls₂, front, rfl, hfront, herror⟩ := ih hrest
      rw [Nat.add_assoc, ← width_cons] at herror
      exact ⟨l :: ls₁, l', ls₂, front, rfl, tokens_cons_eq_ok.2 (.inl ⟨htoken, hfront⟩), herror⟩
    · obtain ⟨ls₁, l', ls₂, front, rfl, hfront, herror⟩ := ih hrest
      rw [Nat.add_assoc, ← width_cons] at herror
      exact ⟨l :: ls₁, l', ls₂, _, rfl,
        tokens_cons_eq_ok.2 (.inr ⟨token, front, htoken, hfront, rfl⟩), herror⟩

/-- **A fault of some pieces points at a piece behind tokens.** -/
theorem exists_fault_of_tokens (h : tokens env after start ls = .error f) :
    ∃ ls₁ l ls₂ front, ls = ls₁ ++ l :: ls₂ ∧ tokens env after start ls₁ = .ok front ∧
      f.span? = some ⟨start + width ls₁, start + width ls₁ + utf8Length l.chars⟩ := by
  obtain ⟨ls₁, l, ls₂, front, hsplit, hfront, herror⟩ := exists_error_of_tokens h
  exact ⟨ls₁, l, ls₂, front, hsplit, hfront, span?_of_token?_error herror⟩

end Tokens

/-! ## What pieces look like -/

section Shapes

variable {cs : List Char} {l : Lexeme}

theorem exists_next_of_mem_split (h : l ∈ split cs) : ∃ c cs', (next c cs').1 = l := by
  fun_induction split cs with
  | case1 => cases h
  | case2 c cs ih =>
    rcases List.mem_cons.1 h with rfl | h
    · exact ⟨c, cs, rfl⟩
    · exact ih h

/-- A piece begins with the first character. -/
theorem head?_next (c : Char) (cs : List Char) : (next c cs).1.chars.head? = some c := by
  simp only [next]
  repeat' split
  all_goals rfl

/-- A blank is one character. -/
theorem exists_isBlank_of_mem_split (hl : l ∈ split cs) (h : l.kind = .blank) :
    ∃ c, l.chars = [c] ∧ isBlank c := by
  obtain ⟨c, cs', rfl⟩ := exists_next_of_mem_split hl
  simp only [next] at h ⊢
  split at h
  · rename_i hblank
    exact ⟨c, by rw [if_pos hblank], hblank⟩
  · exfalso
    revert h
    repeat' split
    all_goals simp

theorem next_minus (cs : List Char) : next '-' cs = (⟨.symbol, ['-']⟩, cs) := rfl

theorem next_plus (cs : List Char) : next '+' cs = (⟨.symbol, ['+']⟩, cs) := rfl

/-- A sign is a symbol. -/
theorem kind_of_sign (hl : l ∈ split cs) (h : l.chars = ['-'] ∨ l.chars = ['+']) :
    l.kind = .symbol := by
  obtain ⟨c, cs', rfl⟩ := exists_next_of_mem_split hl
  have hhead := head?_next c cs'
  rcases h with h | h
  · rw [h] at hhead
    obtain rfl := Option.some.inj hhead
    rw [next_minus]
  · rw [h] at hhead
    obtain rfl := Option.some.inj hhead
    rw [next_plus]

/-- No piece is the table spelling of a sign before an operand. -/
theorem chars_ne_of_not_isNamePart {c : Char} (hl : l ∈ split cs) (hc : isNamePart c = false) :
    l.chars ≠ ['u', c] := by
  intro h
  obtain ⟨d, cs', rfl⟩ := exists_next_of_mem_split hl
  have hhead := head?_next d cs'
  rw [h] at hhead
  obtain rfl := Option.some.inj hhead
  rw [next_of_isNameStart (by decide)] at h
  have hmem : c ∈ cs'.takeWhile isNamePart := (List.cons.inj h).2 ▸ List.mem_singleton_self c
  exact Bool.false_ne_true (hc ▸ List.mem_takeWhile_imp hmem)

end Shapes

/-! ## Signs -/

section Signs

variable {env : Environment} {after : Bool} {span : Span} {cs : List Char} {l : Lexeme}

/-- A builtin is spelled by its piece, unless it is a sign before an operand. -/
theorem spelling_of_token? {b : Builtin} (h : l.token? env after span = .ok (some (.builtin b))) :
    b.spelling = l.text ∨ ∃ sign : Sign, l.text = sign.text ∧ b = sign.before := by
  unfold token? at h
  split at h
  · cases h
  · split at h <;> cases h
  · split at h
    · rename_i token htoken
      obtain rfl := Option.some.inj (Except.ok.inj h)
      refine .inl ?_
      unfold Token.ofName? at htoken
      split at htoken
      · cases htoken
      · cases htoken
      · obtain ⟨_, hspelling, ⟨⟩⟩ := Option.map_eq_some_iff.1 htoken
        exact Builtin.spelling_of_ofSpelling? hspelling
    · cases h
  · cases h
  · cases h
  · split at h
    · rename_i token htoken
      obtain rfl := Option.some.inj (Except.ok.inj h)
      unfold Token.ofSymbol? at htoken
      split at htoken
      · rename_i hsign
        obtain ⟨⟩ := htoken
        simp only [Bool.and_eq_true, Bool.not_eq_true', beq_iff_eq] at hsign
        exact .inr ⟨.minus, hsign.2, rfl⟩
      split at htoken
      · rename_i hsign
        obtain ⟨⟩ := htoken
        simp only [Bool.and_eq_true, Bool.not_eq_true', beq_iff_eq] at hsign
        exact .inr ⟨.plus, hsign.2, rfl⟩
      · obtain ⟨_, hspelling, ⟨⟩⟩ := Option.map_eq_some_iff.1 htoken
        exact .inl (Builtin.spelling_of_ofSpelling? hspelling)
    · cases h

theorem text_eq_iff {s : String} : l.text = s ↔ l.chars = s.toList := by
  rw [text]
  constructor
  · rintro rfl
    exact (String.toList_ofList).symm
  · intro h
    rw [h, String.ofList_toList]

/-- A sign is read by whether an operand has just ended. -/
theorem token_of_sign {sign : Sign} {token : Token} (hl : l ∈ split cs) (htext : l.text = sign.text)
    (h : l.token? env after span = .ok (some token)) :
    token = .builtin (if after then sign.between else sign.before) := by
  have hkind : l.kind = .symbol := by
    refine kind_of_sign hl ?_
    cases sign with
    | minus => exact .inl (text_eq_iff.1 htext)
    | plus => exact .inr (text_eq_iff.1 htext)
  have hsymbol : Token.ofSymbol? after sign.text =
      some (.builtin (if after then sign.between else sign.before)) := by
    cases sign <;> cases after <;> rfl
  rw [token?, hkind, htext, hsymbol] at h
  exact (Option.some.inj (Except.ok.inj h)).symm

/-- The operators of a sign are only written as this sign. -/
theorem text_of_sign {sign : Sign} {ended : Bool} (hl : l ∈ split cs)
    (h : l.token? env after span =
      .ok (some (.builtin (if ended then sign.between else sign.before)))) :
    l.text = sign.text := by
  rcases spelling_of_token? h with hspelling | ⟨sign', htext, hbefore⟩
  · have hchars := text_eq_iff.1 hspelling.symm
    cases ended with
    | false => cases sign <;> exact absurd hchars (chars_ne_of_not_isNamePart hl (by decide))
    | true => cases sign <;> exact hspelling.symm
  · rw [htext]
    cases sign <;> cases sign' <;> cases ended <;> first | rfl | cases hbefore

/-- **A piece is read as an operator of a sign exactly if it is this sign**, the operator between
two operands if an operand has just ended and the one before an operand otherwise. -/
theorem sign_iff {sign : Sign} {token : Token} (hl : l ∈ split cs)
    (h : l.token? env after span = .ok (some token)) (ended : Bool) :
    token = .builtin (if ended then sign.between else sign.before) ↔
      l.text = sign.text ∧ after = ended := by
  constructor
  · rintro rfl
    have htext := text_of_sign hl h
    have htoken := token_of_sign hl htext h
    refine ⟨htext, ?_⟩
    cases sign <;> cases after <;> cases ended <;> first | rfl | cases htoken
  · rintro ⟨htext, rfl⟩
    exact token_of_sign hl htext h

end Signs

end Lexeme

end Flipbook.Expr
