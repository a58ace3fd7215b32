import Flipbook.Proofs.Expr.Coverage
import Flipbook.Proofs.Expr.Extents
import Flipbook.Proofs.Expr.Parentheses
import Flipbook.Proofs.Expr.Placement

/-!
# Proofs/Expr/Diagnostics — faults point at the offending text

Every fault but that of the empty expression points at a range of the source (`Fault.PointsAt`).
Tokenizing points at the piece without a meaning, and quotes it; arranging, at a parenthesis that
does not match; checking, at the builtin without operands or at the last entry; folding, at all of
the call whose value is not finite.  Each of these ranges is made of ranges of tokens, and those
lie in the source (`Span.liesIn_of_tokenize`).
-/

namespace Flipbook.Expr

open Bytewise (slice?)

/-- Whether a range is one of some characters of a source. -/
structure Span.LiesIn (s : Span) (source : String) : Prop where
  nonempty : s.start < s.stop
  inside : s.stop ≤ source.utf8ByteSize
  boundaries : (String.Pos.Raw.mk s.start).IsValid source ∧
    (String.Pos.Raw.mk s.stop).IsValid source

/-- The text that a fault quotes. -/
def Fault.quoted? : Fault → Option String
  | .unknownIdentifier text _ | .unknownSymbol text _ | .malformedNumber text _ => some text
  | _ => none

/-- How a builtin is written in a source: a sign before an operand by the sign alone. -/
def Builtin.written : Builtin → String
  | .negate => "-"
  | .keep => "+"
  | b => b.spelling

/-- The parenthesis that a character is. -/
def parenthesisOf? (c : Char) : Option Parenthesis :=
  if c = '(' then some .opening else if c = ')' then some .closing else none

/-- The parentheses of a text, in order. -/
def textParentheses (cs : List Char) : List Parenthesis := cs.filterMap parenthesisOf?

/-- Whether a range is that of the first `)` in a text that closes nothing. -/
def UnopenedAt (cs : List Char) (s : Span) : Prop :=
  ∃ before behind, cs = before ++ ')' :: behind ∧ Balanced (textParentheses before) ∧
    s = ⟨utf8Length before, utf8Length before + 1⟩

/-- Whether every `)` in a text closes a parenthesis, and a range is that of the last `(` that is
never closed. -/
def UnclosedAt (cs : List Char) (s : Span) : Prop :=
  Nested (textParentheses cs) ∧
    ∃ before behind, cs = before ++ '(' :: behind ∧ Balanced (textParentheses behind) ∧
      s = ⟨utf8Length before, utf8Length before + 1⟩

/-- Whether a range is the least one around the tokens of a call that reads no variable and has a
value that is not finite. -/
def AroundNonFinite (source : String) (env : Environment) (s : Span) : Prop :=
  ∃ ts items, ∃ x y : Operand, tokenize source env = .ok ts ∧ Postfix.arrange ts = .ok items ∧
    Postfix.operands? [] items = some [x] ∧ y.Within x ∧ y.NonFiniteCall ∧
    (∀ i ∈ y.entries, ∃ t ∈ ts, t.value.item? = some i.value ∧ t.span = i.span) ∧
    y.entries.IsExtent s

/-- Whether a range of a source is the text that a fault is about. -/
structure Fault.PointsAt (source : String) (env : Environment) (s : Span) (f : Fault) : Prop where
  lies : s.LiesIn source
  /-- A text that the fault quotes stands there. -/
  quotes : ∀ text, f.quoted? = some text → slice? source s.start s.stop = some text
  /-- A parenthesis that does not match is the first `)` without a `(`, or else the last `(` without
  a `)`. -/
  mismatch : f = .unbalancedParenthesis s → UnopenedAt source.toList s ∨ UnclosedAt source.toList s
  /-- A builtin that lacks operands is written there. -/
  lacks : ∀ b found, f = .arityMismatch b found s →
    slice? source s.start s.stop = some b.written
  /-- A constant that is not finite is computed from what stands there. -/
  nonFinite : f = .nonFiniteConstant s → AroundNonFinite source env s

/-! ## Parentheses in the text -/

@[simp] theorem textParentheses_append (cs ds : List Char) :
    textParentheses (cs ++ ds) = textParentheses cs ++ textParentheses ds := List.filterMap_append

/-- A text without the characters of parentheses has none. -/
theorem textParentheses_eq_nil {cs : List Char} (h : ∀ c ∈ cs, parenthesisOf? c = none) :
    textParentheses cs = [] := List.filterMap_eq_nil_iff.2 h

/-- A character of a class without parentheses is none. -/
theorem parenthesisOf?_eq_none {p : Char → Bool} (hopening : p '(' = false)
    (hclosing : p ')' = false) {c : Char} (h : p c = true) : parenthesisOf? c = none := by
  have hne : c ≠ '(' ∧ c ≠ ')' :=
    ⟨fun heq => by simp [heq, hopening] at h, fun heq => by simp [heq, hclosing] at h⟩
  rw [parenthesisOf?, if_neg hne.1, if_neg hne.2]

/-- The character that a parenthesis is. -/
def Parenthesis.char : Parenthesis → Char
  | .opening => '('
  | .closing => ')'

/-- The parenthesis that a piece is. -/
def LexemeKind.parenthesis? : LexemeKind → Option Parenthesis
  | .opening => some .opening
  | .closing => some .closing
  | _ => none

namespace Lexeme

/-- The characters of numbers behind the first one. -/
def isNumberPart (c : Char) : Bool := isMantissa c || c = 'e' || c = 'E' || c = '+' || c = '-'

theorem isNumberPart_of_isDigit {c : Char} (h : c.isDigit) : isNumberPart c := by
  simp [isNumberPart, isMantissa, h]

theorem isNumberPart_of_mem_splitSign {cs : List Char} {c : Char} (h : c ∈ (splitSign cs).1) :
    isNumberPart c := by
  cases cs with
  | nil => cases h
  | cons d cs =>
    simp only [splitSign] at h
    split at h
    · rename_i hsign
      obtain rfl := List.mem_singleton.1 h
      rcases hsign with rfl | rfl <;> rfl
    · cases h

theorem isNumberPart_of_mem_splitExponent {cs : List Char} {c : Char}
    (h : c ∈ (splitExponent cs).1) : isNumberPart c := by
  cases cs with
  | nil => cases h
  | cons d cs =>
    simp only [splitExponent] at h
    split at h
    · rename_i hmark
      rcases List.mem_append.1 h with hfront | hdigits
      · rcases List.mem_cons.1 hfront with rfl | hsign
        · rcases hmark with rfl | rfl <;> rfl
        · exact isNumberPart_of_mem_splitSign hsign
      · exact isNumberPart_of_isDigit (List.mem_takeWhile_imp hdigits)
    · cases h

theorem isNumberPart_of_mem_splitNumber {cs : List Char} {c : Char} (h : c ∈ (splitNumber cs).1) :
    isNumberPart c := by
  rcases List.mem_append.1 h with hmantissa | hexponent
  · simp [isNumberPart, List.mem_takeWhile_imp hmantissa]
  · exact isNumberPart_of_mem_splitExponent hexponent

/-- **A parenthesis is a piece of its own.** -/
theorem textParentheses_next (c : Char) (cs : List Char) :
    textParentheses (next c cs).1.chars = (next c cs).1.kind.parenthesis?.toList := by
  unfold next
  split
  · rename_i hblank
    exact textParentheses_eq_nil (by simpa using parenthesisOf?_eq_none rfl rfl hblank)
  split
  · rename_i hnumber
    refine textParentheses_eq_nil (List.forall_mem_cons.2 ⟨?_, fun d hd => ?_⟩)
    · refine parenthesisOf?_eq_none (p := isMantissa) rfl rfl ?_
      simp only [startsNumber, Bool.or_eq_true, Bool.and_eq_true, decide_eq_true_eq] at hnumber
      rw [isMantissa, Bool.or_eq_true, decide_eq_true_eq]
      exact hnumber.imp_right And.left
    · exact parenthesisOf?_eq_none rfl rfl (isNumberPart_of_mem_splitNumber hd)
  split
  · rename_i hname
    refine textParentheses_eq_nil (List.forall_mem_cons.2 ⟨?_, fun d hd => ?_⟩)
    · exact parenthesisOf?_eq_none rfl rfl hname
    · exact parenthesisOf?_eq_none rfl rfl (List.mem_takeWhile_imp hd)
  split
  · rename_i hopening
    rw [hopening]
    rfl
  split
  · rename_i hclosing
    rw [hclosing]
    rfl
  · rename_i hopening hclosing
    refine textParentheses_eq_nil fun d hd => ?_
    obtain rfl := List.mem_singleton.1 hd
    rw [parenthesisOf?, if_neg hopening, if_neg hclosing]

theorem textParentheses_of_mem_split {cs : List Char} {l : Lexeme} (h : l ∈ split cs) :
    textParentheses l.chars = l.kind.parenthesis?.toList := by
  obtain ⟨c, cs', rfl⟩ := exists_next_of_mem_split h
  exact textParentheses_next c cs'

/-- What is read as a parenthesis is the character alone. -/
theorem chars_of_parenthesis? {cs : List Char} {l : Lexeme} (hl : l ∈ split cs) {p : Parenthesis}
    (h : l.kind.parenthesis? = some p) : l.chars = [p.char] := by
  obtain ⟨c, cs', rfl⟩ := exists_next_of_mem_split hl
  revert h
  unfold next
  split
  · rintro ⟨⟩
  split
  · rintro ⟨⟩
  split
  · rintro ⟨⟩
  split
  · rename_i hopening
    rintro ⟨⟩
    rw [hopening]
    rfl
  split
  · rename_i hclosing
    rintro ⟨⟩
    rw [hclosing]
    rfl
  · rintro ⟨⟩

section Tokens

variable {env : Environment} {after : Bool} {l : Lexeme} {span : Span} {token : Token}

/-- Builtins are no parentheses. -/
theorem parenthesis?_of_map_builtin {b? : Option Builtin} (h : b?.map Token.builtin = some token) :
    token.parenthesis? = none := by
  obtain ⟨b, -, rfl⟩ := Option.map_eq_some_iff.1 h
  rfl

/-- **A token is a parenthesis exactly if its piece is.** -/
theorem parenthesis?_of_token? (h : l.token? env after span = .ok (some token)) :
    token.parenthesis? = l.kind.parenthesis? := by
  unfold token? at h
  split at h
  case h_1 => cases h
  case h_2 hkind =>
    split at h
    · obtain rfl := Option.some.inj (Except.ok.inj h)
      rw [hkind]
      rfl
    · cases h
  case h_3 hkind =>
    split at h
    case h_1 htoken =>
      obtain rfl := Option.some.inj (Except.ok.inj h)
      rw [hkind]
      unfold Token.ofName? at htoken
      split at htoken
      · obtain rfl := Option.some.inj htoken
        rfl
      · obtain rfl := Option.some.inj htoken
        rfl
      · exact parenthesis?_of_map_builtin htoken
    case h_2 => cases h
  case h_4 hkind | h_5 hkind =>
    obtain rfl := Option.some.inj (Except.ok.inj h)
    rw [hkind]
    rfl
  case h_6 hkind =>
    split at h
    case h_1 htoken =>
      obtain rfl := Option.some.inj (Except.ok.inj h)
      rw [hkind]
      unfold Token.ofSymbol? at htoken
      split at htoken
      · obtain rfl := Option.some.inj htoken
        rfl
      split at htoken
      · obtain rfl := Option.some.inj htoken
        rfl
      · exact parenthesis?_of_map_builtin htoken
    case h_2 => cases h

/-- **The parentheses among the tokens of pieces are those of the text.** -/
theorem parentheses_of_tokens {cs : List Char} {ls : List Lexeme} {start : Nat}
    {ts : List (Located Token)} (hls : ∀ l ∈ ls, l ∈ split cs)
    (h : tokens env after start ls = .ok ts) :
    parentheses ts = textParentheses (ls.flatMap chars) := by
  induction ls generalizing after start ts with
  | nil =>
    obtain rfl := Except.ok.inj h
    rfl
  | cons l ls ih =>
    obtain ⟨hl, hls⟩ := List.forall_mem_cons.1 hls
    rw [List.flatMap_cons, textParentheses_append, textParentheses_of_mem_split hl]
    rcases tokens_cons_eq_ok.1 h with ⟨htoken, hrest⟩ | ⟨token, rest, htoken, hrest, rfl⟩
    · rw [kind_of_token?_none htoken, ih hls hrest]
      rfl
    · rw [parentheses_cons, parenthesis?_of_token? htoken, ih hls hrest]

end Tokens

end Lexeme

/-! ## Ranges of tokens -/

/-- Text that is cut out lies in the source. -/
theorem Span.liesIn_of_slice? {source text : String} {s : Span}
    (h : slice? source s.start s.stop = some text) (hlt : s.start < s.stop) : s.LiesIn source :=
  ⟨hlt, (isValid_of_slice? h).2.le_rawEndPos, isValid_of_slice? h⟩

section Tokens

variable {source : String} {env : Environment} {ts : List (Located Token)}

/-- **Tokens lie in the source.** -/
theorem Span.liesIn_of_tokenize (h : tokenize source env = .ok ts) {t : Located Token}
    (ht : t ∈ ts) : t.span.LiesIn source where
  nonempty := (covers_of_tokenize h).order.nonempty t ht
  inside := (covers_of_tokenize h).inside t ht
  boundaries := (covers_of_tokenize h).boundaries t ht

/-- The least range around some tokens lies in the source. -/
theorem Span.liesIn_of_isExtent (h : tokenize source env = .ok ts) {items : Postfix} {s : Span}
    (hitems : ∀ i ∈ items, ∃ t ∈ ts, t.value.item? = some i.value ∧ t.span = i.span)
    (hs : items.IsExtent s) : s.LiesIn source := by
  have hlies : ∀ i ∈ items, i.span.LiesIn source := by
    intro i hi
    obtain ⟨t, ht, -, hspan⟩ := hitems i hi
    exact hspan ▸ liesIn_of_tokenize h ht
  obtain ⟨i, hi, hstart⟩ := hs.begins
  obtain ⟨j, hj, hstop⟩ := hs.ends
  refine ⟨?_, hstop ▸ (hlies j hj).inside, hstart ▸ (hlies i hi).boundaries.1,
    hstop ▸ (hlies j hj).boundaries.2⟩
  have hlt := (hlies i hi).nonempty
  have hle := (hs.around i hi).2
  omega

/-- A builtin is written at its place. -/
theorem slice?_of_builtin (h : tokenize source env = .ok ts) {t : Located Token} (ht : t ∈ ts)
    {b : Builtin} (hb : t.value = .builtin b) :
    slice? source t.span.start t.span.stop = some b.written := by
  obtain ⟨front, back, rfl⟩ := List.append_of_mem ht
  obtain ⟨l, hl, hslice, htoken⟩ := exists_slice_of_tokenize h
  rw [hb] at htoken
  rw [hslice, Option.some.injEq]
  rcases Lexeme.spelling_of_token? htoken with hspelling | ⟨sign, htext, rfl⟩
  · -- the table spelling of a sign before an operand is never written
    cases b with
    | negate | keep =>
      exact absurd (Lexeme.text_eq_iff.1 hspelling.symm)
        (Lexeme.chars_ne_of_not_isNamePart hl (by decide))
    | _ => exact hspelling.symm
  · rw [htext]
    cases sign <;> rfl

/-- A token in a source, with what stands in front of it and behind. -/
theorem exists_text_of_tokenize {front back : List (Located Token)} {t : Located Token}
    (h : tokenize source env = .ok (front ++ t :: back)) : ∃ before l behind,
      l ∈ Lexeme.split source.toList ∧ source.toList = before ++ l.chars ++ behind ∧
      t.span = ⟨utf8Length before, utf8Length before + utf8Length l.chars⟩ ∧
      t.value.parenthesis? = l.kind.parenthesis? ∧
      parentheses front = textParentheses before ∧ parentheses back = textParentheses behind := by
  obtain ⟨ls₁, l, ls₂, hsplit, hspan, htoken, hfront, hback⟩ := Lexeme.exists_split_of_tokens h
  have hmem : ∀ l' ∈ ls₁ ++ l :: ls₂, l' ∈ Lexeme.split source.toList := by
    rw [hsplit]
    exact fun _ hl => hl
  obtain ⟨hls₁, hmem⟩ := List.forall_mem_append.1 hmem
  obtain ⟨hl, hls₂⟩ := List.forall_mem_cons.1 hmem
  refine ⟨ls₁.flatMap Lexeme.chars, l, ls₂.flatMap Lexeme.chars, hl, ?_, ?_,
    Lexeme.parenthesis?_of_token? htoken, Lexeme.parentheses_of_tokens hls₁ hfront,
    Lexeme.parentheses_of_tokens hls₂ hback⟩
  · rw [toList_of_split hsplit, List.flatMap_cons, List.append_assoc]
  · rw [hspan, Nat.zero_add]
    rfl

/-- The parentheses of the tokens of a source are those of its text. -/
theorem parentheses_of_tokenize (h : tokenize source env = .ok ts) :
    parentheses ts = textParentheses source.toList := by
  have htokens := Lexeme.parentheses_of_tokens (fun _ hl => hl) h
  rwa [List.flatMap_def, Lexeme.flatten_split] at htokens

end Tokens

/-! ## The faults of each stage -/

/-- **A compilation fails in its first stage that does.** -/
theorem compile_eq_error {source : String} {env : Environment} {f : Fault} :
    compile source env = .error f ↔ tokenize source env = .error f ∨
      ∃ ts, tokenize source env = .ok ts ∧ (Postfix.arrange ts = .error f ∨
        ∃ items, Postfix.arrange ts = .ok items ∧ (items.check = .error f ∨
          items.check = .ok () ∧ items.fold = .error f)) := by
  simp [compile, Compilation.ofSource, bind_eq_error, pure, Except.pure, Unique.exists_iff]

section Stages

variable {source : String} {env : Environment} {ts : List (Located Token)} {items : Postfix}
  {f : Fault} {s : Span}

/-- A piece without a meaning is quoted. -/
theorem Lexeme.quoted?_of_token?_error {after : Bool} {l : Lexeme} {span : Span}
    (h : l.token? env after span = .error f) : f.quoted? = some l.text := by
  unfold token? at h
  split at h
  case h_1 | h_4 | h_5 => cases h
  all_goals
    split at h
    · cases h
    · obtain rfl := Except.error.inj h
      rfl

theorem pointsAt_of_tokenize (h : tokenize source env = .error f) (hs : f.span? = some s) :
    f.PointsAt source env s := by
  obtain ⟨ls₁, l, ls₂, front, hsplit, -, herror⟩ := Lexeme.exists_error_of_tokens h
  have hquoted := Lexeme.quoted?_of_token?_error herror
  obtain rfl := Option.some.inj (hs.symm.trans (Lexeme.span?_of_token?_error herror))
  have hl : l ∈ Lexeme.split source.toList := by
    rw [hsplit]
    exact List.mem_append_right _ List.mem_cons_self
  have hslice := slice?_of_split hsplit
  rw [Nat.zero_add]
  refine ⟨Span.liesIn_of_slice? hslice ?_, fun text htext => ?_, ?_, ?_, ?_⟩
  · exact Nat.lt_add_of_pos_right (utf8Length_pos (Lexeme.ne_nil_of_mem_split hl))
  · rw [← htext, hquoted]
    exact hslice
  all_goals
    intros
    subst f
    cases hquoted

theorem unopenedAt_of_firstUnopened (h : tokenize source env = .ok ts) {t : Located Token}
    (ht : FirstUnopened ts t) : UnopenedAt source.toList t.span := by
  obtain ⟨front, back, rfl, hvalue, hbalanced⟩ := ht
  obtain ⟨before, l, behind, hl, htext, hspan, hkind, hfront, -⟩ := exists_text_of_tokenize h
  rw [hvalue] at hkind
  rw [Lexeme.chars_of_parenthesis? hl hkind.symm] at htext hspan
  rw [List.append_assoc] at htext
  exact ⟨before, behind, htext, hfront ▸ hbalanced, hspan⟩

theorem unclosedAt_of_lastUnclosed (h : tokenize source env = .ok ts) {t : Located Token}
    (ht : LastUnclosed ts t) : UnclosedAt source.toList t.span := by
  have hall := parentheses_of_tokenize h
  obtain ⟨hnested, front, back, rfl, hvalue, hbalanced⟩ := ht
  obtain ⟨before, l, behind, hl, htext, hspan, hkind, -, hback⟩ := exists_text_of_tokenize h
  rw [hvalue] at hkind
  rw [Lexeme.chars_of_parenthesis? hl hkind.symm] at htext hspan
  rw [List.append_assoc] at htext
  exact ⟨hall ▸ hnested, before, behind, htext, hback ▸ hbalanced, hspan⟩

theorem pointsAt_of_arrange (hts : tokenize source env = .ok ts)
    (h : Postfix.arrange ts = .error f) (hs : f.span? = some s) : f.PointsAt source env s := by
  obtain ⟨t, rfl, ht⟩ := Postfix.mismatch_of_arrange h
  obtain rfl := Option.some.inj hs
  refine ⟨?_, nofun, fun _ => ?_, nofun, nofun⟩
  · rcases ht with ⟨front, back, rfl, -⟩ | ⟨-, front, back, rfl, -⟩ <;>
      exact Span.liesIn_of_tokenize hts (List.mem_append_right _ List.mem_cons_self)
  · exact ht.imp (unopenedAt_of_firstUnopened hts) (unclosedAt_of_lastUnclosed hts)

/-- Counting values fails at a builtin. -/
theorem Postfix.exists_apply_of_settle {depth : Nat} (h : items.settle depth = .error f) :
    ∃ b found span, ⟨.apply b, span⟩ ∈ items ∧ f = .arityMismatch b found span := by
  fun_induction settle depth items with
  | case1 => cases h
  | case2 depth b span rest hargs =>
    obtain rfl := Except.error.inj h
    exact ⟨b, depth, span, List.mem_cons_self, rfl⟩
  | case3 depth b span rest hargs ih | case4 depth item rest hitem ih =>
    obtain ⟨b, found, span, hmem, hf⟩ := ih h
    exact ⟨b, found, span, List.mem_cons_of_mem _ hmem, hf⟩

/-- Checking fails at a builtin that lacks operands, at the last entry, or where there is none. -/
theorem Postfix.check_eq_error (h : items.check = .error f) : f = .emptyExpression ∨
    (∃ b found span, ⟨.apply b, span⟩ ∈ items ∧ f = .arityMismatch b found span) ∨
      ∃ count, ∃ i ∈ items, f = .danglingOperand count i.span := by
  rcases bind_eq_error.1 h with hsettle | ⟨count, hsettle, hcount⟩
  · exact .inr (.inl (exists_apply_of_settle hsettle))
  · split at hcount
    · exact .inl (Except.error.inj hcount).symm
    · cases hcount
    · obtain rfl := Except.error.inj hcount
      refine .inr (.inr ⟨count, ?_⟩)
      cases hlast : items.getLast? with
      | none =>
        obtain rfl := List.getLast?_eq_none_iff.1 hlast
        obtain rfl := Except.ok.inj hsettle
        contradiction
      | some i => exact ⟨i, List.mem_of_getLast? hlast, rfl⟩

theorem pointsAt_of_check (hts : tokenize source env = .ok ts)
    (hitems : Postfix.arrange ts = .ok items) (h : items.check = .error f)
    (hs : f.span? = some s) : f.PointsAt source env s := by
  rcases Postfix.check_eq_error h with rfl | ⟨b, found, span, hi, rfl⟩ | ⟨count, i, hi, rfl⟩
  · cases hs
  · obtain rfl := Option.some.inj hs
    obtain ⟨t, ht, hitem, rfl⟩ := Postfix.exists_token_of_arrange hitems hi
    refine ⟨Span.liesIn_of_tokenize hts ht, nofun, nofun, ?_, nofun⟩
    rintro _ _ ⟨⟩
    exact slice?_of_builtin hts ht (Token.eq_builtin_of_item? hitem)
  · obtain rfl := Option.some.inj hs
    obtain ⟨t, ht, -, hspan⟩ := Postfix.exists_token_of_arrange hitems hi
    exact ⟨hspan ▸ Span.liesIn_of_tokenize hts ht, nofun, nofun, nofun, nofun⟩

theorem pointsAt_of_fold (hts : tokenize source env = .ok ts)
    (hitems : Postfix.arrange ts = .ok items) (hcheck : items.check = .ok ())
    (h : items.fold = .error f) (hs : f.span? = some s) : f.PointsAt source env s := by
  obtain ⟨x, hx⟩ := Postfix.exists_operand_of_check hcheck
  rcases Postfix.fold_of_operands? hx with ⟨-, hok⟩ | ⟨y, hy, hcall, v, span, hfolded, hspan⟩
  · rw [hok] at h
    cases h
  · obtain rfl := Except.error.inj (h.symm.trans hspan)
    obtain rfl := Option.some.inj hs
    have hextent := Operand.isExtent_of_folded hfolded
    have htoken : ∀ i ∈ y.entries, ∃ t ∈ ts, t.value.item? = some i.value ∧ t.span = i.span := by
      intro i hi
      have hitem := hy.sublist.subset hi
      rw [Postfix.entries_of_operands? hx] at hitem
      exact Postfix.exists_token_of_arrange hitems (List.mem_filter.1 hitem).1
    exact ⟨Span.liesIn_of_isExtent hts htoken hextent, nofun, nofun, nofun,
      fun _ => ⟨ts, items, x, y, hts, hitems, hx, hy, hcall, htoken, hextent⟩⟩

/-- **Faults point at the offending text.** -/
theorem compile_fault_pointsAt (h : compile source env = .error f) (hs : f.span? = some s) :
    f.PointsAt source env s := by
  rcases compile_eq_error.1 h with htokens | ⟨ts, hts, hitems | ⟨items, hitems, hcheck |
    ⟨hcheck, hfold⟩⟩⟩
  · exact pointsAt_of_tokenize htokens hs
  · exact pointsAt_of_arrange hts hitems hs
  · exact pointsAt_of_check hts hitems hcheck hs
  · exact pointsAt_of_fold hts hitems hcheck hfold hs

/-- A division by zero with a parenthesis behind it. -/
theorem compile_fault_pointsAt_quotient :
    (Fault.nonFiniteConstant ⟨5, 15⟩).PointsAt "x * (1 / (2 - 2))" (.ofVariables ["x"]) ⟨5, 15⟩ :=
  compile_fault_pointsAt (by decide +kernel) rfl

end Stages

end Flipbook.Expr
