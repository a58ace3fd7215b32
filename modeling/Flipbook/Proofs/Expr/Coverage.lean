import Flipbook.Proofs.Expr.Bytewise
import Flipbook.Proofs.Expr.Settled

/-!
# Proofs/Expr/Coverage — tokenizing loses nothing

The tokens of a source stand one after the other between its characters, and what is left out are
blanks (`Covers`).  A fault is the first one: what stands in front of it has tokens.
-/

namespace Flipbook.Expr

open Bytewise (slice?)

/-- The bytes of the ASCII blanks: space, tab, line feed, form feed and carriage return. -/
def blankBytes : List UInt8 := [0x20, 0x09, 0x0a, 0x0c, 0x0d]

/-- Whether an operand is due behind some tokens: there is none, or the last one is a builtin or an
opening parenthesis. -/
def OperandDue (front : List (Located Token)) : Prop :=
  front = [] ∨ ∃ earlier t, front = earlier ++ [t] ∧
    ((∃ b, t.value = .builtin b) ∨ t.value = .opening)

/-- Whether tokens account for a source. -/
structure Covers (source : String) (ts : List (Located Token)) : Prop where
  /-- They are not empty and stand one after the other. -/
  order : InOrder ts
  /-- They end with the source at the latest. -/
  inside : ∀ t ∈ ts, t.span.stop ≤ source.utf8ByteSize
  /-- They begin and end between characters. -/
  boundaries : ∀ t ∈ ts, (String.Pos.Raw.mk t.span.start).IsValid source ∧
    (String.Pos.Raw.mk t.span.stop).IsValid source
  /-- A byte that stands in none of them is a blank. -/
  blanks : ∀ i b, (Bytewise.bytes source)[i]? = some b →
    (∀ t ∈ ts, i < t.span.start ∨ t.span.stop ≤ i) → b ∈ blankBytes
  /-- A sign is the operator before an operand where one is due, and the operator between two
  operands elsewhere. -/
  signs : ∀ front t back, ts = front ++ t :: back → ∀ sign : Sign,
    (t.value = .builtin sign.before ↔
      slice? source t.span.start t.span.stop = some sign.text ∧ OperandDue front) ∧
    (t.value = .builtin sign.between ↔
      slice? source t.span.start t.span.stop = some sign.text ∧ ¬ OperandDue front)

/-! ## Where pieces stand -/

/-- An operand is due exactly where none has just ended. -/
theorem operandEnds_eq_false {front : List (Located Token)} :
    operandEnds false front = false ↔ OperandDue front := by
  rcases List.eq_nil_or_concat' front with rfl | ⟨earlier, t, rfl⟩
  · exact iff_of_true rfl (.inl rfl)
  · have hlast : operandEnds false (earlier ++ [t]) = t.value.endsOperand := by
      rw [operandEnds, List.foldl_append]
      rfl
    rw [hlast]
    constructor
    · intro h
      refine .inr ⟨earlier, t, rfl, ?_⟩
      cases hvalue : t.value with
      | builtin b => exact .inl ⟨b, rfl⟩
      | opening => exact .inr rfl
      | _ => rw [hvalue] at h; cases h
    · rintro (h | ⟨_, _, h, hvalue⟩)
      · exact absurd h (by simp)
      · obtain ⟨-, ht⟩ := List.append_inj' h rfl
        obtain rfl := List.singleton_inj.1 ht
        rcases hvalue with ⟨b, hvalue⟩ | hvalue <;> rw [hvalue] <;> rfl

/-- Text is only cut out between characters. -/
theorem isValid_of_slice? {source text : String} {start stop : Nat}
    (h : slice? source start stop = some text) :
    (String.Pos.Raw.mk start).IsValid source ∧ (String.Pos.Raw.mk stop).IsValid source := by
  unfold slice? at h
  split at h
  · rename_i hvalid
    exact ⟨hvalid.1, hvalid.2.1⟩
  · cases h

section Pieces

variable {source : String} {ls₁ ls₂ : List Lexeme} {l : Lexeme}

theorem toList_of_split (h : Lexeme.split source.toList = ls₁ ++ ls₂) :
    source.toList = ls₁.flatMap Lexeme.chars ++ ls₂.flatMap Lexeme.chars := by
  rw [← Lexeme.flatten_split source.toList, h, List.map_append, List.flatten_append,
    List.flatMap_def, List.flatMap_def]

/-- A piece is the text between its offsets. -/
theorem slice?_of_split (h : Lexeme.split source.toList = ls₁ ++ l :: ls₂) :
    slice? source (Lexeme.width ls₁) (Lexeme.width ls₁ + utf8Length l.chars) = some l.text := by
  have hslice := Bytewise.slice?_ofList (ls₁.flatMap Lexeme.chars) l.chars
    (ls₂.flatMap Lexeme.chars)
  rwa [← List.flatMap_cons, ← toList_of_split h, String.ofList_toList] at hslice

/-- The text in front of a piece. -/
theorem slice?_front_of_split (h : Lexeme.split source.toList = ls₁ ++ ls₂) :
    slice? source 0 (Lexeme.width ls₁) = some (String.ofList (ls₁.flatMap Lexeme.chars)) := by
  have hslice := Bytewise.slice?_front (ls₁.flatMap Lexeme.chars) (ls₂.flatMap Lexeme.chars)
  rwa [← toList_of_split h, String.ofList_toList] at hslice

/-- Every byte is one of a piece. -/
theorem exists_piece_of_byte {ls : List Lexeme} {i : Nat} {b : UInt8}
    (h : (Bytewise.encode (ls.flatMap Lexeme.chars))[i]? = some b) :
    ∃ ls₁ l ls₂, ls = ls₁ ++ l :: ls₂ ∧ Lexeme.width ls₁ ≤ i ∧
      i < Lexeme.width ls₁ + utf8Length l.chars ∧ b ∈ Bytewise.encode l.chars := by
  induction ls generalizing i with
  | nil => cases h
  | cons l ls ih =>
    rw [List.flatMap_cons, Bytewise.encode_append] at h
    rcases Nat.lt_or_ge i (utf8Length l.chars) with hi | hi
    · rw [List.getElem?_append_left (by rwa [Bytewise.length_encode])] at h
      exact ⟨[], l, ls, rfl, Nat.zero_le _, by rwa [Lexeme.width_nil, Nat.zero_add],
        List.mem_of_getElem? h⟩
    · rw [List.getElem?_append_right (by rwa [Bytewise.length_encode]),
        Bytewise.length_encode] at h
      obtain ⟨ls₁, l', ls₂, rfl, hle, hlt, hb⟩ := ih h
      refine ⟨l :: ls₁, l', ls₂, rfl, ?_, ?_, hb⟩
      · rw [Lexeme.width_cons]
        omega
      · rw [Lexeme.width_cons]
        omega

/-- A blank is one of the blank bytes. -/
theorem mem_blankBytes {cs : List Char} {b : UInt8} (hl : l ∈ Lexeme.split cs)
    (h : l.kind = .blank) (hb : b ∈ Bytewise.encode l.chars) : b ∈ blankBytes := by
  have key : ([' ', '\t', '\n', '\x0c', '\r'].all fun c =>
      (Bytewise.encode [c]).all (· ∈ blankBytes)) = true := by decide
  obtain ⟨c, hchars, hblank⟩ := Lexeme.exists_isBlank_of_mem_split hl h
  rw [hchars] at hb
  have hmem : c ∈ [' ', '\t', '\n', '\x0c', '\r'] := by
    simpa [Lexeme.isBlank, or_assoc] using hblank
  exact of_decide_eq_true (List.all_eq_true.1 (List.all_eq_true.1 key c hmem) b hb)

end Pieces

/-! ## Tokens of a source -/

section Tokens

variable {source : String} {env : Environment} {ts : List (Located Token)}

/-- A token is the meaning of the piece at its place. -/
theorem exists_slice_of_tokenize {front back : List (Located Token)} {t : Located Token}
    (h : tokenize source env = .ok (front ++ t :: back)) : ∃ l ∈ Lexeme.split source.toList,
      slice? source t.span.start t.span.stop = some l.text ∧
      l.token? env (operandEnds false front) t.span = .ok (some t.value) := by
  obtain ⟨ls₁, l, ls₂, hsplit, hspan, htoken⟩ := Lexeme.exists_piece_of_tokens h
  refine ⟨l, by rw [hsplit]; exact List.mem_append_right _ List.mem_cons_self, ?_, htoken⟩
  rw [hspan, Nat.zero_add]
  exact slice?_of_split hsplit

/-- **The tokens of a source account for it.** -/
theorem covers_of_tokenize (h : tokenize source env = .ok ts) : Covers source ts := by
  have hslice : ∀ t ∈ ts, ∃ text, slice? source t.span.start t.span.stop = some text := by
    intro t ht
    obtain ⟨front, back, rfl⟩ := List.append_of_mem ht
    obtain ⟨l, -, hslice, -⟩ := exists_slice_of_tokenize h
    exact ⟨l.text, hslice⟩
  have hvalid : ∀ t ∈ ts, _ := fun t ht => isValid_of_slice? (hslice t ht).choose_spec
  refine ⟨inOrder_of_tokenize h, fun t ht => ?_, hvalid, fun i b hb hout => ?_,
    fun front t back hts sign => ?_⟩
  · exact (hvalid t ht).2.le_rawEndPos
  · rw [Bytewise.bytes_eq, ← Lexeme.flatten_split source.toList, ← List.flatMap_def] at hb
    obtain ⟨ls₁, l, ls₂, hsplit, hle, hlt, hmem⟩ := exists_piece_of_byte hb
    have hl : l ∈ Lexeme.split source.toList := by
      rw [hsplit]
      exact List.mem_append_right _ List.mem_cons_self
    rw [tokenize, hsplit] at h
    rcases Lexeme.exists_token_of_tokens h with hblank | ⟨t, ht, hspan⟩
    · exact mem_blankBytes hl hblank hmem
    · have hout := hout t ht
      rw [hspan, Nat.zero_add] at hout
      rcases hout with hout | hout
      · exact absurd hout (Nat.not_lt.2 hle)
      · exact absurd hout (Nat.not_le.2 hlt)
  · subst hts
    obtain ⟨l, hl, htext, htoken⟩ := exists_slice_of_tokenize h
    rw [htext, Option.some.injEq, ← operandEnds_eq_false, Bool.not_eq_false]
    exact ⟨Lexeme.sign_iff hl htoken false, Lexeme.sign_iff hl htoken true⟩

/-- **Tokenizing loses nothing.**  It never cuts inside of a character, the tokens of a source
account for it, and what stands in front of a fault has tokens. -/
theorem tokenize_covers (source : String) (env : Environment) :
    Bytewise.tokenize source env = Bytewise.lift (tokenize source env) ∧
    (∀ ts, tokenize source env = .ok ts → Covers source ts) ∧
    ∀ f, tokenize source env = .error f → ∃ span before, f.span? = some span ∧
      slice? source 0 span.start = some before ∧ ∃ ts, tokenize before env = .ok ts := by
  refine ⟨Bytewise.tokenize_eq source env, fun ts => covers_of_tokenize, fun f h => ?_⟩
  obtain ⟨ls₁, l, ls₂, front, hsplit, hfront, hspan⟩ := Lexeme.exists_fault_of_tokens h
  refine ⟨_, String.ofList (ls₁.flatMap Lexeme.chars), hspan, ?_, front, ?_⟩
  · rw [Nat.zero_add]
    exact slice?_front_of_split hsplit
  · rw [tokenize, String.toList_ofList, Lexeme.split_flatMap_of_append hsplit]
    exact hfront

end Tokens

/-- A minus sign of either kind is accounted for, and what stands in front of a character that no
expression has is a source of its own. -/
theorem tokenize_covers_signs :
    Covers "-x - 2" [⟨.builtin .negate, ⟨0, 1⟩⟩, ⟨.variable 0, ⟨1, 2⟩⟩, ⟨.builtin .minus, ⟨3, 4⟩⟩,
      ⟨.number ⟨0x40000000⟩, ⟨5, 6⟩⟩] ∧
    ∃ before, slice? "-x + é" 0 5 = some before ∧
      ∃ ts, tokenize before (.ofVariables ["x"]) = .ok ts := by
  have hok : tokenize "-x - 2" (.ofVariables ["x"]) = .ok [⟨.builtin .negate, ⟨0, 1⟩⟩,
      ⟨.variable 0, ⟨1, 2⟩⟩, ⟨.builtin .minus, ⟨3, 4⟩⟩, ⟨.number ⟨0x40000000⟩, ⟨5, 6⟩⟩] := by
    decide +kernel
  have herror : tokenize "-x + é" (.ofVariables ["x"]) = .error (.unknownSymbol "é" ⟨5, 7⟩) := by
    decide +kernel
  refine ⟨(tokenize_covers "-x - 2" (.ofVariables ["x"])).2.1 _ hok, ?_⟩
  obtain ⟨_, before, ⟨⟩, hbefore⟩ := (tokenize_covers "-x + é" (.ofVariables ["x"])).2.2 _ herror
  exact ⟨before, hbefore⟩

end Flipbook.Expr
