import Flipbook.Proofs.Expr.Pieces
import Flipbook.Proofs.Expr.SourceOrder

/-!
# Proofs/Expr/Bytewise — scanning source text byte by byte

`Bytewise.tokenize` reads the UTF-8 bytes of a source one by one, tests them for ASCII characters
only, and cuts its text between two byte offsets; where one of them is inside of a character, there
is no result.  `Bytewise.tokenize_eq` says that there always is one, and that it is the result of
`tokenize`: a byte of a character beyond ASCII passes none of the tests, so that nothing ends inside
of a character.
-/

namespace Flipbook.Expr

namespace Bytewise

/-! ## Scanning -/

/-- The bytes of a source. -/
def bytes (source : String) : List UInt8 := source.toByteArray.data.toList

/-- The text between two byte offsets, if both are between characters. -/
def slice? (source : String) (start stop : Nat) : Option String :=
  if h : (String.Pos.Raw.mk start).IsValid source ∧ (String.Pos.Raw.mk stop).IsValid source ∧
      start ≤ stop then
    some (source.extract (source.pos ⟨start⟩ h.1) (source.pos ⟨stop⟩ h.2.1))
  else none

/-- A scan that cuts text; it has no result if a cut is inside of a character. -/
abbrev Cutting (α : Type) := ExceptT Fault Option α

/-- Steps that cut nothing. -/
def lift {α : Type} (x : Except Fault α) : Cutting α := ExceptT.mk (some x)

/-- What was cut. -/
def cut {α : Type} (x : Option α) : Cutting α := ExceptT.mk (x.map .ok)

/-- A test for ASCII characters, on bytes. -/
def ascii (p : Char → Bool) (b : UInt8) : Bool := b < 0x80 && p (Char.ofUInt8 b)

/-- The number of bytes of a sign in front. -/
def signWidth : List UInt8 → Nat
  | [] => 0
  | b :: _ => if ascii (· == '+') b || ascii (· == '-') b then 1 else 0

/-- The number of bytes of an exponent in front. -/
def exponentWidth : List UInt8 → Nat
  | [] => 0
  | b :: bs =>
    if ascii (· == 'e') b || ascii (· == 'E') b then
      let sign := signWidth bs
      1 + sign + ((bs.drop sign).takeWhile (ascii Char.isDigit)).length
    else 0

/-- The number of bytes of a number in front. -/
def numberWidth (bs : List UInt8) : Nat :=
  let mantissa := (bs.takeWhile (ascii Lexeme.isMantissa)).length
  mantissa + exponentWidth (bs.drop mantissa)

/-- The builtin with the spelling of the first two characters or of the first one, and the number of
bytes of its spelling. -/
def symbol (text : String) : Cutting (Option (Builtin × Nat)) :=
  match text.toList with
  | [] => return none
  | [c] => do
    let one ← cut (slice? text 0 c.utf8Size)
    return (Builtin.ofSpelling? one).map (·, c.utf8Size)
  | c :: d :: _ => do
    let two ← cut (slice? text 0 (c.utf8Size + d.utf8Size))
    match Builtin.ofSpelling? two with
    | some b => return some (b, c.utf8Size + d.utf8Size)
    | none =>
      let one ← cut (slice? text 0 c.utf8Size)
      return (Builtin.ofSpelling? one).map (·, c.utf8Size)

/-- What a step of the scan finds: a token, if it is not a blank, its number of bytes, and whether
an operand has just ended behind it. -/
structure Found where
  token? : Option Token
  width : Nat
  afterOperand : Bool

/-- The number at the byte that `bs` follow. -/
def number (source : String) (start : Nat) (bs : List UInt8) : Cutting Found := do
  let width := 1 + numberWidth bs
  let text ← cut (slice? source start (start + width))
  match Lexeme.value? text.toList with
  | some value => return ⟨some (.number value), width, true⟩
  | none => throw (.malformedNumber text ⟨start, start + width⟩)

/-- The name at the byte that `bs` follow. -/
def name (source : String) (env : Environment) (start : Nat) (bs : List UInt8) : Cutting Found := do
  let width := 1 + (bs.takeWhile (ascii Lexeme.isNamePart)).length
  let text ← cut (slice? source start (start + width))
  match Token.ofName? env text with
  | some (.builtin b) => return ⟨some (.builtin b), width, false⟩
  | some token => return ⟨some token, width, true⟩
  | none => throw (.unknownIdentifier text ⟨start, start + width⟩)

/-- The operator in front of the text from `start` on. -/
def operator (source : String) (start : Nat) : Cutting Found := do
  let text ← cut (slice? source start source.utf8ByteSize)
  match ← symbol text with
  | some (builtin, width) => return ⟨some (.builtin builtin), width, false⟩
  | none =>
    let first := text.toList.headD '\x00'
    throw (.unknownSymbol (String.singleton first) ⟨start, start + first.utf8Size⟩)

/-- One step of the scan, at the byte `b` that `bs` follow. -/
def step (source : String) (env : Environment) (afterOperand : Bool) (start : Nat) (b : UInt8)
    (bs : List UInt8) : Cutting Found :=
  if ascii Lexeme.isBlank b then return ⟨none, 1, afterOperand⟩
  else if ascii Char.isDigit b || (ascii (· == '.') b && bs.head?.any (ascii Char.isDigit)) then
    number source start bs
  else if ascii Lexeme.isNameStart b then name source env start bs
  else if ascii (· == '(') b then return ⟨some .opening, 1, false⟩
  else if ascii (· == ')') b then return ⟨some .closing, 1, true⟩
  else if !afterOperand && (ascii (· == '-') b || ascii (· == '+') b) then
    return ⟨some (.builtin (if ascii (· == '-') b then .negate else .keep)), 1, afterOperand⟩
  else operator source start

/-- The tokens of the bytes from `start` on. -/
def tokens (source : String) (env : Environment) :
    (afterOperand : Bool) → (start : Nat) → List UInt8 → Cutting (List (Located Token))
  | _, _, [] => return []
  | afterOperand, start, b :: bs => do
    let found ← step source env afterOperand start b bs
    let stop := start + found.width
    let rest ← tokens source env found.afterOperand stop (bs.drop (found.width - 1))
    match found.token? with
    | none => return rest
    | some token => return ⟨token, ⟨start, stop⟩⟩ :: rest
termination_by _ _ bs => bs.length
decreasing_by
  rw [List.length_drop, List.length_cons]
  omega

/-- The tokens of a source, scanned byte by byte. -/
def tokenize (source : String) (env : Environment) : Cutting (List (Located Token)) :=
  tokens source env false 0 (bytes source)

/-! ## Bytes of characters -/

/-- The bytes of characters. -/
def encode (cs : List Char) : List UInt8 := cs.flatMap String.utf8EncodeChar

theorem bytes_eq (source : String) : bytes source = encode source.toList := by
  rw [bytes, ← String.utf8Encode_toList, List.utf8Encode, List.toList_data_toByteArray]
  rfl

@[simp] theorem encode_nil : encode [] = [] := rfl

@[simp] theorem encode_cons (c : Char) (cs : List Char) :
    encode (c :: cs) = String.utf8EncodeChar c ++ encode cs := List.flatMap_cons

@[simp] theorem encode_append (cs ds : List Char) : encode (cs ++ ds) = encode cs ++ encode ds :=
  List.flatMap_append

@[simp] theorem length_encode (cs : List Char) : (encode cs).length = utf8Length cs := by
  induction cs with
  | nil => rfl
  | cons c cs ih => rw [encode_cons, List.length_append, String.length_utf8EncodeChar, ih]; rfl

theorem utf8ByteSize_ofList (cs : List Char) : (String.ofList cs).utf8ByteSize = utf8Length cs := by
  rw [← String.size_toByteArray, String.toByteArray_ofList, List.utf8Encode, List.size_toByteArray]
  exact length_encode cs

/-- Text is cut out where it stands. -/
theorem slice?_append (front piece back : String) :
    slice? (front ++ (piece ++ back)) front.utf8ByteSize (front.utf8ByteSize + piece.utf8ByteSize) =
      some piece := by
  have hstart : (String.Pos.Raw.mk front.utf8ByteSize).IsValid (front ++ (piece ++ back)) :=
    String.Pos.Raw.isValid_iff_exists_append.2 ⟨front, piece ++ back, rfl, rfl⟩
  have hstop : (String.Pos.Raw.mk (front.utf8ByteSize + piece.utf8ByteSize)).IsValid
      (front ++ (piece ++ back)) := by
    refine String.Pos.Raw.isValid_iff_exists_append.2
      ⟨front ++ piece, back, (String.append_assoc).symm, ?_⟩
    rw [String.rawEndPos, String.utf8ByteSize_append]
  rw [slice?, dif_pos ⟨hstart, hstop, Nat.le_add_right _ _⟩]
  congr 1
  rw [← String.toByteArray_inj, String.toByteArray_extract, String.offset_pos, String.offset_pos,
    String.toByteArray_append, String.toByteArray_append]
  have hskip : (front.toByteArray ++ (piece.toByteArray ++ back.toByteArray)).extract
      (front.toByteArray.size + 0) (front.toByteArray.size + piece.toByteArray.size) =
        (piece.toByteArray ++ back.toByteArray).extract 0 piece.toByteArray.size :=
    ByteArray.extract_append_size_add
  exact hskip.trans (ByteArray.extract_append_eq_left rfl)

/-- A piece is cut out where it stands. -/
theorem slice?_ofList (front piece back : List Char) :
    slice? (String.ofList (front ++ (piece ++ back))) (utf8Length front)
      (utf8Length front + utf8Length piece) = some (String.ofList piece) := by
  have h := slice?_append (String.ofList front) (String.ofList piece) (String.ofList back)
  rwa [utf8ByteSize_ofList, utf8ByteSize_ofList, ← String.ofList_append,
    ← String.ofList_append] at h

/-! ## Tests on bytes -/

/-- Whether only ASCII characters pass a test. -/
def OnAscii (p : Char → Bool) : Prop := ∀ c, p c → c.toNat < 128

theorem onAscii_eq {d : Char} (hd : d.toNat < 128) : OnAscii (· == d) := by
  intro c hc
  obtain rfl := eq_of_beq hc
  exact hd

theorem OnAscii.or {p q : Char → Bool} (hp : OnAscii p) (hq : OnAscii q) :
    OnAscii fun c => p c || q c := by
  intro c hc
  rcases Bool.or_eq_true_iff.1 hc with hc | hc
  · exact hp c hc
  · exact hq c hc

theorem onAscii_of_le {p : Char → Bool} {d : Char} (hd : d.toNat < 128) (h : ∀ c, p c → c ≤ d) :
    OnAscii p :=
  fun c hc => Nat.lt_of_le_of_lt (UInt32.le_iff_toNat_le.1 (h c hc)) hd

theorem onAscii_isDigit : OnAscii Char.isDigit :=
  onAscii_of_le (d := '9') (by decide) fun _ hc => of_decide_eq_true (Bool.and_eq_true_iff.1 hc).2

theorem onAscii_isAlpha : OnAscii Char.isAlpha := by
  refine .or ?_ ?_
  · exact onAscii_of_le (d := 'Z') (by decide) fun _ hc => (of_decide_eq_true hc).2
  · exact onAscii_of_le (d := 'z') (by decide) fun _ hc =>
      of_decide_eq_true (Bool.and_eq_true_iff.1 hc).2

theorem onAscii_isBlank : OnAscii Lexeme.isBlank := by
  intro c hc
  simp only [Lexeme.isBlank, Bool.or_eq_true, decide_eq_true_eq] at hc
  rcases hc with (((rfl | rfl) | rfl) | rfl) | rfl <;> decide

theorem onAscii_isNameStart : OnAscii Lexeme.isNameStart :=
  onAscii_isAlpha.or (onAscii_eq (d := '_') (by decide))

theorem onAscii_isNamePart : OnAscii Lexeme.isNamePart :=
  (onAscii_isAlpha.or onAscii_isDigit).or (onAscii_eq (d := '_') (by decide))

theorem onAscii_isMantissa : OnAscii Lexeme.isMantissa :=
  onAscii_isDigit.or (onAscii_eq (d := '.') (by decide))

/-- An ASCII character is one byte. -/
theorem utf8EncodeChar_of_lt {c : Char} (hc : c.toNat < 128) :
    String.utf8EncodeChar c = [UInt8.ofNat c.toNat] :=
  if_pos (Nat.le_of_lt_succ hc)

theorem utf8Size_of_lt {c : Char} (hc : c.toNat < 128) : c.utf8Size = 1 := by
  rw [← String.length_utf8EncodeChar, utf8EncodeChar_of_lt hc]
  rfl

/-- Another character begins with a byte that is none of an ASCII character. -/
theorem exists_utf8EncodeChar_of_le {c : Char} (hc : 128 ≤ c.toNat) :
    ∃ b bs, String.utf8EncodeChar c = b :: bs ∧ ¬ b < 0x80 := by
  have hbyte : ∀ n m : Nat, 128 ≤ m → n + m < 256 → ¬ UInt8.ofNat (n + m) < 0x80 := by
    intro n m hm hlt hless
    have := UInt8.lt_iff_toNat_lt.1 hless
    rw [UInt8.toNat_ofNat', Nat.mod_eq_of_lt hlt] at this
    exact Nat.not_lt.2 (Nat.le_trans hm (Nat.le_add_left _ _)) this
  have h7f : ¬ c.val.toNat ≤ 0x7f := Nat.not_le.2 hc
  simp only [String.utf8EncodeChar, if_neg h7f]
  split
  · exact ⟨_, _, rfl, hbyte _ _ (by decide) (by omega)⟩
  split
  · exact ⟨_, _, rfl, hbyte _ _ (by decide) (by omega)⟩
  · exact ⟨_, _, rfl, hbyte _ _ (by decide) (by omega)⟩

/-- **The first byte of a character passes a test exactly if the character does**, and then it is
its only byte. -/
theorem ascii_head {p : Char → Bool} (hp : OnAscii p) {c : Char} {b : UInt8} {bs : List UInt8}
    (h : String.utf8EncodeChar c = b :: bs) : ascii p b = p c ∧ (p c → bs = []) := by
  rcases Nat.lt_or_ge c.toNat 128 with hc | hc
  · rw [utf8EncodeChar_of_lt hc] at h
    obtain ⟨rfl, rfl⟩ := List.cons.inj h
    have hnat : (UInt8.ofNat c.toNat).toNat = c.toNat := by
      rw [UInt8.toNat_ofNat']
      exact Nat.mod_eq_of_lt (Nat.lt_trans hc (by decide))
    have hless : UInt8.ofNat c.toNat < 0x80 := by
      rw [UInt8.lt_iff_toNat_lt, hnat]
      exact hc
    have hval : (UInt8.ofNat c.toNat).toUInt32 = c.val :=
      UInt32.toNat_inj.1 ((UInt8.toNat_toUInt32 _).trans hnat)
    have hchar : Char.ofUInt8 (UInt8.ofNat c.toNat) = c := Char.ext hval
    rw [ascii, decide_eq_true hless, hchar, Bool.true_and]
    exact ⟨rfl, fun _ => rfl⟩
  · obtain ⟨b', bs', h', hb⟩ := exists_utf8EncodeChar_of_le hc
    obtain ⟨rfl, rfl⟩ := List.cons.inj (h'.symm.trans h)
    have hnot : p c = false := Bool.eq_false_iff.2 fun hpc => Nat.not_lt.2 hc (hp c hpc)
    rw [ascii, decide_eq_false hb, hnot]
    exact ⟨rfl, fun hpc => absurd hpc Bool.false_ne_true⟩

/-- The bytes that pass a test in front are those of the characters that do. -/
theorem takeWhile_encode {p : Char → Bool} (hp : OnAscii p) (cs : List Char) :
    (encode cs).takeWhile (ascii p) = encode (cs.takeWhile p) := by
  induction cs with
  | nil => rfl
  | cons c cs ih =>
    obtain ⟨b, bs, h⟩ := List.exists_cons_of_ne_nil (String.utf8EncodeChar_ne_nil (c := c))
    obtain ⟨htest, htail⟩ := ascii_head hp h
    rw [encode_cons, h, List.cons_append]
    by_cases hc : p c
    · rw [List.takeWhile_cons_of_pos hc, List.takeWhile_cons_of_pos (htest.trans hc), htail hc,
        List.nil_append, ih, encode_cons, h, htail hc]
      rfl
    · rw [List.takeWhile_cons_of_neg hc, List.takeWhile_cons_of_neg fun hb => hc (htest ▸ hb)]
      rfl

/-- The first byte of a text passes a test exactly if its first character does. -/
theorem ascii_head_encode {p : Char → Bool} (hp : OnAscii p) {c : Char} {cs : List Char} {b : UInt8}
    {bs : List UInt8} (h : encode (c :: cs) = b :: bs) :
    ascii p b = p c ∧ (p c → bs = encode cs) := by
  obtain ⟨b', bs', hchar⟩ := List.exists_cons_of_ne_nil (String.utf8EncodeChar_ne_nil (c := c))
  obtain ⟨htest, htail⟩ := ascii_head hp hchar
  rw [encode_cons, hchar, List.cons_append] at h
  obtain ⟨rfl, rfl⟩ := List.cons.inj h
  exact ⟨htest, fun hc => by rw [htail hc, List.nil_append]⟩

theorem exists_encode_cons (c : Char) (cs : List Char) : ∃ b bs, encode (c :: cs) = b :: bs := by
  obtain ⟨b, bs, h⟩ := List.exists_cons_of_ne_nil (String.utf8EncodeChar_ne_nil (c := c))
  exact ⟨b, bs ++ encode cs, by rw [encode_cons, h, List.cons_append]⟩

theorem head?_encode {p : Char → Bool} (hp : OnAscii p) (cs : List Char) :
    (encode cs).head?.any (ascii p) = cs.head?.any p := by
  cases cs with
  | nil => rfl
  | cons c cs =>
    obtain ⟨b, bs, h⟩ := exists_encode_cons c cs
    rw [h]
    exact (ascii_head_encode hp h).1

theorem drop_encode {cs front back : List Char} (h : front ++ back = cs) :
    (encode cs).drop (utf8Length front) = encode back := by
  rw [← h, encode_append, ← length_encode, List.drop_left]

/-! ## Numbers -/

theorem signWidth_encode (cs : List Char) :
    signWidth (encode cs) = utf8Length (Lexeme.splitSign cs).1 := by
  cases cs with
  | nil => rfl
  | cons c cs =>
    obtain ⟨b, bs, h⟩ := exists_encode_cons c cs
    rw [h, signWidth, (ascii_head_encode (onAscii_eq (by decide)) h).1,
      (ascii_head_encode (onAscii_eq (by decide)) h).1, Lexeme.splitSign]
    by_cases hplus : c = '+'
    · subst hplus
      rfl
    by_cases hminus : c = '-'
    · subst hminus
      rfl
    · rw [if_neg (by simp [hplus, hminus]), if_neg (by simp [hplus, hminus])]
      rfl

theorem exponentWidth_encode (cs : List Char) :
    exponentWidth (encode cs) = utf8Length (Lexeme.splitExponent cs).1 := by
  cases cs with
  | nil => rfl
  | cons c cs =>
    obtain ⟨b, bs, h⟩ := exists_encode_cons c cs
    obtain ⟨hlower, hlowerTail⟩ := ascii_head_encode (onAscii_eq (d := 'e') (by decide)) h
    obtain ⟨hupper, hupperTail⟩ := ascii_head_encode (onAscii_eq (d := 'E') (by decide)) h
    rw [h, exponentWidth, hlower, hupper, Lexeme.splitExponent]
    by_cases hmark : c = 'e' ∨ c = 'E'
    · have htail : bs = encode cs := by
        rcases hmark with rfl | rfl
        · exact hlowerTail rfl
        · exact hupperTail rfl
      have hsize : c.utf8Size = 1 := by rcases hmark with rfl | rfl <;> rfl
      have hdigits : (bs.drop (signWidth bs)).takeWhile (ascii Char.isDigit) =
          encode ((Lexeme.splitSign cs).2.takeWhile Char.isDigit) := by
        rw [htail, signWidth_encode, drop_encode (Lexeme.splitSign_append cs),
          takeWhile_encode onAscii_isDigit]
      rw [if_pos (by simpa using hmark), if_pos hmark]
      dsimp only
      rw [hdigits, htail, signWidth_encode, length_encode, List.cons_append, utf8Length_cons,
        utf8Length_append, hsize, Nat.add_assoc]
    · rw [if_neg (by simpa using hmark), if_neg hmark]
      rfl

theorem numberWidth_encode (cs : List Char) :
    numberWidth (encode cs) = utf8Length (Lexeme.splitNumber cs).1 := by
  rw [numberWidth, takeWhile_encode onAscii_isMantissa, length_encode,
    drop_encode List.takeWhile_append_dropWhile, exponentWidth_encode, Lexeme.splitNumber,
    utf8Length_append]

/-! ## Symbols -/

/-- No builtin is spelled with two characters of which the first one begins no name. -/
theorem ofSpelling?_pair {c d : Char} (hc : ¬ Lexeme.isNameStart c) :
    Builtin.ofSpelling? (String.ofList [c, d]) = none := by
  have key : ∀ b ∈ Builtin.all, b.spelling.toList.length = 2 →
      b.spelling.toList.head?.all Lexeme.isNameStart := by decide
  refine Option.eq_none_iff_forall_ne_some.2 fun b hb => hc ?_
  have hspelling := Builtin.spelling_of_ofSpelling? hb
  have hstart := key b b.mem_all
  rw [hspelling, String.toList_ofList] at hstart
  exact hstart rfl

theorem slice?_front (front back : List Char) :
    slice? (String.ofList (front ++ back)) 0 (utf8Length front) = some (String.ofList front) := by
  have h := slice?_ofList [] front back
  rwa [utf8Length_nil, Nat.zero_add] at h

/-- **Two characters are never a symbol.** -/
theorem symbol_eq {c : Char} (hc : ¬ Lexeme.isNameStart c) (cs : List Char) :
    symbol (String.ofList (c :: cs)) =
      lift (.ok ((Builtin.ofSpelling? (String.ofList [c])).map (·, c.utf8Size))) := by
  have hone : slice? (String.ofList (c :: cs)) 0 c.utf8Size = some (String.ofList [c]) :=
    slice?_front [c] cs
  cases cs with
  | nil =>
    rw [symbol, String.toList_ofList]
    dsimp only
    rw [hone]
    rfl
  | cons d ds =>
    have htwo : slice? (String.ofList (c :: d :: ds)) 0 (c.utf8Size + d.utf8Size) =
        some (String.ofList [c, d]) := slice?_front [c, d] ds
    rw [symbol, String.toList_ofList]
    dsimp only
    rw [htwo]
    show (match Builtin.ofSpelling? (String.ofList [c, d]) with
      | some b => _
      | none => _) = _
    rw [ofSpelling?_pair hc, hone]
    rfl

/-- A symbol that is no sign in front of an operand is spelled in the table. -/
theorem ofSymbol?_of_not_sign {afterOperand : Bool} {c : Char}
    (h : ¬ (afterOperand = false ∧ (c = '-' ∨ c = '+'))) :
    Token.ofSymbol? afterOperand (String.ofList [c]) =
      (Builtin.ofSpelling? (String.ofList [c])).map .builtin := by
  have hchar : ∀ d : Char, String.ofList [c] = String.ofList [d] → c = d := fun d hd =>
    (List.cons.inj (String.ofList_injective hd)).1
  rw [Token.ofSymbol?, if_neg, if_neg]
  · intro hplus
    simp only [Bool.and_eq_true, Bool.not_eq_true', beq_iff_eq] at hplus
    exact h ⟨hplus.1, .inr (hchar '+' hplus.2)⟩
  · intro hminus
    simp only [Bool.and_eq_true, Bool.not_eq_true', beq_iff_eq] at hminus
    exact h ⟨hminus.1, .inl (hchar '-' hminus.2)⟩

/-! ## Steps -/

section Steps

variable {α β : Type}

theorem cut_some_bind (a : α) (f : α → Cutting β) : (cut (some a) >>= f) = f a := rfl

theorem lift_ok_bind (a : α) (f : α → Cutting β) : (lift (.ok a) >>= f) = f a := rfl

theorem lift_bind (x : Except Fault α) (f : α → Except Fault β) :
    lift (x >>= f) = lift x >>= fun a => lift (f a) := by
  cases x <;> rfl

end Steps

/-- What a step is to find at the text `c :: cs`: the meaning of its first piece. -/
def Found.next (env : Environment) (afterOperand : Bool) (start : Nat) (c : Char) (cs : List Char) :
    Except Fault Found :=
  let l := (Lexeme.next c cs).1
  (fun token? => ⟨token?, utf8Length l.chars, (token?.map Token.endsOperand).getD afterOperand⟩) <$>
    l.token? env afterOperand ⟨start, start + utf8Length l.chars⟩

section Step

variable {env : Environment} {afterOperand : Bool} {front : List Char} {c : Char} {cs : List Char}
  {b : UInt8} {bs : List UInt8}

/-- The piece in front is cut out. -/
theorem slice?_next (front : List Char) (c : Char) (cs : List Char) :
    slice? (String.ofList (front ++ c :: cs)) (utf8Length front)
      (utf8Length front + utf8Length (Lexeme.next c cs).1.chars) =
        some (Lexeme.next c cs).1.text := by
  have h := slice?_ofList front (Lexeme.next c cs).1.chars (Lexeme.next c cs).2
  rwa [Lexeme.next_append] at h

/-- A number begins at the bytes where it begins at the characters. -/
theorem startsNumber_encode (h : encode (c :: cs) = b :: bs) :
    (ascii Char.isDigit b || (ascii (· == '.') b && bs.head?.any (ascii Char.isDigit))) =
      Lexeme.startsNumber c cs := by
  obtain ⟨hpoint, htail⟩ := ascii_head_encode (onAscii_eq (d := '.') (by decide)) h
  rw [(ascii_head_encode onAscii_isDigit h).1, hpoint, Lexeme.startsNumber]
  by_cases hc : c = '.'
  · subst hc
    rw [htail rfl, head?_encode onAscii_isDigit]
    rfl
  · simp [hc]

/-- A number begins with a character of its digits and points. -/
theorem isMantissa_of_startsNumber (h : Lexeme.startsNumber c cs) : Lexeme.isMantissa c := by
  rcases Bool.or_eq_true_iff.1 h with hdigit | hpoint
  · rw [Lexeme.isMantissa, hdigit, Bool.true_or]
  · rw [Lexeme.isMantissa, (Bool.and_eq_true_iff.1 hpoint).1, Bool.or_true]

/-- The first piece is found where a number begins. -/
theorem number_eq (h : encode (c :: cs) = b :: bs) (hblank : ¬ Lexeme.isBlank c)
    (hnumber : Lexeme.startsNumber c cs) :
    number (String.ofList (front ++ c :: cs)) (utf8Length front) bs =
      lift (Found.next env afterOperand (utf8Length front) c cs) := by
  have hmantissa := isMantissa_of_startsNumber hnumber
  have hnext : Lexeme.next c cs =
      (⟨.number, c :: (Lexeme.splitNumber cs).1⟩, (Lexeme.splitNumber cs).2) := by
    rw [Lexeme.next, if_neg hblank, if_pos hnumber]
  have hwidth : 1 + numberWidth bs = utf8Length (c :: (Lexeme.splitNumber cs).1) := by
    rw [(ascii_head_encode onAscii_isMantissa h).2 hmantissa, numberWidth_encode, utf8Length_cons,
      utf8Size_of_lt (onAscii_isMantissa c hmantissa)]
  have hslice := slice?_next front c cs
  rw [hnext] at hslice
  rw [number, hwidth, hslice, cut_some_bind, Lexeme.text, String.toList_ofList, Found.next, hnext]
  dsimp only
  rw [Lexeme.token?]
  cases Lexeme.value? (c :: (Lexeme.splitNumber cs).1) <;> rfl

theorem ofName?_ne_opening (env : Environment) (name : String) :
    Token.ofName? env name ≠ some .opening := by
  unfold Token.ofName?
  split
  · simp
  · simp
  · simp

/-- The first piece is found where a name begins. -/
theorem name_eq (h : encode (c :: cs) = b :: bs) (hname : Lexeme.isNameStart c) :
    name (String.ofList (front ++ c :: cs)) env (utf8Length front) bs =
      lift (Found.next env afterOperand (utf8Length front) c cs) := by
  have hnext := Lexeme.next_of_isNameStart hname cs
  have hwidth : 1 + (bs.takeWhile (ascii Lexeme.isNamePart)).length =
      utf8Length (c :: cs.takeWhile Lexeme.isNamePart) := by
    rw [(ascii_head_encode onAscii_isNameStart h).2 hname, takeWhile_encode onAscii_isNamePart,
      length_encode, utf8Length_cons, utf8Size_of_lt (onAscii_isNameStart c hname)]
  have hslice := slice?_next front c cs
  rw [hnext] at hslice
  rw [name, hwidth, hslice, cut_some_bind, Found.next, hnext]
  dsimp only
  rw [Lexeme.token?]
  cases htoken : Token.ofName? env (Lexeme.text ⟨.name, c :: cs.takeWhile Lexeme.isNamePart⟩) with
  | none => rfl
  | some token =>
    cases token with
    | opening => exact absurd htoken (ofName?_ne_opening _ _)
    | _ => rfl

/-- The first piece is found where a symbol stands that is no sign in front of an operand. -/
theorem operator_eq (hnext : Lexeme.next c cs = (⟨.symbol, [c]⟩, cs))
    (hname : ¬ Lexeme.isNameStart c) (hsign : ¬ (afterOperand = false ∧ (c = '-' ∨ c = '+'))) :
    operator (String.ofList (front ++ c :: cs)) (utf8Length front) =
      lift (Found.next env afterOperand (utf8Length front) c cs) := by
  have hslice : slice? (String.ofList (front ++ c :: cs)) (utf8Length front)
      (String.ofList (front ++ c :: cs)).utf8ByteSize = some (String.ofList (c :: cs)) := by
    have h := slice?_ofList front (c :: cs) []
    rw [List.append_nil] at h
    rw [utf8ByteSize_ofList, utf8Length_append, h]
  rw [operator, hslice, cut_some_bind, symbol_eq hname, lift_ok_bind, Found.next, hnext,
    String.toList_ofList]
  dsimp only [List.headD_cons]
  rw [Lexeme.token?, Lexeme.text, ofSymbol?_of_not_sign hsign, String.singleton_eq_ofList]
  cases Builtin.ofSpelling? (String.ofList [c]) <;> rfl

/-- **A step finds the first piece.** -/
theorem step_eq (h : encode (c :: cs) = b :: bs) :
    step (String.ofList (front ++ c :: cs)) env afterOperand (utf8Length front) b bs =
      lift (Found.next env afterOperand (utf8Length front) c cs) := by
  have hhead : ∀ {p}, OnAscii p → ascii p b = p c := fun hp => (ascii_head_encode hp h).1
  rw [step, hhead onAscii_isBlank, startsNumber_encode h, hhead onAscii_isNameStart,
    hhead (onAscii_eq (by decide)), hhead (onAscii_eq (by decide)),
    hhead (onAscii_eq (by decide)), hhead (onAscii_eq (by decide))]
  by_cases hblank : Lexeme.isBlank c
  · have hwidth : utf8Length [c] = 1 := utf8Size_of_lt (onAscii_isBlank c hblank)
    rw [if_pos hblank, Found.next, Lexeme.next, if_pos hblank, hwidth]
    rfl
  rw [if_neg hblank]
  by_cases hnumber : Lexeme.startsNumber c cs
  · rw [if_pos hnumber, number_eq h hblank hnumber]
  rw [if_neg hnumber]
  by_cases hname : Lexeme.isNameStart c
  · rw [if_pos hname, name_eq h hname]
  rw [if_neg hname]
  by_cases hopening : c = '('
  · subst hopening
    rfl
  by_cases hclosing : c = ')'
  · subst hclosing
    rfl
  rw [if_neg (by simpa using hopening), if_neg (by simpa using hclosing)]
  by_cases hsign : afterOperand = false ∧ (c = '-' ∨ c = '+')
  · obtain ⟨rfl, rfl | rfl⟩ := hsign <;> rfl
  have hnext : Lexeme.next c cs = (⟨.symbol, [c]⟩, cs) := by
    rw [Lexeme.next, if_neg hblank, if_neg hnumber, if_neg hname, if_neg hopening, if_neg hclosing]
  rw [if_neg (by simpa using hsign), operator_eq hnext hname hsign]

end Step

/-! ## The scan -/

/-- The bytes behind a piece are those of the text behind it. -/
theorem drop_width {c : Char} {cs : List Char} {b : UInt8} {bs : List UInt8}
    (h : encode (c :: cs) = b :: bs) :
    bs.drop (utf8Length (Lexeme.next c cs).1.chars - 1) = encode (Lexeme.next c cs).2 := by
  have hdrop := drop_encode (Lexeme.next_append c cs)
  obtain ⟨n, hn⟩ := Nat.exists_eq_succ_of_ne_zero
    (Nat.pos_iff_ne_zero.1 (utf8Length_pos (Lexeme.next_chars_ne_nil c cs)))
  rw [h, hn] at hdrop
  rw [hn]
  exact hdrop

/-- **The scan of the bytes from a piece on finds the tokens of the pieces.** -/
theorem tokens_eq (env : Environment) (afterOperand : Bool) (front cs : List Char) :
    tokens (String.ofList (front ++ cs)) env afterOperand (utf8Length front) (encode cs) =
      lift (Lexeme.tokens env afterOperand (utf8Length front) (Lexeme.split cs)) := by
  fun_induction Lexeme.split cs generalizing front afterOperand with
  | case1 =>
    rw [encode_nil, tokens]
    rfl
  | case2 c cs ih =>
    obtain ⟨b, bs, h⟩ := exists_encode_cons c cs
    have hsource : front ++ c :: cs =
        front ++ (Lexeme.next c cs).1.chars ++ (Lexeme.next c cs).2 := by
      rw [List.append_assoc, Lexeme.next_append]
    have hlater := fun afterOperand => ih afterOperand (front ++ (Lexeme.next c cs).1.chars)
    rw [← hsource, utf8Length_append, ← drop_width h] at hlater
    rw [h, tokens, step_eq h, Found.next, Lexeme.tokens]
    cases (Lexeme.next c cs).1.token? env afterOperand
        ⟨utf8Length front, utf8Length front + utf8Length (Lexeme.next c cs).1.chars⟩ with
    | error f => rfl
    | ok token? =>
      show (tokens _ env ((token?.map Token.endsOperand).getD afterOperand) _ _ >>= _) = _
      dsimp only
      rw [hlater]
      cases token? with
      | none => exact bind_pure _
      | some token => exact (lift_bind _ _).symm

/-- **The bytes of a source are scanned without a cut inside of a character, and its tokens are
found.** -/
theorem tokenize_eq (source : String) (env : Environment) :
    tokenize source env = lift (Flipbook.Expr.tokenize source env) := by
  have h := tokens_eq env false [] source.toList
  rw [List.nil_append, String.ofList_toList] at h
  rw [tokenize, bytes_eq]
  exact h

end Bytewise

end Flipbook.Expr
