import Flipbook.Json.Reader
import Flipbook.Json.Writer
import Flipbook.Proofs.Number.Numerals

/-!
# Proofs/Json/ReadBack — documents read back

Reading undoes writing, part by part: an escaped string is read as its characters
(`Reader.string?_escape`), a numeral as the numeral, as long as no digit, point or exponent mark
follows it (`Reader.number?_chars`), and a value as the value (`Reader.readsBack`).  The length of a
text is fuel enough for reading it.  So every value whose numbers and strings can be written comes
back from its text (`Value.parse?_pretty`).
-/

namespace Flipbook.Json

namespace Reader

/-! ## Strings -/

theorem hexValue?_hexDigits {n : Nat} (h : n < 32) : hexValue? (hexDigits 4 n) = some n := by
  have key : ∀ n < 32, hexValue? (hexDigits 4 n) = some n := by decide
  exact key n h

theorem toNat_lt_of_lt {c : Char} (h : c < ' ') : c.toNat < 32 := UInt32.lt_iff_toNat_lt.1 h

theorem pieces?_escaped {e c : Char} (hu : e ≠ 'u') (he : escaped? e = some c) (rest : List Char) :
    pieces? ('\\' :: e :: rest)
      = (pieces? rest).map fun read => (.char c :: read.1, read.2) := by
  rw [pieces?, he]
  · cases pieces? rest <;> rfl
  · exact fun _ _ _ _ _ heq => absurd heq hu

theorem pieces?_unit {a b c d : Char} {n : Nat} (h : hexValue? [a, b, c, d] = some n)
    (rest : List Char) : pieces? ('\\' :: 'u' :: a :: b :: c :: d :: rest)
      = (pieces? rest).map fun read => (.unit n :: read.1, read.2) := by
  rw [pieces?, h]
  cases pieces? rest <;> rfl

theorem pieces?_plain {c : Char} (hquote : c ≠ '"') (hescape : c ≠ '\\') (hcontrol : ¬ c < ' ')
    (rest : List Char) :
    pieces? (c :: rest) = (pieces? rest).map fun read => (.char c :: read.1, read.2) := by
  rw [pieces?, if_neg hcontrol]
  · cases pieces? rest <;> rfl
  · exact hquote
  · exact fun _ _ _ _ _ heq => absurd heq hescape
  · exact fun _ _ heq => absurd heq hescape

/-- **An escaped character is read as one piece**, and the piece stands for the character. -/
theorem exists_piece (c : Char) : ∃ p, (∀ rest, pieces? (escape c ++ rest)
      = (pieces? rest).map fun read => (p :: read.1, read.2)) ∧
    ∀ ps, join? (p :: ps) = (c :: ·) <$> join? ps := by
  unfold escape
  -- the escapes of one letter
  iterate 7
    split
    · subst c
      exact ⟨.char _, pieces?_escaped (by decide) rfl, fun _ => rfl⟩
  split
  · rename_i hcontrol
    have hlt := toNat_lt_of_lt hcontrol
    have hhigh : isHigh c.toNat = false := by simp [isHigh]; omega
    have hlow : isLow c.toNat = false := by simp [isLow]; omega
    refine ⟨.unit c.toNat, pieces?_unit (hexValue?_hexDigits hlt), fun ps => ?_⟩
    rw [join?.eq_def]
    simp [hhigh, hlow]
  · rename_i hquote hescape _ _ _ _ _ hcontrol
    exact ⟨.char c, pieces?_plain hquote hescape hcontrol, fun _ => rfl⟩

/-- **A string reads back.** -/
theorem string?_escape (s : String) (rest : List Char) :
    string? (s.toList.flatMap escape ++ '"' :: rest) = some (some s, rest) := by
  have hpieces : ∀ cs : List Char, ∃ ps,
      pieces? (cs.flatMap escape ++ '"' :: rest) = some (ps, rest) ∧ join? ps = some cs := by
    intro cs
    induction cs with
    | nil => exact ⟨[], rfl, rfl⟩
    | cons c cs ih =>
      obtain ⟨ps, hps, hcs⟩ := ih
      obtain ⟨p, hread, hjoin⟩ := exists_piece c
      refine ⟨p :: ps, ?_, by rw [hjoin, hcs]; rfl⟩
      rw [List.flatMap_cons, List.append_assoc, hread, hps]
      rfl
  obtain ⟨ps, hps, hjoin⟩ := hpieces s.toList
  rw [string?, hps, Option.map_some]
  simp only [hjoin, Option.map_some, String.ofList_toList]

/-! ## Numbers -/

/-- Whether no number goes on in a text. -/
def EndsNumber (rest : List Char) : Prop :=
  ∀ c ∈ rest.head?, c.isDigit = false ∧ c ≠ '.' ∧ c ≠ 'e' ∧ c ≠ 'E'

theorem endsNumber_cons {c : Char} (hdigit : c.isDigit = false) (hpoint : c ≠ '.') (he : c ≠ 'e')
    (hE : c ≠ 'E') (rest : List Char) : EndsNumber (c :: rest) := by
  rintro _ ⟨⟩
  exact ⟨hdigit, hpoint, he, hE⟩

section Numbers

variable {ds rest : List Char} {n : Numeral}

/-- A run of digits is read up to its end. -/
theorem digits?_append (hne : ds ≠ []) (hds : ∀ c ∈ ds, c.isDigit)
    (hrest : ∀ c ∈ rest.head?, c.isDigit = false) : digits? (ds ++ rest) = some (ds, rest) := by
  have hend : rest.takeWhile Char.isDigit = [] ∧ rest.dropWhile Char.isDigit = rest := by
    cases rest with
    | nil => exact ⟨rfl, rfl⟩
    | cons c rest =>
      have hc := hrest c rfl
      rw [List.takeWhile_cons, List.dropWhile_cons, hc]
      exact ⟨rfl, rfl⟩
  have htake : (ds ++ rest).takeWhile Char.isDigit = ds := by
    rw [List.takeWhile_append_of_pos hds, hend.1, List.append_nil]
  have hdrop : (ds ++ rest).dropWhile Char.isDigit = rest := by
    rw [List.dropWhile_append_of_pos hds, hend.2]
  obtain ⟨d, ds, rfl⟩ := List.exists_cons_of_ne_nil hne
  rw [digits?, htake, hdrop]

theorem whole?_append (hn : n.IsWritten) (hrest : ∀ c ∈ rest.head?, c.isDigit = false) :
    whole? (n.whole ++ rest) = some (n.whole, rest) := by
  obtain ⟨hne, hdigits⟩ := hn.whole
  by_cases hzero : n.whole.head? = some '0'
  · rw [hn.leading hzero]
    rfl
  · have hread := digits?_append hne hdigits hrest
    obtain ⟨d, ds, hwhole⟩ := List.exists_cons_of_ne_nil hne
    rw [hwhole] at hread hzero ⊢
    rw [List.cons_append, whole?]
    · exact hread
    · exact fun _ heq => absurd (congrArg List.head? heq) hzero

/-- The point and the digits behind it. -/
def fractionText (n : Numeral) : List Char :=
  if n.fraction.isEmpty then [] else '.' :: n.fraction

/-- The mark, the sign and the digits of an exponent. -/
def exponentText (n : Numeral) : List Char :=
  match n.exponent with
  | none => []
  | some (down, digits) => 'e' :: (if down then '-' else '+') :: digits

theorem chars_eq (n : Numeral) : n.chars
    = (if n.negative then ['-'] else []) ++ (n.whole ++ (fractionText n ++ exponentText n)) := by
  obtain ⟨negative, whole, fraction, _ | ⟨down, digits⟩⟩ := n <;>
    simp [Numeral.chars, fractionText, exponentText]

theorem fraction?_append (hn : n.IsWritten)
    (hrest : ∀ c ∈ rest.head?, c.isDigit = false ∧ c ≠ '.') :
    fraction? (fractionText n ++ rest) = some (n.fraction, rest) := by
  cases hfraction : n.fraction with
  | nil =>
    rw [fractionText, hfraction]
    show fraction? rest = some ([], rest)
    rw [fraction?]
    exact fun _ heq => (hrest '.' (by rw [heq]; rfl)).2 rfl
  | cons d ds =>
    have hread := digits?_append (hfraction ▸ List.cons_ne_nil d ds) hn.fraction
      (fun c hc => (hrest c hc).1)
    rw [hfraction] at hread
    rw [fractionText, hfraction]
    exact hread

theorem exponent?_append (hn : n.IsWritten) (hrest : EndsNumber rest) :
    exponent? (exponentText n ++ rest) = some (n.exponent, rest) := by
  cases hexponent : n.exponent with
  | none =>
    rw [exponentText, hexponent]
    cases rest with
    | nil => rfl
    | cons c rest =>
      obtain ⟨-, -, he, hE⟩ := hrest c rfl
      rw [exponent?.eq_def]
      simp [he, hE]
  | some marked =>
    obtain ⟨down, digits⟩ := marked
    obtain ⟨hne, hdigits⟩ := hn.exponent down digits hexponent
    have hread := digits?_append hne hdigits fun c hc => (hrest c hc).1
    rw [exponentText, hexponent]
    cases down <;> simp [exponent?, hread]

/-- What follows the digits before an exponent. -/
theorem head?_exponentText (hrest : EndsNumber rest) :
    ∀ c ∈ (exponentText n ++ rest).head?, c.isDigit = false ∧ c ≠ '.' := by
  unfold exponentText
  split
  · exact fun c hc => ⟨(hrest c hc).1, (hrest c hc).2.1⟩
  · rintro _ ⟨⟩
    exact ⟨rfl, by decide⟩

/-- What follows the digits before the point. -/
theorem head?_fractionText (hrest : EndsNumber rest) :
    ∀ c ∈ (fractionText n ++ (exponentText n ++ rest)).head?, c.isDigit = false := by
  unfold fractionText
  split
  · exact fun c hc => (head?_exponentText hrest c hc).1
  · rintro _ ⟨⟩
    rfl

theorem magnitude?_append (hn : n.IsWritten) (hrest : EndsNumber rest) :
    magnitude? n.negative (n.whole ++ (fractionText n ++ (exponentText n ++ rest)))
      = some (n, rest) := by
  rw [magnitude?, whole?_append hn (head?_fractionText hrest)]
  simp only [Option.bind_eq_bind, Option.bind_some]
  rw [fraction?_append hn (head?_exponentText hrest)]
  simp only [Option.bind_some]
  rw [exponent?_append hn hrest]
  rfl

/-- **A numeral reads back**, if no number goes on behind it. -/
theorem number?_chars (hn : n.IsWritten) (hrest : EndsNumber rest) :
    number? (n.chars ++ rest) = some (n, rest) := by
  have hmagnitude := magnitude?_append hn hrest
  rw [chars_eq, List.append_assoc, List.append_assoc, List.append_assoc]
  cases hnegative : n.negative with
  | true =>
    rw [hnegative] at hmagnitude
    exact hmagnitude
  | false =>
    rw [hnegative] at hmagnitude
    obtain ⟨hne, hdigits⟩ := hn.whole
    obtain ⟨d, ds, hwhole⟩ := List.exists_cons_of_ne_nil hne
    have hd : d ≠ '-' := by
      rintro rfl
      exact absurd (hdigits '-' (by simp [hwhole])) (by decide)
    rw [hwhole] at hmagnitude ⊢
    show number? (d :: _) = _
    rw [number?]
    · exact hmagnitude
    · exact fun _ heq => hd (List.cons.inj heq).1

end Numbers

/-! ## Values -/

section Skipping

variable {fuel : Nat} {cs : List Char}

theorem skip_of_not_blank {c : Char} (h : isBlank c = false) (cs : List Char) :
    skip (c :: cs) = c :: cs := by
  rw [skip, List.dropWhile_cons, h]
  rfl

theorem skip_newline (level : Nat) (cs : List Char) :
    skip ((Value.newline level).toList ++ cs) = skip cs := by
  rw [Value.newline, String.toList_ofList, skip, skip, List.dropWhile_append_of_pos]
  simp [isBlank]

theorem skip_skip (cs : List Char) : skip (skip cs) = skip cs := by
  induction cs with
  | nil => rfl
  | cons c cs ih =>
    cases hc : isBlank c with
    | true =>
      have hskip : skip (c :: cs) = skip cs := by
        rw [skip, List.dropWhile_cons_of_pos hc]
        rfl
      rw [hskip, ih]
    | false => rw [skip_of_not_blank hc, skip_of_not_blank hc]

/-- White space in front of a value does not matter. -/
theorem value?_skip (fuel : Nat) (cs : List Char) : value? fuel (skip cs) = value? fuel cs := by
  cases fuel with
  | zero => rfl
  | succ fuel => simp only [value?, skip_skip]

theorem items?_skip (fuel : Nat) (cs : List Char) : items? fuel (skip cs) = items? fuel cs := by
  cases fuel with
  | zero => rfl
  | succ fuel => simp only [items?, value?_skip]

theorem fields?_skip (fuel : Nat) (cs : List Char) : fields? fuel (skip cs) = fields? fuel cs := by
  cases fuel with
  | zero => rfl
  | succ fuel => simp only [fields?, skip_skip]

theorem value?_newline (fuel level : Nat) (cs : List Char) :
    value? fuel ((Value.newline level).toList ++ cs) = value? fuel cs := by
  rw [← value?_skip, skip_newline, value?_skip]

/-- An array that is not empty. -/
theorem value?_array (h : ∀ cs', skip cs ≠ ']' :: cs') : value? (fuel + 1) ('[' :: cs)
    = (items? fuel cs).map fun read => (.array read.1, read.2) := by
  rw [value?, skip_of_not_blank rfl]
  simp only
  rw [items?_skip]

/-- An object that is not empty. -/
theorem value?_object (h : ∀ cs', skip cs ≠ '\x7d' :: cs') : value? (fuel + 1) ('\x7b' :: cs)
    = (fields? fuel cs).map fun read => (.object read.1, read.2) := by
  rw [value?, skip_of_not_blank rfl]
  simp only
  rw [fields?_skip]

theorem value?_string : value? (fuel + 1) ('"' :: cs)
    = (string? cs).map fun read => (.string read.1, read.2) := by
  rw [value?, skip_of_not_blank rfl]
  rfl

theorem isBlank_eq_false {c : Char} (h : c = '-' ∨ c.isDigit) : isBlank c = false := by
  rw [Bool.eq_false_iff]
  intro hblank
  simp only [isBlank, Bool.or_eq_true, decide_eq_true_eq] at hblank
  rcases hblank with ((rfl | rfl) | rfl) | rfl <;> simp at h

/-- A number begins with a sign or a digit. -/
theorem value?_number {c : Char} (h : c = '-' ∨ c.isDigit) : value? (fuel + 1) (c :: cs)
    = (number? (c :: cs)).map fun read => (.number read.1, read.2) := by
  rw [value?, skip_of_not_blank (isBlank_eq_false h)]
  split <;> simp_all

end Skipping

end Reader

namespace Value

mutual

/-- Whether every string has a text and every number the form of one. -/
def IsWritten : Value → Prop
  | null | bool _ => True
  | number n => n.IsWritten
  | string text => text.isSome
  | array items => AreWritten items
  | object fields => AreFieldsWritten fields

/-- `IsWritten` for each item. -/
def AreWritten : List Value → Prop
  | [] => True
  | v :: vs => IsWritten v ∧ AreWritten vs

/-- `IsWritten` for each value, and a text for each name. -/
def AreFieldsWritten : List (Option String × Value) → Prop
  | [] => True
  | (name, v) :: fs => name.isSome ∧ IsWritten v ∧ AreFieldsWritten fs

end

/-- A numeral begins with its sign or a digit. -/
theorem exists_chars_eq {n : Numeral} (h : n.IsWritten) :
    ∃ c cs, n.chars = c :: cs ∧ (c = '-' ∨ c.isDigit) := by
  obtain ⟨hne, hdigits⟩ := h.whole
  obtain ⟨d, ds, hwhole⟩ := List.exists_cons_of_ne_nil hne
  rw [Reader.chars_eq]
  cases n.negative with
  | true => exact ⟨'-', _, rfl, .inl rfl⟩
  | false => exact ⟨d, _, by rw [hwhole]; rfl, .inr (hdigits d (by simp [hwhole]))⟩

/-! ### The texts of values -/

section Texts

variable {level : Nat} {text : Option String} {v : Value} {vs : List Value}
  {f : Option String × Value} {fs : List (Option String × Value)}

theorem toList_stringText (text : Option String) :
    (stringText text).toList = '"' :: ((text.getD "").toList.flatMap escape ++ ['"']) := by
  rw [stringText, quoted, String.toList_ofList]
  rfl

theorem toList_prettyAt_array : (prettyAt level (.array (v :: vs))).toList
    = '[' :: ((prettyItems (level + 1) (v :: vs)).toList ++ ((newline level).toList ++ [']'])) := by
  simp [prettyAt]

theorem toList_prettyAt_object : (prettyAt level (.object (f :: fs))).toList
    = '\x7b' :: ((prettyFields (level + 1) (f :: fs)).toList ++
      ((newline level).toList ++ ['\x7d'])) := by
  simp [prettyAt]

theorem toList_prettyItems_cons (w : Value) : (prettyItems level (v :: w :: vs)).toList
    = (newline level).toList ++ ((prettyAt level v).toList ++
      ',' :: (prettyItems level (w :: vs)).toList) := by
  simp [prettyItems]

theorem toList_prettyItems_singleton : (prettyItems level [v]).toList
    = (newline level).toList ++ (prettyAt level v).toList := by
  simp [prettyItems]

theorem toList_prettyFields_cons (name : Option String) (g : Option String × Value) :
    (prettyFields level ((name, v) :: g :: fs)).toList
      = (newline level).toList ++ ((stringText name).toList ++ ':' :: ' ' ::
        ((prettyAt level v).toList ++ ',' :: (prettyFields level (g :: fs)).toList)) := by
  simp [prettyFields]

theorem toList_prettyFields_singleton (name : Option String) :
    (prettyFields level [(name, v)]).toList = (newline level).toList ++
      ((stringText name).toList ++ ':' :: ' ' :: (prettyAt level v).toList) := by
  simp [prettyFields]

/-- No text of a value begins with white space or closes an array. -/
theorem exists_prettyAt_eq (h : v.IsWritten) (level : Nat) :
    ∃ c cs, (v.prettyAt level).toList = c :: cs ∧ Reader.isBlank c = false ∧ c ≠ ']' := by
  cases v with
  | null => exact ⟨'n', _, by rw [prettyAt]; rfl, rfl, by decide⟩
  | bool b =>
    cases b with
    | true => exact ⟨'t', _, by rw [prettyAt]; rfl, rfl, by decide⟩
    | false => exact ⟨'f', _, by rw [prettyAt]; rfl, rfl, by decide⟩
  | number n =>
    obtain ⟨c, cs, hchars, hc⟩ := exists_chars_eq h
    refine ⟨c, cs, by rw [prettyAt, String.toList_ofList, hchars], Reader.isBlank_eq_false hc, ?_⟩
    rintro rfl
    simp at hc
  | string text => exact ⟨'"', _, toList_stringText text, rfl, by decide⟩
  | array items =>
    cases items with
    | nil => exact ⟨'[', _, by rw [prettyAt]; rfl, rfl, by decide⟩
    | cons v vs => exact ⟨'[', _, toList_prettyAt_array, rfl, by decide⟩
  | object fields =>
    cases fields with
    | nil => exact ⟨'\x7b', _, by rw [prettyAt]; rfl, rfl, by decide⟩
    | cons f fs => exact ⟨'\x7b', _, toList_prettyAt_object, rfl, by decide⟩

/-- Items do not look like the end of an array. -/
theorem skip_prettyItems_ne (hv : v.IsWritten) (rest cs : List Char) :
    Reader.skip ((prettyItems level (v :: vs)).toList ++ rest) ≠ ']' :: cs := by
  obtain ⟨c, ds, htext, hblank, hc⟩ := exists_prettyAt_eq hv level
  have hfirst : ∃ back, (prettyItems level (v :: vs)).toList
      = (newline level).toList ++ ((prettyAt level v).toList ++ back) := by
    cases vs with
    | nil => exact ⟨[], by rw [toList_prettyItems_singleton, List.append_nil]⟩
    | cons w vs => exact ⟨_, toList_prettyItems_cons w⟩
  obtain ⟨back, hback⟩ := hfirst
  rw [hback, htext, List.append_assoc, Reader.skip_newline, List.append_assoc, List.cons_append,
    Reader.skip_of_not_blank hblank]
  exact fun heq => hc (List.cons.inj heq).1

/-- Fields do not look like the end of an object. -/
theorem skip_prettyFields_ne (rest cs : List Char) :
    Reader.skip ((prettyFields level (f :: fs)).toList ++ rest) ≠ '\x7d' :: cs := by
  obtain ⟨name, v⟩ := f
  have hfirst : ∃ back, (prettyFields level ((name, v) :: fs)).toList
      = (newline level).toList ++ '"' :: back := by
    cases fs with
    | nil => exact ⟨_, by rw [toList_prettyFields_singleton, toList_stringText, List.cons_append]⟩
    | cons g fs => exact ⟨_, by rw [toList_prettyFields_cons, toList_stringText, List.cons_append]⟩
  obtain ⟨back, hback⟩ := hfirst
  rw [hback, List.append_assoc, Reader.skip_newline, List.cons_append,
    Reader.skip_of_not_blank rfl]
  exact fun heq => absurd (List.cons.inj heq).1 (by decide)

theorem length_newline (level : Nat) : (newline level).toList.length = 2 * level + 1 := by
  simp [newline]

end Texts

end Value

/-! ### Reading values -/

namespace Reader

open Value

variable {level outer fuel : Nat} {rest : List Char} {v : Value} {vs : List Value}
  {name : Option String} {fs : List (Option String × Value)}

theorem endsNumber_newline (level : Nat) (rest : List Char) :
    EndsNumber ((newline level).toList ++ rest) := by
  rw [newline, String.toList_ofList]
  exact endsNumber_cons (by decide) (by decide) (by decide) (by decide) _

/-- What is read back with some fuel: values, and the items and fields of arrays and objects with
what closes them, wherever their text is no longer than the fuel. -/
structure ReadsBack (fuel : Nat) : Prop where
  value : ∀ v level rest, v.IsWritten → (prettyAt level v).toList.length ≤ fuel →
    EndsNumber rest → value? fuel ((prettyAt level v).toList ++ rest) = some (v, rest)
  items : ∀ v vs level outer rest, v.IsWritten → AreWritten vs →
    (prettyItems level (v :: vs)).toList.length ≤ fuel →
    items? fuel ((prettyItems level (v :: vs)).toList ++ ((newline outer).toList ++ ']' :: rest))
      = some (v :: vs, rest)
  fields : ∀ f fs level outer rest, AreFieldsWritten (f :: fs) →
    (prettyFields level (f :: fs)).toList.length ≤ fuel →
    fields? fuel
      ((prettyFields level (f :: fs)).toList ++ ((newline outer).toList ++ '\x7d' :: rest))
      = some (f :: fs, rest)

/-- A value with one unit of fuel more. -/
theorem ReadsBack.value_succ (h : ReadsBack fuel) (hv : v.IsWritten)
    (hfuel : (prettyAt level v).toList.length ≤ fuel + 1) (hrest : EndsNumber rest) :
    value? (fuel + 1) ((prettyAt level v).toList ++ rest) = some (v, rest) := by
  cases v with
  | null =>
    rw [prettyAt, value?]
    rfl
  | bool b =>
    cases b <;>
    · rw [prettyAt, value?]
      rfl
  | number n =>
    obtain ⟨c, cs, hchars, hc⟩ := exists_chars_eq hv
    have hread := number?_chars hv hrest
    rw [hchars, List.cons_append] at hread
    rw [prettyAt, String.toList_ofList, hchars, List.cons_append, value?_number hc, hread]
    rfl
  | string text =>
    obtain ⟨text, rfl⟩ := Option.isSome_iff_exists.1 hv
    have hread := string?_escape text rest
    rw [prettyAt, toList_stringText, List.cons_append, List.append_assoc, value?_string]
    rw [Option.getD_some, List.singleton_append, hread]
    rfl
  | array items =>
    cases items with
    | nil =>
      rw [prettyAt, value?]
      rfl
    | cons v vs =>
      obtain ⟨hv, hvs⟩ := hv
      rw [toList_prettyAt_array] at hfuel ⊢
      rw [List.cons_append, List.append_assoc, List.append_assoc, List.singleton_append,
        value?_array, h.items v vs (level + 1) level rest hv hvs]
      · rfl
      · simp only [List.length_cons, List.length_append] at hfuel
        omega
      · exact skip_prettyItems_ne hv _
  | object fields =>
    cases fields with
    | nil =>
      rw [prettyAt, value?]
      rfl
    | cons f fs =>
      rw [toList_prettyAt_object] at hfuel ⊢
      rw [List.cons_append, List.append_assoc, List.append_assoc, List.singleton_append,
        value?_object, h.fields f fs (level + 1) level rest hv]
      · rfl
      · simp only [List.length_cons, List.length_append] at hfuel
        omega
      · exact skip_prettyFields_ne _

/-- Items with one unit of fuel more. -/
theorem ReadsBack.items_succ (h : ReadsBack fuel) (hv : v.IsWritten) (hvs : AreWritten vs)
    (hfuel : (prettyItems level (v :: vs)).toList.length ≤ fuel + 1) :
    items? (fuel + 1) ((prettyItems level (v :: vs)).toList ++
      ((newline outer).toList ++ ']' :: rest)) = some (v :: vs, rest) := by
  cases vs with
  | nil =>
    rw [toList_prettyItems_singleton] at hfuel ⊢
    rw [List.length_append, length_newline] at hfuel
    have hread := h.value v level ((newline outer).toList ++ ']' :: rest) hv (by omega)
      (endsNumber_newline outer _)
    rw [List.append_assoc, items?, value?_newline, hread]
    simp only [Option.bind_eq_bind, Option.bind_some, skip_newline]
    rw [skip_of_not_blank rfl]
    rfl
  | cons w vs =>
    obtain ⟨hw, hvs⟩ := hvs
    rw [toList_prettyItems_cons] at hfuel ⊢
    rw [List.length_append, length_newline, List.length_append, List.length_cons] at hfuel
    have hread := h.value v level (',' :: ((prettyItems level (w :: vs)).toList ++
      ((newline outer).toList ++ ']' :: rest))) hv (by omega)
      (endsNumber_cons (by decide) (by decide) (by decide) (by decide) _)
    rw [List.append_assoc, List.append_assoc, List.cons_append, items?, value?_newline, hread]
    simp only [Option.bind_eq_bind, Option.bind_some]
    rw [skip_of_not_blank rfl]
    simp only
    rw [h.items w vs level outer rest hw hvs (by omega)]
    rfl

/-- A field with the name and the colon in front of its value. -/
theorem fields?_name {cs : List Char} (name : String) : fields? (fuel + 1)
      ((newline level).toList ++ ((stringText (some name)).toList ++ ':' :: ' ' :: cs))
    = (value? fuel cs).bind fun read =>
      match skip read.2 with
      | ',' :: rest => (fields? fuel rest).map fun more => ((some name, read.1) :: more.1, more.2)
      | '\x7d' :: rest => some ([(some name, read.1)], rest)
      | _ => none := by
  have hblank : value? fuel (' ' :: cs) = value? fuel cs := by
    rw [← value?_skip, ← value?_skip fuel cs]
    rfl
  rw [fields?, skip_newline, toList_stringText, List.cons_append, skip_of_not_blank rfl,
    List.append_assoc, List.singleton_append]
  simp only [Option.getD_some, string?_escape, Option.bind_eq_bind, Option.bind_some]
  rw [skip_of_not_blank rfl]
  simp only [hblank]
  rfl

/-- Fields with one unit of fuel more. -/
theorem ReadsBack.fields_succ {f : Option String × Value} (h : ReadsBack fuel)
    (hfs : AreFieldsWritten (f :: fs))
    (hfuel : (prettyFields level (f :: fs)).toList.length ≤ fuel + 1) :
    fields? (fuel + 1) ((prettyFields level (f :: fs)).toList ++
      ((newline outer).toList ++ '\x7d' :: rest)) = some (f :: fs, rest) := by
  obtain ⟨name, v⟩ := f
  obtain ⟨hname, hv, hfs⟩ := hfs
  obtain ⟨name, rfl⟩ := Option.isSome_iff_exists.1 hname
  cases fs with
  | nil =>
    rw [toList_prettyFields_singleton] at hfuel ⊢
    simp only [List.length_append, length_newline, List.length_cons] at hfuel
    have hread := h.value v level ((newline outer).toList ++ '\x7d' :: rest) hv (by omega)
      (endsNumber_newline outer _)
    simp only [List.append_assoc, List.cons_append]
    rw [fields?_name, hread]
    simp only [Option.bind_some, skip_newline]
    rw [skip_of_not_blank rfl]
    rfl
  | cons g fs =>
    rw [toList_prettyFields_cons] at hfuel ⊢
    simp only [List.length_append, length_newline, List.length_cons] at hfuel
    have hread := h.value v level (',' :: ((prettyFields level (g :: fs)).toList ++
      ((newline outer).toList ++ '\x7d' :: rest))) hv (by omega)
      (endsNumber_cons (by decide) (by decide) (by decide) (by decide) _)
    simp only [List.append_assoc, List.cons_append]
    rw [fields?_name, hread]
    simp only [Option.bind_some]
    rw [skip_of_not_blank rfl]
    simp only
    rw [h.fields g fs level outer rest hfs (by omega)]
    rfl

/-- **Everything reads back with the length of its text as fuel.** -/
theorem readsBack (fuel : Nat) : ReadsBack fuel := by
  induction fuel with
  | zero =>
    refine ⟨fun v level rest hv hfuel => ?_, fun v vs level outer rest hv hvs hfuel => ?_,
      fun f fs level outer rest hfs hfuel => ?_⟩
    · obtain ⟨c, cs, htext, -⟩ := exists_prettyAt_eq hv level
      simp [htext] at hfuel
    · cases vs with
      | nil => simp [toList_prettyItems_singleton, newline] at hfuel
      | cons w vs => simp [toList_prettyItems_cons, newline] at hfuel
    · obtain ⟨name, v⟩ := f
      cases fs with
      | nil => simp [toList_prettyFields_singleton, newline] at hfuel
      | cons g fs => simp [toList_prettyFields_cons, newline] at hfuel
  | succ fuel ih =>
    exact ⟨fun v level rest => ih.value_succ, fun v vs level outer rest => ih.items_succ,
      fun f fs level outer rest => ih.fields_succ⟩

end Reader

/-- **A value that can be written comes back from its text.** -/
theorem Value.parse?_pretty {v : Value} (h : v.IsWritten) : Value.parse? v.pretty = some v := by
  have hfuel : v.pretty.toList.length ≤ 2 * v.pretty.length + 2 := by
    rw [String.length_toList]
    omega
  have hread : Reader.value? (2 * v.pretty.length + 2) v.pretty.toList = some (v, []) := by
    rw [← List.append_nil v.pretty.toList]
    exact (Reader.readsBack _).value v 0 [] h hfuel nofun
  rw [parse?, hread]
  rfl

end Flipbook.Json
