import Flipbook.Proofs.Expr.Arrangement

/-!
# Proofs/Expr/Yield — how well-formed parts of a source are arranged

Closed parentheses leave their builtins waiting, so the arrangement of a part is not complete when
its last token is read.  `Becomes entry exit part items` says what is true then: what has left and
what still waits make up `items`, and everything that waits reaches the precedence `exit` on the
current level, so it leaves when a builtin of at most that precedence arrives.  It holds in every
context in which nothing that waits reaches the precedence `entry`.

The parts of infix notation keep this form: `Yields.literal`, `Yields.load`, `Yields.before`,
`Yields.between` and `Yields.parenthesized` carry along whatever is true of a part and its entries.
`Arranges` carries the entries without their places.
-/

namespace Flipbook.Expr

/-- Whether a waiting builtin stands deeper than `level`, or on it with at least a precedence. -/
def Waiting.Reaches (w : Waiting) (level precedence : Nat) : Prop :=
  level < w.level ∨ (level = w.level ∧ precedence ≤ w.builtin.precedence)

theorem Waiting.binds_iff {w : Waiting} {level : Nat} {b : Builtin} :
    w.binds level b ↔ w.Reaches level b.precedence := by
  simp [binds, Reaches]

theorem Waiting.Reaches.mono {w : Waiting} {level high low : Nat} (h : w.Reaches level high)
    (hle : low ≤ high) : w.Reaches level low :=
  h.imp_right fun ⟨hlevel, hprec⟩ => ⟨hlevel, Nat.le_trans hle hprec⟩

namespace Postfix

/-! ## One token at a time -/

section Tokens

variable {opened : List Span} {waiting : List Waiting} {t : Located Token}
  (ts : List (Located Token))

theorem arrangeFrom_number {value : Single} (h : t.value = .number value) :
    arrangeFrom opened waiting (t :: ts)
      = ([⟨.literal value, t.span⟩] ++ ·) <$> arrangeFrom opened waiting ts := by
  rw [arrangeFrom.eq_def]
  simp only [h]
  rfl

theorem arrangeFrom_variable {index : Nat} (h : t.value = .variable index) :
    arrangeFrom opened waiting (t :: ts)
      = ([⟨.variable index, t.span⟩] ++ ·) <$> arrangeFrom opened waiting ts := by
  rw [arrangeFrom.eq_def]
  simp only [h]
  rfl

theorem arrangeFrom_opening (h : t.value = .opening) :
    arrangeFrom opened waiting (t :: ts) = arrangeFrom (t.span :: opened) waiting ts := by
  rw [arrangeFrom.eq_def]
  simp only [h]

theorem arrangeFrom_closing {span : Span} (h : t.value = .closing) :
    arrangeFrom (span :: opened) waiting (t :: ts) = arrangeFrom opened waiting ts := by
  rw [arrangeFrom.eq_def]
  simp only [h]

theorem arrangeFrom_builtin {b : Builtin} {leaving staying : List Waiting}
    (h : t.value = .builtin b) (hrelease : release opened.length b waiting = (leaving, staying)) :
    arrangeFrom opened waiting (t :: ts)
      = (leaving.map Waiting.item ++ ·) <$>
        arrangeFrom opened (⟨opened.length, b, t.span⟩ :: staying) ts := by
  rw [arrangeFrom.eq_def]
  simp only [h, hrelease]

end Tokens

/-- A builtin between operands releases what reaches its precedence, and nothing below that. -/
theorem release_between {level : Nat} {b : Builtin} {pending waiting : List Waiting}
    (hb : b.fixity = .between) (hpending : ∀ w ∈ pending, w.Reaches level b.precedence)
    (hwaiting : ∀ w ∈ waiting.head?, ¬ w.Reaches level b.precedence) :
    release level b (pending ++ waiting) = (pending, waiting) := by
  have hleave : ∀ w ∈ pending, w.binds level b := fun w hw => Waiting.binds_iff.2 (hpending w hw)
  have hstay : waiting.takeWhile (fun w => w.binds level b) = [] ∧
      waiting.dropWhile (fun w => w.binds level b) = waiting := by
    cases waiting with
    | nil => exact ⟨rfl, rfl⟩
    | cons w ws =>
      have hw : ¬ w.binds level b := fun h => hwaiting w rfl (Waiting.binds_iff.1 h)
      exact ⟨List.takeWhile_cons_of_neg hw, List.dropWhile_cons_of_neg hw⟩
  simp only [release, hb]
  rw [List.span_eq_takeWhile_dropWhile, List.takeWhile_append_of_pos hleave,
    List.dropWhile_append_of_pos hleave, hstay.1, hstay.2, List.append_nil]

/-- Two pieces of an arrangement that leave one after the other. -/
theorem append_map_append_map (xs ys : Postfix) (rest : Except Fault Postfix) :
    (xs ++ ·) <$> ((ys ++ ·) <$> rest) = ((xs ++ ys) ++ ·) <$> rest := by
  cases rest with
  | error e => rfl
  | ok out => exact congrArg Except.ok (List.append_assoc xs ys out).symm

/-! ## Parts of a source -/

/-- Whether a part of a source is arranged as `items`, where nothing that waits before it reaches
`entry` on its level, and everything that waits behind it reaches `exit`. -/
def Becomes (entry exit : Nat) (part : List (Located Token)) (items : Postfix) : Prop :=
  ∀ (rest : List (Located Token)) (opened : List Span) (waiting : List Waiting),
    (∀ w ∈ waiting.head?, ¬ w.Reaches opened.length entry) →
    ∃ (out : Postfix) (pending : List Waiting),
      arrangeFrom opened waiting (part ++ rest)
        = (out ++ ·) <$> arrangeFrom opened (pending ++ waiting) rest ∧
      out ++ pending.map Waiting.item = items ∧
      ∀ w ∈ pending, w.Reaches opened.length exit

/-- Whether `ts`, wherever they are written, are arranged so that `Q` is true of the part and its
entries. -/
def Yields (Q : List (Located Token) → Postfix → Prop) (entry exit : Nat) (ts : List Token) :
    Prop :=
  ∀ part : List (Located Token), part.map Located.value = ts →
    ∃ items, Becomes entry exit part items ∧ Q part items

namespace Yields

variable {Q Q' Q'' : List (Located Token) → Postfix → Prop} {entry exit entry' exit' : Nat}
  {ts ts' : List Token}

/-- A part is also arranged where less may wait before it, and more behind it. -/
theorem weaken (h : Yields Q entry exit ts) (hentry : entry' ≤ entry) (hexit : exit' ≤ exit) :
    Yields Q entry' exit' ts := by
  intro part hpart
  obtain ⟨items, hitems, hQ⟩ := h part hpart
  refine ⟨items, fun rest opened waiting hwaiting => ?_, hQ⟩
  have hless : ∀ w ∈ waiting.head?, ¬ w.Reaches opened.length entry :=
    fun w hw hreaches => hwaiting w hw (hreaches.mono hentry)
  obtain ⟨out, pending, harrange, hsplit, hpending⟩ := hitems rest opened waiting hless
  exact ⟨out, pending, harrange, hsplit, fun w hw => (hpending w hw).mono hexit⟩

theorem literal (entry exit : Nat) {value : Single}
    (hQ : ∀ span, Q [⟨.number value, span⟩] [⟨.literal value, span⟩]) :
    Yields Q entry exit [.number value] := by
  intro part hpart
  obtain ⟨⟨_, span⟩, rfl, rfl⟩ := List.map_eq_singleton_iff.1 hpart
  refine ⟨_, fun rest opened waiting _ => ?_, hQ span⟩
  exact ⟨[⟨.literal value, span⟩], [], arrangeFrom_number rest rfl, rfl, by simp⟩

theorem load (entry exit : Nat) {index : Nat}
    (hQ : ∀ span, Q [⟨.variable index, span⟩] [⟨.variable index, span⟩]) :
    Yields Q entry exit [.variable index] := by
  intro part hpart
  obtain ⟨⟨_, span⟩, rfl, rfl⟩ := List.map_eq_singleton_iff.1 hpart
  refine ⟨_, fun rest opened waiting _ => ?_, hQ span⟩
  exact ⟨[⟨.variable index, span⟩], [], arrangeFrom_variable rest rfl, rfl, by simp⟩

/-- **A builtin before an operand** waits until the operand has ended. -/
theorem before {b : Builtin} (hb : b.fixity = .before) (hentry : b.precedence < entry)
    (hexit : exit ≤ b.precedence) (h : Yields Q entry exit ts)
    (hQ : ∀ span part items, Q part items →
      Q' (⟨.builtin b, span⟩ :: part) (items ++ [⟨.apply b, span⟩])) :
    Yields Q' entry exit (.builtin b :: ts) := by
  intro part hpart
  obtain ⟨⟨_, span⟩, operand, rfl, rfl, hoperand⟩ := List.map_eq_cons_iff.1 hpart
  obtain ⟨items, hitems, hitemsQ⟩ := h operand hoperand
  refine ⟨_, fun rest opened waiting hwaiting => ?_, hQ span operand items hitemsQ⟩
  have hrelease : release opened.length b waiting = ([], waiting) := by simp only [release, hb]
  have hhead : ∀ w ∈ (⟨opened.length, b, span⟩ :: waiting : List Waiting).head?,
      ¬ w.Reaches opened.length entry := by
    rintro w ⟨⟩ (hlevel | ⟨-, hprec⟩)
    · exact Nat.lt_irrefl _ hlevel
    · exact Nat.not_le_of_lt hentry hprec
  obtain ⟨out, pending, harrange, rfl, hpending⟩ :=
    hitems rest opened (⟨opened.length, b, span⟩ :: waiting) hhead
  refine ⟨out, pending ++ [⟨opened.length, b, span⟩], ?_, ?_, ?_⟩
  · rw [List.cons_append, arrangeFrom_builtin _ rfl hrelease, harrange, append_map_append_map,
      List.append_assoc pending]
    rfl
  · simp [Waiting.item]
  · intro w hw
    rcases List.mem_append.1 hw with hw | hw
    · exact hpending w hw
    · obtain rfl := List.mem_singleton.1 hw
      exact .inr ⟨rfl, hexit⟩

/-- **A builtin between operands** sends off what waits behind the first one, and waits itself until
the second one has ended. -/
theorem between {b : Builtin} {precedence : Nat} (hb : b.fixity = .between)
    (hprec : b.precedence = precedence) (hfirst : Yields Q precedence precedence ts)
    (hsecond : Yields Q' (precedence + 1) precedence ts')
    (hQ : ∀ span part items part' items', Q part items → Q' part' items' →
      Q'' (part ++ ⟨.builtin b, span⟩ :: part') (items ++ items' ++ [⟨.apply b, span⟩])) :
    Yields Q'' precedence precedence (ts ++ .builtin b :: ts') := by
  subst hprec
  intro part hpart
  obtain ⟨first, later, rfl, hpart₁, hlater⟩ := List.map_eq_append_iff.1 hpart
  obtain ⟨⟨_, span⟩, second, rfl, rfl, hpart₂⟩ := List.map_eq_cons_iff.1 hlater
  obtain ⟨items, hitems, hitemsQ⟩ := hfirst first hpart₁
  obtain ⟨items', hitems', hitemsQ'⟩ := hsecond second hpart₂
  refine ⟨_, fun rest opened waiting hwaiting => ?_,
    hQ span first items second items' hitemsQ hitemsQ'⟩
  obtain ⟨out₁, pending₁, harrange₁, rfl, hpending₁⟩ :=
    hitems (⟨.builtin b, span⟩ :: (second ++ rest)) opened waiting hwaiting
  have hhead : ∀ w ∈ (⟨opened.length, b, span⟩ :: waiting : List Waiting).head?,
      ¬ w.Reaches opened.length (b.precedence + 1) := by
    rintro w ⟨⟩ (hlevel | ⟨-, hprec⟩)
    · exact Nat.lt_irrefl _ hlevel
    · exact Nat.not_succ_le_self _ hprec
  obtain ⟨out₂, pending₂, harrange₂, rfl, hpending₂⟩ :=
    hitems' rest opened (⟨opened.length, b, span⟩ :: waiting) hhead
  refine ⟨out₁ ++ pending₁.map Waiting.item ++ out₂, pending₂ ++ [⟨opened.length, b, span⟩],
    ?_, ?_, ?_⟩
  · rw [List.append_assoc first, List.cons_append, harrange₁,
      arrangeFrom_builtin _ rfl (release_between hb hpending₁ hwaiting), harrange₂,
      append_map_append_map, append_map_append_map, List.append_assoc pending₂]
    simp only [List.append_assoc]
    rfl
  · simp [Waiting.item]
  · intro w hw
    rcases List.mem_append.1 hw with hw | hw
    · exact hpending₂ w hw
    · obtain rfl := List.mem_singleton.1 hw
      exact .inr ⟨rfl, Nat.le_refl _⟩

/-- **Parentheses** hide how loosely their content binds. -/
theorem parenthesized (h : Yields Q 1 1 ts) (entry exit : Nat)
    (hQ : ∀ span span' part items, Q part items →
      Q' (⟨.opening, span⟩ :: part ++ [⟨.closing, span'⟩]) items) :
    Yields Q' entry exit (.opening :: ts ++ [.closing]) := by
  intro part hpart
  obtain ⟨front, last, rfl, hfront, hlast⟩ := List.map_eq_append_iff.1 hpart
  obtain ⟨⟨_, span⟩, inner, rfl, rfl, hinner⟩ := List.map_eq_cons_iff.1 hfront
  obtain ⟨⟨_, span'⟩, rfl, rfl⟩ := List.map_eq_singleton_iff.1 hlast
  obtain ⟨items, hitems, hitemsQ⟩ := h inner hinner
  refine ⟨items, fun rest opened waiting hwaiting => ?_, hQ span span' inner items hitemsQ⟩
  have houtside : ∀ w ∈ waiting.head?, ¬ w.Reaches (span :: opened).length 1 := by
    intro w hw hreaches
    refine hwaiting w hw (.inl ?_)
    rcases hreaches with hlevel | ⟨hlevel, -⟩
    · exact Nat.lt_of_succ_lt hlevel
    · exact hlevel ▸ Nat.lt_succ_self _
  obtain ⟨out, pending, harrange, hsplit, hpending⟩ :=
    hitems (⟨.closing, span'⟩ :: rest) (span :: opened) waiting houtside
  refine ⟨out, pending, ?_, hsplit, fun w hw => .inl ?_⟩
  · rw [List.append_assoc, List.cons_append, arrangeFrom_opening _ rfl, List.singleton_append,
      harrange, arrangeFrom_closing _ rfl]
  · rcases hpending w hw with hlevel | ⟨hlevel, -⟩
    · exact Nat.lt_of_succ_lt hlevel
    · exact hlevel ▸ Nat.lt_succ_self _

/-- **A whole source is arranged as its part is.** -/
theorem arrange (h : Yields Q entry exit ts) {source : List (Located Token)}
    (hsource : source.map Located.value = ts) :
    ∃ out, Postfix.arrange source = .ok out ∧ Q source out := by
  obtain ⟨items, hitems, hQ⟩ := h source hsource
  obtain ⟨out, pending, harrange, rfl, -⟩ := hitems [] [] [] (by simp)
  refine ⟨out ++ pending.map Waiting.item, ?_, hQ⟩
  rw [List.append_nil] at harrange
  rw [Postfix.arrange, harrange, List.append_nil, arrangeFrom]
  rfl

end Yields

/-- Whether a part `ts` of a source is arranged as `items`, wherever it is written. -/
def Arranges (entry exit : Nat) (ts : List Token) (items : List Item) : Prop :=
  Yields (fun _ out => out.map Located.value = items) entry exit ts

namespace Arranges

variable {entry exit entry' exit' : Nat} {ts ts' : List Token} {items items' : List Item}

theorem weaken (h : Arranges entry exit ts items) (hentry : entry' ≤ entry) (hexit : exit' ≤ exit) :
    Arranges entry' exit' ts items :=
  Yields.weaken h hentry hexit

theorem literal (entry exit : Nat) (value : Single) :
    Arranges entry exit [.number value] [.literal value] :=
  Yields.literal entry exit fun _ => rfl

theorem load (entry exit : Nat) (index : Nat) :
    Arranges entry exit [.variable index] [.variable index] :=
  Yields.load entry exit fun _ => rfl

theorem before {b : Builtin} (hb : b.fixity = .before) (hentry : b.precedence < entry)
    (hexit : exit ≤ b.precedence) (h : Arranges entry exit ts items) :
    Arranges entry exit (.builtin b :: ts) (items ++ [.apply b]) :=
  Yields.before hb hentry hexit h fun span part out hout => by simp [hout]

theorem between {b : Builtin} {precedence : Nat} (hb : b.fixity = .between)
    (hprec : b.precedence = precedence) (hfirst : Arranges precedence precedence ts items)
    (hsecond : Arranges (precedence + 1) precedence ts' items') :
    Arranges precedence precedence (ts ++ .builtin b :: ts') (items ++ items' ++ [.apply b]) :=
  Yields.between hb hprec hfirst hsecond fun span part out part' out' hout hout' => by
    simp [hout, hout']

theorem parenthesized (h : Arranges 1 1 ts items) (entry exit : Nat) :
    Arranges entry exit (.opening :: ts ++ [.closing]) items :=
  Yields.parenthesized h entry exit fun _ _ _ _ hout => hout

theorem arrange (h : Arranges entry exit ts items) {source : List (Located Token)}
    (hsource : source.map Located.value = ts) :
    ∃ out, Postfix.arrange source = .ok out ∧ out.map Located.value = items :=
  Yields.arrange h hsource

end Arranges

end Postfix

end Flipbook.Expr
