import Flipbook.Expr.Postfix
import Flipbook.Proofs.Steps
import Mathlib.Data.List.TakeDrop

/-!
# Proofs/Expr/Arrangement — arranging tokens loses and adds none

While tokens are arranged, what is still to come are the builtins that wait and then the tokens that
are left.  An arrangement is some order of these that delays builtins and nothing else
(`Postfix.arrangeFrom_delayed`).  In particular, its entries are the tokens that are no parentheses,
each with its place in the source, in another order (`Postfix.arrange_perm`).
-/

namespace Flipbook.Expr

/-- The entry of a token; parentheses have none. -/
def Token.item? : Token → Option Item
  | .number value => some (.literal value)
  | .variable index => some (.variable index)
  | .builtin b => some (.apply b)
  | .opening | .closing => none

theorem Token.eq_builtin_of_item? {t : Token} {b : Builtin} (h : t.item? = some (.apply b)) :
    t = .builtin b := by
  cases t with
  | builtin b' =>
    obtain rfl := Item.apply.inj (Option.some.inj h)
    rfl
  | number _ => cases h
  | «variable» _ => cases h
  | opening | closing => cases h

/-- The entry of a token with its place. -/
def Located.item? (t : Located Token) : Option (Located Item) :=
  t.value.item?.map (⟨·, t.span⟩)

/-- Whether a token is an operand by itself. -/
def Token.isOperand : Token → Bool
  | .number _ | .variable _ => true
  | .builtin _ | .opening | .closing => false

/-- A builtin that waits, as the token that it was. -/
def Waiting.token (w : Waiting) : Located Token := ⟨.builtin w.builtin, w.span⟩

@[simp] theorem Waiting.item?_token (w : Waiting) : w.token.item? = some w.item := rfl

/-! ## Delays -/

/-- Whether `order` has the entries of `source` and delays none that is an operand: the operands
keep their order, and what stands behind an operand stays behind it. -/
structure Delayed {κ : Type} (isOperand : κ → Bool) (source order : List κ) : Prop where
  perm : order.Perm source
  operands : order.filter isOperand = source.filter isOperand
  behind : ∀ e f, isOperand e → [e, f].Sublist source → [e, f].Sublist order

namespace Delayed

variable {κ : Type} {isOperand : κ → Bool} {waiting leaving staying source order : List κ} {x : κ}

theorem refl (source : List κ) : Delayed isOperand source source :=
  ⟨.refl _, rfl, fun _ _ _ hsub => hsub⟩

/-- What stands behind an operand stands behind it among the later entries, if those in front are no
operands. -/
theorem sublist_of_isOperand {front back : List κ} {e f : κ}
    (hfront : ∀ w ∈ front, isOperand w = false) (he : isOperand e)
    (hsub : [e, f].Sublist (front ++ back)) : [e, f].Sublist back := by
  induction front with
  | nil => exact hsub
  | cons w front ih =>
    obtain ⟨hw, hfront⟩ := List.forall_mem_cons.1 hfront
    have hne : e ≠ w := fun heq => absurd (heq ▸ he) (by simp [hw])
    exact ih hfront (hsub.of_cons_of_ne hne)

/-- An operand leaves at once. -/
theorem operand (h : Delayed isOperand (waiting ++ source) order)
    (hwaiting : ∀ w ∈ waiting, isOperand w = false) (hx : isOperand x) :
    Delayed isOperand (waiting ++ x :: source) (x :: order) where
  perm := (h.perm.cons x).trans List.perm_middle.symm
  operands := by
    have hnone : waiting.filter isOperand = [] := by simpa using hwaiting
    have hsame := h.operands
    rw [List.filter_append, hnone, List.nil_append] at hsame ⊢
    rw [List.filter_cons_of_pos hx, List.filter_cons_of_pos hx, hsame]
  behind e f he hsub := by
    rcases List.cons_sublist_cons'.1 (sublist_of_isOperand hwaiting he hsub) with hlater | ⟨rfl, hf⟩
    · exact (h.behind e f he (hlater.trans (List.sublist_append_right _ _))).cons x
    · have hf : f ∈ order :=
        h.perm.mem_iff.2 (List.mem_append_right _ (List.singleton_sublist.1 hf))
      exact (List.singleton_sublist.2 hf).cons_cons e

/-- Another entry begins to wait, and some that wait leave. -/
theorem release (h : Delayed isOperand (x :: staying ++ source) order)
    (hleaving : ∀ w ∈ leaving, isOperand w = false) (hstaying : ∀ w ∈ staying, isOperand w = false)
    (hx : isOperand x = false) :
    Delayed isOperand (leaving ++ staying ++ x :: source) (leaving ++ order) where
  perm := by
    rw [List.append_assoc]
    exact (h.perm.trans List.perm_middle.symm).append_left leaving
  operands := by
    have hleft : leaving.filter isOperand = [] := by simpa using hleaving
    have hstay : staying.filter isOperand = [] := by simpa using hstaying
    have hsame := h.operands
    simpa [hleft, hstay, hx] using hsame
  behind e f he hsub := by
    have hnone : ∀ w ∈ leaving ++ staying ++ [x], isOperand w = false :=
      List.forall_mem_append.2
        ⟨List.forall_mem_append.2 ⟨hleaving, hstaying⟩, List.forall_mem_singleton.2 hx⟩
    rw [List.append_cons] at hsub
    have hlater := sublist_of_isOperand hnone he hsub
    exact (h.behind e f he (hlater.trans (List.sublist_append_right _ _))).trans
      (List.sublist_append_right _ _)

end Delayed

namespace Postfix

/-- The entries that some tokens become. -/
def ofTokens (ts : List (Located Token)) : Postfix := ts.filterMap Located.item?

theorem mem_ofTokens {ts : List (Located Token)} {i : Located Item} :
    i ∈ ofTokens ts ↔ ∃ t ∈ ts, t.value.item? = some i.value ∧ t.span = i.span := by
  obtain ⟨value, span⟩ := i
  simp [ofTokens, Located.item?]

/-- Releasing splits what waits. -/
theorem release_append (level : Nat) (b : Builtin) (waiting : List Waiting) :
    (release level b waiting).1 ++ (release level b waiting).2 = waiting := by
  unfold release
  split
  · rw [List.span_eq_takeWhile_dropWhile]
    exact List.takeWhile_append_dropWhile
  · rfl

section Waiting

variable {κ : Type} {token : κ → Located Token} {waiting : List Waiting} {ws : List κ}

/-- What waits is no operand. -/
theorem isOperand_of_waiting (hws : ws.map token = waiting.map Waiting.token) :
    ∀ k ∈ ws, (token k).value.isOperand = false := by
  intro k hk
  obtain ⟨w, -, hw⟩ := List.mem_map.1 (hws ▸ List.mem_map_of_mem hk)
  rw [← hw]
  rfl

/-- What waits has the entries that it leaves as. -/
theorem item?_of_waiting (hws : ws.map token = waiting.map Waiting.token) :
    ws.map (fun k => (token k).item?) = (waiting.map Waiting.item).map some := by
  have hitems := congrArg (List.map Located.item?) hws
  simpa [Function.comp_def] using hitems

end Waiting

/-- **An arrangement delays builtins and nothing else.**  It stands for the waiting builtins and
then the tokens that have entries, whatever these tokens are known by. -/
theorem arrangeFrom_delayed {κ : Type} {token : κ → Located Token} {opened : List Span}
    {waiting : List Waiting} {ts : List (Located Token)} {out : Postfix} {ws us : List κ}
    (h : arrangeFrom opened waiting ts = .ok out)
    (hws : ws.map token = waiting.map Waiting.token) (hus : us.map token = ts) :
    ∃ order, Delayed (fun k => (token k).value.isOperand)
        (ws ++ us.filter fun k => (token k).item?.isSome) order ∧
      order.map (fun k => (token k).item?) = out.map some := by
  -- the tokens that are known by `us` are used up along with the recursion
  fun_induction arrangeFrom opened waiting ts generalizing ws us out with
  | case1 waiting =>
    obtain rfl := Except.ok.inj h
    obtain rfl := List.map_eq_nil_iff.1 hus
    exact ⟨ws, by simpa using Delayed.refl ws, item?_of_waiting hws⟩
  | case2 => cases h
  | case3 opened waiting t ts value hv ih | case4 opened waiting t ts index hv ih =>
    obtain ⟨rest, hrest, rfl⟩ := map_eq_ok.1 h
    obtain ⟨k, us, rfl, rfl, hlater⟩ := List.map_eq_cons_iff.1 hus
    obtain ⟨order, horder, hout⟩ := ih hrest hws hlater
    refine ⟨k :: order, ?_, by rw [List.map_cons, List.map_cons, hout, Located.item?, hv]; rfl⟩
    rw [List.filter_cons_of_pos (by rw [Located.item?, hv]; rfl)]
    exact horder.operand (isOperand_of_waiting hws) (by rw [hv]; rfl)
  | case5 opened waiting t ts hv ih =>
    obtain ⟨k, us, rfl, rfl, hlater⟩ := List.map_eq_cons_iff.1 hus
    rw [List.filter_cons_of_neg (by rw [Located.item?, hv]; exact Bool.false_ne_true)]
    exact ih h hws hlater
  | case6 => cases h
  | case7 waiting t ts hv span outer ih =>
    obtain ⟨k, us, rfl, rfl, hlater⟩ := List.map_eq_cons_iff.1 hus
    rw [List.filter_cons_of_neg (by rw [Located.item?, hv]; exact Bool.false_ne_true)]
    exact ih h hws hlater
  | case8 opened waiting t ts b hv leaving staying hrelease ih =>
    obtain ⟨rest, hrest, rfl⟩ := map_eq_ok.1 h
    obtain ⟨k, us, rfl, rfl, hlater⟩ := List.map_eq_cons_iff.1 hus
    have hsplit : leaving ++ staying = waiting := by
      have := release_append opened.length b waiting
      rwa [hrelease] at this
    rw [← hsplit, List.map_append] at hws
    obtain ⟨left, stay, rfl, hleft, hstay⟩ := List.map_eq_append_iff.1 hws
    have hk : token k = Waiting.token ⟨opened.length, b, (token k).span⟩ := by
      rw [Waiting.token, ← hv]
    have hwait : (k :: stay).map token = (⟨opened.length, b, (token k).span⟩ :: staying).map
        Waiting.token := by
      rw [List.map_cons, List.map_cons, hstay, ← hk]
    obtain ⟨order, horder, hout⟩ := ih hrest hwait hlater
    refine ⟨left ++ order, ?_, ?_⟩
    · rw [List.filter_cons_of_pos (by rw [hk]; rfl)]
      exact horder.release (isOperand_of_waiting hleft) (isOperand_of_waiting hstay)
        (by rw [hv]; rfl)
    · rw [List.map_append, List.map_append, item?_of_waiting hleft, hout]

/-- An arrangement behind some tokens has the waiting builtins and these tokens as entries. -/
theorem arrangeFrom_perm {opened : List Span} {waiting : List Waiting}
    {ts : List (Located Token)} {out : Postfix} (h : arrangeFrom opened waiting ts = .ok out) :
    out.Perm (waiting.map Waiting.item ++ ofTokens ts) := by
  obtain ⟨order, horder, hout⟩ := arrangeFrom_delayed h (List.map_id _) (List.map_id ts)
  have hentries : order.filterMap Located.item? = out := by
    have hsome := congrArg (List.filterMap id) hout
    simpa using hsome
  have hwaiting : (waiting.map Waiting.token).filterMap Located.item?
      = waiting.map Waiting.item := by
    rw [List.filterMap_map, ← List.filterMap_eq_map]
    rfl
  have hlater : (ts.filter fun t => t.item?.isSome).filterMap Located.item? = ofTokens ts := by
    rw [List.filterMap_filter, ofTokens]
    congr 1
    funext t
    cases t.item? <;> rfl
  rw [← hentries, ← hwaiting, ← hlater, ← List.filterMap_append]
  exact horder.perm.filterMap _

/-- **An arrangement has the tokens that are no parentheses as its entries.** -/
theorem arrange_perm {ts : List (Located Token)} {out : Postfix} (h : arrange ts = .ok out) :
    out.Perm (ofTokens ts) :=
  arrangeFrom_perm h

/-- Every entry of an arrangement is that of a token, at its place. -/
theorem exists_token_of_arrange {ts : List (Located Token)} {out : Postfix}
    (h : arrange ts = .ok out) {i : Located Item} (hi : i ∈ out) :
    ∃ t ∈ ts, t.value.item? = some i.value ∧ t.span = i.span :=
  mem_ofTokens.1 ((arrange_perm h).mem_iff.1 hi)

end Postfix

end Flipbook.Expr
