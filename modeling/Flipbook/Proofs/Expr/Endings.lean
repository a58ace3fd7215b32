import Flipbook.Expr.Document
import Flipbook.Json.Reader
import Flipbook.Proofs.Expr.Compiled

/-!
# Proofs/Expr/Endings — which programs end once

A program should end with its last word and nowhere before it (`Program.EndsOnce`).  Compiling a
source, decoding words and taking a single literal give no other programs.  A document is taken at
its word instead: the program that is read from it ends once exactly if the document says so
(`Program.endsOnce_iff`), and it need not have any word (`Program.wordless_document`).
-/

namespace Flipbook

/-- Whether the last entry of a list, and no other one, has a property. -/
def EndsOnly {α : Type} (p : α → Prop) (xs : List α) : Prop :=
  ∃ body last, xs = body ++ [last] ∧ p last ∧ ∀ x ∈ body, ¬ p x

section EndsOnly

variable {α β : Type} {p : α → Prop} {x : α} {xs : List α}

theorem not_endsOnly_nil : ¬ EndsOnly p [] := by
  rintro ⟨body, last, h, -, -⟩
  exact absurd h.symm (List.append_ne_nil_of_right_ne_nil _ (List.cons_ne_nil _ _))

/-- A list ends at its first entry, or there is none to end it and it ends later. -/
theorem endsOnly_cons : EndsOnly p (x :: xs) ↔ (p x ∧ xs = []) ∨ (¬ p x ∧ EndsOnly p xs) := by
  constructor
  · rintro ⟨_ | ⟨y, body⟩, last, h, hlast, hbody⟩
    · obtain ⟨rfl, rfl⟩ := List.cons.inj h
      exact .inl ⟨hlast, rfl⟩
    · obtain ⟨rfl, rfl⟩ := List.cons.inj h
      obtain ⟨hx, hbody⟩ := List.forall_mem_cons.1 hbody
      exact .inr ⟨hx, body, last, rfl, hlast, hbody⟩
  · rintro (⟨hx, rfl⟩ | ⟨hx, body, last, rfl, hlast, hbody⟩)
    · exact ⟨[], x, rfl, hx, List.forall_mem_nil _⟩
    · exact ⟨x :: body, last, rfl, hlast, List.forall_mem_cons.2 ⟨hx, hbody⟩⟩

/-- Lists that agree entry by entry on what ends them end together. -/
theorem endsOnly_of_forall₂ {q : β → Prop} {R : α → β → Prop} {ys : List β}
    (h : List.Forall₂ R xs ys) (hR : ∀ x y, R x y → (p x ↔ q y)) :
    EndsOnly p xs ↔ EndsOnly q ys := by
  induction h with
  | nil => exact iff_of_false not_endsOnly_nil not_endsOnly_nil
  | @cons x y xs ys hxy hrest ih =>
    have hnil : xs = [] ↔ ys = [] := by
      rw [← List.length_eq_zero_iff, ← List.length_eq_zero_iff, hrest.length_eq]
    rw [endsOnly_cons, endsOnly_cons, hR _ _ hxy, ih, hnil]

end EndsOnly

namespace Expr

open Json

/-! ## Programs that are made -/

/-- Whether a program ends with its last word and nowhere before it. -/
def Program.EndsOnce (p : Program) : Prop := EndsOnly (· = .finish) p.words

/-- A body without an end, and an end. -/
theorem Program.endsOnce_iff_exists {p : Program} :
    p.EndsOnce ↔ ∃ body, p.words = body ++ [.finish] ∧ .finish ∉ body := by
  constructor
  · rintro ⟨body, _, hwords, rfl, hbody⟩
    exact ⟨body, hwords, fun h => hbody _ h rfl⟩
  · rintro ⟨body, hwords, hbody⟩
    exact ⟨body, _, hwords, rfl, fun w hw hfinish => hbody (hfinish ▸ hw)⟩

/-- **A compiled program ends once.** -/
theorem endsOnce_of_compile {source : String} {env : Environment} {p : Program}
    (h : compile source env = .ok p) : p.EndsOnce := by
  obtain ⟨body, hwords, hbody, -⟩ := compiled_spec h
  exact Program.endsOnce_iff_exists.2 ⟨body, hwords, fun hmem => hbody _ hmem⟩

namespace Program

theorem endsOnce_constant (value : Single) : (constant value).EndsOnce :=
  endsOnce_iff_exists.2 ⟨[.push value], rfl, by simp⟩

/-- Decoding stops at the first end. -/
theorem endsOnly_of_decodeWords {raw : List UInt32} {ws : List Word}
    (h : decodeWords raw = .ok ws) : EndsOnly (· = .finish) ws := by
  induction raw generalizing ws with
  | nil => cases h
  | cons w raw ih =>
    rw [decodeWords, bind_eq_ok] at h
    obtain ⟨word, -, h⟩ := h
    split at h
    · obtain rfl := pure_eq_ok.1 h
      exact endsOnly_cons.2 (.inl ⟨rfl, rfl⟩)
    · rename_i hword
      obtain ⟨rest, hrest, h⟩ := bind_eq_ok.1 h
      obtain rfl := pure_eq_ok.1 h
      exact endsOnly_cons.2 (.inr ⟨hword, ih hrest⟩)

/-- **A decoded program ends once.** -/
theorem endsOnce_of_decode {raw : List UInt32} {p : Program} (h : decode raw = .ok p) :
    p.EndsOnce := by
  obtain ⟨ws, hws, rfl⟩ := map_eq_ok.1 h
  exact endsOnly_of_decodeWords hws

end Program

/-! ## Programs that are read -/

/-- Whether a value of a document stands for an end. -/
def Word.IsEnd (v : Value) : Prop :=
  v = .string (some "End") ∨ v = .object [(some "End", .null)]

/-- A choice is a string, or an object with one field. -/
theorem choice?_eq_some {v : Value} {name : String} {held : Option Value} :
    v.choice? = some (name, held) ↔ (v = .string (some name) ∧ held = none) ∨
      ∃ w, v = .object [(some name, w)] ∧ held = some w := by
  constructor
  · intro h
    unfold Value.choice? at h
    split at h
    · obtain ⟨⟩ := h
      exact .inl ⟨rfl, rfl⟩
    · obtain ⟨⟩ := h
      exact .inr ⟨_, rfl, rfl⟩
    · cases h
  · rintro (⟨rfl, rfl⟩ | ⟨w, rfl, rfl⟩) <;> rfl

/-- **A value is read as an end exactly if it stands for one.** -/
theorem Word.ofJson?_eq_finish {v : Value} : Word.ofJson? v = some .finish ↔ Word.IsEnd v := by
  constructor
  · intro h
    obtain ⟨⟨name, held⟩, hchoice, h⟩ := Option.bind_eq_some_iff.1 h
    split at h
    · simp at h
    · simp at h
    · simp at h
    · rename_i heq
      obtain ⟨⟩ := heq
      rcases choice?_eq_some.1 hchoice with ⟨hv, -⟩ | ⟨w, -, hheld⟩
      · exact .inl hv
      · cases hheld
    · rename_i heq
      obtain ⟨⟩ := heq
      rcases choice?_eq_some.1 hchoice with ⟨-, hheld⟩ | ⟨w, hv, hheld⟩
      · cases hheld
      · obtain rfl := Option.some.inj hheld
        exact .inr hv
    · cases h
  · rintro (rfl | rfl) <;> rfl

namespace Program

/-- Whether a text is the document of a program in which the last word, and no other one, is an
end. -/
def WrittenToEndOnce (text : String) : Prop :=
  ∃ v items, Value.parse? text = some v ∧ v.record? ["words"] = some [some (.array items)] ∧
    EndsOnly Word.IsEnd items

/-- The words of a document are read one by one. -/
theorem ofJson?_eq_some {v : Value} {p : Program} : ofJson? v = some p ↔
    ∃ items, v.record? ["words"] = some [some (.array items)] ∧
      List.Forall₂ (fun item w => Word.ofJson? item = some w) items p.words := by
  constructor
  · intro h
    obtain ⟨fields, hfields, h⟩ := Option.bind_eq_some_iff.1 h
    split at h
    · rename_i words
      obtain ⟨ws, hws, rfl⟩ := Option.map_eq_some_iff.1 h
      obtain ⟨w, rfl, hlist⟩ := Option.bind_eq_some_iff.1 hws
      unfold Value.list? at hlist
      split at hlist
      · exact ⟨_, hfields, mapM_eq_some.1 hlist⟩
      · cases hlist
    · cases h
  · rintro ⟨items, hfields, hwords⟩
    have hlist : Value.list? Word.ofJson? (.array items) = some p.words :=
      mapM_eq_some.2 hwords
    simp [ofJson?, hfields, Value.required, hlist]

/-- **A program that is read ends once exactly if its document says so.** -/
theorem endsOnce_iff_of_document {text : String} {v : Value} {p : Program}
    (hv : Value.parse? text = some v) (h : ofJson? v = some p) :
    p.EndsOnce ↔ WrittenToEndOnce text := by
  obtain ⟨items, hitems, hwords⟩ := ofJson?_eq_some.1 h
  have hends : EndsOnly Word.IsEnd items ↔ p.EndsOnce :=
    endsOnly_of_forall₂ hwords fun item w hw => by
      rw [← Word.ofJson?_eq_finish, hw, Option.some.injEq]
  rw [← hends]
  constructor
  · exact fun hitem => ⟨v, items, hv, hitems, hitem⟩
  · rintro ⟨v', items', hv', hitems', hitem⟩
    obtain rfl := Option.some.inj (hv.symm.trans hv')
    obtain ⟨⟩ := hitems.symm.trans hitems'
    exact hitem

/-! ## Where programs come from -/

/-- The ways to come by a program. -/
inductive Origin where
  | source (text : String) (env : Environment)
  | literal (value : Single)
  | encoded (raw : List UInt32)
  | document (text : String)

/-- The program that is come by, if there is one. -/
def Origin.program? : Origin → Option Program
  | source text env => (compile text env).toOption
  | literal value => some (constant value)
  | encoded raw => (decode raw).toOption
  | document text => (Value.parse? text).bind ofJson?

/-- A result that is kept is one. -/
theorem eq_ok_of_toOption {ε α : Type} {x : Except ε α} {a : α} (h : x.toOption = some a) :
    x = .ok a := by
  cases x with
  | error e => cases h
  | ok b =>
    obtain rfl := Option.some.inj h
    rfl

/-- **Every program ends once, unless it is read from a document that does not say so.** -/
theorem endsOnce_iff {o : Origin} {p : Program} (h : o.program? = some p) :
    p.EndsOnce ↔ ∀ text, o = .document text → WrittenToEndOnce text := by
  cases o with
  | source text env =>
    exact iff_of_true (endsOnce_of_compile (eq_ok_of_toOption h)) (by simp)
  | literal value =>
    obtain rfl := Option.some.inj h
    exact iff_of_true (endsOnce_constant value) (by simp)
  | encoded raw => exact iff_of_true (endsOnce_of_decode (eq_ok_of_toOption h)) (by simp)
  | document text =>
    obtain ⟨v, hv, h⟩ := Option.bind_eq_some_iff.1 h
    rw [endsOnce_iff_of_document hv h]
    constructor
    · rintro hends _ ⟨⟩
      exact hends
    · exact fun hends => hends text rfl

/-- A document that loads a variable and writes the end as a field. -/
def fieldEnd : Origin :=
  .document "\x7b\"words\":[\x7b\"PushVariable\":0\x7d,\x7b\"End\":null\x7d]\x7d"

theorem endsOnce_iff_fieldEnd : fieldEnd.program? = some ⟨[.load 0, .finish]⟩ ∧
    (EndsOnce ⟨[.load 0, .finish]⟩ ↔
      ∀ text, fieldEnd = .document text → WrittenToEndOnce text) := by
  have h : fieldEnd.program? = some ⟨[.load 0, .finish]⟩ := by decide +kernel
  exact ⟨h, endsOnce_iff h⟩

/-- **A document may hold a program without any word.** -/
theorem wordless_document : Origin.program? (.document "\x7b\"words\":[]\x7d") = some ⟨[]⟩ ∧
    ¬ EndsOnce ⟨[]⟩ :=
  ⟨by decide +kernel, not_endsOnly_nil⟩

end Program

end Expr

end Flipbook
