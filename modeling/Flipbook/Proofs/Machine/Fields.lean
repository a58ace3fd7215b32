import Flipbook.Proofs.Machine.Writing

/-!
# Proofs/Machine/Fields — reading undoes writing

Whatever fields are written behind some bytes, the same sequence of reads gives them back and ends
where the writing did (`Read.Reads.fields`).  A read of one number gives all of its bytes or fails
where it is, and moves only in the first case (`Read.run_field_number`).

Positions are natural numbers here.  `Read64` reads with positions of 64 bits, whose sums wrap
around and have to be checked; it does the same on all bytes that can be counted with 64 bits
(`Read64.Agrees.field`).
-/

namespace Flipbook.Machine

/-! ## Reads of one number -/

/-- The kinds of fields that are one number. -/
inductive NumberKind where
  | word
  | long
  | single
deriving DecidableEq, Repr

namespace NumberKind

/-- The kind as one of all fields. -/
def kind : NumberKind → FieldKind
  | word => .word
  | long => .long
  | single => .single

/-- The number of bytes. -/
def width : NumberKind → Nat
  | word | single => 4
  | long => 8

/-- The field that holds a number. -/
def field : NumberKind → Nat → Field
  | word, n => .word (UInt32.ofNat n)
  | long, n => .long (UInt64.ofNat n)
  | single, n => .single ⟨UInt32.ofNat n⟩

end NumberKind

namespace Read

theorem field_kind (k : NumberKind) : field k.kind = k.field <$> number k.width := by
  cases k <;> simp only [NumberKind.kind, field, word, long, single, Functor.map_map] <;> rfl

/-- **A read of one number gives it, or fails and stays.** -/
theorem run_field_number (k : NumberKind) (c : Cursor) :
    (field k.kind).run c =
      if c.position + k.width ≤ c.bytes.size then
        (.ok (k.field (ofLittleEndian ((c.bytes.toList.drop c.position).take k.width))),
          { c with position := c.position + k.width })
      else (.error (.truncated c.position k.width), c) := by
  rw [field_kind, run_map]
  split
  · rename_i h
    rw [run_number_eq_ok.2 ⟨h, rfl, rfl⟩]
    rfl
  · rename_i h
    rw [run_number_of_lt (Nat.not_le.1 h)]
    rfl

end Read

theorem Read.eq_of_run_field_number_eq_error {k : NumberKind} {c c' : Cursor} {e : LoadError}
    (h : (Read.field k.kind).run c = (.error e, c')) :
    c' = c ∧ e = .truncated c.position k.width := by
  rw [Read.run_field_number] at h
  split at h
  · cases (Prod.mk.inj h).1
  · obtain ⟨herror, hcursor⟩ := Prod.mk.inj h
    exact ⟨hcursor.symm, (Except.error.inj herror).symm⟩

/-! ## Reading fields back -/

namespace Read.Reads

/-- A field is read back by the read for its kind. -/
theorem field (f : Field) (position : Nat) : Reads (field f.kind) position f.bytes f := by
  cases f with
  | word value => exact (word value position).map Field.word
  | long value => exact (long value position).map Field.long
  | single value => exact (single value position).map Field.single
  | header value => exact (header value position).map Field.header

/-- **Fields are read back in the order in which they were written.** -/
theorem fields (fs : List Field) (position : Nat) :
    Reads ((fs.map Field.kind).mapM Read.field) position (fs.flatMap Field.bytes) fs := by
  induction fs generalizing position with
  | nil => exact pure [] position
  | cons f fs ih =>
    have hnext : Reads (((f :: fs).map Field.kind).mapM Read.field) position
        (f.bytes ++ (fs.flatMap Field.bytes ++ [])) (f :: fs) := by
      rw [List.map_cons, List.mapM_cons]
      exact (field f position).bind ((ih _).bind (pure _ _))
    rwa [List.append_nil] at hnext

end Read.Reads

/-- What is read behind `out`, where some fields were added at its end. -/
structure ReadBack (out : Blob) (fs : List Field) (written : Blob) : Prop where
  /-- The same sequence of reads gives the fields, and ends at the end. -/
  fields : ((fs.map Field.kind).mapM Read.field).run ⟨written, out.size⟩
    = (.ok fs, ⟨written, written.size⟩)
  remaining : (⟨written, written.size⟩ : Cursor).remaining = 0
  /-- Nothing can be read any more. -/
  exhausted : ∀ k : NumberKind, (Read.field k.kind).run ⟨written, written.size⟩
    = (.error (.truncated written.size k.width), ⟨written, written.size⟩)

theorem readBack_foldl_writeField (out : Blob) (fs : List Field) :
    ReadBack out fs (fs.foldl writeField out) := by
  have hbytes := toList_foldl_writeField fs out
  have hsize : (fs.foldl writeField out).size = out.size + (fs.flatMap Field.bytes).length := by
    rw [← Array.length_toList, hbytes, List.length_append, Array.length_toList]
  refine ⟨?_, Nat.sub_self _, fun k => ?_⟩
  · have hlater : (fs.foldl writeField out).toList.drop out.size = fs.flatMap Field.bytes := by
      rw [hbytes, ← Array.length_toList, List.drop_left]
    rw [hsize]
    exact Read.Reads.fields fs out.size _ ⟨[], (List.append_nil _).trans hlater.symm⟩
  · have hwidth : 0 < k.width := by cases k <;> decide
    have hnone : ¬ (fs.foldl writeField out).size + k.width ≤ (fs.foldl writeField out).size := by
      omega
    rw [Read.run_field_number, if_neg hnone]

/-! ## Positions of 64 bits -/

/-- The sum of two 64-bit numbers if it fits 64 bits; a sum that wraps around is below its parts. -/
def checkedAdd (a b : UInt64) : Option UInt64 :=
  if a + b < a then none else some (a + b)

section CheckedAdd

variable {a b s : UInt64}

theorem add_lt_iff : a + b < a ↔ 2 ^ 64 ≤ a.toNat + b.toNat := by
  have ha := a.toNat_lt
  have hb := b.toNat_lt
  rw [UInt64.lt_iff_toNat_lt, UInt64.toNat_add]
  omega

theorem checkedAdd_eq_none : checkedAdd a b = none ↔ 2 ^ 64 ≤ a.toNat + b.toNat := by
  rw [← add_lt_iff, checkedAdd]
  split <;> simp_all

theorem checkedAdd_eq_some : checkedAdd a b = some s ↔ s.toNat = a.toNat + b.toNat := by
  have hs := s.toNat_lt
  unfold checkedAdd
  split
  · rename_i h
    have hlarge := add_lt_iff.1 h
    simp only [reduceCtorEq, false_iff]
    omega
  · rename_i h
    have hsmall := mt add_lt_iff.2 h
    rw [Option.some.injEq, ← UInt64.toNat_inj, UInt64.toNat_add, Nat.mod_eq_of_lt (by omega),
      eq_comm]

end CheckedAdd

/-- A position of 64 bits in some bytes. -/
structure Cursor64 where
  bytes : Blob
  position : UInt64
deriving DecidableEq, Repr

namespace Cursor64

/-- The same position as a natural number. -/
def cursor (c : Cursor64) : Cursor := ⟨c.bytes, c.position.toNat⟩

/-- The next `count` bytes and the cursor behind them. -/
def take (count : UInt64) (c : Cursor64) : Except Truncation (List UInt8) × Cursor64 :=
  match checkedAdd c.position count with
  | none => (.error ⟨c.position.toNat, count.toNat⟩, c)
  | some stop =>
    if stop.toNat ≤ c.bytes.size then
      (.ok (c.bytes.extract c.position.toNat stop.toNat).toList, { c with position := stop })
    else (.error ⟨c.position.toNat, count.toNat⟩, c)

theorem take_bytes (count : UInt64) (c : Cursor64) : (c.take count).2.bytes = c.bytes := by
  unfold take
  split
  · rfl
  · split <;> rfl

/-- **A sum that does not fit 64 bits leads behind all bytes that can be counted with 64 bits.** -/
theorem take_cursor {c : Cursor64} (h : c.bytes.size < 2 ^ 64) (count : UInt64) :
    c.cursor.take count.toNat = ((c.take count).1, (c.take count).2.cursor) := by
  unfold take Cursor.take
  cases hsum : checkedAdd c.position count with
  | none =>
    have hlarge := checkedAdd_eq_none.1 hsum
    have hbehind : ¬ c.cursor.position + count.toNat ≤ c.cursor.bytes.size := fun hle =>
      absurd (Nat.lt_of_le_of_lt hle h) (Nat.not_lt.2 hlarge)
    rw [if_neg hbehind]
    rfl
  | some stop =>
    have hstop := checkedAdd_eq_some.1 hsum
    simp only [cursor, ← hstop]
    split <;> rfl

end Cursor64

/-- A read with positions of 64 bits. -/
abbrev Read64 (α : Type) := ExceptT LoadError (StateM Cursor64) α

namespace Read64

/-- The number in the next `count` bytes. -/
def number (count : Nat) : Read64 Nat := fun c =>
  match c.take (UInt64.ofNat count) with
  | (.ok bytes, c') => (.ok (ofLittleEndian bytes), c')
  | (.error e, c') => (.error (.truncated e.offset e.needed), c')

/-- The next word. -/
def word : Read64 UInt32 := UInt32.ofNat <$> number 4

/-- The next 64-bit number. -/
def long : Read64 UInt64 := UInt64.ofNat <$> number 8

/-- The next single-precision value. -/
def single : Read64 Single := Single.mk <$> word

/-- The next header. -/
def header : Read64 Header := do
  let version ← word
  let initialStateOffset ← word
  let variableCount ← word
  let variableListOffset ← word
  let byteCodeSize ← word
  let byteCodeOffset ← word
  return ⟨version, initialStateOffset, variableCount, variableListOffset, byteCodeSize,
    byteCodeOffset⟩

/-- The next field, of a known kind. -/
def field : FieldKind → Read64 Field
  | .word => Field.word <$> word
  | .long => Field.long <$> long
  | .single => Field.single <$> single
  | .header => Field.header <$> header

variable {α β : Type}

/-- Whether two reads do the same on all bytes that can be counted with 64 bits. -/
def Agrees (x : Read α) (y : Read64 α) : Prop :=
  ∀ c : Cursor64, c.bytes.size < 2 ^ 64 →
    (y.run c).2.bytes = c.bytes ∧ x.run c.cursor = ((y.run c).1, (y.run c).2.cursor)

namespace Agrees

variable {x : Read α} {y : Read64 α} {f : α → Read β} {g : α → Read64 β}

theorem pure (a : α) : Agrees (pure a) (pure a) := fun _ _ => ⟨rfl, rfl⟩

theorem bind (h : Agrees x y) (hfg : ∀ a, Agrees (f a) (g a)) : Agrees (x >>= f) (y >>= g) := by
  intro c hc
  obtain ⟨hbytes, hsame⟩ := h c hc
  rw [Read.run_bind, Read.run_bind, hsame]
  generalize y.run c = outcome at hbytes
  obtain ⟨_ | a, c₁⟩ := outcome
  · exact ⟨hbytes, rfl⟩
  · obtain ⟨hbytes', hsame'⟩ := hfg a c₁ (hbytes ▸ hc)
    exact ⟨hbytes'.trans hbytes, hsame'⟩

theorem map (g : α → β) (h : Agrees x y) : Agrees (g <$> x) (g <$> y) := by
  rw [map_eq_pure_bind, map_eq_pure_bind]
  exact h.bind fun a => pure (g a)

theorem number {count : Nat} (hcount : count < 2 ^ 64) :
    Agrees (Read.number count) (number count) := by
  intro c hc
  have hwidth : (UInt64.ofNat count).toNat = count := UInt64.toNat_ofNat_of_lt' hcount
  have htake := c.take_cursor hc (UInt64.ofNat count)
  rw [hwidth] at htake
  have hbytes := c.take_bytes (UInt64.ofNat count)
  show (Read64.number count c).2.bytes = _ ∧
    Read.number count c.cursor = ((Read64.number count c).1, (Read64.number count c).2.cursor)
  rw [Read.number, Read64.number, htake]
  generalize c.take (UInt64.ofNat count) = outcome at hbytes
  obtain ⟨_ | _, c'⟩ := outcome <;> exact ⟨hbytes, rfl⟩

theorem word : Agrees Read.word word := (number (by decide)).map _

theorem long : Agrees Read.long long := (number (by decide)).map _

theorem single : Agrees Read.single single := word.map _

theorem header : Agrees Read.header header :=
  word.bind fun _ => word.bind fun _ => word.bind fun _ => word.bind fun _ => word.bind fun _ =>
    word.bind fun _ => pure _

theorem field (kind : FieldKind) : Agrees (Read.field kind) (field kind) := by
  cases kind with
  | word => exact word.map _
  | long => exact long.map _
  | single => exact single.map _
  | header => exact header.map _

end Agrees

end Read64

/-! ## Writing and reading -/

/-- **Reading undoes writing, and no read goes astray.**  Whatever is written behind some bytes is
read back; a read of one number that fails stays where it was, whatever the bytes and the position;
and positions of 64 bits do not overflow, even for a header. -/
theorem reading_undoes_writing :
    (∀ out fs, ReadBack out fs (fs.foldl writeField out)) ∧
      (∀ (k : NumberKind) c c' e, (Read.field k.kind).run c = (.error e, c') →
        c' = c ∧ e = .truncated c.position k.width) ∧
      ∀ kind, Read64.Agrees (Read.field kind) (Read64.field kind) :=
  ⟨readBack_foldl_writeField, fun _ _ _ _ => Read.eq_of_run_field_number_eq_error,
    Read64.Agrees.field⟩

/-- Fields of all kinds, one of them a value that is no number. -/
def mixedFields : List Field :=
  [.single ⟨0x7fc00001⟩, .header ⟨1, 24, 0, 56, 2, 56⟩, .long 0xaf63dc4c8601ec8c, .word 7]

/-- The last position that 64 bits can name, in two bytes. -/
def lastCursor : Cursor64 := ⟨#[1, 2], 0xffffffffffffffff⟩

theorem reading_undoes_writing_mixed :
    ReadBack #[1, 2] mixedFields (mixedFields.foldl writeField #[1, 2]) ∧
      (Read.field .word).run lastCursor.cursor
        = (.error (.truncated 0xffffffffffffffff 4), lastCursor.cursor) ∧
      lastCursor.bytes.size < 2 ^ 64 ∧
      ((Read64.field .word).run lastCursor).1 = .error (.truncated 0xffffffffffffffff 4) := by
  obtain ⟨hback, hstay, hagree⟩ := reading_undoes_writing
  have hsize : lastCursor.bytes.size < 2 ^ 64 := by decide
  obtain ⟨-, hsame⟩ := hagree .word lastCursor hsize
  obtain ⟨e, c, hfails⟩ : ∃ e c, (Read.field .word).run lastCursor.cursor = (.error e, c) :=
    ⟨_, _, rfl⟩
  obtain ⟨rfl, rfl⟩ := hstay .word _ _ _ hfails
  refine ⟨hback _ _, hfails, hsize, ?_⟩
  exact (Prod.mk.inj (hsame.symm.trans hfails)).1

end Flipbook.Machine
