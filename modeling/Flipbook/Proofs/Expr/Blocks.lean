import Flipbook.Proofs.Expr.Endings
import Flipbook.Proofs.Expr.Wire

/-!
# Proofs/Expr/Blocks — decoding blocks of words

    raw words ──decodeBlock──▸ words ──encode──▸ raw words, the payloads of ends cleared

A block is rejected exactly for its first raw word that is marked as an operation and has the number
of none (`Word.decodeBlock_eq_error`).  What is decoded encodes to the block again, except that an
end keeps no payload (`Word.map_encode_of_decodeBlock`).  In the other direction a program that ends
once comes back if its words are encodable, whatever follows it (`Program.decode_encode_append`).
-/

namespace Flipbook.Expr

theorem Operation.id_of_ofId? {n : Nat} {op : Operation} (h : ofId? n = some op) : op.id = n := by
  have key : ∀ k : Fin all.length, all[k].id = k := by decide
  obtain ⟨hn, rfl⟩ := List.getElem?_eq_some_iff.1 h
  exact key ⟨n, hn⟩

/-- A number is that of an operation, or of none. -/
theorem Operation.ofId?_eq_none {n : Nat} : ofId? n = none ↔ ∀ op : Operation, op.id ≠ n := by
  constructor
  · rintro h op rfl
    rw [ofId?_id] at h
    cases h
  · intro h
    exact Option.eq_none_iff_forall_ne_some.2 fun op hop => h op (id_of_ofId? hop)

namespace Word

/-! ## Single words -/

/-- Whether a raw word is marked as an operation and has the number of none. -/
def NamesNoOperation (raw : UInt32) : Prop :=
  raw.toNat / payloadBound = callTag ∧ ∀ op : Operation, op.id ≠ raw.toNat % payloadBound

/-- A raw word, with its payload cleared if it is marked as an end. -/
def clearEnd (raw : UInt32) : UInt32 :=
  if raw.toNat / payloadBound = finishTag then UInt32.ofNat (finishTag * payloadBound) else raw

/-- A raw word is its tag and its payload. -/
theorem tagged_tag_payload (raw : UInt32) :
    tagged (raw.toNat / payloadBound) (raw.toNat % payloadBound) = raw := by
  rw [tagged, Nat.mod_mod, Nat.mul_comm, Nat.div_add_mod, UInt32.ofNat_toNat]

/-- **A raw word is rejected exactly if it names no operation.** -/
theorem decode_eq_error {raw : UInt32} {e : DecodeError} : decode raw = .error e ↔
    NamesNoOperation raw ∧ e = .unknownOperation (raw.toNat % payloadBound) := by
  unfold decode NamesNoOperation
  rw [← Operation.ofId?_eq_none]
  by_cases hcall : raw.toNat / payloadBound = callTag
  · simp only [hcall, if_true, true_and]
    cases Operation.ofId? (raw.toNat % payloadBound) <;> simp [eq_comm]
  · simp only [hcall, if_false, false_and, iff_false]
    split
    · simp
    split <;> simp

/-- **A decoded word encodes to the raw word**, an end to one without a payload. -/
theorem encode_of_decode {raw : UInt32} {w : Word} (h : decode raw = .ok w) :
    w.encode = clearEnd raw := by
  have hraw := tagged_tag_payload raw
  unfold decode at h
  unfold clearEnd
  dsimp only at h
  split at h
  · rename_i hcall
    split at h
    · rename_i op hop
      obtain rfl := Except.ok.inj h
      have hfinish : callTag ≠ finishTag := by decide
      rw [encode, Operation.id_of_ofId? hop, ← hcall, hraw, if_neg (hcall ▸ hfinish)]
    · cases h
  split at h
  · rename_i hload
    obtain rfl := Except.ok.inj h
    have hfinish : loadTag ≠ finishTag := by decide
    rw [encode, ← hload, hraw, if_neg (hload ▸ hfinish)]
  split at h
  · rename_i hfinish
    obtain rfl := Except.ok.inj h
    rw [if_pos hfinish]
    rfl
  · rename_i hfinish
    obtain rfl := Except.ok.inj h
    rw [if_neg hfinish]
    rfl

/-! ## Blocks -/

/-- Whether the raw word at a position is the first of a block that names no operation. -/
def FirstUnnamed (raw : List UInt32) (i : Nat) : Prop :=
  (∃ w, raw[i]? = some w ∧ NamesNoOperation w) ∧
    ∀ j < i, ∀ w, raw[j]? = some w → ¬ NamesNoOperation w

theorem not_firstUnnamed_nil (i : Nat) : ¬ FirstUnnamed [] i := by
  rintro ⟨⟨w, hw, -⟩, -⟩
  cases hw

theorem firstUnnamed_cons_zero {w : UInt32} {raw : List UInt32} :
    FirstUnnamed (w :: raw) 0 ↔ NamesNoOperation w := by
  simp [FirstUnnamed]

theorem firstUnnamed_cons_succ {w : UInt32} {raw : List UInt32} {i : Nat} :
    FirstUnnamed (w :: raw) (i + 1) ↔ ¬ NamesNoOperation w ∧ FirstUnnamed raw i := by
  simp only [FirstUnnamed, List.getElem?_cons_succ]
  constructor
  · rintro ⟨hi, hbefore⟩
    exact ⟨hbefore 0 (Nat.succ_pos i) w rfl, hi, fun j hj w' hw' =>
      hbefore (j + 1) (Nat.succ_lt_succ hj) w' hw'⟩
  · rintro ⟨hw, hi, hbefore⟩
    refine ⟨hi, fun j hj w' hw' => ?_⟩
    cases j with
    | zero =>
      obtain rfl := Option.some.inj hw'
      exact hw
    | succ j => exact hbefore j (Nat.lt_of_succ_lt_succ hj) w' hw'

theorem namesNoOperation_of_decode_ok {raw : UInt32} {w : Word} (h : decode raw = .ok w) :
    ¬ NamesNoOperation raw := by
  intro hnone
  rw [decode_eq_error.2 ⟨hnone, rfl⟩] at h
  cases h

/-- A block is rejected at its first word without an operation, counted from where it begins. -/
theorem go_eq_error {raw : List UInt32} {start i : Nat} {e : DecodeError} :
    decodeBlock.go start raw = .error (i, e) ↔ ∃ k, i = start + k ∧ FirstUnnamed raw k ∧
      ∃ w, raw[k]? = some w ∧ e = .unknownOperation (w.toNat % payloadBound) := by
  induction raw generalizing start with
  | nil =>
    rw [decodeBlock.go]
    simp [not_firstUnnamed_nil]
  | cons w raw ih =>
    rw [decodeBlock.go]
    cases hw : decode w with
    | error e' =>
      obtain ⟨hnone, rfl⟩ := decode_eq_error.1 hw
      constructor
      · rintro ⟨⟩
        exact ⟨0, rfl, firstUnnamed_cons_zero.2 hnone, w, rfl, rfl⟩
      · rintro ⟨_ | k, rfl, hfirst, w', hw', rfl⟩
        · obtain rfl := Option.some.inj hw'
          rfl
        · exact absurd hnone (firstUnnamed_cons_succ.1 hfirst).1
    | ok word =>
      have hnamed := namesNoOperation_of_decode_ok hw
      dsimp only
      rw [map_eq_error, ih]
      constructor
      · rintro ⟨k, rfl, hfirst, hlater⟩
        exact ⟨k + 1, by omega, firstUnnamed_cons_succ.2 ⟨hnamed, hfirst⟩, hlater⟩
      · rintro ⟨_ | k, rfl, hfirst, hlater⟩
        · exact absurd (firstUnnamed_cons_zero.1 hfirst) hnamed
        · exact ⟨k, by omega, (firstUnnamed_cons_succ.1 hfirst).2, hlater⟩

/-- **A block is rejected exactly at its first word that names no operation.** -/
theorem decodeBlock_eq_error {raw : List UInt32} {i : Nat} {e : DecodeError} :
    decodeBlock raw = .error (i, e) ↔ FirstUnnamed raw i ∧
      ∃ w, raw[i]? = some w ∧ e = .unknownOperation (w.toNat % payloadBound) := by
  rw [decodeBlock, go_eq_error]
  constructor
  · rintro ⟨k, rfl, h⟩
    rwa [Nat.zero_add]
  · exact fun h => ⟨i, (Nat.zero_add i).symm, h⟩

theorem map_encode_of_go {raw : List UInt32} {start : Nat} {ws : List Word}
    (h : decodeBlock.go start raw = .ok ws) : ws.map encode = raw.map clearEnd := by
  induction raw generalizing start ws with
  | nil =>
    obtain rfl := Except.ok.inj h
    rfl
  | cons w raw ih =>
    rw [decodeBlock.go] at h
    split at h
    · rename_i word hw
      obtain ⟨rest, hrest, rfl⟩ := map_eq_ok.1 h
      rw [List.map_cons, List.map_cons, encode_of_decode hw, ih hrest]
    · cases h

/-- **What is decoded encodes to the block**, its ends without a payload. -/
theorem map_encode_of_decodeBlock {raw : List UInt32} {ws : List Word}
    (h : decodeBlock raw = .ok ws) : ws.map encode = raw.map clearEnd :=
  map_encode_of_go h

end Word

/-! ## Both directions -/

/-- **A program that ends once comes back if its words are encodable**, whatever follows it. -/
theorem Program.decode_encode_append {p : Program} (hends : p.EndsOnce)
    (henc : ∀ w ∈ p.words, w.Encodable) (rest : List UInt32) :
    decode (p.encode ++ rest) = .ok p := by
  obtain ⟨body, hwords, hno⟩ := endsOnce_iff_exists.1 hends
  have hbody : ∀ w ∈ body, w.Encodable := fun w hw =>
    henc w (hwords ▸ List.mem_append_left _ hw)
  obtain ⟨words⟩ := p
  obtain rfl : words = body ++ [.finish] := hwords
  rw [decode, map_eq_ok]
  refine ⟨_, ?_, rfl⟩
  rw [encode, List.map_append, List.append_assoc]
  exact decodeWords_append hno hbody rest

/-- **The words of a block can be told from their 32-bit forms.**  Decoding a block fails exactly at
the first raw word that names no operation; otherwise it gives words that encode to the block with
the payloads of ends cleared.  And a program that ends once, in which no literal carries a tag and
every variable has a number that fits, is decoded from its encoding with anything behind it. -/
theorem decodeBlock_faithful :
    (∀ raw i, (∃ e, Word.decodeBlock raw = .error (i, e)) ↔ Word.FirstUnnamed raw i) ∧
    (∀ raw, (∃ i, Word.FirstUnnamed raw i) ∨
      ∃ ws, Word.decodeBlock raw = .ok ws ∧ ws.map Word.encode = raw.map Word.clearEnd) ∧
    ∀ (p : Program) (rest : List UInt32), p.EndsOnce → (∀ w ∈ p.words, w.Encodable) →
      Program.decode (p.encode ++ rest) = .ok p := by
  refine ⟨fun raw i => ?_, fun raw => ?_, fun p rest hends henc =>
    Program.decode_encode_append hends henc rest⟩
  · simp only [Word.decodeBlock_eq_error]
    constructor
    · rintro ⟨e, hfirst, -⟩
      exact hfirst
    · intro hfirst
      obtain ⟨w, hw, -⟩ := hfirst.1
      exact ⟨_, hfirst, w, hw, rfl⟩
  · cases h : Word.decodeBlock raw with
    | error failure => exact .inl ⟨failure.1, (Word.decodeBlock_eq_error.1 h).1⟩
    | ok ws => exact .inr ⟨ws, rfl, Word.map_encode_of_decodeBlock h⟩

/-- The program that doubles a variable. -/
def double : Program := ⟨[.load 3, .push ⟨0x40000000⟩, .call .mul, .finish]⟩

theorem decodeBlock_faithful_double : double.EndsOnce ∧ (∀ w ∈ double.words, w.Encodable) ∧
    Program.decode (double.encode ++ [0x7f800042]) = .ok double := by
  have hends : double.EndsOnce :=
    Program.endsOnce_iff_exists.2 ⟨[.load 3, .push ⟨0x40000000⟩, .call .mul], rfl, by decide⟩
  have henc : ∀ w ∈ double.words, w.Encodable := by decide
  exact ⟨hends, henc, decodeBlock_faithful.2.2 double [0x7f800042] hends henc⟩

end Flipbook.Expr
