import Flipbook.Proofs.Expr.Compiled

/-!
# Proofs/Expr/Wire — which words and programs survive encoding

A word comes back from its 32-bit form exactly if it is `Encodable`: a literal whose pattern carries
none of the three tags, or a variable whose number fits (`decode_encode_iff`).  A program that ends
once, at its last word, comes back exactly if all its words do, whatever follows
(`decodeWords_append`, `encodable_of_decodeWords`).

Finite literals carry no tag, so what compilation computes or reads as a number is safe.  A constant
goes into a program as it is: `compiled_survive_iff` says that all programs of an environment come
back exactly if none of the constants that a source can name carries a tag.
-/

namespace Flipbook.Expr

namespace Word

/-- Whether a 32-bit form carries one of the three tags. -/
def IsTagged (raw : UInt32) : Prop :=
  raw.toNat / payloadBound = callTag ∨ raw.toNat / payloadBound = loadTag ∨
    raw.toNat / payloadBound = finishTag

instance (raw : UInt32) : Decidable (IsTagged raw) :=
  inferInstanceAs (Decidable (_ ∨ _ ∨ _))

/-- Whether a word can be told from its 32-bit form. -/
def Encodable : Word → Prop
  | push value => ¬ IsTagged value.bits
  | load index => index < payloadBound
  | call _ | finish => True

instance : (w : Word) → Decidable w.Encodable
  | push value => inferInstanceAs (Decidable (¬ IsTagged value.bits))
  | load index => inferInstanceAs (Decidable (index < payloadBound))
  | call _ | finish => inferInstanceAs (Decidable True)

/-- **Tags are patterns of values that are not finite.** -/
theorem not_isTagged_of_isFinite {value : Single} (h : value.isFinite) :
    ¬ IsTagged value.bits := by
  have hinf : BinaryFormat.single.infinity = 0x7f800000 := rfl
  have hlt : value.bits.toNat % 0x80000000 < 0x7f800000 := by
    simpa [Single.isFinite, Single.pattern, Single.signBit, hinf] using h
  have hbits := value.bits.toNat_lt
  simp only [IsTagged, payloadBound, callTag, loadTag, finishTag]
  omega

/-- The payload and the tag of a tagged form. -/
theorem toNat_tagged {tag : Nat} (htag : tag < 0x1000) (payload : Nat) :
    (tagged tag payload).toNat / payloadBound = tag ∧
      (tagged tag payload).toNat % payloadBound = payload % payloadBound := by
  have hpayload : payload % payloadBound < payloadBound := Nat.mod_lt _ (by decide)
  have hval : (tagged tag payload).toNat = tag * payloadBound + payload % payloadBound := by
    rw [tagged, UInt32.toNat_ofNat_of_lt']
    simp only [payloadBound, UInt32.size] at *
    omega
  rw [hval]
  simp only [payloadBound] at *
  omega

/-- A form is read as a literal exactly if it carries no tag. -/
theorem decode_eq_push {raw : UInt32} {value : Single} :
    decode raw = .ok (push value) ↔ ¬ IsTagged raw ∧ value.bits = raw := by
  unfold decode IsTagged
  by_cases hcall : raw.toNat / payloadBound = callTag
  · simp only [hcall, if_true, true_or, not_true, false_and, iff_false]
    cases Operation.ofId? (raw.toNat % payloadBound) <;> simp
  by_cases hload : raw.toNat / payloadBound = loadTag
  · rw [if_neg hcall, if_pos hload]
    simp [hload]
  by_cases hfinish : raw.toNat / payloadBound = finishTag
  · rw [if_neg hcall, if_neg hload, if_pos hfinish]
    simp [hfinish]
  · obtain ⟨bits⟩ := value
    simp [hcall, hload, hfinish, eq_comm]

theorem decode_load (index : Nat) :
    decode (load index).encode = .ok (load (index % payloadBound)) := by
  obtain ⟨htag, hpayload⟩ := toNat_tagged (show loadTag < 0x1000 by decide) index
  have hne : loadTag ≠ callTag := by decide
  simp [encode, decode, htag, hpayload, hne]

theorem decode_call (op : Operation) : decode (call op).encode = .ok (call op) := by
  obtain ⟨htag, hpayload⟩ := toNat_tagged (show callTag < 0x1000 by decide) op.id
  have hid : op.id % payloadBound = op.id :=
    Nat.mod_eq_of_lt (Nat.lt_trans op.id_lt (by decide))
  simp [encode, decode, htag, hpayload, hid]

theorem decode_finish : decode finish.encode = .ok finish := by decide

/-- **A word comes back exactly if it is encodable.** -/
theorem decode_encode_iff {w : Word} : decode w.encode = .ok w ↔ w.Encodable := by
  cases w with
  | push value => exact decode_eq_push.trans (and_iff_left rfl)
  | load index =>
    rw [decode_load, Except.ok.injEq, load.injEq, Encodable]
    exact ⟨fun h => h ▸ Nat.mod_lt _ (by decide), Nat.mod_eq_of_lt⟩
  | call op => exact iff_of_true (decode_call op) trivial
  | finish => exact iff_of_true decode_finish trivial

end Word

/-! ## Programs -/

namespace Program

/-- **A body of encodable words comes back with its end**, whatever follows. -/
theorem decodeWords_append {body : List Word} (hno : Word.finish ∉ body)
    (henc : ∀ w ∈ body, w.Encodable) (rest : List UInt32) :
    decodeWords (body.map Word.encode ++ Word.finish.encode :: rest) = .ok (body ++ [.finish]) := by
  induction body with
  | nil => rw [List.map_nil, List.nil_append, decodeWords, Word.decode_finish]; rfl
  | cons w body ih =>
    obtain ⟨hw, hbody⟩ := List.forall_mem_cons.1 henc
    have hrest := ih (fun h => hno (List.mem_cons_of_mem _ h)) hbody
    rw [List.map_cons, List.cons_append, decodeWords, Word.decode_encode_iff.2 hw]
    cases w with
    | finish => exact absurd List.mem_cons_self hno
    | push | load | call =>
      show (_ >>= _) = _
      rw [hrest]
      rfl

/-- Only encodable words come back. -/
theorem encodable_of_decodeWords {body : List Word} {raw : List UInt32}
    (h : decodeWords (body.map Word.encode ++ raw) = .ok (body ++ [.finish])) :
    ∀ w ∈ body, w.Encodable := by
  induction body with
  | nil => exact fun w hw => absurd hw List.not_mem_nil
  | cons w body ih =>
    rw [List.map_cons, List.cons_append, decodeWords, bind_eq_ok] at h
    obtain ⟨v, hv, h⟩ := h
    split at h
    · -- an end that is read stops the reading, so nothing can have followed it
      obtain ⟨-, hnil⟩ := List.cons.inj (pure_eq_ok.1 h)
      exact absurd hnil.symm (List.append_ne_nil_of_right_ne_nil _ (List.cons_ne_nil _ _))
    · obtain ⟨later, hlater, h⟩ := bind_eq_ok.1 h
      obtain ⟨rfl, rfl⟩ := List.cons.inj (pure_eq_ok.1 h)
      exact List.forall_mem_cons.2 ⟨Word.decode_encode_iff.1 hv, ih hlater⟩

/-- **A program that ends once comes back exactly if all its words are encodable.** -/
theorem decode_encode_iff {p : Program} {body : List Word} (hp : p.words = body ++ [.finish])
    (hno : Word.finish ∉ body) : decode p.encode = .ok p ↔ ∀ w ∈ body, w.Encodable := by
  obtain ⟨words⟩ := p
  obtain rfl : words = body ++ [.finish] := hp
  rw [decode, map_eq_ok, encode, List.map_append]
  constructor
  · rintro ⟨words, h, hwords⟩
    obtain rfl := Program.mk.inj hwords
    exact encodable_of_decodeWords h
  · exact fun h => ⟨_, decodeWords_append hno h [], rfl⟩

end Program

/-! ## Compiled programs -/

/-- A word of a compiled program is encodable, unless it pushes the value of a constant that carries
a tag, or loads a variable whose number does not fit. -/
theorem Word.CompiledIn.encodable {env : Environment} (hcount : env.variableCount ≤ payloadBound)
    (hconstants : ∀ name value, env.Names name value → ¬ IsTagged value.bits) {w : Word}
    (hw : w.CompiledIn env) : w.Encodable := by
  cases w with
  | push value =>
    rcases hw with hfin | ⟨name, hname⟩
    · exact not_isTagged_of_isFinite hfin
    · exact hconstants name value hname
  | load index => exact Nat.lt_of_lt_of_le hw hcount
  | call | finish => trivial

/-- The name of a constant is compiled to the literal of its value. -/
theorem compile_name {env : Environment} {name : String} {value : Single}
    (h : env.Names name value) : compile name env = .ok (.constant value) :=
  compile_eq_ok.2 ⟨_, _, _, tokenize_name h.isName h.ofName?_eq, rfl, rfl, rfl, rfl⟩

/-- Whether a program has no literal that carries a tag, and comes back from its encoding. -/
def Program.Survives (p : Program) : Prop :=
  (∀ value, .push value ∈ p.words → ¬ Word.IsTagged value.bits) ∧ decode p.encode = .ok p

/-- A compiled program comes back from its encoding exactly if no literal of it carries a tag. -/
theorem decode_compiled_iff {source : String} {env : Environment} {p : Program}
    (hcount : env.variableCount ≤ Word.payloadBound) (h : compile source env = .ok p) :
    Program.decode p.encode = .ok p ↔
      ∀ value, .push value ∈ p.words → ¬ Word.IsTagged value.bits := by
  obtain ⟨body, hwords, hbody, -⟩ := compiled_spec h
  have hno : Word.finish ∉ body := fun h => hbody _ h
  have hmem : ∀ value, .push value ∈ p.words ↔ .push value ∈ body := by simp [hwords]
  rw [Program.decode_encode_iff hwords hno]
  simp only [hmem]
  constructor
  · exact fun henc value hvalue => henc _ hvalue
  · intro hliterals w hw
    cases w with
    | push value => exact hliterals value hw
    | load index => exact Nat.lt_of_lt_of_le (hbody _ hw) hcount
    | call | finish => trivial

/-- **The programs of an environment survive encoding exactly if no constant that a source can name
carries a tag.**  Each program by itself comes back exactly if none of its literals carries one. -/
theorem compiled_survive_iff {env : Environment} (hcount : env.variableCount ≤ Word.payloadBound) :
    (∀ source p, compile source env = .ok p → (Program.decode p.encode = .ok p ↔
        ∀ value, .push value ∈ p.words → ¬ Word.IsTagged value.bits)) ∧
      ((∀ source p, compile source env = .ok p → p.Survives) ↔
        ∀ name value, env.Names name value → ¬ Word.IsTagged value.bits) := by
  refine ⟨fun source p => decode_compiled_iff hcount, fun h name value hname => ?_, ?_⟩
  · exact (h name _ (compile_name hname)).1 value List.mem_cons_self
  · intro hconstants source p hp
    obtain ⟨body, hwords, hbody, -⟩ := compiled_spec hp
    have hliterals : ∀ value, .push value ∈ p.words → ¬ Word.IsTagged value.bits := by
      intro value hvalue
      rw [hwords, List.mem_append, List.mem_singleton] at hvalue
      rcases hvalue with hvalue | hvalue
      · exact (hbody _ hvalue).encodable hcount hconstants
      · cases hvalue
    exact ⟨hliterals, (decode_compiled_iff hcount hp).2 hliterals⟩

/-- One variable and the default constants are safe. -/
theorem compiled_survive_defaultConstants :
    ((Environment.ofVariables ["speed"]).withConstants defaultConstants).variableCount
        ≤ Word.payloadBound ∧
      ∀ source p, compile source
        ((Environment.ofVariables ["speed"]).withConstants defaultConstants) = .ok p →
          p.Survives := by
  refine ⟨by decide, (compiled_survive_iff (by decide)).2.2 fun name value hname => ?_⟩
  have hmem := hname.mem_constants
  rw [Environment.constants_withConstants, (Environment.ofVariables_spec _).1] at hmem
  obtain ⟨rfl, rfl⟩ : name = "PI" ∧ value = ⟨0x40490fdb⟩ := by
    simpa [defaultConstants] using hmem
  decide

/-- **An infinite constant does not survive**: it is compiled to a literal that is read as an
operation. -/
theorem compiled_infinity_lost :
    ∃ p, compile "INF" (Environment.empty.constant "INF" ⟨0x7f800000⟩) = .ok p ∧
      .push ⟨0x7f800000⟩ ∈ p.words ∧ Word.IsTagged 0x7f800000 ∧
      Program.decode p.encode = .ok ⟨[.call .add, .finish]⟩ :=
  ⟨⟨[.push ⟨0x7f800000⟩, .finish]⟩, by decide +kernel, by decide, by decide, by decide⟩

end Flipbook.Expr
