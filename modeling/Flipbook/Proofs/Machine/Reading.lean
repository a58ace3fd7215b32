import Flipbook.Machine.Load

/-!
# Proofs/Machine/Reading — what a read says about the bytes

Two views of a read that succeeds.  `Sized read n` looks back: a success of `read` has moved over
`n` bytes, within the bytes.  `Reads read position bs value` looks ahead: `read` gives `value`
wherever the bytes at `position` begin with `bs`, and moves over them.  Both are closed under the
ways in which reads are put together.
-/

namespace Flipbook.Machine.Read

variable {α β : Type} {c c' : Cursor}

/-! ## Steps -/

theorem run_get (c : Cursor) : (get : Read Cursor).run c = (.ok c, c) := rfl

theorem run_get_eq_ok {a : Cursor} : (get : Read Cursor).run c = (.ok a, c') ↔ c = a ∧ c = c' := by
  constructor
  · rintro ⟨⟩
    exact ⟨rfl, rfl⟩
  · rintro ⟨rfl, rfl⟩
    rfl

theorem run_pure_eq_ok {a b : α} : (pure a : Read α).run c = (.ok b, c') ↔ a = b ∧ c = c' := by
  constructor
  · rintro ⟨⟩
    exact ⟨rfl, rfl⟩
  · rintro ⟨rfl, rfl⟩
    rfl

theorem run_throw_ne_ok {e : LoadError} {a : α} : (throw e : Read α).run c ≠ (.ok a, c') := by
  rintro ⟨⟩

/-- A second read goes on where the first one ended; after a failure nothing more is read. -/
theorem run_bind {σ : Type} (x : ExceptT LoadError (StateM σ) α)
    (f : α → ExceptT LoadError (StateM σ) β) (s : σ) :
    (x >>= f).run s =
      match x.run s with
      | (.ok a, s₁) => (f a).run s₁
      | (.error e, s₁) => (.error e, s₁) := by
  show ExceptT.bindCont f (x.run s).1 (x.run s).2 = _
  obtain ⟨_ | a, s₁⟩ := x.run s <;> rfl

/-- Two reads succeed where the second one does behind the first. -/
theorem run_bind_eq_ok {x : Read α} {f : α → Read β} {b : β} :
    (x >>= f).run c = (.ok b, c') ↔
      ∃ a c₁, x.run c = (.ok a, c₁) ∧ (f a).run c₁ = (.ok b, c') := by
  suffices key : ∀ outcome : Except LoadError α × Cursor,
      ExceptT.bindCont f outcome.1 outcome.2 = (.ok b, c') ↔
        ∃ a c₁, outcome = (.ok a, c₁) ∧ (f a).run c₁ = (.ok b, c') from key (x.run c)
  rintro ⟨_ | a, c₁⟩
  · refine ⟨fun h => ?_, by rintro ⟨_, _, h, -⟩; cases h⟩
    cases (Prod.mk.inj h).1
  · exact ⟨fun h => ⟨a, c₁, rfl, h⟩, by rintro ⟨_, _, ⟨⟩, h⟩; exact h⟩

/-- Changing what is read moves nothing. -/
theorem run_map (g : α → β) (x : Read α) (c : Cursor) :
    (g <$> x).run c = ((x.run c).1.map g, (x.run c).2) := by
  rw [map_eq_pure_bind, run_bind]
  obtain ⟨_ | a, c'⟩ := x.run c <;> rfl

theorem run_map_eq_ok {g : α → β} {x : Read α} {b : β} :
    (g <$> x).run c = (.ok b, c') ↔ ∃ a, x.run c = (.ok a, c') ∧ g a = b := by
  rw [map_eq_pure_bind, run_bind_eq_ok]
  constructor
  · rintro ⟨a, c₁, ha, hpure⟩
    obtain ⟨rfl, rfl⟩ := run_pure_eq_ok.1 hpure
    exact ⟨a, ha, rfl⟩
  · rintro ⟨a, ha, rfl⟩
    exact ⟨a, c', ha, rfl⟩

/-- **A number is read where its bytes are all there.** -/
theorem run_number_eq_ok {count value : Nat} :
    (number count).run c = (.ok value, c') ↔ c.position + count ≤ c.bytes.size ∧
      ofLittleEndian ((c.bytes.toList.drop c.position).take count) = value ∧
      c' = { c with position := c.position + count } := by
  have htake : (c.bytes.extract c.position (c.position + count)).toList
      = (c.bytes.toList.drop c.position).take count := by
    simp
  show number count c = _ ↔ _
  rw [number, Cursor.take]
  by_cases h : c.position + count ≤ c.bytes.size
  · simp only [h, if_true, htake, true_and, eq_comm (a := c')]
    exact Prod.ext_iff.trans (and_congr_left' ⟨Except.ok.inj, congrArg _⟩)
  · simp only [h, if_false, false_and, iff_false]
    exact fun heq => by cases (Prod.mk.inj heq).1

/-- A number whose bytes are not all there is not read. -/
theorem run_number_of_lt {count : Nat} (h : c.bytes.size < c.position + count) :
    (number count).run c = (.error (.truncated c.position count), c) := by
  show number count c = _
  rw [number, Cursor.take, if_neg (Nat.not_le.2 h)]

/-! ## Looking back -/

/-- Whether every success of a read has moved over `size` bytes, without leaving the bytes. -/
def Sized (read : Read α) (size : Nat) : Prop :=
  ∀ c c' value, read.run c = (.ok value, c') → c' = { c with position := c.position + size } ∧
    (c.position ≤ c.bytes.size → c.position + size ≤ c.bytes.size)

namespace Sized

variable {x : Read α} {f : α → Read β} {m n : Nat}

theorem pure (a : α) : Sized (pure a) 0 := by
  intro c c' value h
  obtain ⟨-, rfl⟩ := run_pure_eq_ok.1 h
  exact ⟨rfl, id⟩

theorem throw (e : LoadError) : Sized (throw e : Read α) n := by
  intro c c' value h
  exact absurd h run_throw_ne_ok

theorem bind (hx : Sized x m) (hf : ∀ a, Sized (f a) n) : Sized (x >>= f) (m + n) := by
  intro c c' value h
  obtain ⟨a, c₁, h₁, h₂⟩ := run_bind_eq_ok.1 h
  obtain ⟨rfl, hm⟩ := hx _ _ _ h₁
  obtain ⟨rfl, hn⟩ := hf a _ _ _ h₂
  rw [← Nat.add_assoc]
  exact ⟨rfl, fun hc => hn (hm hc)⟩

theorem map (g : α → β) (hx : Sized x n) : Sized (g <$> x) n := by
  intro c c' value h
  obtain ⟨a, ha, -⟩ := run_map_eq_ok.1 h
  exact hx _ _ _ ha

theorem number (count : Nat) : Sized (number count) count := by
  intro c c' value h
  obtain ⟨hroom, -, rfl⟩ := run_number_eq_ok.1 h
  exact ⟨rfl, fun _ => hroom⟩

theorem word : Sized word 4 := (number 4).map _

theorem long : Sized long 8 := (number 8).map _

theorem single : Sized single 4 := word.map _

theorem nat : Sized nat 4 := word.map _

theorem transition (offset : Nat) : Sized (transition offset) Layout.transitionSize := by
  refine word.bind (n := 8) fun event => nat.bind (n := 4) fun target => nat.bind (n := 0) ?_
  intro number
  split
  · exact pure _
  · exact throw _

theorem animation : Sized animation Layout.animationSize :=
  long.bind (n := 8) fun _ => nat.bind (n := 4) fun _ => word.bind (n := 0) fun _ => pure _

theorem times (hx : Sized x n) (count : Nat) : Sized (times count x) (count * n) := by
  induction count with
  | zero =>
    rw [Nat.zero_mul]
    exact pure []
  | succ count ih =>
    have hnext : Sized (Read.times (count + 1) x) (n + (count * n + 0)) :=
      hx.bind fun first => ih.bind fun rest => pure (first :: rest)
    have hsize : n + (count * n + 0) = (count + 1) * n := by rw [Nat.succ_mul, Nat.add_comm n]; rfl
    rwa [hsize] at hnext

end Sized

/-- **A repeated read gives one value after another**, each where those before it end. -/
theorem run_times_eq_ok {x : Read α} {n count : Nat} (hx : Sized x n) {values : List α}
    (h : (times count x).run c = (.ok values, c')) :
    values.length = count ∧ ∀ i value, values[i]? = some value →
      ∃ c₁, x.run { c with position := c.position + i * n } = (.ok value, c₁) := by
  induction count generalizing c c' values with
  | zero =>
    obtain ⟨rfl, -⟩ := run_pure_eq_ok.1 h
    simp
  | succ count ih =>
    obtain ⟨first, c₁, hfirst, h⟩ := run_bind_eq_ok.1 h
    obtain ⟨rest, c₂, hrest, h⟩ := run_bind_eq_ok.1 h
    obtain ⟨rfl, -⟩ := run_pure_eq_ok.1 h
    obtain ⟨rfl, -⟩ := hx _ _ _ hfirst
    obtain ⟨hlen, hat⟩ := ih hrest
    refine ⟨by rw [List.length_cons, hlen], fun i value hi => ?_⟩
    cases i with
    | zero =>
      obtain rfl := Option.some.inj hi
      rw [Nat.zero_mul]
      exact ⟨_, hfirst⟩
    | succ i =>
      obtain ⟨c₁, hvalue⟩ := hat i value hi
      rw [Nat.succ_mul, Nat.add_comm (i * n), ← Nat.add_assoc]
      exact ⟨c₁, hvalue⟩

/-! ## Looking ahead -/

/-- Whether a read gives `value` wherever the bytes at `position` begin with `bs`, and moves over
them. -/
def Reads (read : Read α) (position : Nat) (bs : List UInt8) (value : α) : Prop :=
  ∀ bytes : Blob, bs <+: bytes.toList.drop position →
    read.run ⟨bytes, position⟩ = (.ok value, ⟨bytes, position + bs.length⟩)

namespace Reads

variable {x : Read α} {f : α → Read β} {a : α} {b : β} {position : Nat} {bs bs' : List UInt8}

theorem pure (a : α) (position : Nat) : Reads (pure a) position [] a := fun _ _ => rfl

theorem bind (hx : Reads x position bs a) (hf : Reads (f a) (position + bs.length) bs' b) :
    Reads (x >>= f) position (bs ++ bs') b := by
  intro bytes h
  obtain ⟨later, hlater⟩ := h
  have hfirst : bs <+: bytes.toList.drop position := ⟨bs' ++ later, by rw [← hlater]; simp⟩
  have hsecond : bs' <+: bytes.toList.drop (position + bs.length) := by
    rw [← List.drop_drop, ← hlater, List.append_assoc, List.drop_left]
    exact List.prefix_append _ _
  refine run_bind_eq_ok.2 ⟨a, _, hx bytes hfirst, ?_⟩
  rw [List.length_append, ← Nat.add_assoc]
  exact hf bytes hsecond

theorem map (g : α → β) (hx : Reads x position bs a) : Reads (g <$> x) position bs (g a) :=
  fun bytes h => run_map_eq_ok.2 ⟨a, hx bytes h, rfl⟩

theorem number {width : Nat} (hwidth : 0 < width) (value position : Nat) :
    Reads (number width) position (littleEndian width value) (value % pow2 (8 * width)) := by
  intro bytes h
  have hlen := h.length_le
  rw [length_littleEndian, List.length_drop, Array.length_toList] at hlen
  have htake : (bytes.toList.drop position).take width = littleEndian width value := by
    simpa using (List.prefix_iff_eq_take.1 h).symm
  refine run_number_eq_ok.2 ⟨?_, ?_, ?_⟩
  · show position + width ≤ bytes.size
    omega
  · show ofLittleEndian ((bytes.toList.drop position).take width) = _
    rw [htake, ofLittleEndian_littleEndian]
  · rw [length_littleEndian]

theorem word (w : UInt32) (position : Nat) : Reads word position (wordBytes w) w := by
  have h := (number (show 0 < 4 by decide) w.toNat position).map UInt32.ofNat
  have hsmall : w.toNat % pow2 (8 * 4) = w.toNat := Nat.mod_eq_of_lt w.toNat_lt
  rwa [hsmall, UInt32.ofNat_toNat] at h

theorem long (n : UInt64) (position : Nat) :
    Reads long position (littleEndian 8 n.toNat) n := by
  have h := (number (show 0 < 8 by decide) n.toNat position).map UInt64.ofNat
  have hsmall : n.toNat % pow2 (8 * 8) = n.toNat := Nat.mod_eq_of_lt n.toNat_lt
  rwa [hsmall, UInt64.ofNat_toNat] at h

theorem single (v : Single) (position : Nat) : Reads single position (wordBytes v.bits) v :=
  (word v.bits position).map Single.mk

/-- A number is read back where it fits a word. -/
theorem nat {n : Nat} (hn : n < 0x100000000) (position : Nat) :
    Reads nat position (wordBytes (UInt32.ofNat n)) n := by
  have h := (word (UInt32.ofNat n) position).map UInt32.toNat
  rwa [UInt32.toNat_ofNat_of_lt' hn] at h

/-- **A repeated read gives all values of a list**, if it gives each where it begins. -/
theorem times {γ : Type} {encode : γ → List UInt8} {decode : γ → α} (entries : List γ)
    (h : ∀ entry ∈ entries, ∀ position, Reads x position (encode entry) (decode entry))
    (position : Nat) :
    Reads (times entries.length x) position (entries.flatMap encode) (entries.map decode) := by
  induction entries generalizing position with
  | nil => exact pure [] position
  | cons entry entries ih =>
    obtain ⟨hentry, hrest⟩ := List.forall_mem_cons.1 h
    have hnext : Reads (Read.times (entries.length + 1) x) position
        (encode entry ++ (entries.flatMap encode ++ [])) (decode entry :: entries.map decode) :=
      (hentry position).bind ((ih hrest _).bind (pure _ _))
    rwa [List.append_nil] at hnext

end Reads

end Flipbook.Machine.Read
