import Flipbook.Proofs.Machine.Loading
import Mathlib.Algebra.Group.Nat.Defs

/-!
# Proofs/Machine/Guarded — loading within fixed-width integers

`load` counts with natural numbers and cuts slices to what is there.  `Guarded.load` takes the same
steps with sums of 64 bits, with offsets and numbers of states of 32 bits, and with slices that have
to lie within the bytes; where one of them does not fit it traps.  `Guarded.load_eq_lift` says that
it never traps and otherwise does what `load` does, whatever the bytes.
-/

namespace Flipbook.Machine

namespace Guarded

/-- Why guarded steps cannot go on. -/
inductive Trap where
  /-- A slice reaches beyond the bytes. -/
  | outOfRange
  /-- A number does not fit its width. -/
  | overflow
deriving DecidableEq, Repr

/-- Steps that may trap, and may fail with an error of their own. -/
abbrev Guard (ε α : Type) := ExceptT ε (Except Trap) α

/-- Steps that cannot trap. -/
def lift {ε α : Type} (x : Except ε α) : Guard ε α := ExceptT.mk (.ok x)

/-- Stops without a result. -/
def trap {ε α : Type} (t : Trap) : Guard ε α := ExceptT.mk (.error t)

/-- A number that has to fit some bits. -/
def fit {ε : Type} (bits n : Nat) : Guard ε Nat :=
  if n < 2 ^ bits then lift (.ok n) else trap .overflow

/-- The first bytes, as many of them as there have to be. -/
def slice {ε : Type} (bytes : Blob) (stop : Nat) : Guard ε Blob :=
  if stop ≤ bytes.size then lift (.ok (bytes.extract 0 stop)) else trap .outOfRange

/-- The end of a region of `count` entries; fails where it overflows or lies outside the bytes. -/
def regionEnd (bytes : Blob) (region : Region) (start count stride : Nat) : Guard LoadError Nat :=
  if count * stride < 2 ^ 64 ∧ start + count * stride < 2 ^ 64 ∧
      start + count * stride ≤ bytes.size then
    lift (.ok (start + count * stride))
  else lift (.error (.outOfBounds region start))

/-- State records up to the end of the bytes, behind `count` others. -/
def states : (fuel count : Nat) → Cursor → Guard LoadError (List StoredState)
  | 0, _, _ => lift (.ok [])
  | fuel + 1, count, c =>
    if c.remaining = 0 then lift (.ok [])
    else do
      let _ ← fit 32 c.position
      match Read.state.run c with
      | (.error e, _) => lift (.error e)
      | (.ok first, c') => do
        let _ ← fit 32 count
        let rest ← states fuel (count + 1) c'
        lift (.ok (first :: rest))

/-- Follows words that find `depth` values on the stack. -/
def verifyWords (vars : Nat) : (depth : Nat) → List Expr.Word → Guard ProgramFlaw Unit
  | _, [] => lift (.error .unterminated)
  | depth, .push _ :: ws => do verifyWords vars (← fit 64 (depth + 1)) ws
  | depth, .load index :: ws =>
    if index < vars then do verifyWords vars (← fit 64 (depth + 1)) ws
    else lift (.error (.unknownVariable index))
  | depth, .call op :: ws =>
    if depth < op.arity then lift (.error .malformed)
    else do
      verifyWords vars
        (← fit 64 (depth - op.arity + if op.producesValue then 1 else 0)) ws
  | depth, .finish :: _ => lift (if depth = 1 then .ok () else .error .malformed)

/-- Verifies the program at a place of the byte code. -/
def verifyProgram (vars : Nat) (byteCode : List Expr.Word) (place : Nat) : Guard LoadError Unit :=
  if byteCode.length ≤ place then lift (.error (.programOutOfBounds place byteCode.length))
  else
    ExceptT.mk do
      match ← (verifyWords vars 0 (byteCode.drop place)).run with
      | .ok () => return .ok ()
      | .error (.unknownVariable index) => return .error (.variableOutOfRange place index vars)
      | .error .malformed => return .error (.malformedProgram place)
      | .error .unterminated => return .error (.unterminatedProgram place)

/-- Verifies the speed of every state, then the weight of every animation. -/
def verify (r : Resource) : Guard LoadError Unit := do
  r.states.forM fun s => verifyProgram r.variableCount r.byteCode s.speed
  (r.states.flatMap State.animations).forM fun a =>
    verifyProgram r.variableCount r.byteCode a.weight

/-- The resource that some bytes hold. -/
def load (bytes : Blob) : Guard LoadError Resource := do
  let header ← lift (Read.header.result bytes 0)
  lift (ensure (header.version.toNat = Layout.version)
    (.unsupportedVersion header.version.toNat Layout.version))
  let variableCount := header.variableCount.toNat
  let variableStart := header.variableListOffset.toNat
  let variableEnd ← regionEnd bytes .variableList variableStart variableCount 8
  let codeStart := header.byteCodeOffset.toNat
  let codeSize := header.byteCodeSize.toNat
  let _ ← regionEnd bytes .byteCode codeStart codeSize 4
  lift (ensure (Layout.headerSize ≤ variableStart) (.outOfBounds .variableList variableStart))
  lift (ensure (variableEnd ≤ codeStart) (.outOfBounds .byteCode codeStart))
  let region ← slice bytes variableStart
  let stored ← states region.size 0 ⟨region, Layout.headerSize⟩
  lift (ensure (!stored.isEmpty) .noStates)
  let initialState ← lift (resolve stored .initialState header.initialStateOffset.toNat)
  let states ← lift (stored.mapM (StoredState.resolve stored))
  let (names, defaults) ← lift ((Read.variables variableCount).result bytes variableStart)
  let raw ← lift ((Read.times codeSize Read.word).result bytes codeStart)
  let byteCode ← lift (decodeByteCode raw)
  let resource : Resource :=
    { size := bytes.size, header, initialState, states, variableNames := names.map ShortHash.mk,
      defaultValues := defaults, byteCode }
  verify resource
  return resource

/-! ## Steps that do not trap -/

variable {ε α β : Type}

/-- Steps that do not trap, one after the other, do not trap. -/
theorem bind_eq_lift {x : Guard ε α} {y : Except ε α} {f : α → Guard ε β} {g : α → Except ε β}
    (hx : x = lift y) (hf : ∀ a, y = .ok a → f a = lift (g a)) : (x >>= f) = lift (y >>= g) := by
  subst hx
  cases y with
  | error e => rfl
  | ok a => exact hf a rfl

theorem fit_eq_lift {bits n : Nat} (h : n < 2 ^ bits) : (fit bits n : Guard ε Nat) = lift (.ok n) :=
  if_pos h

/-- Numbers of 32 bits place a region without overflow. -/
theorem regionEnd_eq_lift (bytes : Blob) (region : Region) (start count : UInt32) {stride : Nat}
    (hstride : stride ≤ 8) :
    regionEnd bytes region start.toNat count.toNat stride
      = lift (Machine.regionEnd bytes region start.toNat count.toNat stride) := by
  have hstart := start.toNat_lt
  have hcount := count.toNat_lt
  have hlen : count.toNat * stride ≤ count.toNat * 8 := Nat.mul_le_mul_left _ hstride
  unfold regionEnd Machine.regionEnd
  by_cases h : start.toNat + count.toNat * stride ≤ bytes.size
  · rw [if_pos h, if_pos ⟨by omega, by omega, h⟩]
  · rw [if_neg h, if_neg fun hall => h hall.2.2]

/-- Offsets and numbers of states fit 32 bits where the number of bytes does. -/
theorem states_eq_lift {fuel count : Nat} {c : Cursor} (hsize : c.bytes.size < 2 ^ 32)
    (hc : c.position ≤ c.bytes.size) (hcount : count ≤ c.position) :
    states fuel count c = lift ((Read.states fuel).run c).1 := by
  induction fuel generalizing count c with
  | zero => rfl
  | succ fuel ih =>
    rw [states, Read.states, Read.run_bind, Read.run_get]
    by_cases hzero : c.remaining = 0
    · simp only [hzero, if_true]
      rfl
    simp only [hzero, if_false]
    rw [Read.run_bind, fit_eq_lift (by omega)]
    cases hfirst : Read.state.run c with
    | mk outcome c₁ =>
    cases outcome with
    | error e => rfl
    | ok first =>
      obtain ⟨-, rfl, hin, -⟩ := Read.run_state_eq_ok hfirst
      have hpos : 0 < first.size := by simp only [StoredState.size, Layout.stateSize]; omega
      have hrest := @ih (count + 1) ⟨c.bytes, c.position + first.size⟩ hsize (hin hc)
        (by show count + 1 ≤ c.position + first.size; omega)
      show (fit 32 count >>= fun _ => states fuel (count + 1) ⟨c.bytes, c.position + first.size⟩
        >>= fun rest => lift (.ok (first :: rest))) = _
      rw [fit_eq_lift (by omega), hrest]
      show _ = lift ((Read.states fuel >>= fun rest => pure (first :: rest)).run _).1
      rw [Read.run_bind]
      cases (Read.states fuel).run ⟨c.bytes, c.position + first.size⟩ with
      | mk outcome c₂ => cases outcome <;> rfl

/-- The number of values fits 64 bits where the number of words does. -/
theorem verifyWords_eq_lift {vars depth : Nat} {ws : List Expr.Word}
    (h : depth + ws.length < 2 ^ 64) :
    verifyWords vars depth ws = lift (Machine.verifyWords vars depth ws) := by
  induction ws generalizing depth with
  | nil => rfl
  | cons w ws ih =>
    rw [List.length_cons] at h
    cases w with
    | push value =>
      rw [verifyWords, fit_eq_lift (by omega)]
      exact ih (by omega)
    | load index =>
      rw [verifyWords, Machine.verifyWords, fit_eq_lift (by omega)]
      split
      · exact ih (by omega)
      · rfl
    | call op =>
      have hdepth : depth - op.arity + (if op.producesValue then 1 else 0) ≤ depth + 1 := by
        split <;> omega
      rw [verifyWords, Machine.verifyWords, fit_eq_lift (by omega)]
      split
      · rfl
      · exact ih (by omega)
    | finish => rfl

/-- Programs are verified without overflow where the number of words fits. -/
theorem verifyProgram_eq_lift {vars place : Nat} {byteCode : List Expr.Word}
    (h : byteCode.length < 2 ^ 64) :
    verifyProgram vars byteCode place = lift (Machine.verifyProgram vars byteCode place) := by
  have hdrop : 0 + (byteCode.drop place).length < 2 ^ 64 := by
    rw [List.length_drop]
    omega
  rw [verifyProgram, Machine.verifyProgram, verifyWords_eq_lift hdrop]
  split
  · rfl
  · generalize Machine.verifyWords vars 0 (byteCode.drop place) = outcome
    rcases outcome with (_ | _ | _) | _ <;> rfl

theorem forM_eq_lift {f : α → Guard ε Unit} {g : α → Except ε Unit} (hfg : ∀ a, f a = lift (g a))
    (xs : List α) : xs.forM f = lift (xs.forM g) := by
  induction xs with
  | nil => rfl
  | cons x xs ih => exact bind_eq_lift (hfg x) fun _ _ => ih

theorem verify_eq_lift {r : Resource} (h : r.byteCode.length < 2 ^ 64) :
    verify r = lift r.verify :=
  bind_eq_lift (forM_eq_lift (fun _ => verifyProgram_eq_lift h) _) fun _ _ =>
    forM_eq_lift (fun _ => verifyProgram_eq_lift h) _

/-- **Guarded loading never traps and does what loading does**, whatever the bytes. -/
theorem load_eq_lift (bytes : Blob) : load bytes = lift (Machine.load bytes) := by
  refine bind_eq_lift rfl fun header hheader => ?_
  refine bind_eq_lift rfl fun _ _ => ?_
  refine bind_eq_lift (regionEnd_eq_lift _ _ _ _ (by decide)) fun variableEnd hvariable => ?_
  refine bind_eq_lift (regionEnd_eq_lift _ _ _ _ (by decide)) fun codeEnd hcode => ?_
  refine bind_eq_lift rfl fun _ hbehind => ?_
  refine bind_eq_lift rfl fun _ _ => ?_
  obtain ⟨rfl, hle⟩ := regionEnd_eq_ok.1 hvariable
  have hslice : header.variableListOffset.toNat ≤ bytes.size := by omega
  have hregion : (stateRegion bytes header).size = header.variableListOffset.toNat := by
    simp only [stateRegion, Array.size_extract]
    omega
  have hbehind' : Layout.headerSize ≤ header.variableListOffset.toNat :=
    of_decide_eq_true (ensure_eq_ok.1 hbehind)
  have hrecords : states (stateRegion bytes header).size 0
        ⟨stateRegion bytes header, Layout.headerSize⟩
      = lift ((Read.states (stateRegion bytes header).size).result (stateRegion bytes header)
          Layout.headerSize) :=
    states_eq_lift (hregion ▸ header.variableListOffset.toNat_lt) (hregion ▸ hbehind')
      (Nat.zero_le _)
  rw [slice, if_pos hslice]
  refine bind_eq_lift (x := states _ _ ⟨stateRegion bytes header, _⟩) hrecords fun stored _ => ?_
  refine bind_eq_lift rfl fun _ _ => ?_
  refine bind_eq_lift rfl fun initialState _ => ?_
  refine bind_eq_lift rfl fun states _ => ?_
  refine bind_eq_lift rfl fun vars _ => ?_
  refine bind_eq_lift rfl fun raw hraw => ?_
  refine bind_eq_lift rfl fun byteCode hbyteCode => ?_
  have hlength : byteCode.length = header.byteCodeSize.toNat := by
    obtain ⟨c, hc⟩ := Read.result_eq_ok.1 hraw
    rw [← (decodeByteCode_eq_ok.1 hbyteCode).length_eq]
    exact (Read.run_times_eq_ok Read.Sized.word hc).1
  have hcount : byteCode.length < 2 ^ 64 :=
    hlength ▸ Nat.lt_trans header.byteCodeSize.toNat_lt (by decide)
  exact bind_eq_lift (verify_eq_lift hcount) fun _ _ => rfl

end Guarded

/-! ## Loading any bytes -/

/-- **Loading is safe on all bytes, and what it accepts is sound.**  No slice leaves the bytes and
no number outgrows its width on the way; a resource that is loaded points nowhere outside of it, and
none of its programs can fail. -/
theorem load_safe (bytes : Blob) :
    (Guarded.load bytes).run = .ok (load bytes) ∧ ∀ r, load bytes = .ok r → r.Sound bytes := by
  refine ⟨Guarded.load_eq_lift bytes, fun r h => ?_⟩
  obtain ⟨stored, raw, hloaded⟩ := load_eq_ok.1 h
  exact hloaded.sound

/-- The bytes of a gate that is opened and closed: two states whose transitions lead to each other,
one at once and one at the end of the animation.  A variable is the speed of the first state and the
weight in the second. -/
def gateBytes : Blob :=
  (([1, 68, 1, 112, 4, 120] ++ [0, 0, 1, 1, 68, 0, 1, 9, 0, 2, 0] ++
    [2, 1, 1, 2, 24, 1, 1, 9, 0, 0, 0] ++ [5, 0x3f800000] ++
    [0x7f900000, 0x7fa00000, 0x3f800000, 0x7fa00000] : List UInt32).flatMap wordBytes).toArray

theorem load_safe_gate :
    ∃ r, load gateBytes = .ok r ∧ r.variableCount = 1 ∧
      r.states.map (fun s => s.transitions.map Transition.target) = [[⟨1⟩], [⟨0⟩]] ∧
      (Guarded.load gateBytes).run = .ok (load gateBytes) ∧ r.Sound gateBytes := by
  obtain ⟨r, hload, hvariables, htargets⟩ : ∃ r, load gateBytes = .ok r ∧ r.variableCount = 1 ∧
      r.states.map (fun s => s.transitions.map Transition.target) = [[⟨1⟩], [⟨0⟩]] := by
    refine ⟨⟨136, ⟨1, 68, 1, 112, 4, 120⟩, ⟨1⟩,
      [⟨24, 0, false, [⟨⟨1⟩, ⟨1⟩, .immediate⟩], [⟨⟨9⟩, 2⟩]⟩,
        ⟨68, 2, true, [⟨⟨2⟩, ⟨0⟩, .waitUntilEnd⟩], [⟨⟨9⟩, 0⟩]⟩],
      [⟨5⟩], [⟨0x3f800000⟩], [.load 0, .finish, .push ⟨0x3f800000⟩, .finish]⟩, ?_, rfl, rfl⟩
    decide +kernel
  obtain ⟨hsame, hsound⟩ := load_safe gateBytes
  exact ⟨r, hload, hvariables, htargets, hsame, hsound r hload⟩

end Flipbook.Machine
