import Flipbook.Machine.Build
import Flipbook.Proofs.Machine.Loading
import Mathlib.Algebra.GroupWithZero.Nat

/-!
# Proofs/Machine/Writing — the bytes of a resource and how they are read

The bytes of a plan are those of its header, its state records, its variables and its words, one
behind the other (`Plan.toList_bytes`).  Each of them is read back by the read for its kind, as long
as every number that is written fits a word (`Plan.StateFits`).  The offsets that the plan hands out
are the places where its records begin, and no two of them are the same.
-/

namespace Flipbook.Machine

open Flipbook.Expr (Word)

/-! ## Fields -/

theorem toList_foldl_writeField (fields : List Field) (out : Blob) :
    (fields.foldl writeField out).toList = out.toList ++ fields.flatMap Field.bytes := by
  induction fields generalizing out with
  | nil => simp
  | cons field fields ih =>
    rw [List.foldl_cons, ih, List.flatMap_cons, ← List.append_assoc]
    congr 1
    simp [writeField]

@[simp] theorem length_wordBytes (w : UInt32) : (wordBytes w).length = 4 :=
  length_littleEndian 4 _

/-- Entries of one length, one behind the other. -/
theorem length_flatMap_of_forall {α : Type} {encode : α → List UInt8} {n : Nat} (xs : List α)
    (h : ∀ x, (encode x).length = n) : (xs.flatMap encode).length = xs.length * n := by
  induction xs with
  | nil => simp
  | cons x xs ih =>
    rw [List.flatMap_cons, List.length_append, ih, h, List.length_cons, Nat.succ_mul, Nat.add_comm]

/-! ## Offsets -/

namespace StatePlan

theorem length_offsets (start : Nat) (ps : List StatePlan) :
    (offsets start ps).1.length = ps.length := by
  induction ps generalizing start with
  | nil => rfl
  | cons p ps ih => exact congrArg (· + 1) (ih _)

theorem size_pos (p : StatePlan) : 0 < p.size := by
  simp only [size, Layout.stateSize]
  omega

/-- The records end behind the sum of their sizes. -/
theorem offsets_stop (start : Nat) (ps : List StatePlan) :
    (offsets start ps).2 = start + (ps.map size).sum := by
  induction ps generalizing start with
  | nil => rfl
  | cons p ps ih =>
    rw [List.map_cons, List.sum_cons, ← Nat.add_assoc]
    exact ih _

theorem bounds_of_mem_offsets {start : Nat} {ps : List StatePlan} {offset : Nat}
    (h : offset ∈ (offsets start ps).1) : start ≤ offset ∧ offset < (offsets start ps).2 := by
  induction ps generalizing start with
  | nil => cases h
  | cons p ps ih =>
    have hstop : start + p.size ≤ (offsets start (p :: ps)).2 := by
      show _ ≤ (offsets (start + p.size) ps).2
      rw [offsets_stop]
      exact Nat.le_add_right _ _
    have hpos := p.size_pos
    rcases List.mem_cons.1 h with rfl | h
    · omega
    · have := ih h
      exact ⟨by omega, this.2⟩

/-- **No two records begin at the same offset**: each begins behind those before it. -/
theorem pairwise_offsets (start : Nat) (ps : List StatePlan) :
    (offsets start ps).1.Pairwise (· < ·) := by
  induction ps generalizing start with
  | nil => exact .nil
  | cons p ps ih =>
    refine .cons (fun offset h => ?_) (ih _)
    have := (bounds_of_mem_offsets h).1
    have := p.size_pos
    omega

end StatePlan

namespace Plan

variable {p : Plan}

/-- A declared state has a position and the record at this position an offset, if there is a record
for every state. -/
theorem exists_offsetOf (haligned : p.states.length = p.description.states.length) {id : String}
    (hid : id ∈ p.description.stateIds) :
    ∃ i, p.description.stateIndex? id = some i ∧ p.stateOffsets[i]? = some (p.offsetOf id) := by
  obtain ⟨i, hi⟩ : ∃ i, p.description.stateIndex? id = some i :=
    Option.isSome_iff_exists.1 (List.isSome_idxOf?.2 hid)
  have hlt : i < p.stateOffsets.length := by
    rw [stateOffsets, StatePlan.length_offsets, haligned]
    simpa [Description.stateIds] using (List.idxOf?_eq_some_iff.1 hi).1
  refine ⟨i, hi, ?_⟩
  rw [offsetOf, hi, Option.bind_some, List.getElem?_eq_getElem hlt, Option.getD_some]

/-! ## Bytes -/

/-- The bytes of a state record. -/
def recordBytes (p : Plan) (s : StatePlan) : List UInt8 := (p.stateFields s).flatMap Field.bytes

/-- The bytes of the variable list. -/
def variableBytes (p : Plan) : List UInt8 :=
  p.description.vars.flatMap (fun v => wordBytes (ShortHash.ofName v.name).val) ++
    p.description.vars.flatMap fun v => wordBytes v.value.bits

/-- The bytes of the byte code. -/
def codeBytes (p : Plan) : List UInt8 := p.code.flatMap fun w => wordBytes w.encode

theorem transitionFields_bytes (p : Plan) (t : TransitionDescription) :
    (p.transitionFields t).flatMap Field.bytes = wordBytes (ShortHash.ofName t.event).val ++
      (wordBytes (UInt32.ofNat (p.offsetOf t.target)) ++
        (wordBytes (UInt32.ofNat t.mode.number) ++ [])) := rfl

theorem animationFields_bytes (a : LongHash × Nat) :
    (animationFields a).flatMap Field.bytes = littleEndian 8 a.1.val.toNat ++
      (wordBytes (UInt32.ofNat a.2) ++ (wordBytes 0 ++ [])) := rfl

theorem recordBytes_eq (p : Plan) (s : StatePlan) :
    p.recordBytes s = wordBytes (UInt32.ofNat s.speed) ++
      (wordBytes (UInt32.ofNat (if s.looping then 1 else 0)) ++
        (wordBytes (UInt32.ofNat s.transitions.length) ++
          (s.transitions.flatMap (fun t => (p.transitionFields t).flatMap Field.bytes) ++
            (wordBytes (UInt32.ofNat s.animations.length) ++
              (s.animations.flatMap (fun a => (animationFields a).flatMap Field.bytes) ++
                []))))) := by
  simp [recordBytes, stateFields, wordField, Field.bytes, List.flatMap_append, List.flatMap_assoc]

/-- A record takes the bytes that the offsets leave for it. -/
theorem length_recordBytes (p : Plan) (s : StatePlan) : (p.recordBytes s).length = s.size := by
  have htransition : ∀ t, ((p.transitionFields t).flatMap Field.bytes).length
      = Layout.transitionSize := fun t => by simp [transitionFields_bytes, Layout.transitionSize]
  have hanimation : ∀ a, ((animationFields a).flatMap Field.bytes).length
      = Layout.animationSize := fun a => by simp [animationFields_bytes, Layout.animationSize]
  simp only [recordBytes_eq, List.length_append, length_wordBytes, List.length_nil,
    length_flatMap_of_forall _ htransition, length_flatMap_of_forall _ hanimation]
  rw [StatePlan.size, Layout.stateSize]
  omega

theorem length_records (p : Plan) (ps : List StatePlan) :
    (ps.flatMap p.recordBytes).length = (ps.map StatePlan.size).sum := by
  rw [List.length_flatMap]
  simp only [length_recordBytes]

/-- **The bytes of a plan are its header, its records, its variables and its words.** -/
theorem toList_bytes (p : Plan) : p.bytes.toList =
    p.header.words.flatMap wordBytes ++ (p.states.flatMap p.recordBytes ++
      (p.variableBytes ++ p.codeBytes)) := by
  rw [bytes, toList_foldl_writeField]
  simp only [fields, variableFields, variableBytes, codeBytes, List.flatMap_append,
    List.flatMap_cons, List.flatMap_assoc, List.flatMap_map, List.append_assoc]
  rfl

theorem length_header (h : Header) : (h.words.flatMap wordBytes).length = Layout.headerSize :=
  length_flatMap_of_forall h.words length_wordBytes

theorem length_variableBytes (p : Plan) :
    p.variableBytes.length = 8 * p.description.vars.length := by
  rw [variableBytes, List.length_append, length_flatMap_of_forall _ fun _ => length_wordBytes _,
    length_flatMap_of_forall _ fun _ => length_wordBytes _]
  omega

theorem length_codeBytes (p : Plan) : p.codeBytes.length = 4 * p.code.length := by
  rw [codeBytes, length_flatMap_of_forall _ fun _ => length_wordBytes _, Nat.mul_comm]

theorem variableListOffset_eq (p : Plan) :
    p.variableListOffset = Layout.headerSize + (p.states.flatMap p.recordBytes).length := by
  rw [variableListOffset, StatePlan.offsets_stop, length_records]

/-- The size that a plan announces is the number of its bytes. -/
theorem size_bytes (p : Plan) : p.bytes.size = p.size := by
  rw [← Array.length_toList, toList_bytes, size, byteCodeOffset, variableListOffset_eq]
  simp only [List.length_append, length_header, length_variableBytes, length_codeBytes]
  omega

/-! ## Numbers that fit -/

/-- One past the largest number of a word. -/
def wordBound : Nat := 0x100000000

/-- Whether the numbers of a state record fit words. -/
structure StateFits (p : Plan) (s : StatePlan) : Prop where
  speed : s.speed < wordBound
  transitions : s.transitions.length < wordBound
  targets : ∀ t ∈ s.transitions, p.offsetOf t.target < wordBound
  animations : s.animations.length < wordBound
  weights : ∀ a ∈ s.animations, a.2 < wordBound

/-! ## Reading records back -/

/-- A transition as it is stored. -/
def storedTransition (p : Plan) (t : TransitionDescription) : StoredTransition :=
  ⟨ShortHash.ofName t.event, p.offsetOf t.target, t.mode⟩

/-- A state as it is stored at an offset. -/
def storedState (p : Plan) (offset : Nat) (s : StatePlan) : StoredState :=
  ⟨offset, s.speed, s.looping, s.transitions.map p.storedTransition,
    s.animations.map fun a => ⟨a.1, a.2⟩⟩

end Plan

namespace Read.Reads

variable {p : Plan} {s : StatePlan}

theorem transition {t : TransitionDescription} (ht : p.offsetOf t.target < Plan.wordBound)
    (offset position : Nat) :
    Reads (transition offset) position ((p.transitionFields t).flatMap Field.bytes)
      (p.storedTransition t) := by
  rw [Plan.transitionFields_bytes]
  refine (word _ _).bind ((nat ht _).bind ((nat (n := t.mode.number) ?_ _).bind ?_))
  · cases t.mode <;> decide
  · rw [Mode.ofNumber?_number]
    exact pure _ _

theorem animation {a : LongHash × Nat} (ha : a.2 < Plan.wordBound) (position : Nat) :
    Reads animation position ((Plan.animationFields a).flatMap Field.bytes) ⟨a.1, a.2⟩ := by
  rw [Plan.animationFields_bytes]
  exact (long _ _).bind ((nat ha _).bind ((word _ _).bind (pure _ _)))

/-- **A state record is read back as it was planned**, at the offset where it begins. -/
theorem state (hs : p.StateFits s) (hne : s.animations ≠ []) (position : Nat) :
    Reads state position (p.recordBytes s) (p.storedState position s) := by
  rw [Plan.recordBytes_eq]
  have htransitions := times s.transitions fun t ht => transition (hs.targets t ht) position
  have hanimations := times s.animations fun a ha => animation (hs.weights a ha)
  have hlooping : (if s.looping then 1 else 0) < Plan.wordBound := by split <;> decide
  have hloop : decide ((if s.looping then 1 else 0) ≠ 0) = s.looping := by cases s.looping <;> rfl
  have hzero : s.animations.length ≠ 0 := mt List.length_eq_zero_iff.1 hne
  intro bytes h
  refine run_bind_eq_ok.2 ⟨⟨bytes, position⟩, ⟨bytes, position⟩, run_get _, ?_⟩
  refine ((nat hs.speed _).bind ((nat hlooping _).bind ((nat hs.transitions _).bind
    ((htransitions _).bind ((nat hs.animations _).bind ?_))))) bytes h
  simp only [hzero, if_false, hloop]
  exact (hanimations _).bind (pure _ _)

theorem header (h : Header) (position : Nat) :
    Reads header position (h.words.flatMap wordBytes) h :=
  (word h.version _).bind ((word h.initialStateOffset _).bind ((word h.variableCount _).bind
    ((word h.variableListOffset _).bind ((word h.byteCodeSize _).bind
      ((word h.byteCodeOffset _).bind (pure _ _))))))

/-- The names and values of the variables are read back. -/
theorem vars (p : Plan) (position : Nat) :
    Reads (Read.variables p.description.vars.length) position p.variableBytes
      (p.description.vars.map (fun v => (ShortHash.ofName v.name).val),
        p.description.vars.map (·.value)) := by
  have hname : ∀ v ∈ p.description.vars, ∀ position, Reads Read.word position
      (wordBytes (ShortHash.ofName v.name).val) (ShortHash.ofName v.name).val :=
    fun v _ => word (ShortHash.ofName v.name).val
  have hvalue : ∀ v ∈ p.description.vars, ∀ position,
      Reads Read.single position (wordBytes v.value.bits) v.value :=
    fun v _ => single v.value
  have hboth : Reads (Read.variables p.description.vars.length) position
      (_ ++ (p.description.vars.flatMap (fun v => wordBytes v.value.bits) ++ [])) (_, _) :=
    (times _ hname position).bind ((times _ hvalue _).bind (pure _ _))
  rwa [List.append_nil] at hboth

/-- The words of the byte code are read back in their 32-bit form. -/
theorem code (p : Plan) (position : Nat) :
    Reads (Read.times p.code.length Read.word) position p.codeBytes (p.code.map Word.encode) :=
  times p.code (fun w _ => word w.encode) position

end Read.Reads

namespace Read

/-- **State records are read back up to the end of the bytes**, each at the offset that it was
given. -/
theorem run_states_of_records {p : Plan} {bytes : Blob} {fuel start : Nat} {ps : List StatePlan}
    (hfits : ∀ s ∈ ps, p.StateFits s ∧ s.animations ≠ []) (hfuel : ps.length ≤ fuel)
    (hbytes : bytes.toList.drop start = ps.flatMap p.recordBytes) :
    ∃ c, (states fuel).run ⟨bytes, start⟩
      = (.ok (List.zipWith p.storedState (StatePlan.offsets start ps).1 ps), c) := by
  have hremaining : (⟨bytes, start⟩ : Cursor).remaining = (ps.flatMap p.recordBytes).length := by
    rw [← hbytes, List.length_drop, Array.length_toList]
    rfl
  induction fuel generalizing start ps with
  | zero =>
    obtain rfl := List.length_eq_zero_iff.1 (Nat.le_zero.1 hfuel)
    exact ⟨_, rfl⟩
  | succ fuel ih =>
    cases ps with
    | nil =>
      refine ⟨⟨bytes, start⟩, run_bind_eq_ok.2 ⟨_, _, run_get _, ?_⟩⟩
      rw [hremaining]
      rfl
    | cons s ps =>
      obtain ⟨⟨hs, hne⟩, hrest⟩ := List.forall_mem_cons.1 hfits
      have hlen := p.length_recordBytes s
      have hpos := s.size_pos
      rw [List.flatMap_cons] at hbytes hremaining
      have hfirst := Reads.state hs hne start bytes ⟨_, hbytes.symm⟩
      have hlater : bytes.toList.drop (start + s.size) = ps.flatMap p.recordBytes := by
        rw [← List.drop_drop, hbytes, ← hlen, List.drop_left]
      obtain ⟨c, hc⟩ := ih hrest (Nat.le_of_succ_le_succ hfuel) hlater (by
        rw [← hlater, List.length_drop, Array.length_toList]
        rfl)
      have hzero : (⟨bytes, start⟩ : Cursor).remaining ≠ 0 := by
        rw [hremaining, List.length_append]
        omega
      refine ⟨c, run_bind_eq_ok.2 ⟨_, _, run_get _, ?_⟩⟩
      simp only [hzero, if_false]
      rw [hlen] at hfirst
      exact run_bind_eq_ok.2 ⟨_, _, hfirst, run_bind_eq_ok.2 ⟨_, _, hc, rfl⟩⟩

end Read

end Flipbook.Machine
