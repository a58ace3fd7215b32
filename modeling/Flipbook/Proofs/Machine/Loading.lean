import Flipbook.Proofs.Machine.Reading
import Flipbook.Proofs.Machine.Verifying
import Flipbook.Proofs.Steps

/-!
# Proofs/Machine/Loading — what loading accepts

`load_eq_ok` opens `load` into its stages: some bytes are loaded exactly if every stage succeeds.
The records that are read lie behind one another and fill their region (`Read.tiles_of_run_states`),
and offsets are resolved to the records that carry them (`resolve_eq_ok`).  Together this makes a
loaded resource `Sound`: nothing in it points outside of it, and no program of it can fail.
-/

namespace Flipbook.Machine

/-! ## Stages -/

theorem ensure_eq_ok {condition : Bool} {e : LoadError} {u : Unit} :
    ensure condition e = .ok u ↔ condition = true := by
  cases condition <;> simp [ensure]

theorem regionEnd_eq_ok {bytes : Blob} {region : Region} {start count stride stop : Nat} :
    regionEnd bytes region start count stride = .ok stop ↔
      start + count * stride = stop ∧ stop ≤ bytes.size := by
  unfold regionEnd
  split
  · rename_i h
    rw [Except.ok.injEq]
    exact ⟨fun heq => ⟨heq, heq ▸ h⟩, And.left⟩
  · rename_i h
    exact iff_of_false (by simp) fun ⟨heq, hle⟩ => h (heq ▸ hle)

theorem Read.result_eq_ok {α : Type} {read : Read α} {bytes : Blob} {position : Nat} {value : α} :
    read.result bytes position = .ok value ↔ ∃ c, read.run ⟨bytes, position⟩ = (.ok value, c) := by
  constructor
  · exact fun h => ⟨(read.run ⟨bytes, position⟩).2, Prod.ext h rfl⟩
  · rintro ⟨c, h⟩
    exact congrArg Prod.fst h

/-- The bytes of the state records. -/
def stateRegion (bytes : Blob) (header : Header) : Blob :=
  bytes.extract 0 header.variableListOffset.toNat

/-- The names of the variables and their values at the start. -/
def Read.variables (count : Nat) : Read (List UInt32 × List Single) := do
  let names ← Read.times count Read.word
  let defaults ← Read.times count Read.single
  return (names, defaults)

/-- What makes some bytes load as a resource, with its state records `stored` as they stand in the
bytes. -/
structure LoadedFrom (bytes : Blob) (stored : List StoredState) (raw : List UInt32)
    (r : Resource) : Prop where
  size : r.size = bytes.size
  header : Read.header.result bytes 0 = .ok r.header
  version : r.header.version.toNat = Layout.version
  variableEnd : r.header.variableListOffset.toNat + r.header.variableCount.toNat * 8 ≤ bytes.size
  codeEnd : r.header.byteCodeOffset.toNat + r.header.byteCodeSize.toNat * 4 ≤ bytes.size
  behindHeader : Layout.headerSize ≤ r.header.variableListOffset.toNat
  behindVariables : r.header.variableListOffset.toNat + r.header.variableCount.toNat * 8
    ≤ r.header.byteCodeOffset.toNat
  records : (Read.states (stateRegion bytes r.header).size).result (stateRegion bytes r.header)
    Layout.headerSize = .ok stored
  nonempty : stored ≠ []
  initialState : resolve stored .initialState r.header.initialStateOffset.toNat = .ok r.initialState
  states : stored.mapM (StoredState.resolve stored) = .ok r.states
  vars : (Read.variables r.header.variableCount.toNat).result bytes
    r.header.variableListOffset.toNat = .ok (r.variableNames.map ShortHash.val, r.defaultValues)
  code : (Read.times r.header.byteCodeSize.toNat Read.word).result bytes
    r.header.byteCodeOffset.toNat = .ok raw
  byteCode : decodeByteCode raw = .ok r.byteCode
  verified : r.verify = .ok ()

/-- **Some bytes are loaded exactly if every stage of loading succeeds.** -/
theorem load_eq_ok {bytes : Blob} {r : Resource} :
    load bytes = .ok r ↔ ∃ stored raw, LoadedFrom bytes stored raw r := by
  simp only [load, bind_eq_ok, pure_eq_ok, ensure_eq_ok, regionEnd_eq_ok, decide_eq_true_eq]
  constructor
  · rintro ⟨header, hheader, -, hversion, _, ⟨rfl, hvariable⟩, _, ⟨rfl, hcode⟩, -, hbehind, -,
      hbehind', stored, hstored, -, hnonempty, initialState, hinitial, states, hstates,
      ⟨names, defaults⟩, hvars, raw, hraw, byteCode, hbyteCode, _, hverified, rfl⟩
    have hnames : (names.map ShortHash.mk).map ShortHash.val = names := by
      rw [List.map_map]
      exact List.map_id _
    refine ⟨stored, raw, rfl, hheader, hversion, hvariable, hcode, hbehind, hbehind', hstored,
      by simpa using hnonempty, hinitial, hstates, ?_, hraw, hbyteCode, hverified⟩
    rw [hnames]
    exact hvars
  · rintro ⟨stored, raw, h⟩
    have hnames : (r.variableNames.map ShortHash.val).map ShortHash.mk = r.variableNames := by
      rw [List.map_map]
      exact List.map_id _
    refine ⟨r.header, h.header, (), h.version, _, ⟨rfl, h.variableEnd⟩, _, ⟨rfl, h.codeEnd⟩, (),
      h.behindHeader, (), h.behindVariables, stored, h.records, (), by simpa using h.nonempty,
      r.initialState, h.initialState, r.states, h.states, _, h.vars, raw, h.code, r.byteCode,
      h.byteCode, ?_⟩
    simp only [hnames, ← h.size]
    exact ⟨(), h.verified, trivial⟩

/-! ## Offsets and states -/

/-- **An offset is resolved to the first record that carries it.** -/
theorem resolve_eq_ok {stored : List StoredState} {referrer : Referrer} {offset : Nat}
    {id : StateId} : resolve stored referrer offset = .ok id ↔
      stored.findIdx? (fun s => s.offset = offset) = some id.index := by
  unfold resolve
  split
  · rename_i i hi
    rw [hi, Except.ok.injEq, Option.some.injEq]
    exact ⟨fun h => h ▸ rfl, fun h => h ▸ rfl⟩
  · rename_i hnone
    rw [hnone]
    simp

/-- Whether a transition is the stored one, with the state at its `targetOffset` as target. -/
structure StoredTransition.Leads (stored : List StoredState) (s : StoredTransition)
    (t : Transition) : Prop where
  event : t.event = s.event
  mode : t.mode = s.mode
  target : stored.findIdx? (fun record => record.offset = s.targetOffset) = some t.target.index

/-- Whether a state is the stored one, with the targets of its transitions found. -/
structure StoredState.Loads (stored : List StoredState) (s : StoredState) (t : State) : Prop where
  offset : t.offset = s.offset
  speed : t.speed = s.speed
  looping : t.looping = s.looping
  transitions : List.Forall₂ (StoredTransition.Leads stored) s.transitions t.transitions
  animations : t.animations = s.animations

theorem StoredTransition.resolve_eq_ok {stored : List StoredState} {s : StoredTransition}
    {t : Transition} : s.resolve stored = .ok t ↔ s.Leads stored t := by
  have hmap : s.resolve stored = .ok t ↔ ∃ target,
      Machine.resolve stored .transition s.targetOffset = .ok target ∧
        (⟨s.event, target, s.mode⟩ : Transition) = t := map_eq_ok
  rw [hmap]
  constructor
  · rintro ⟨target, htarget, rfl⟩
    exact ⟨rfl, rfl, Machine.resolve_eq_ok.1 htarget⟩
  · rintro ⟨hevent, hmode, htarget⟩
    exact ⟨t.target, Machine.resolve_eq_ok.2 htarget, by rw [← hevent, ← hmode]⟩

theorem StoredState.resolve_eq_ok {stored : List StoredState} {s : StoredState} {t : State} :
    s.resolve stored = .ok t ↔ s.Loads stored t := by
  have hmap : s.resolve stored = .ok t ↔ ∃ transitions,
      s.transitions.mapM (StoredTransition.resolve stored) = .ok transitions ∧
        (⟨s.offset, s.speed, s.looping, transitions, s.animations⟩ : State) = t := map_eq_ok
  simp only [hmap, mapM_eq_ok, StoredTransition.resolve_eq_ok]
  constructor
  · rintro ⟨transitions, htransitions, rfl⟩
    exact ⟨rfl, rfl, rfl, htransitions, rfl⟩
  · rintro ⟨hoffset, hspeed, hlooping, htransitions, hanimations⟩
    exact ⟨t.transitions, htransitions, by rw [← hoffset, ← hspeed, ← hlooping, ← hanimations]⟩

/-! ## Byte code -/

/-- **Byte code is decoded where every word of it is**, and word by word. -/
theorem decodeByteCode_eq_ok {raw : List UInt32} {words : List Expr.Word} :
    decodeByteCode raw = .ok words ↔
      List.Forall₂ (fun bits w => Expr.Word.decode bits = .ok w) raw words := by
  suffices key : ∀ i, Expr.Word.decodeBlock.go i raw = .ok words ↔
      List.Forall₂ (fun bits w => Expr.Word.decode bits = .ok w) raw words by
    rw [← key 0, decodeByteCode, Expr.Word.decodeBlock]
    cases Expr.Word.decodeBlock.go 0 raw <;> simp
  intro i
  induction raw generalizing i words with
  | nil => cases words <;> simp [Expr.Word.decodeBlock.go]
  | cons bits raw ih =>
    rw [Expr.Word.decodeBlock.go]
    cases hbits : Expr.Word.decode bits with
    | error e =>
      refine iff_of_false (by simp) fun h => ?_
      cases h with
      | cons hw _ => cases hbits.symm.trans hw
    | ok w =>
      simp only [map_eq_ok, ih]
      constructor
      · rintro ⟨rest, hrest, rfl⟩
        exact .cons hbits hrest
      · rintro (_ | ⟨hw, hrest⟩)
        obtain rfl := Except.ok.inj (hbits.symm.trans hw)
        exact ⟨_, hrest, rfl⟩

/-! ## Records -/

/-- Whether records of some sizes lie behind one another from `start` to `stop`. -/
def Tiles {α : Type} (offset size : α → Nat) : (start : Nat) → List α → (stop : Nat) → Prop
  | start, [], stop => start = stop
  | start, x :: xs, stop => offset x = start ∧ Tiles offset size (start + size x) xs stop

/-- The size of the record of a state. -/
def StoredState.size (s : StoredState) : Nat :=
  Layout.stateSize s.transitions.length s.animations.length

/-- The size of the record of a state. -/
def State.size (s : State) : Nat := Layout.stateSize s.transitions.length s.animations.length

/-- The position of the target of a transition in the record at `offset`. -/
def Layout.targetPosition (offset i : Nat) : Nat := offset + 12 + i * transitionSize + 4

/-- Whether a record has animations, and its targets are those in the bytes. -/
structure StoredState.RecordedIn (bytes : Blob) (s : StoredState) : Prop where
  animated : s.animations ≠ []
  targets : ∀ i t, s.transitions[i]? = some t →
    Read.nat.result bytes (Layout.targetPosition s.offset i) = .ok t.targetOffset

namespace Read

/-- The target of a transition stands behind its event. -/
theorem target_of_run_transition {offset : Nat} {c c' : Cursor} {t : StoredTransition}
    (h : (transition offset).run c = (.ok t, c')) :
    nat.result c.bytes (c.position + 4) = .ok t.targetOffset := by
  obtain ⟨event, _, hevent, h₁⟩ := run_bind_eq_ok.1 h
  obtain ⟨target, c₂, htarget, h₂⟩ := run_bind_eq_ok.1 h₁
  obtain ⟨number, _, hnumber, h₃⟩ := run_bind_eq_ok.1 h₂
  obtain ⟨rfl, -⟩ := Sized.word _ _ _ hevent
  have ht : t.targetOffset = target := by
    split at h₃
    · obtain ⟨rfl, -⟩ := run_pure_eq_ok.1 h₃
      rfl
    · exact absurd h₃ run_throw_ne_ok
  rw [ht]
  exact result_eq_ok.2 ⟨c₂, htarget⟩

/-- **A state record is read where it stands, and moved over.** -/
theorem run_state_eq_ok {c c' : Cursor} {s : StoredState} (h : state.run c = (.ok s, c')) :
    s.offset = c.position ∧ c' = { c with position := c.position + s.size } ∧
      (c.position ≤ c.bytes.size → c.position + s.size ≤ c.bytes.size) ∧
      s.RecordedIn c.bytes := by
  obtain ⟨_, _, hget, h₁⟩ := run_bind_eq_ok.1 h
  obtain ⟨rfl, rfl⟩ := run_get_eq_ok.1 hget
  obtain ⟨speed, _, hspeed, h₂⟩ := run_bind_eq_ok.1 h₁
  obtain ⟨looping, _, hlooping, h₃⟩ := run_bind_eq_ok.1 h₂
  obtain ⟨transitionCount, _, hcount, h₄⟩ := run_bind_eq_ok.1 h₃
  obtain ⟨transitions, _, htransitions, h₅⟩ := run_bind_eq_ok.1 h₄
  obtain ⟨animationCount, _, hcount', h₆⟩ := run_bind_eq_ok.1 h₅
  obtain ⟨rfl, hin₁⟩ := Sized.nat _ _ _ hspeed
  obtain ⟨rfl, hin₂⟩ := Sized.nat _ _ _ hlooping
  obtain ⟨rfl, hin₃⟩ := Sized.nat _ _ _ hcount
  obtain ⟨hlen, hat⟩ := run_times_eq_ok (Sized.transition _) htransitions
  obtain ⟨rfl, hin₄⟩ := (Sized.transition _).times _ _ _ _ htransitions
  obtain ⟨rfl, hin₅⟩ := Sized.nat _ _ _ hcount'
  by_cases hzero : animationCount = 0
  · simp only [hzero, if_true] at h₆
    obtain ⟨_, _, hthrow, -⟩ := run_bind_eq_ok.1 h₆
    exact absurd hthrow run_throw_ne_ok
  simp only [hzero, if_false] at h₆
  obtain ⟨animations, _, hanimations, h₇⟩ := run_bind_eq_ok.1 h₆
  obtain ⟨hlen', -⟩ := run_times_eq_ok Sized.animation hanimations
  obtain ⟨rfl, hin₆⟩ := Sized.animation.times _ _ _ _ hanimations
  obtain ⟨rfl, rfl⟩ := run_pure_eq_ok.1 h₇
  have hsize : c.position + Layout.stateSize transitions.length animations.length
      = c.position + 4 + 4 + 4 + transitionCount * Layout.transitionSize + 4
        + animationCount * Layout.animationSize := by
    rw [Layout.stateSize, hlen, hlen']
    omega
  refine ⟨rfl, ?_, fun hc => ?_, ⟨?_, fun i t hi => ?_⟩⟩
  · rw [StoredState.size, hsize]
  · rw [StoredState.size, hsize]
    exact hin₆ (hin₅ (hin₄ (hin₃ (hin₂ (hin₁ hc)))))
  · rintro rfl
    exact hzero hlen'.symm
  · obtain ⟨c₁, ht⟩ := hat i t hi
    exact target_of_run_transition ht

/-- **State records that are read lie behind one another up to the end of the bytes.** -/
theorem tiles_of_run_states {fuel : Nat} {c c' : Cursor} {stored : List StoredState}
    (h : (states fuel).run c = (.ok stored, c')) (hc : c.position ≤ c.bytes.size)
    (hfuel : c.remaining ≤ fuel) :
    Tiles StoredState.offset StoredState.size c.position stored c.bytes.size ∧
      ∀ s ∈ stored, s.RecordedIn c.bytes := by
  induction fuel generalizing c stored with
  | zero =>
    obtain ⟨rfl, -⟩ := run_pure_eq_ok.1 h
    exact ⟨Nat.le_antisymm hc (Nat.le_of_sub_eq_zero (Nat.le_zero.1 hfuel)), by simp⟩
  | succ fuel ih =>
    obtain ⟨_, _, hget, h₁⟩ := run_bind_eq_ok.1 h
    obtain ⟨rfl, rfl⟩ := run_get_eq_ok.1 hget
    by_cases hzero : c.remaining = 0
    · simp only [hzero, if_true] at h₁
      obtain ⟨rfl, -⟩ := run_pure_eq_ok.1 h₁
      exact ⟨Nat.le_antisymm hc (Nat.le_of_sub_eq_zero hzero), by simp⟩
    simp only [hzero, if_false] at h₁
    obtain ⟨first, c₁, hfirst, h₂⟩ := run_bind_eq_ok.1 h₁
    obtain ⟨rest, c₂, hrest, h₃⟩ := run_bind_eq_ok.1 h₂
    obtain ⟨rfl, rfl⟩ := run_pure_eq_ok.1 h₃
    obtain ⟨hoffset, rfl, hin, hrecorded⟩ := run_state_eq_ok hfirst
    have hpos : 0 < first.size := Nat.lt_of_lt_of_le (by decide : 0 < 16) (by
      simp only [StoredState.size, Layout.stateSize]; omega)
    obtain ⟨htiles, hall⟩ := ih hrest (hin hc) (by
      simp only [Cursor.remaining] at *
      omega)
    exact ⟨⟨hoffset, htiles⟩, List.forall_mem_cons.2 ⟨hrecorded, hall⟩⟩

/-- A number in the first bytes is the same number in all of them. -/
theorem nat_of_extract {bytes : Blob} {stop position value : Nat}
    (h : nat.result (bytes.extract 0 stop) position = .ok value) :
    nat.result bytes position = .ok value := by
  obtain ⟨c, hc⟩ := result_eq_ok.1 h
  obtain ⟨w, hw, rfl⟩ := run_map_eq_ok.1 hc
  obtain ⟨n, hn, rfl⟩ := run_map_eq_ok.1 hw
  obtain ⟨hroom, hvalue, -⟩ := run_number_eq_ok.1 hn
  have hroom' : position + 4 ≤ min stop bytes.size := by simpa using hroom
  have hsame : ((bytes.extract 0 stop).toList.drop position).take 4
      = (bytes.toList.drop position).take 4 := by
    rw [Array.toList_extract, List.extract_eq_take_drop, List.drop_zero, Nat.sub_zero,
      List.drop_take, List.take_take]
    congr 1
    omega
  rw [hsame] at hvalue
  have hnumber : (number 4).run ⟨bytes, position⟩ = (.ok n, ⟨bytes, position + 4⟩) :=
    run_number_eq_ok.2 ⟨Nat.le_trans hroom' (Nat.min_le_right _ _), hvalue, rfl⟩
  exact result_eq_ok.2 ⟨_, run_map_eq_ok.2 ⟨_, run_map_eq_ok.2 ⟨n, hnumber, rfl⟩, rfl⟩⟩

/-- The offset of the initial state is the second word of the header. -/
theorem initialStateOffset_of_header {bytes : Blob} {header : Header}
    (h : Read.header.result bytes 0 = .ok header) :
    nat.result bytes 4 = .ok header.initialStateOffset.toNat := by
  obtain ⟨c, hc⟩ := result_eq_ok.1 h
  obtain ⟨version, _, hversion, h₁⟩ := run_bind_eq_ok.1 hc
  obtain ⟨initialStateOffset, c₂, hinitial, h₂⟩ := run_bind_eq_ok.1 h₁
  obtain ⟨variableCount, _, -, h₃⟩ := run_bind_eq_ok.1 h₂
  obtain ⟨variableListOffset, _, -, h₄⟩ := run_bind_eq_ok.1 h₃
  obtain ⟨byteCodeSize, _, -, h₅⟩ := run_bind_eq_ok.1 h₄
  obtain ⟨byteCodeOffset, _, -, h₆⟩ := run_bind_eq_ok.1 h₅
  obtain ⟨rfl, -⟩ := run_pure_eq_ok.1 h₆
  obtain ⟨rfl, -⟩ := Sized.word _ _ _ hversion
  exact result_eq_ok.2 ⟨c₂, run_map_eq_ok.2 ⟨_, hinitial, rfl⟩⟩

end Read

/-! ## Loaded resources -/

/-- Records with the same offsets and sizes lie in the same way. -/
theorem Tiles.congr {α β : Type} {offset size : α → Nat} {offset' size' : β → Nat}
    {start stop : Nat} {xs : List α} {ys : List β}
    (h : List.Forall₂ (fun x y => offset' y = offset x ∧ size' y = size x) xs ys)
    (htiles : Tiles offset size start xs stop) : Tiles offset' size' start ys stop := by
  induction h generalizing start with
  | nil => exact htiles
  | cons hxy _ ih =>
    obtain ⟨hoffset, hrest⟩ := htiles
    refine ⟨hxy.1.trans hoffset, ih ?_⟩
    rw [hxy.2]
    exact hrest

theorem StoredState.Loads.size_eq {stored : List StoredState} {s : StoredState} {t : State}
    (h : s.Loads stored t) : t.size = s.size := by
  rw [State.size, StoredState.size, h.transitions.length_eq, h.animations]

/-- The record that an offset is resolved to becomes a state at this offset. -/
theorem stateOffset?_of_findIdx? {stored : List StoredState} {r : Resource} {offset : Nat}
    {id : StateId} (hstates : List.Forall₂ (StoredState.Loads stored) stored r.states)
    (h : stored.findIdx? (fun s => s.offset = offset) = some id.index) :
    r.stateOffset? id = some offset := by
  obtain ⟨hlt, hoffset, -⟩ := List.findIdx?_eq_some_iff_getElem.1 h
  have hlt' : id.index < r.states.length := hstates.length_eq ▸ hlt
  have hloads := (List.forall₂_iff_get.1 hstates).2 id.index hlt hlt'
  rw [Resource.stateOffset?, Resource.state?, List.getElem?_eq_getElem hlt', Option.map_some]
  exact congrArg some (hloads.offset.trans (of_decide_eq_true hoffset))

/-- Whether nothing in a resource that was loaded from some bytes points outside of it, and no
program of it can fail. -/
structure Resource.Sound (bytes : Blob) (r : Resource) : Prop where
  /-- There is a state. -/
  nonempty : 0 < r.stateCount
  /-- The records of the states lie behind one another, from the header to the variable list. -/
  tiles : Tiles State.offset State.size Layout.headerSize r.states
    r.header.variableListOffset.toNat
  /-- The initial state exists, at the offset in the header. -/
  initialState : ∃ offset, r.stateOffset? r.initialState = some offset ∧
    Read.nat.result bytes 4 = .ok offset
  /-- The target of every transition exists, at the offset in the record. -/
  targets : ∀ s ∈ r.states, ∀ i t, s.transitions[i]? = some t →
    ∃ offset, r.stateOffset? t.target = some offset ∧
      Read.nat.result bytes (Layout.targetPosition s.offset i) = .ok offset
  /-- Every state has an animation. -/
  animated : ∀ s ∈ r.states, s.animations ≠ []
  /-- The speed of every state is a program that cannot fail. -/
  speeds : ∀ s ∈ r.states, SoundAt r.variableCount r.byteCode s.speed
  /-- The weight of every animation is a program that cannot fail. -/
  weights : ∀ s ∈ r.states, ∀ a ∈ s.animations, SoundAt r.variableCount r.byteCode a.weight

/-- A resource is verified exactly if its speeds and weights cannot fail. -/
theorem Resource.verify_eq_ok {r : Resource} : r.verify = .ok () ↔
    (∀ s ∈ r.states, SoundAt r.variableCount r.byteCode s.speed) ∧
      ∀ s ∈ r.states, ∀ a ∈ s.animations, SoundAt r.variableCount r.byteCode a.weight := by
  simp only [Resource.verify, bind_eq_ok, forM_eq_ok, verifyProgram_eq_ok]
  constructor
  · rintro ⟨_, hspeeds, hweights⟩
    exact ⟨hspeeds, fun s hs a ha => hweights a (List.mem_flatMap.2 ⟨s, hs, ha⟩)⟩
  · rintro ⟨hspeeds, hweights⟩
    refine ⟨(), hspeeds, fun a ha => ?_⟩
    obtain ⟨s, hs, ha⟩ := List.mem_flatMap.1 ha
    exact hweights s hs a ha

/-- **A loaded resource is sound.** -/
theorem LoadedFrom.sound {bytes : Blob} {stored : List StoredState} {raw : List UInt32}
    {r : Resource} (h : LoadedFrom bytes stored raw r) : r.Sound bytes := by
  have hstates : List.Forall₂ (StoredState.Loads stored) stored r.states := by
    simpa only [mapM_eq_ok, StoredState.resolve_eq_ok] using h.states
  have hsize : (stateRegion bytes r.header).size = r.header.variableListOffset.toNat := by
    have := h.variableEnd
    simp only [stateRegion, Array.size_extract]
    omega
  obtain ⟨c, hc⟩ := Read.result_eq_ok.1 h.records
  obtain ⟨htiles, hrecorded⟩ := Read.tiles_of_run_states hc (hsize ▸ h.behindHeader)
    (Nat.sub_le _ _)
  obtain ⟨hspeeds, hweights⟩ := Resource.verify_eq_ok.1 h.verified
  -- every state comes from a record, which is where the bytes are known
  have hrecord : ∀ s ∈ r.states, ∃ record ∈ stored, record.Loads stored s := by
    intro s hs
    obtain ⟨i, hi⟩ := List.mem_iff_getElem?.1 hs
    obtain ⟨record, hrecord, hloads⟩ := exists_getElem?_of_forall₂ hstates hi
    exact ⟨record, List.mem_of_getElem? hrecord, hloads⟩
  refine ⟨?_, ?_, ?_, ?_, ?_, hspeeds, hweights⟩
  · rw [Resource.stateCount, ← hstates.length_eq]
    exact List.length_pos_iff.2 h.nonempty
  · rw [← hsize]
    exact htiles.congr (hstates.imp fun _ _ hs => ⟨hs.offset, hs.size_eq⟩)
  · exact ⟨_, stateOffset?_of_findIdx? hstates (resolve_eq_ok.1 h.initialState),
      Read.initialStateOffset_of_header h.header⟩
  · intro s hs i t hi
    obtain ⟨record, hmem, hloads⟩ := hrecord s hs
    obtain ⟨t₀, hi₀, hleads⟩ := exists_getElem?_of_forall₂ hloads.transitions hi
    refine ⟨t₀.targetOffset, stateOffset?_of_findIdx? hstates hleads.target, ?_⟩
    rw [hloads.offset]
    exact Read.nat_of_extract ((hrecorded record hmem).targets i t₀ hi₀)
  · intro s hs
    obtain ⟨record, hmem, hloads⟩ := hrecord s hs
    rw [hloads.animations]
    exact (hrecorded record hmem).animated

end Flipbook.Machine
