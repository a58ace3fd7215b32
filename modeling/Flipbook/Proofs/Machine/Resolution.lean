import Flipbook.Proofs.Machine.Evaluations
import Flipbook.Proofs.Machine.RoundTrip

/-!
# Proofs/Machine/Resolution — which variable a name stands for

A variable is found in two ways.  Expressions look its name up among the names of the description,
and no name stands there twice.  An engine looks the hash of its name up among the hashes that the
resource stores, and two names may have one hash: then it finds the earlier variable.
`Engine.resolves_of_build` says which variable that is, and that both ways agree exactly for a name
whose hash no earlier name has (`Resolves.variableIndex_iff`).
-/

namespace Flipbook

open Flipbook.Expr (Environment Token IsName compile)

/-- An element stands once in a list without repetitions. -/
theorem idxOf?_of_nodup {α : Type} [BEq α] [LawfulBEq α] {xs : List α} {i : Nat} {x : α}
    (h : xs.Nodup) (hi : xs[i]? = some x) : xs.idxOf? x = some i := by
  obtain ⟨hlt, rfl⟩ := List.getElem?_eq_some_iff.1 hi
  refine List.idxOf?_eq_some_iff.2 ⟨hlt, rfl, fun j hj heq => ?_⟩
  exact Nat.ne_of_lt hj (h.getElem_inj_iff.1 heq)

namespace Machine

variable {d : Description} {settings : BuildSettings} {i j : Nat} {name : String}

/-! ## Names in expressions -/

/-- **In expressions, the name of a declared variable stands for it**, whatever constants there
are. -/
theorem BuildSettings.ofName?_environment (settings : BuildSettings) (hd : d.variableNames.Nodup)
    (hi : d.variableNames[i]? = some name) :
    Token.ofName? (settings.environment d.variableNames) name = some (.variable i) := by
  have hindex : (settings.environment d.variableNames).variableIndex? name = some i := by
    rw [environment, Environment.variableIndex?, Environment.vars_withConstants,
      Environment.vars_ofVariables hd]
    exact idxOf?_of_nodup hd hi
  rw [Token.ofName?, hindex]

/-! ## Names in engines -/

namespace Description

/-- Whether a variable is the first one whose name has the hash of `name`. -/
structure FirstAlike (d : Description) (name : String) (j : Nat) : Prop where
  alike : (d.variableNames[j]?).map ShortHash.ofName = some (ShortHash.ofName name)
  first : ∀ k < j, (d.variableNames[k]?).map ShortHash.ofName ≠ some (ShortHash.ofName name)

/-- The first variable whose name has the hash of `name` is where the hash is found. -/
theorem firstAlike_iff : d.FirstAlike name j ↔
    (d.variableNames.map ShortHash.ofName).idxOf? (ShortHash.ofName name) = some j := by
  rw [List.idxOf?_eq_some_iff]
  constructor
  · intro h
    have halike := h.alike
    rw [← List.getElem?_map, List.getElem?_eq_some_iff] at halike
    obtain ⟨hlt, hat⟩ := halike
    refine ⟨hlt, hat, fun k hk heq => h.first k hk ?_⟩
    rw [← List.getElem?_map, List.getElem?_eq_getElem (Nat.lt_trans hk hlt), heq]
  · rintro ⟨hlt, hat, hfirst⟩
    refine ⟨?_, fun k hk heq => hfirst k hk ?_⟩
    · rw [← List.getElem?_map, List.getElem?_eq_getElem hlt, hat]
    · rw [← List.getElem?_map, List.getElem?_eq_getElem (Nat.lt_trans hk hlt)] at heq
      exact Option.some.inj heq

theorem FirstAlike.unique {k : Nat} (h : d.FirstAlike name j) (h' : d.FirstAlike name k) :
    j = k :=
  Option.some.inj ((firstAlike_iff.1 h).symm.trans (firstAlike_iff.1 h'))

/-- A declared name has the hash of itself, so that there is a first variable like it. -/
theorem exists_firstAlike (hi : d.variableNames[i]? = some name) :
    ∃ j ≤ i, d.FirstAlike name j := by
  have halike : (d.variableNames[i]?).map ShortHash.ofName = some (ShortHash.ofName name) := by
    rw [hi, Option.map_some]
  have hsome : ∃ j, (d.variableNames[j]?).map ShortHash.ofName = some (ShortHash.ofName name) :=
    ⟨i, halike⟩
  exact ⟨Nat.find hsome, Nat.find_min' hsome halike, Nat.find_spec hsome,
    fun k hk => Nat.find_min hsome hk⟩

end Description

/-- A built resource loads with the hashes of the names, which have no repetitions. -/
theorem exists_load_of_build {bytes : Blob} (hfinite : ∀ c ∈ settings.constants, c.2.isFinite)
    (h : (build d settings).run.value = .ok bytes) :
    d.variableNames.Nodup ∧ ∃ m, load bytes = .ok m ∧
      m.variableNames = d.variableNames.map ShortHash.ofName := by
  obtain ⟨hd, plans, code, hplans, hsize, rfl⟩ := build_eq_ok.1 h
  refine ⟨hd.variableNames, _, (sound_of_build hfinite hd hplans hsize).load_bytes, ?_⟩
  rw [Plan.resource, Description.variableNames, List.map_map]
  rfl

namespace Engine

variable {e : Engine} {entity : EntityId} {r : Record}

theorem variableIndex_of_some (hr : e.record? entity = some r) (name : String) :
    e.variableIndex entity name = match r.resource.variableIndex? (ShortHash.ofName name) with
      | some index => .ok index
      | none => .error (.unknownVariable name) := by
  simp only [variableIndex, record, hr]
  rfl

/-- An engine finds a variable by the hash of its name. -/
theorem variableIndex_of_firstAlike (hr : e.record? entity = some r)
    (hnames : r.resource.variableNames = d.variableNames.map ShortHash.ofName)
    (h : d.FirstAlike name j) : e.variableIndex entity name = .ok ⟨j⟩ := by
  rw [variableIndex_of_some hr, Resource.variableIndex?, hnames,
    Description.firstAlike_iff.1 h]
  rfl

/-- What the `i`-th variable of a description is to expressions and to an engine with a record of
its machine. -/
structure Resolves (d : Description) (settings : BuildSettings) (e : Engine) (entity : EntityId)
    (r : Record) (i : Nat) (name : String) : Prop where
  /-- In an expression the name stands for the variable. -/
  token : Token.ofName? (settings.environment d.variableNames) name = some (.variable i)
  /-- The expression that is the name reads the variable. -/
  read : IsName name.toList →
    compile name (settings.environment d.variableNames) = .ok ⟨[.load i, .finish]⟩
  /-- The engine finds the first variable with the hash of the name, and writes that one. -/
  write : ∃ j ≤ i, d.FirstAlike name j ∧ e.variableIndex entity name = .ok ⟨j⟩ ∧
    ∀ value, ∃ e', e.setVariable entity ⟨j⟩ value = .ok e' ∧
      e'.record? = Function.update e.record? entity (some { r with vars := r.vars.set j value })
  /-- So it finds the variable exactly if no name before it has that hash. -/
  variableIndex_iff : e.variableIndex entity name = .ok ⟨i⟩ ↔
    ∀ k < i, (d.variableNames[k]?).map ShortHash.ofName ≠ some (ShortHash.ofName name)

/-- **Which variable a declared name stands for** in expressions, and in every engine that holds a
record of the machine. -/
theorem resolves_of_build {bytes : Blob} (hfinite : ∀ c ∈ settings.constants, c.2.isFinite)
    (h : (build d settings).run.value = .ok bytes) :
    ∃ m, load bytes = .ok m ∧ ∀ (settings' : EngineSettings) (cs : List Call) (entity : EntityId)
      (r : Record), (after settings' cs).record? entity = some r → r.resource = m →
      ∀ i name, d.variableNames[i]? = some name →
        Resolves d settings (after settings' cs) entity r i name := by
  obtain ⟨hd, m, hload, hnames⟩ := exists_load_of_build hfinite h
  refine ⟨m, hload, fun settings' cs entity r hr hm i name hi => ?_⟩
  subst hm
  have hplayable : r.resource.Playable := Resource.Loaded.playable ⟨bytes, hload⟩
  have hvars : r.vars.length = d.variableNames.length := by
    rw [(inBounds_of_record? hr hplayable).vars, Resource.variableCount, hnames, List.length_map]
  have hindexed := indexed_after settings' cs
  obtain ⟨j, hji, hj⟩ := Description.exists_firstAlike hi
  have hfound := variableIndex_of_firstAlike hr hnames hj
  have htoken := settings.ofName?_environment hd hi
  refine ⟨htoken, fun hname => Expr.compile_of_variable hname htoken,
    ⟨j, hji, hj, hfound, fun value => ?_⟩, ?_⟩
  · have hlt : j < r.vars.length := by
      rw [hvars]
      exact Nat.lt_of_le_of_lt hji (List.getElem?_eq_some_iff.1 hi).1
    have hentity := hindexed.entity_of_record? hr
    refine ⟨_, (setVariable_of_some hr ⟨j⟩ value).trans (if_pos hlt), ?_⟩
    exact hindexed.record?_setRecord (hr ▸ rfl) hentity
  · rw [hfound]
    constructor
    · intro hij
      obtain rfl : j = i := congrArg VariableIndex.index (Except.ok.inj hij)
      exact hj.first
    · intro hfirst
      have halike : d.FirstAlike name i := ⟨by rw [hi, Option.map_some], hfirst⟩
      rw [hj.unique halike]

/-! ## One name, and two with one hash -/

/-- The engine that holds a machine for one entity. -/
theorem record?_after_create (settings : EngineSettings) (entity : EntityId) (m : Resource) :
    (after settings [.create entity m]).record? entity = some (Record.start entity m) := by
  have hcreate := ((indexed_new settings).record?_create entity m)
  exact (congrFun hcreate entity).trans (Function.update_self ..)

theorem resolves_of_build_walker : ∃ bytes m, (build walker {}).run.value = .ok bytes ∧
    load bytes = .ok m ∧
    (after {} [.create ⟨7⟩ m]).record? ⟨7⟩ = some (Record.start ⟨7⟩ m) ∧
    walker.variableNames[0]? = some "speed" ∧
    Resolves walker {} (after {} [.create ⟨7⟩ m]) ⟨7⟩ (Record.start ⟨7⟩ m) 0 "speed" := by
  obtain ⟨bytes, hbuild⟩ := exists_ok_of_isSome_toOption
    (show (build walker {}).run.value.toOption.isSome by decide +kernel)
  obtain ⟨m, hload, hresolves⟩ := resolves_of_build (by decide) hbuild
  have hr := record?_after_create {} ⟨7⟩ m
  exact ⟨bytes, m, hbuild, hload, hr, rfl, hresolves {} _ ⟨7⟩ _ hr rfl 0 "speed" rfl⟩

/-- A machine with two variables whose names have one hash. -/
def twins : Description where
  initialState := "pour"
  vars := [⟨"costarring", ⟨0x3f800000⟩⟩, ⟨"liquid", ⟨0x40000000⟩⟩]
  states := [{ id := "pour", speed := "liquid", animations := [{ name := "pour" }] }]

/-- The second of two names with one hash is read as the second variable, and found as the first. -/
theorem variableIndex_twins : (∀ c ∈ ({} : BuildSettings).constants, c.2.isFinite) ∧
    ∃ bytes m, (build twins {}).run.value = .ok bytes ∧ load bytes = .ok m ∧
    twins.variableNames[1]? = some "liquid" ∧
    compile "liquid" (BuildSettings.environment {} twins.variableNames)
      = .ok ⟨[.load 1, .finish]⟩ ∧
    (after {} [.create ⟨7⟩ m]).variableIndex ⟨7⟩ "liquid" = .ok ⟨0⟩ := by
  obtain ⟨bytes, hbuild⟩ := exists_ok_of_isSome_toOption
    (show (build twins {}).run.value.toOption.isSome by decide +kernel)
  have hfinite : ∀ c ∈ ({} : BuildSettings).constants, c.2.isFinite := by decide
  obtain ⟨hd, m, hload, hnames⟩ := exists_load_of_build hfinite hbuild
  have halike : twins.FirstAlike "liquid" 0 := by
    rw [Description.firstAlike_iff]
    decide +kernel
  have hname : IsName "liquid".toList := ⟨by decide, List.all_eq_true.1 (by decide)⟩
  have hread : compile "liquid" (BuildSettings.environment {} twins.variableNames)
      = .ok ⟨[.load 1, .finish]⟩ :=
    Expr.compile_of_variable hname (BuildSettings.ofName?_environment {} hd rfl)
  have hr := record?_after_create {} ⟨7⟩ m
  exact ⟨hfinite, bytes, m, hbuild, hload, rfl, hread, variableIndex_of_firstAlike hr hnames halike⟩

end Engine

end Machine

end Flipbook
