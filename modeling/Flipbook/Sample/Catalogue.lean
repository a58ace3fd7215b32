import Flipbook.Sample.Documents

/-!
# Sample/Catalogue — documents to try things on

The catalogue names a few machines and the sprites they play against, each with the path of its
document.
-/

namespace Flipbook.Sample

/-- What a sample is a sample of. -/
inductive Kind where
  | machine
  | sprites
deriving DecidableEq, Repr

/-- A kind in messages. -/
def Kind.text : Kind → String
  | machine => "state machine"
  | sprites => "sprite animation"

/-- The folder of a kind. -/
def Kind.folder : Kind → String
  | machine => "state-machines"
  | sprites => "sprite-animations"

/-- A named document. -/
structure Entry where
  name : String
  kind : Kind
  text : String
  /-- The name of the sprites that a machine plays against. -/
  paired : Option String := none

/-- Where the document of an entry lies. -/
def Entry.path (e : Entry) : String := e.kind.folder ++ "/" ++ e.name ++ ".json"

/-- Every sample, by name within its kind. -/
def catalogue : List Entry :=
  [ { name := "broken-weight", kind := .machine, text := brokenWeightMachine },
    { name := "door", kind := .machine, text := doorMachine, paired := some "door" },
    { name := "hero", kind := .machine, text := heroMachine, paired := some "hero" },
    { name := "door", kind := .sprites, text := doorSprites },
    { name := "hero", kind := .sprites, text := heroSprites } ]

/-- The names of the samples of a kind. -/
def names (kind : Kind) : List String :=
  (catalogue.filter fun e => e.kind = kind).map Entry.name

/-- The wording for a name that no sample of a kind has. -/
def unknownMessage (kind : Kind) (name : String) : String :=
  "unknown " ++ kind.text ++ " fixture '" ++ name ++ "'"

/-- The sample of a kind and name, or why there is none. -/
def find (kind : Kind) (name : String) : Except String Entry :=
  match catalogue.find? fun e => e.kind = kind && e.name == name with
  | some e => .ok e
  | none => .error (unknownMessage kind name)

/-- The sprites that a machine plays against. -/
def Entry.sprites? (e : Entry) : Option Entry :=
  e.paired.bind fun name => (find .sprites name).toOption

end Flipbook.Sample
