import Flipbook.Json.Reader
import Flipbook.Json.Schema
import Flipbook.Json.Writer
import Flipbook.Machine.Name

/-!
# Machine/Sprite — frames that play over time

A `Sprite` plays its frames evenly over its total time.  `Sprite.frameAt?` stops at both ends, and
`Sprite.loopingFrameAt?` starts over.  A `SpriteLibrary` finds sprites by the hash of their name.
-/

namespace Flipbook.Machine

open Json

/-- Frames that play over a total time. -/
structure Sprite where
  frames : List Nat
  totalTime : Single
deriving DecidableEq, Repr

namespace Sprite

/-- The sprite without frames. -/
def empty : Sprite := ⟨[], Single.zero⟩

/-- Whether there are frames and a finite, positive time to play them. -/
def isPlayable (s : Sprite) : Bool :=
  !s.frames.isEmpty && s.totalTime.isFinite && Single.zero.less s.totalTime

/-- The frame at a time; times before the start and behind the end show the first and the last. -/
def frameAt? (s : Sprite) (time : Single) : Option Nat :=
  let ratio := (time / s.totalTime).clamp Single.zero Single.one
  let index := (ratio * Single.ofNat s.frames.length).toCount
  s.frames[min index (s.frames.length - 1)]?

/-- The frame at a time where the frames repeat in both directions.  The first frame stands for
times without a finite place. -/
def loopingFrameAt? (s : Sprite) (time : Single) : Option Nat :=
  let place := (Single.ofNat s.frames.length * time / s.totalTime).floor
  if place.isFinite then s.frames[(place.toInteger % s.frames.length).toNat]?
  else s.frames.head?

/-- Reads a sprite. -/
def ofJson? (v : Value) : Option Sprite := do
  match ← v.record? ["frames", "total_time"] with
  | [frames, totalTime] =>
    return ⟨← Value.required (Value.list? Value.index?) frames,
      ← Value.required Value.single? totalTime⟩
  | _ => none

/-- Writes a sprite. -/
def toJson (s : Sprite) : Value :=
  Value.ofFields [("frames", .array (s.frames.map Value.ofNat)),
    ("total_time", Value.ofSingle s.totalTime)]

end Sprite

/-- Sprites by the hash of their name, one for each hash. -/
structure SpriteLibrary where
  entries : List (LongHash × Sprite) := []
deriving DecidableEq, Repr

namespace SpriteLibrary

/-- The sprite under a hash. -/
def find? (l : SpriteLibrary) (name : LongHash) : Option Sprite := l.entries.lookup name

/-- The library without the sprite under a hash. -/
def erase (l : SpriteLibrary) (name : LongHash) : SpriteLibrary :=
  ⟨l.entries.filter fun e => e.1 ≠ name⟩

/-- The library with a sprite under a hash, instead of the one that was there. -/
def insert (l : SpriteLibrary) (name : LongHash) (sprite : Sprite) : SpriteLibrary :=
  ⟨(name, sprite) :: (l.erase name).entries⟩

/-- The library with every sprite of another one. -/
def merge (l other : SpriteLibrary) : SpriteLibrary :=
  other.entries.foldl (fun l e => l.insert e.1 e.2) l

/-- The number of sprites. -/
def size (l : SpriteLibrary) : Nat := l.entries.length

/-- How deep values may nest inside an entry of a library. -/
def entryDepth : Nat := 124

/-- Reads an entry of a library: an object with a name beside the fields of the sprite. -/
def entryOfJson? : Value → Option (LongHash × Sprite)
  | .object fields => do
    let fields ← Value.named? fields
    guard (fields.all fun f => f.2.isSound entryDepth)
    let name ← Value.required Value.text? (← Value.field? "name" fields)
    let sprite ← Sprite.ofJson? (Value.ofFields fields)
    return (LongHash.ofName name, sprite)
  | _ => none

/-- Reads a library; of several entries with one name the last counts. -/
def ofJson? (v : Value) : Option SpriteLibrary := do
  match ← v.record? ["animations"] with
  | [animations] =>
    let entries ← Value.required (Value.list? entryOfJson?) animations
    return entries.foldl (fun l e => l.insert e.1 e.2) {}
  | _ => none

/-- Reads the document of a library. -/
def parse? (text : String) : Option SpriteLibrary := (Value.parse? text).bind ofJson?

end SpriteLibrary

end Flipbook.Machine
