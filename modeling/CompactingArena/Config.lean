/-!
# Arena options
-/

namespace CompactingArena

/-- Where an allocation looks for memory first. -/
inductive Placement
  /-- A reclaimed chunk if one fits, otherwise fresh memory at the top. -/
  | reuseFirst
  /-- Fresh memory while the region has room, otherwise a reclaimed chunk. -/
  | bumpFirst
deriving DecidableEq

namespace Placement

def text : Placement → String
  | reuseFirst => "ReuseFirst"
  | bumpFirst => "BumpFirst"

def ofText? : String → Option Placement
  | "ReuseFirst" => some reuseFirst
  | "BumpFirst" => some bumpFirst
  | _ => none

end Placement

structure Config where
  placement : Placement := .reuseFirst
  /-- The byte that overwrites the contents of freed chunks, if any. -/
  poison : Option UInt8 := none
deriving DecidableEq

namespace Config

def text (c : Config) : String :=
  let poison := match c.poison with
    | none => "None"
    | some byte => "Some(" ++ toString byte.toNat ++ ")"
  "Config \x7b placement: " ++ c.placement.text ++ ", poison: " ++ poison ++ " \x7d"

end Config

end CompactingArena
