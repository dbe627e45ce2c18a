import Hyperion.Kernel
import Hyperion.Str

/-!
# Paths

`pparser.c`. A parsed path is a drive number and the list of its parts. The blocks that
the parts are copied to are taken from the heap.
-/

namespace Hyperion

open Partial

/-- `struct path_root`, with the parts that `first` leads to. -/
structure PathRoot where
  driveNo : Int
  parts : List (List UInt8)
  deriving DecidableEq

def pathparserPathValidFormat (filename : List UInt8) : Bool :=
  let len := strnlen filename maxPath
  3 ≤ len && isdigit (charAt filename 0) && charAt filename 1 = 58 && charAt filename 2 = 47

/-- The drive number and the rest of the path, or an error code. -/
def pathparserGetDriveByPath (path : List UInt8) : Except Int (Int × List UInt8) :=
  if !pathparserPathValidFormat path then .error (-EBADPATH)
  else .ok (tonumericdigit (charAt path 0), path.drop 3)

/-- The next part and the rest of the path. An empty part is null. -/
def pathparserGetPathPart (path : List UInt8) : KernelM (Option (List UInt8) × List UInt8) := do
  let resultPathPart ← kzalloc maxPath
  let part := path.takeWhile (· ≠ 47)
  -- the loop stores through the pointer
  if part ≠ [] ∧ resultPathPart = 0 then fault
  -- the slash is skipped
  let rest := (path.dropWhile (· ≠ 47)).drop 1
  if part = [] then
    kfree resultPathPart
    return (none, rest)
  return (some part, rest)

def pathparserParsePathPart (path : List UInt8) : KernelM (Option (List UInt8) × List UInt8) := do
  let (part, rest) ← pathparserGetPathPart path
  match part with
  | none => return (none, rest)
  | some part =>
    let p ← kzalloc 8
    if p = 0 then fault
    return (some part, rest)

/-- The parts from the second one on, at most `fuel` of them. -/
def pathparserParseParts : (fuel : ℕ) → (path : List UInt8) → KernelM (List (List UInt8))
  | 0, _ => return []
  | fuel + 1, path => do
    let (part, rest) ← pathparserParsePathPart path
    match part with
    | none => return []
    | some part =>
      let parts ← pathparserParseParts fuel rest
      return part :: parts

def pathparserParse (path : List UInt8) : KernelM (Option PathRoot) := do
  if maxPath < path.length then return none
  match pathparserGetDriveByPath path with
  | .error _ => return none
  | .ok (driveNo, tmpPath) =>
    let pathRoot ← kzalloc 8
    if pathRoot = 0 then fault
    -- every part but the last is followed by a slash
    let parts ← pathparserParseParts (path.length + 1) tmpPath
    return some ⟨driveNo, parts⟩

end Hyperion
