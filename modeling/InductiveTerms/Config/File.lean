import InductiveTerms.Config.Basic
import InductiveTerms.Index
import InductiveTerms.Text.Json

/-!
Settings files. A file holds a JSON object with the fields `stack_size` and
`specialized_name_format`, or an array of their values in this order. What is left out has its
default, fields of other names are ignored, and a known field may not be repeated.
-/
namespace InductiveTerms.Config
open Text (Json)

def stackSize? : Json → Option Nat
  | .number (some n) => if n ≤ Index.maxIndex then some n else none
  | _ => none

def nameFormat? : Json → Option String
  | .string text? => text?
  | _ => none

/-- Reads the fields of an object, given the values read so far. -/
def ofFields? : List (Option String × Json) → Option Nat → Option String → Option Config
  | [], size?, format? => some ⟨size?.getD defaultStackSize, format?.getD defaultNameFormat⟩
  | (none, _) :: _, _, _ => none
  | (some key, value) :: rest, size?, format? =>
      if key = "stack_size" then
        if size?.isSome then none
        else (stackSize? value).bind fun n => ofFields? rest (some n) format?
      else if key = "specialized_name_format" then
        if format?.isSome then none
        else (nameFormat? value).bind fun s => ofFields? rest size? (some s)
      else
        ofFields? rest size? format?

def ofJson? : Json → Option Config
  | .object fields => ofFields? fields none none
  | .array [] => some default
  | .array [size] => (stackSize? size).map (⟨·, defaultNameFormat⟩)
  | .array [size, format] => do
      let n ← stackSize? size
      let s ← nameFormat? format
      return ⟨n, s⟩
  | _ => none

/-- The settings in a file of which the content is given, or nothing if there is no such file. -/
def load (content? : Option String) : Except ConfigError Config := do
  match content? with
  | none => throw .unreadable
  | some text =>
      match (Json.parse? text).bind ofJson? with
      | none => throw .malformed
      | some c => do
          c.validate
          return c

end InductiveTerms.Config
