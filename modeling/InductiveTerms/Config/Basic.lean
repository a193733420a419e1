import InductiveTerms.Term.Printer
import InductiveTerms.Text.Quoted
import InductiveTerms.Text.Replace

/-!
Settings. The names of specialized functions are made from a template, in which the name of the
function, the constants and the position of the function in its bundle take the places of three
placeholders, one placeholder after the other.
-/
namespace InductiveTerms

structure Config where
  /-- Bytes of stack for a thread that works on deep terms. -/
  stackSize : Nat
  /-- Template for the names of specialized functions. -/
  nameFormat : String
  deriving DecidableEq, Repr

inductive ConfigError where
  /-- There is no file. -/
  | unreadable
  /-- The text is no settings file. -/
  | malformed
  | zeroStackSize
  | ambiguousFormat (format : String)
  deriving DecidableEq, Repr

namespace Config

def namePlaceholder : String := "\x7bname\x7d"

def argsPlaceholder : String := "\x7bargs\x7d"

def indexPlaceholder : String := "\x7bindex\x7d"

def defaultStackSize : Nat := 16777216

def defaultNameFormat : String := namePlaceholder ++ "_" ++ argsPlaceholder

def default : Config := ⟨defaultStackSize, defaultNameFormat⟩

/-- A template must mention the name or the position; without both, all functions of a bundle would
get one name. -/
def validate (c : Config) : Except ConfigError Unit :=
  if c.stackSize = 0 then
    .error .zeroStackSize
  else if Text.contains c.nameFormat namePlaceholder ||
      Text.contains c.nameFormat indexPlaceholder then
    .ok ()
  else
    .error (.ambiguousFormat c.nameFormat)

/-- The name of a function of a bundle that is specialized to constants. -/
def specializedName (c : Config) (b : Bundle Term) (i : Nat) (constants : List Term) : String :=
  let name := ((b.function? i).map (·.name)).getD ""
  let args := "_".intercalate (constants.map Term.render)
  let named := Text.replaceAll c.nameFormat namePlaceholder name
  Text.replaceAll (Text.replaceAll named argsPlaceholder args) indexPlaceholder i.repr

end Config

def ConfigError.message : ConfigError → String
  | .unreadable => "failed to open configuration file"
  | .malformed => "failed to parse configuration file"
  | .zeroStackSize => "invalid config: `stack_size` must be nonzero"
  | .ambiguousFormat format =>
      "invalid config: `specialized_name_format` (" ++ Text.quote format ++ ") must mention " ++
        Config.namePlaceholder ++ " or " ++ Config.indexPlaceholder

end InductiveTerms
