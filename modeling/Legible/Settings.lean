import Legible.FilePath.Output
import Legible.Settings.Value
import Legible.Settings.Variables

/-!
The settings of a run. A value given for the run wins over the environment, and the environment wins
over the file of variables.
-/

namespace Legible

structure Settings where
  renameVariables : Bool := true
  simplifyCode : Bool := true
  nameStyle : Naming.Style := .dictionary
  nameSeed : Nat := 0
  indentSize : Nat := 2
  outputDirectory : Option String := none
  recursionLimit : Int := 10000
  debugLogFile : Option String := none

namespace Settings

def variableStart : String := "UNBUNDLIFY_"

structure Sources where
  given : Fields
  environment : List (String × String)
  file : List (String × String)

def lookupVariable (name : String) (values : List (String × String)) : Option String :=
  let name := Text.lower (variableStart ++ name)
  (values.find? fun v => Text.lower v.1 == name).map (·.2)

def Sources.value? (s : Sources) (name : String) : Option Tree :=
  (s.given.lookup name).or
    (((lookupVariable name s.environment).or (lookupVariable name s.file)).map Tree.text)

structure Rejected where
  names : List String
deriving DecidableEq

def field {α : Type} (s : Sources) (name : String) (read? : Tree → Option α) (default : α) :
    Except Rejected α :=
  match s.value? name with
  | none => .ok default
  | some t =>
    match read? t with
    | some v => .ok v
    | none => .error ⟨[name]⟩

def readPath? : Tree → Option (Option String)
  | .scalar .null => some none
  | .scalar (.text s) => some (some (FilePath.tidy s))
  | _ => none

def both {α β : Type} : Except Rejected α → Except Rejected β → Except Rejected (α × β)
  | .ok a, .ok b => .ok (a, b)
  | .error e, .ok _ => .error e
  | .ok _, .error e => .error e
  | .error d, .error e => .error ⟨d.names ++ e.names⟩

def read (s : Sources) : Except Rejected Settings :=
  let log := field s "debug_log_file" readPath? none
  let indent := field s "indent_size" (readFrom? 1) 2
  let seed := field s "name_seed" (readFrom? 0) 0
  let style := field s "name_style" readStyle? .dictionary
  let directory := field s "output_dir" readPath? none
  let limit := field s "recursion_limit" readInt? 10000
  let rename := field s "rename_variables" readBool? true
  let code := field s "rewrite_code" readBool? true
  (both log (both indent (both seed (both style (both directory (both limit
    (both rename code))))))).map
    fun (debugLogFile, indentSize, nameSeed, nameStyle, outputDirectory, recursionLimit,
        renameVariables, simplifyCode) =>
      { renameVariables, simplifyCode, nameStyle, nameSeed, indentSize, outputDirectory,
        recursionLimit, debugLogFile }

structure Switches where
  noMods : Bool := false
  noCode : Bool := false
  noVars : Bool := false
  names : Option String := none
deriving DecidableEq

def Switches.given (w : Switches) (values : Fields) : Fields :=
  let values := if w.noMods || w.noCode then Fields.set "rewrite_code" (.bool false) values
    else values
  let values := if w.noMods || w.noVars then Fields.set "rename_variables" (.bool false) values
    else values
  match w.names with
  | none => values
  | some names => if names = "" then values else Fields.set "name_style" (.text names) values

end Settings

end Legible
