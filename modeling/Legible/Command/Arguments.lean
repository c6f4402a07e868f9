import Legible.Settings
import Legible.Text.Case

namespace Legible.Command

structure Options where
  switches : Settings.Switches := {}
  debug : Bool := false
  debugFile : Option String := none
deriving DecidableEq

inductive Page where
  | overview
  | beautify
  | unbundle
  | modules
deriving DecidableEq

inductive Request where
  | version
  | help (page : Page)
  | beautify (scripts : List String) (options : Options)
  | unbundle (script : String) (target : Option String) (options : Options)
  | modules (script : String)
deriving DecidableEq

structure Given where
  plain : List String := []
  options : Options := {}
  wantsHelp : Bool := false
deriving DecidableEq

inductive Flag where
  | noMods
  | noCode
  | noVars
  | debug
  | help
deriving DecidableEq

inductive Valued where
  | names
  | debugFile
deriving DecidableEq

def Flag.set (g : Given) : Flag → Given
  | .noMods => { g with options.switches.noMods := true }
  | .noCode => { g with options.switches.noCode := true }
  | .noVars => { g with options.switches.noVars := true }
  | .debug => { g with options.debug := true }
  | .help => { g with wantsHelp := true }

def Valued.set (value : String) (g : Given) : Valued → Given
  | .names => { g with options.switches.names := some value }
  | .debugFile => { g with options.debugFile := some value }

structure Vocabulary where
  flags : List (String × Flag)
  letters : List (Char × Flag)
  valued : List (String × Valued)

def onlyHelp : Vocabulary where
  flags := [("help", .help)]
  letters := []
  valued := []

def writing : Vocabulary where
  flags := [("no-mods", .noMods), ("no-code", .noCode), ("no-vars", .noVars), ("debug", .debug),
    ("help", .help)]
  letters := [('n', .noMods), ('c', .noCode), ('v', .noVars)]
  valued := [("names", .names), ("debug-file", .debugFile)]

inductive Meaning where
  | plain
  | separator
  | flags (fs : List Flag)
  | valued (option : Valued) (value : Option String)
deriving DecidableEq

def splitEquals (cs : List Char) : String × Option String :=
  let name := cs.takeWhile (· != '=')
  (String.ofList name,
    if name.length = cs.length then none else some (String.ofList (cs.drop (name.length + 1))))

def Meaning.ofWord? (v : Vocabulary) (word : List Char) : Option Meaning :=
  match splitEquals word with
  | (name, value) =>
    match v.flags.lookup name, v.valued.lookup name, value with
    | some f, _, none => some (.flags [f])
    | none, some o, value => some (.valued o value)
    | _, _, _ => none

def Meaning.of? (v : Vocabulary) (argument : String) : Option Meaning :=
  match argument.toList with
  | ['-', '-'] => some .separator
  | '-' :: '-' :: word => ofWord? v word
  | '-' :: c :: cs => ((c :: cs).mapM fun c => v.letters.lookup c).map .flags
  | _ => some .plain

def Given.read? (v : Vocabulary) (g : Given) : List String → Option Given
  | [] => some g
  | a :: rest =>
    match Meaning.of? v a with
    | none => none
    | some .plain => read? v { g with plain := g.plain ++ [a] } rest
    | some .separator => some { g with plain := g.plain ++ rest }
    | some (.flags fs) => read? v (fs.foldl Flag.set g) rest
    | some (.valued o (some value)) => read? v (o.set value g) rest
    | some (.valued o none) =>
      match rest with
      | [] => none
      | value :: rest => read? v (o.set value g) rest

def Options.checked? (o : Options) : Option Options :=
  match o.switches.names with
  | none => some o
  | some names =>
    let names := Text.lower names
    (Naming.Style.ofText? names).map fun _ => { o with switches.names := some names }

def Request.ofGiven? (page : Page) (g : Given) : Option Request :=
  if g.wantsHelp then some (.help page)
  else
    match g.options.checked?, page, g.plain with
    | some o, .beautify, script :: scripts => some (.beautify (script :: scripts) o)
    | some o, .unbundle, [script] => some (.unbundle script none o)
    | some o, .unbundle, [script, target] => some (.unbundle script (some target) o)
    | some _, .modules, [script] => some (.modules script)
    | _, _, _ => none

def Page.vocabulary : Page → Vocabulary
  | .beautify | .unbundle => writing
  | .overview | .modules => onlyHelp

def commands : List (String × Page) :=
  [("beautify", .beautify), ("modules", .modules), ("unbundle", .unbundle)]

def Request.ofCommand? : List String → Option Request
  | [] => none
  | name :: rest =>
    match commands.lookup name with
    | none => none
    | some page => (Given.read? page.vocabulary {} rest).bind (ofGiven? page)

def Request.read? (first : Option Request) : List String → Option Request
  | [] => first
  | a :: rest =>
    if a = "--version" then read? (first.or (some .version)) rest
    else if a = "--help" then read? (first.or (some (.help .overview))) rest
    else if a = "--" then first.or (ofCommand? rest)
    else if a.toList.head? == some '-' && a != "-" then none
    else first.or (ofCommand? (a :: rest))

def Request.ofArguments? (arguments : List String) : Option Request :=
  read? none arguments

end Legible.Command
