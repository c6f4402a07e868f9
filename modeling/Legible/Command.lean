import Legible.Bundle.Module
import Legible.Command.Help
import Legible.Command.Report
import Legible.Text.Lines

/-!
The commands. `beautify` makes scripts readable in place, `unbundle` writes the modules of a bundle
into a directory, and `modules` lists them.
-/

namespace Legible.Command

/-- What a run finds, and what it relies on to read settings and scripts, to print trees, and to tell
lines with marks of style. -/
structure Surroundings where
  files : Files
  directory : String
  stamp : String
  configure : Fields → Except Settings.Rejected Settings
  parse : Parser
  print : Nat → Tree → String
  tell : String → Except String String

inductive Failure where
  | missing
  | undecodable (e : Text.DecodingError)
  | unreadable (message : String)
  | bundle (e : Bundle.Error)
  | style (e : Transform.Error)
  | escape (e : FilePath.EscapeError)
  | file (e : FileError)
  | unencodable (e : Text.EncodingError)
  | line (message : String)

def Failure.message (path : String) : Failure → String
  | .missing => "[Errno 2] No such file or directory: " ++ Text.quoted path
  | .undecodable e => e.message
  | .unreadable message => path ++ ": " ++ unreadableMessage message
  | .bundle e => e.message
  | .style e => e.message
  | .escape e => e.message
  | .file e => e.message
  | .unencodable e => e.message
  | .line message => message

def Failure.isForeseen : Failure → Bool
  | .unreadable .. | .bundle _ => true
  | _ => false

namespace Surroundings

def address (s : Surroundings) (path : String) : Address :=
  FilePath.addressOf (FilePath.absolute s.directory path)

def settings (s : Surroundings) (w : Settings.Switches) : Except Settings.Rejected Settings :=
  s.configure (w.given [])

def finds (s : Surroundings) (path : String) : Bool :=
  s.files.leadsToFile s.directory path

def told (s : Surroundings) (text : String) : Except Failure String :=
  (s.tell text).mapError .line

def toldRow (s : Surroundings) (row : List String × List String) : Except Failure (List String) := do
  return (← row.1.mapM s.told) ++ row.2

def stop (s : Surroundings) (status : Nat) : Outcome :=
  ⟨s.files, [], status⟩

def misused (s : Surroundings) : Outcome :=
  ⟨s.files, [.text "Usage: main [OPTIONS] COMMAND [ARGS]..."], 2⟩

end Surroundings

def parseContent (parse : Parser) (content : Content) : Except Failure Tree := do
  let text ← content.read.mapError .undecodable
  (parse (Text.withSigns (Text.withLineFeeds text))).mapError .unreadable

def readScript (s : Surroundings) (fs : Files) (path : String) : Except Failure Tree :=
  match fs.content? (s.address path) with
  | none => .error .missing
  | some content => parseContent s.parse content

def transform (c : Settings) (t : Tree) (a : Option Transform.Analysis) :
    Except Failure Transform.Context :=
  ((Transform.standardChain c.nameStyle c.nameSeed).run
    ⟨t, a, c.renameVariables, c.simplifyCode, {}⟩).mapError .style

/-! ### Steps of a run -/

/-- A failure ends a run, or is caught. In any case, what was done before stays. -/
abbrev Run := ExceptT Failure (StateM Progress)

namespace Run

variable {α : Type}

def of (r : Except Failure α) : Run α :=
  ExceptT.mk (pure r)

def result (run : Run α) (p : Progress) : Except Failure α × Progress :=
  (ExceptT.run run).run p

end Run

def say (s : Surroundings) (text : String) : Run Unit := do
  let shown ← Run.of (s.told text)
  modify fun p => { p with lines := p.lines ++ [.text shown] }

def sayTable (s : Surroundings) (title : String) (header : List String)
    (rows : List (List String × List String)) : Run Unit := do
  let rows ← Run.of (rows.mapM s.toldRow)
  modify fun p => { p with lines := p.lines ++ .text title :: .row header :: rows.map .row }

def record (s : Surroundings) (l : Level) (message : String) : Run Unit :=
  modify fun p =>
    match p.log, Text.encode (recordText l message) with
    | some path, .ok text => { p with files := p.files.append (s.address path) text }
    | _, _ => p

/-- Writes a tree to an absolute path, told as `shown`. If it cannot be encoded, the file stays
empty. -/
def save (s : Surroundings) (c : Settings) (path shown : String) (t : Tree) : Run Unit := do
  let files ← Run.of (((← get).files.opened path).mapError .file)
  modify fun p => { p with files }
  let text ← Run.of ((Text.encode (s.print c.indentSize t)).mapError .unencodable)
  modify fun p => { p with files := p.files.put (FilePath.addressOf path) (.text text) }
  say s ("[green]Saved output to: " ++ shown ++ "[/green]")

def recordFailure (s : Surroundings) (path : String) (e : Failure) : Run Row := do
  say s ("[red]Error processing " ++ path ++ ": " ++ e.message path ++ "[/red]")
  record s .error ("Failed to process " ++ path)
  return .failed path

/-! ### Beautifying in place -/

def rewriteScript (s : Surroundings) (c : Settings) (path : String) : Run Row := do
  say s ("[blue]Beautifying[/blue] " ++ path)
  let t ← Run.of (readScript s (← get).files path)
  let r ← Run.of (transform c t none)
  record s .info ("Transformed " ++ path)
  save s c (FilePath.absolute s.directory path) path r.tree
  return ⟨path, r.counts, true⟩

def beautifyScript (s : Surroundings) (c : Settings) (script : String) : Run Row :=
  let path := FilePath.tidy script
  tryCatch (rewriteScript s c path) (recordFailure s path)

/-! ### Splitting a bundle -/

def programOf (m : Bundle.Module) : Tree :=
  .object 0 [("type", .text "Program"), ("body", m.body.get "body"), ("sourceType", .text "script")]

def writeModule (s : Surroundings) (c : Settings) (target : String) (m : Bundle.Module) :
    Run Row := do
  let path ← Run.of ((FilePath.output target m.name).mapError .escape)
  let r ← Run.of (transform c (programOf m) (some ⟨m.scopes, m.path, m.names⟩))
  record s .info ("Transformed module " ++ m.name)
  let _ ← Run.of ((Text.encode path).mapError .unencodable)
  save s c path path r.tree
  return ⟨m.name, r.counts, true⟩

def splitScript (s : Surroundings) (fs : Files) (script : String) :
    Except Failure (List Bundle.Module) := do
  let t ← readScript s fs script
  let r := Bundle.split s.parse t
  match r.failure with
  | some e => throw (.bundle e)
  | none => return r.modules

/-- Writes the modules of a script into a directory, up to the first one that fails. Nothing is
written unless all of them can be split out. -/
def writeScript (s : Surroundings) (c : Settings) (script target : String) : Run (List Row) := do
  say s ("[blue]Unbundling[/blue] " ++ script ++ " [dim]into " ++ target ++ "[/dim]")
  let ms ← Run.of (splitScript s (← get).files script)
  say s ("[green]Found " ++ toString ms.length ++ " modules[/green]")
  ms.mapM (writeModule s c (FilePath.absolute s.directory target))

def unbundleScript (s : Surroundings) (c : Settings) (script target : String) : Run (List Row) :=
  tryCatch (writeScript s c script target) fun e => do return [← recordFailure s script e]

/-! ### Runs -/

def depthLimit : Int := 0x7fffffff

def logPath (s : Surroundings) (c : Settings) (o : Options) : Option String :=
  match (o.debugFile.map FilePath.tidy).or c.debugLogFile with
  | some path => some path
  | none => if o.debug then some ("unbundlify_debug_" ++ s.stamp ++ ".log") else none

def canStart (s : Surroundings) (c : Settings) (o : Options) : Bool :=
  c.recursionLimit ≤ depthLimit &&
    (logPath s c o).all fun path => s.files.isWritable (FilePath.absolute s.directory path)

def start (s : Surroundings) (c : Settings) (o : Options) : Run Unit :=
  match logPath s c o with
  | none => return
  | some path => do
    modify fun p => { p with files := p.files.append (s.address path) "", log := some path }
    say s ("[yellow]Debug logging enabled: " ++ path ++ "[/yellow]")
    record s .info "Debug logging started"

def summaryHeader : List String :=
  ["File", "Generated Names", "Rewritten Nodes", "Deduced Names", "Status"]

def sayLog (s : Surroundings) : Run Unit := do
  match (← get).log with
  | none => return
  | some path => say s ("\n[yellow]Debug log saved to: " ++ path ++ "[/yellow]")

def finish (s : Surroundings) (rows : List Row) : Run Nat := do
  sayTable s "Processing Summary" summaryHeader (rows.map fun r => ([r.name], r.results))
  record s .info "Processing complete"
  sayLog s
  return if rows.all (·.succeeded) then 0 else 1

def Surroundings.outcome (s : Surroundings) (run : Run Nat) : Outcome :=
  match run.result ⟨s.files, [], none⟩ with
  | (.ok status, p) => ⟨p.files, p.lines, status⟩
  | (.error _, p) => ⟨p.files, p.lines, 1⟩

def beautify (s : Surroundings) (scripts : List String) (o : Options) : Outcome :=
  match s.settings o.switches with
  | .error _ => s.stop 1
  | .ok c =>
    if canStart s c o then
      s.outcome do
        start s c o
        finish s (← scripts.mapM (beautifyScript s c))
    else s.stop 1

def unbundle (s : Surroundings) (script : String) (target : Option String) (o : Options) :
    Outcome :=
  match s.settings o.switches with
  | .error _ => s.stop 1
  | .ok c =>
    match (target.map FilePath.tidy).or c.outputDirectory with
    | none =>
      s.outcome do
        say s ("[red]Error: no target directory given. Pass TARGET_DIR or set " ++
          Settings.variableStart ++ "OUTPUT_DIR[/red]")
        return 1
    | some target =>
      if canStart s c o then
        s.outcome do
          start s c o
          finish s (← unbundleScript s c (FilePath.tidy script) target)
      else s.stop 1

/-! ### Listing modules -/

def listing (s : Surroundings) (script : String) :
    Except Failure (Bundle.Layout × Bundle.Table String) := do
  let t ← readScript s s.files script
  let l ← (Bundle.Layout.ofTree t).mapError .bundle
  let r ← (Bundle.resolve l).mapError fun e => Failure.bundle (.shape e)
  return (l, r.names)

def moduleCells (l : Bundle.Layout) (names : Bundle.Table String) (id : Bundle.Id) :
    List String × List String :=
  ([Bundle.spelled id, Bundle.withoutFinalSlashes ((names.get? id).getD "")],
    [if Bundle.containsId l.entries id then tick else ""])

def sayModules (s : Surroundings) (script : String) : Run Nat :=
  match listing s script with
  | .error e => do
    if e.isForeseen then say s ("[red]Error: " ++ e.message script ++ "[/red]")
    return 1
  | .ok (l, names) => do
    say s ("[blue]File:[/blue] " ++ script)
    say s ("[blue]Format:[/blue] " ++ l.format.text)
    sayTable s "Modules" ["Id", "Name", "Entry"] (l.modules.map fun m => moduleCells l names m.1)
    return 0

def listModules (s : Surroundings) (script : String) : Outcome :=
  match s.settings {} with
  | .error _ => s.stop 1
  | .ok c => if c.recursionLimit ≤ depthLimit then s.outcome (sayModules s script) else s.stop 1

/-! ### Command lines -/

def versionLine : String := "main, version 0.1.0"

def run (s : Surroundings) (arguments : List String) : Outcome :=
  match Request.ofArguments? arguments with
  | none => s.misused
  | some .version => ⟨s.files, [.text versionLine], 0⟩
  | some (.help page) => ⟨s.files, page.lines.map .text, 0⟩
  | some (.beautify scripts o) =>
    if scripts.all s.finds then beautify s scripts o else s.misused
  | some (.unbundle script target o) =>
    if s.finds script && !target.any s.finds then unbundle s script target o else s.misused
  | some (.modules script) =>
    if s.finds script then listModules s (FilePath.tidy script) else s.misused

end Legible.Command
