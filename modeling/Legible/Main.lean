import Legible.Command
import Legible.Script
import Legible.Text.Markup
import Legible.Tree.Json

namespace Legible

inductive Found where
  | nothing
  | directory
  | file (c : Content)

def contentOf (bytes : ByteArray) : Content :=
  match String.fromUTF8? bytes with
  | some s => .text s
  | none => .bytes bytes.toList

def find (path : String) : IO Found := do
  try
    return .file (contentOf (← IO.FS.readBinFile path))
  catch
    | .noFileOrDirectory .. => return .nothing
    | _ => return .directory

def findAll (paths : List String) : IO Files := do
  let mut files : Files := ⟨[], []⟩
  for path in paths do
    match ← find path with
    | .file c => files := files.put (FilePath.addressOf path) c
    | .directory =>
      files := { files with directories := FilePath.addressOf path :: files.directories }
    | .nothing =>
      if let .directory ← find (FilePath.directoryOf path) then
        let dir := FilePath.addressOf (FilePath.directoryOf path)
        files := { files with directories := dir :: files.directories }
  return files

def settingNames : List String :=
  ["DEBUG_LOG_FILE", "INDENT_SIZE", "NAME_SEED", "NAME_STYLE", "OUTPUT_DIR", "RECURSION_LIMIT",
   "RENAME_VARIABLES", "REWRITE_CODE"]

def environment : IO (List (String × String)) :=
  settingNames.filterMapM fun name => do
    let name := Settings.variableStart ++ name
    return (← IO.getEnv name).map fun value => (name, value)

def writeChanged (before after : Files) : IO Unit :=
  for (address, content) in after.contents do
    if before.content? address != some content then
      let path := String.ofList ('/' :: FilePath.joined address)
      IO.FS.createDirAll (FilePath.directoryOf path)
      match content with
      | .text s => IO.FS.writeFile path s
      | .bytes bs => IO.FS.writeBinFile path ⟨bs.toArray⟩

def lineText : Command.Line → String
  | .text s => s
  | .row cells => "  ".intercalate cells

end Legible

open Legible

def main (arguments : List String) : IO UInt32 := do
  let directory := (← IO.currentDir).toString
  let environment ← environment
  let found ← findAll [FilePath.absolute directory ".env"]
  let file := match found.contents with
    | (_, .text s) :: _ => Settings.variablesOf s
    | _ => []
  let mentioned := ".env" :: arguments ++ environment.map (·.2) ++ file.map (·.2)
  let files ← findAll (directory :: mentioned.map (FilePath.absolute directory))
  let r := Command.run
    { files, directory, stamp := toString (← IO.monoMsNow)
      configure := fun given => Settings.read ⟨given, environment, file⟩
      parse := Script.parse, print := Json.printed, tell := Text.shown }
    arguments
  writeChanged files r.files
  for line in r.lines do
    IO.println (lineText line)
  return UInt32.ofNat r.status
