import Legible.Command.Arguments

namespace Legible.Command

def entry (width : Nat) (name text : String) : String :=
  "  " ++ name ++ String.ofList (List.replicate (width - name.length) ' ') ++ text

def helpEntry (width : Nat) : String :=
  entry width "--help" "Show this message and exit."

def overviewLines : List String :=
  ["Usage: main [OPTIONS] COMMAND [ARGS]...", "",
   "  Unbundlify - split JavaScript bundles and make minified code readable.", "",
   "Options:",
   entry 11 "--version" "Show the version and exit.",
   helpEntry 11, "",
   "Commands:",
   entry 10 "beautify" "Rewrite minified scripts in place.",
   entry 10 "modules" "List the modules of a bundle and the names they resolve to.",
   entry 10 "unbundle" "Split a Browserify or Webpack bundle into one file per module."]

def writingOptions : List String :=
  ["Options:",
   entry 31 "-n, --no-mods" "Disable all modifications, reformat only",
   entry 31 "-c, --no-code" "Disable code rewriting",
   entry 31 "-v, --no-vars" "Disable variable name modification",
   entry 31 "--names [dictionary|phonetic]" "Style of generated variable names",
   entry 31 "--debug" "Enable debug logging to file",
   entry 31 "--debug-file PATH" "Debug log file path (default:",
   entry 31 "" "unbundlify_debug_TIMESTAMP.log)",
   helpEntry 31]

def Page.lines : Page → List String
  | .overview => overviewLines
  | .beautify =>
    ["Usage: main beautify [OPTIONS] SCRIPTS...", "", "  Rewrite minified scripts in place.", ""] ++
      writingOptions
  | .unbundle =>
    ["Usage: main unbundle [OPTIONS] SCRIPT [TARGET_DIR]", "",
     "  Split a Browserify or Webpack bundle into one file per module.", "",
     "  TARGET_DIR defaults to the configured output directory.", ""] ++ writingOptions
  | .modules =>
    ["Usage: main modules [OPTIONS] SCRIPT", "",
     "  List the modules of a bundle and the names they resolve to.", "",
     "Options:", helpEntry 8]

end Legible.Command
