import FourGL.Command.Arguments

/-!
# Help

For every topic a page: what it is about, how it is used, and lists of its parts, operands and
options in two columns, of which the first is as wide as its widest entry.
-/

namespace FourGL

/-- A list of entries with what is said about each. -/
structure HelpList where
  title : String
  entries : List (String × String)

/-- A page of help. -/
structure HelpPage where
  about : String
  usage : String
  lists : List HelpList
  /-- What is said at the end. -/
  closing : Option String := none

namespace HelpList

/-- The list with its second column aligned. -/
def render (l : HelpList) : String :=
  let width := (l.entries.map (·.1.length)).foldl max 0
  l.title ++ ":\n" ++ String.join (l.entries.map fun (entry, text) =>
    "  " ++ entry ++ String.ofList (List.replicate (width - entry.length + 2) ' ') ++ text ++ "\n")

end HelpList

namespace HelpPage

/-- The page as text. -/
def render (p : HelpPage) : String :=
  let parts := [p.about ++ "\n", "Usage: " ++ p.usage ++ "\n"] ++ p.lists.map (·.render)
    ++ p.closing.toList.map (· ++ "\n")
  "\n".intercalate parts

end HelpPage

namespace Topic

def verboseEntry : String × String := ("-v, --verbose", "Show debug logging")

def helpEntry : String × String := ("-h, --help", "Print help")

/-- The page about a topic. -/
def page : Topic → HelpPage
  | program => {
      about := "Informix 4GL syntax checker"
      usage := "fgl [OPTIONS] <COMMAND>"
      lists := [
        ⟨"Commands", [
          ("check", "Parse source files and report diagnostics"),
          ("tokens", "Print the tokens of a file"),
          ("grammar", "Print statistics of the built-in grammar"),
          ("help", "Print this message or the help of the given subcommand(s)")]⟩,
        ⟨"Options", [verboseEntry, helpEntry, ("-V, --version", "Print version")]⟩]
      closing := some ("Examples:\n  fgl check src/\n"
        ++ "  fgl check --config fgl.toml main.4gl lib/*.4gl\n"
        ++ "  fgl tokens main.4gl --lines\n  fgl grammar --conflicts") }
  | check => {
      about := "Parse source files and report diagnostics"
      usage := "fgl check [OPTIONS] <PATH>..."
      lists := [
        ⟨"Arguments", [("<PATH>...", "Files, directories or glob patterns")]⟩,
        ⟨"Options", [
          ("    --config <FILE>",
            "Configuration file (default: fgl.toml in the current directory)"),
          verboseEntry, helpEntry]⟩] }
  | tokens => {
      about := "Print the tokens of a file"
      usage := "fgl tokens [OPTIONS] <FILE>"
      lists := [
        ⟨"Arguments", [("<FILE>", "Source file")]⟩,
        ⟨"Options", [
          ("    --lines", "Scan line by line and show the state carried between lines"),
          verboseEntry, helpEntry]⟩] }
  | grammar => {
      about := "Print statistics of the built-in grammar"
      usage := "fgl grammar [OPTIONS]"
      lists := [
        ⟨"Options", [
          ("    --conflicts", "List every resolved parser conflict"), verboseEntry, helpEntry]⟩] }
  | help => {
      about := "Print this message or the help of the given subcommand(s)"
      usage := "fgl help [COMMAND]..."
      lists := [⟨"Arguments", [("[COMMAND]...", "Print help for the subcommand(s)")]⟩] }

end Topic

/-- The name and version of the command. -/
def versionText : String := "fgl 0.9.20\n"

end FourGL
