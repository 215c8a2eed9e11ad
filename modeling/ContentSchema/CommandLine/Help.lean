import ContentSchema.CommandLine.Arguments
import ContentSchema.Text.Split
import ContentSchema.Text.Width

/-!
# Help

What each command does and which options it takes, in two columns.
-/

namespace ContentSchema

def programName : String := "fieldkit"

def programVersion : String := "0.1.0"

def CommandName.about : CommandName → String
  | .doctor => "Validate configuration and print the loaded schema registry"
  | .process => "Sanitize and validate records of a collection"
  | .populate => "Expand relations of stored records"
  | .keywords => "Extract search keywords from records"

namespace Parameter

/-- The name of a value in help. -/
def valueName (p : Parameter) : String := "<" ++ p.name.toUpper ++ ">"

/-- How an option is written. -/
def form (p : Parameter) : String :=
  if p.kind = .flag then "--" ++ p.name else "--" ++ p.name ++ " " ++ p.valueName

/-- What is said of an option. -/
def remark (p : Parameter) : String :=
  match p.kind with
  | .choice words =>
    "[default: " ++ words.headD "" ++ "] [possible values: " ++ Text.join ", " words ++ "]"
  | _ => p.about

end Parameter

namespace Help

/-- Lines of two columns, the first one as wide as its widest entry. -/
def columns (rows : List (String × String)) : List String :=
  let width := (rows.map fun row => Text.width row.1).foldl max 0
  rows.map fun (left, right) =>
    "  " ++ left ++ String.ofList (List.replicate (width - Text.width left + 2) ' ') ++ right

/-- A section with a heading. -/
def titled (heading : String) (rows : List (String × String)) : List String :=
  "" :: (heading ++ ":") :: columns rows

/-- The options of a level. -/
def options (level : Level) : List (String × String) :=
  level.parameters.map (fun p => ("    " ++ p.form, p.remark)) ++ [("-h, --help", "Print help")] ++
    if level.hasVersion then [("-V, --version", "Print version")] else []

/-- The options that have to be given, as they are written. -/
def requiredForms (level : Level) : String :=
  String.join ((level.parameters.filter (·.required)).map fun p => " " ++ p.form)

/-- What is said of the word that asks for help. -/
def helpAbout : String := "Print this message or the help of the given subcommand(s)"

/-- The lines of help on a topic. -/
def lines : HelpTopic → List String
  | .program =>
    ["Schema-driven field processing for content records", "",
      "Usage: " ++ programName ++ " [OPTIONS] <COMMAND>"] ++
      titled "Commands" (CommandName.all.map (fun c => (c.text, c.about)) ++
        [(Level.helpWord, helpAbout)]) ++
      titled "Options" (options .program)
  | .command name =>
    [name.about, "", "Usage: " ++ programName ++ " " ++ name.text ++ " [OPTIONS]" ++
      requiredForms (.command name)] ++
      titled "Options" (options (.command name))
  | .help =>
    [helpAbout, "", "Usage: " ++ programName ++ " " ++ Level.helpWord ++ " [COMMAND]..."] ++
      titled "Arguments" [("[COMMAND]...", "Print help for the subcommand(s)")]

/-- Help on a topic. -/
def text (topic : HelpTopic) : String := Text.join "\n" (lines topic) ++ "\n"

end Help

end ContentSchema
