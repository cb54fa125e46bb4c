import StyleScript.Settings.Json
import StyleScript.Settings.Yaml.Document
import StyleScript.Text.Classes
import StyleScript.Fault
/-!
# Settings files

A file whose name ends in `.json` is read as JSON and any other as YAML.  In YAML a blank text says nothing;
in JSON it is no file of settings.
-/
namespace StyleScript.Settings

def ofJson (text : Text) : Except Fault Settings :=
  match Json.settings? text with
  | some settings => .ok settings
  | none => .error (.bare .settings)

def ofYaml (text : Text) : Except Fault Settings :=
  if Text.isBlankText text then .ok {}
  else match Yaml.settings? text with
    | some settings => .ok settings
    | none => .error (.bare .settings)

/-- What follows the last `.` of a file's name, unless that begins the name. -/
def extension? (file : Text) : Option Text :=
  let ending := (file.reverse.takeWhile (· ≠ '.')).reverse
  if ending.length + 1 < file.length then some ending else none

/-- The settings of a file, given its text if it can be read. -/
def ofFile (file : Text) (text : Option Text) : Except Fault Settings :=
  match text with
  | none => .error (.bare (.settingsUnreadable file))
  | some text => if extension? file = some "json".toList then ofJson text else ofYaml text

end StyleScript.Settings
