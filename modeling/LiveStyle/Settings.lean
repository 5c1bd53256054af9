import LiveStyle.Diagnostics.Event
import LiveStyle.Text.Blank

/-! # Settings

One variable selects the division policy.  White space around the policy's name and
the case of its ASCII letters do not matter; a text that names no policy is reported
as it stands and leaves the default.
-/
namespace LiveStyle.Settings

def divisionVariable : String := "STYLE_EVAL_DIVISION"

/-- A setting without the white space around it and with ASCII letters in lower case. -/
def plain (raw : String) : String := String.ofList ((Text.trim raw.toList).map Char.toLower)

def division (lookup : String → Option String) (log : Log) : DivisionPolicy × Log :=
  match lookup divisionVariable with
  | none => (default, log)
  | some raw =>
    match DivisionPolicy.ofName? (plain raw) with
    | some policy => (policy, log)
    | none => (default, log.push (.unknownPolicy divisionVariable raw))

end LiveStyle.Settings
