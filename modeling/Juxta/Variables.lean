import Juxta.Text.Blank

/-!
# Variables of the process

Two variables of the process switch diagnostics on.

## What is here

* `Variables` — names with their texts.
* `Variables.isOn` — whether a variable is switched on.
-/

set_option autoImplicit false
namespace Juxta

/-- The variables of a process. -/
abbrev Variables : Type :=
  List (String × String)

namespace Variables

/-- The variable that adds tracebacks to error messages. -/
def traceback : String := "ERGOLAS_DEBUG_PY_TRACE"

/-- The variable that traces the parser. -/
def parseTrace : String := "ERGOLAS_DEBUG_PARSE"

/-- Whether a variable is set to one of the words for "on".  Blanks around it and its case do not
matter; the words are ASCII, and so is the change of case. -/
def isOn (vars : Variables) (name : String) : Bool :=
  let text := (Text.strip ((vars.lookup name).getD "")).map Char.toLower
  ["1", "true", "yes", "on"].contains text

end Variables
end Juxta
