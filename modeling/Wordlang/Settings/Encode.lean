import Wordlang.Settings
import Wordlang.Yaml.Scalar.Write

/-!
# Writing settings

Settings as a YAML mapping, one key per setting, always in the same order.
-/

namespace Wordlang

/-- The settings as a file. -/
def Settings.encode (s : Settings) : String :=
  let text (key value : String) : String := key ++ ": " ++ Yaml.writeText value
  text "target" s.target ++ text "module" s.module ++
    "verify: " ++ (if s.verify then "true\n" else "false\n") ++
    text "log-level" s.logLevel ++ text "log-format" s.logFormat

end Wordlang
