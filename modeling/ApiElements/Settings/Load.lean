import ApiElements.Settings.File
import ApiElements.Yaml.Build

/-!
This module contains the loading of settings from YAML files.
-/

namespace ApiElements

namespace Settings

def load : (path : String) → (file : Option String) → (environment : Table Value) →
    Except Fault Settings :=
  loadWith Yaml.parse

end Settings

end ApiElements
