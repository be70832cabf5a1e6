import ScriptFuzz.Settings.Basic
import ScriptFuzz.Toml.Document

/-!
# Settings as documents

The settings that a TOML document gives.
-/

namespace ScriptFuzz.Settings

set_option autoImplicit false

def ofToml? (source : String) : Option Settings := (Toml.read? source).bind (ofSetting? false)

end ScriptFuzz.Settings
