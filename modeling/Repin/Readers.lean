import Repin.Toml.Item
import Repin.Xml.Node
import Repin.Yaml.Event
/-!
# Readers

What is left to other libraries: the formats that have no grammar of their own here, the patterns of
paths, and hashes. A run is given its readers, and what holds of runs holds whatever they are.
-/
namespace Repin

-- Whether a pattern has neither classes nor choices nor escapes, which alone may be malformed.
def isPlainPattern (pattern : String) : Bool :=
  pattern.toList.all fun c => c ∉ ['[', '\x7b', '\x7d', '\\']

structure Readers where
  -- The root element of an XML document.
  xml : String → Except SyntaxError Xml.Node
  -- The events of a YAML stream.
  yaml : String → Except SyntaxError (List Yaml.Event)
  -- The table that a TOML document is, or why it is none.
  toml : String → Except String Toml.Entries
  -- The paths that a pattern selects, or why it is no pattern.
  glob : String → Except String (String → Bool)
  glob_plain : ∀ {pattern : String}, isPlainPattern pattern → ∃ selects, glob pattern = .ok selects
  -- The hash by which it is noticed that a file was changed.
  hash : ByteArray → String

end Repin
