import Repin.Document.Sha256
import Repin.Glob.Pattern
import Repin.Readers
import Repin.Toml.Document
import Repin.Xml.Document
import Repin.Yaml.Token.Lexer
/-!
# The standard readers

The readers that the program runs with. Each format and the patterns are read by a grammar, and the hash
is SHA-256.
-/
namespace Repin.Readers

def standard : Readers where
  xml := Xml.parse
  yaml text :=
    match Yaml.tokens text.toList >>= Yaml.Event.ofTokens with
    | .ok events => .ok events
    | .error e => .error ⟨"yaml", ⟨e.mark.line, e.mark.col + 1⟩, e.reason⟩
  toml := Toml.parse
  glob text :=
    match Glob.Pattern.parse text with
    | .ok pattern => .ok pattern.accepts
    | .error e => .error e.message
  glob_plain {pattern} plain := by
    have plain : ∀ c ∈ pattern.toList, c ∉ ['[', '\x7b', '\x7d', '\\'] := by
      simpa [isPlainPattern] using plain
    have ⟨_, parsed⟩ := Glob.Pattern.exists_parse_of_plain plain
    exact ⟨_, by rw [parsed]⟩
  hash bytes := Sha256.hexDigest bytes.data.toList

end Repin.Readers
