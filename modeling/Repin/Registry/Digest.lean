import Repin.Error
import Repin.Text.Split
/-!
# Digests of images

A registry knows the digest of the content that an image has under a tag. A run remembers what it was
told, also that a tag is unknown, so it asks once; after an error it asks again.
-/
namespace Repin

-- Where a registry keeps the manifest of a tag. The part of a name before the first slash is a host
-- if it looks like one; other images are of the public registry.
def manifestUrl (image tag : String) : String :=
  let url (host repository : List Char) : String :=
    String.ofList ("https://".toList ++ host ++ "/v2/".toList ++ repository ++ "/manifests/".toList
      ++ tag.toList)
  let hub := "registry-1.docker.io".toList
  match Text.splitOnce '/' image.toList with
  | none => url hub ("library/".toList ++ image.toList)
  | some (first, rest) =>
    if first.contains '.' || first.contains ':' || first == "localhost".toList then url first rest
    else url hub image.toList

-- What a registry answers for an image and a tag: its digest, or that it knows none.
abbrev DigestAnswer := Except RunError (Option String)

-- The answers of a run by image and tag.
structure DigestCache where
  entries : List ((String × String) × Option String) := []
  deriving DecidableEq, Repr

namespace DigestCache

def empty : DigestCache := {}

-- The remembered answer, if there is one.
def find? (c : DigestCache) (image tag : String) : Option (Option String) :=
  c.entries.lookup (image, tag)

def insert (c : DigestCache) (image tag : String) (digest : Option String) : DigestCache :=
  ⟨((image, tag), digest) :: c.entries⟩

def size (c : DigestCache) : Nat :=
  c.entries.length

-- Remembers an answer unless it is an error.
def remember (c : DigestCache) (image tag : String) : DigestAnswer → DigestCache
  | .ok digest => c.insert image tag digest
  | .error _ => c

-- The remembered answer, or else the one that asking gives.
def resolve [Monad m] (c : DigestCache) (image tag : String) (ask : m DigestAnswer) :
    m (DigestAnswer × DigestCache) :=
  match c.find? image tag with
  | some digest => pure (.ok digest, c)
  | none => do
    let answer ← ask
    return (answer, c.remember image tag answer)

end DigestCache
end Repin
