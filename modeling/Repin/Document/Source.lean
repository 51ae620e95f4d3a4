import Repin.Disk.Basic
import Repin.Document.Encoding
import Repin.Error
import Repin.Readers
/-!
# Documents on a disk

The text of a file, and what is needed to write it back. A file is written only if its bytes still
have the hash of those that were read, so nobody's changes are lost.
-/
namespace Repin

structure SourceDocument where
  path : String
  -- How the file is written in messages.
  shown : String
  text : String
  metadata : FileMetadata
  -- The hash of the bytes as they were read.
  hash : String

namespace SourceDocument

def read (readers : Readers) (d : Disk) (path shown : String) : Except DocumentError SourceDocument :=
  match d.read path with
  | .error e => .error (.unreadable shown e.message)
  | .ok bytes =>
    match FileMetadata.decode? bytes with
    | some (text, metadata) => .ok { path, shown, text, metadata, hash := readers.hash bytes }
    | none => .error (.undecodable shown (TextEncoding.sniff bytes.data.toList).1.description)

-- Replaces the text of the document on its disk.
def writeBack (s : SourceDocument) (readers : Readers) (text : String) :
    EStateM DocumentError Disk Unit := do
  let failed (e : DiskFailure) : DocumentError := .unwritable s.shown e.message
  match (← get).read s.path with
  | .error e => throw (failed e)
  | .ok bytes =>
    if readers.hash bytes = s.hash then
      (Disk.write s.path (s.metadata.encode text)).adaptExcept failed
    else
      throw (.modified s.shown)

end SourceDocument
end Repin
