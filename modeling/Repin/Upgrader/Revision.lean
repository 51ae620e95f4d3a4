import Repin.Decision
import Repin.Locate.Candidate
import Repin.Patch.Diff
import Repin.Registry.Digest
import Repin.Report.Basic
import Repin.Upgrader.Basic
/-!
# Revising a document

A pass over a document locates its candidates, gives a verdict on each, and turns the verdicts into a
patch. A pass does not say where digests come from: that is a parameter, and so is the monad in which
they are asked for.
-/
namespace Repin

-- What becomes of a candidate.
inductive Verdict where
  -- It stays as it is.
  | keep
  -- Policy keeps it from being changed.
  | gated
  | edit (edit : EditSpan)
  -- It would have been changed, but something was in the way.
  | skip (reason : String)
  deriving DecidableEq

namespace Verdict

def edit? : Verdict → Option EditSpan
  | edit e => some e
  | keep | gated | skip _ => none

-- How well things went for the candidate, before its edit is written.
def severity : Verdict → Severity
  | keep | edit _ => .none
  | gated | skip _ => .warning

end Verdict

namespace Revision

variable {m : Type → Type} [Monad m]

-- A way of asking for the digest of an image under a tag.
abbrev Lookup (m : Type → Type) := String → String → m DigestAnswer

-- The image that a candidate pins by a digest.
def pinnedImage? (rules : DocumentRules) (c : Candidate) : Option ImageReference :=
  if rules.pinsDigests then
    match c.token.value with
    | .image image => if image.digest.isSome then some image else none
    | _ => none
  else
    none

-- The verdict for an answer to the lookup of a new image.
def verdictOfDigest (c : Candidate) (text : String) (image : ImageReference) :
    DigestAnswer → Verdict
  | .ok (some digest) => .edit ⟨c.span, ImageReference.replaceDigest text digest⟩
  | .ok none =>
    .skip ("no digest found for " ++ image.repository ++ ":" ++ image.tagText ++ "; " ++ c.token.raw
      ++ " left unchanged")
  | .error e => .skip e.message

-- The verdict on a candidate that pins its image, for the text that is to replace it.
def pinnedVerdict (lookup : Option (Lookup m)) (c : Candidate) (text : String) : m Verdict :=
  match ImageReference.parse text with
  | .error failure => pure (.skip failure.message)
  | .ok image =>
    match lookup with
    | none => pure (.skip (c.token.raw ++ " is pinned by digest and registry lookups are disabled"))
    | some lookup => verdictOfDigest c text image <$> lookup image.repository image.tagText

-- The verdict on a candidate.
def verdict [MonadLiftT (Except Fault) m] (rules : DocumentRules) (channel : Channel)
    (policy : UpgradePolicy) (lookup : Option (Lookup m)) (newline : Newline) (c : Candidate) :
    m Verdict := do
  match ← Decision.of c.token channel policy newline with
  | .unchanged => return .keep
  | .unsupported => return .gated
  | .replace text =>
    match pinnedImage? rules c with
    | none => return .edit ⟨c.span, text⟩
    | some _ => pinnedVerdict lookup c text

-- The verdict on a candidate by a registry that always answers the same.
def fixedVerdict (rules : DocumentRules) (channel : Channel) (policy : UpgradePolicy)
    (registry : Option (String → String → DigestAnswer)) (newline : Newline) (c : Candidate) :
    Except Fault Verdict :=
  verdict rules channel policy (registry.map fun answer image tag => .ok (answer image tag)) newline c

-- The candidates of a document, if it is well-formed.
def candidates (readers : Readers) (rules : DocumentRules) (path text : String) :
    Except SyntaxError (Except Fault (List Candidate)) :=
  ((rules.formatOf path).sites readers text).map fun sites =>
    Candidate.find text sites fun site => .ok (rules.select path site)

-- The edits of verdicts, as a patch.
def patchOf (verdicts : List Verdict) : Except Fault PatchSet :=
  PatchSet.ofUnordered (verdicts.filterMap Verdict.edit?)

-- The worst of the verdicts' severities.
def severityOf (verdicts : List Verdict) : Severity :=
  verdicts.foldl (fun s v => s.worse v.severity) .none

-- What to tell about the verdicts on the candidates of a file. Why candidates are gated is told
-- once for a category, so not if it was told before.
def notices (channel : Channel) (told : Bool) : List (Candidate × Verdict) → List String
  | [] => []
  | (c, .gated) :: rest =>
    if told then notices channel told rest
    else UpgradePolicy.explain c.token.kind channel :: notices channel true rest
  | (_, .skip reason) :: rest => reason :: notices channel told rest
  | (_, .keep) :: rest | (_, .edit _) :: rest => notices channel told rest

-- One pass over a text without files. The outcome is the patch and the text after it.
def pass (readers : Readers) (rules : DocumentRules) (channel : Channel) (policy : UpgradePolicy)
    (registry : Option (String → String → DigestAnswer)) (path text : String) :
    Except SyntaxError (Except Fault (PatchSet × String)) :=
  (candidates readers rules path text).map fun found => do
    let cs ← found
    let newline := Newline.detect text.toList
    let verdicts ← cs.mapM (fixedVerdict rules channel policy registry newline)
    let patch ← patchOf verdicts
    return (patch, ← patch.apply text)

end Revision
end Repin
