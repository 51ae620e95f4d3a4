import Repin.Text.Blank
import Repin.Version.Semver
/-!
# Release channels

A run moves every version towards one channel: the major and minor number of its SDK version,
together with the cadence and the support phase of the release. The two numbers are those of the
SDK version, so a channel and its SDK cannot disagree; `Channel.of` refuses numbers that do.
-/
namespace Repin

-- ASCII letters of a text in lower case.
def Text.lowercase (cs : List Char) : List Char :=
  cs.map Char.toLower

-- Release cadence of a channel.
inductive ReleaseKind where
  | preview
  | lts
  | standard
  deriving DecidableEq, Repr

-- Where a channel is in its support lifecycle.
inductive SupportPhase where
  | preview
  | goLive
  | active
  | maintenance
  | eol
  deriving DecidableEq, Repr

-- Why a channel could not be built.
inductive ChannelError where
  | unknownReleaseKind (text : String)
  | unknownSupportPhase (text : String)
  | malformed (text : String)
  | sdkOutsideChannel (sdk : Semver) (major minor : UInt64)
  | malformedSdk (failure : ParseFailure)
  deriving DecidableEq

namespace ChannelError

def message : ChannelError → String
  | unknownReleaseKind text =>
    "unknown release kind '" ++ text ++ "' (expected preview, lts or standard)"
  | unknownSupportPhase text => "unknown support phase '" ++ text ++ "'"
  | malformed text => "channel '" ++ text ++ "' must be written as MAJOR.MINOR"
  | sdkOutsideChannel sdk major minor =>
    "SDK version " ++ sdk.render ++ " does not belong to channel " ++ Text.writeNumber major ++ "."
      ++ Text.writeNumber minor
  | malformedSdk failure => failure.message

end ChannelError

namespace ReleaseKind

-- Even majors have long-term support.
def ofMajor (major : UInt64) : ReleaseKind :=
  if major % 2 = 0 then .lts else .standard

def name : ReleaseKind → String
  | preview => "preview"
  | lts => "lts"
  | standard => "standard"

-- Reads a cadence in any case.
def parse (text : String) : Except ChannelError ReleaseKind :=
  match String.ofList (Text.lowercase text.toList) with
  | "preview" => .ok .preview
  | "lts" => .ok .lts
  | "standard" | "sts" => .ok .standard
  | other => .error (.unknownReleaseKind other)

end ReleaseKind

namespace SupportPhase

def name : SupportPhase → String
  | preview => "preview"
  | goLive => "go-live"
  | active => "active"
  | maintenance => "maintenance"
  | eol => "eol"

-- Reads a phase in any case.
def parse (text : String) : Except ChannelError SupportPhase :=
  match String.ofList (Text.lowercase text.toList) with
  | "preview" => .ok .preview
  | "go-live" | "golive" => .ok .goLive
  | "active" => .ok .active
  | "maintenance" => .ok .maintenance
  | "eol" => .ok .eol
  | other => .error (.unknownSupportPhase other)

end SupportPhase

-- The release a run moves to.
structure Channel where
  sdk : Semver
  releaseKind : ReleaseKind
  supportPhase : SupportPhase
  deriving DecidableEq

namespace Channel

def major (c : Channel) : UInt64 :=
  c.sdk.major

def minor (c : Channel) : UInt64 :=
  c.sdk.minor

-- The channel with the given numbers, if the SDK version belongs to it.
def of (major minor : UInt64) (sdk : Semver) (releaseKind : ReleaseKind)
    (supportPhase : SupportPhase) : Except ChannelError Channel :=
  if sdk.major = major ∧ sdk.minor = minor then
    .ok { sdk, releaseKind, supportPhase }
  else
    .error (.sdkOutsideChannel sdk major minor)

-- Reads a number of a channel; unlike in a version, a plus sign may lead.
def readNumber (cs : List Char) : Option UInt64 :=
  match cs with
  | '+' :: digits => Text.readNumber digits
  | _ => Text.readNumber cs

-- The channel of two numbers: the first SDK of its first feature band, the cadence of its major,
-- in active support.
def ofNumbers (major minor : UInt64) : Channel where
  sdk := .release major minor 100
  releaseKind := .ofMajor major
  supportPhase := .active

-- Reads `MAJOR.MINOR`.
def parse (text : String) : Except ChannelError Channel :=
  match Text.splitOnce '.' (Text.trim text.toList) with
  | none => .error (.malformed text)
  | some (before, after) =>
    match readNumber before, readNumber after with
    | some major, some minor => .ok (ofNumbers major minor)
    | _, _ => .error (.malformed text)

-- The channel with another SDK version, which has to belong to it.
def withSdk (c : Channel) (sdk : Semver) : Except ChannelError Channel :=
  of c.major c.minor sdk c.releaseKind c.supportPhase

-- Builds a channel from its textual parts; parts left out follow from the numbers.
def ofTexts (channel : String) (sdk releaseKind supportPhase : Option String) :
    Except ChannelError Channel := do
  let target ← parse channel
  let target ←
    match sdk with
    | none => pure target
    | some text => target.withSdk (← (Semver.parse text).mapError .malformedSdk)
  let kind ←
    match releaseKind with
    | none => pure target.releaseKind
    | some text => ReleaseKind.parse text
  let phase ←
    match supportPhase with
    | none => pure target.supportPhase
    | some text => SupportPhase.parse text
  return { target with releaseKind := kind, supportPhase := phase }

-- The hundreds of the SDK's patch number.
def bandNumber (c : Channel) : UInt64 :=
  c.sdk.patch / 100

-- The patch number at which the feature band of the SDK starts.
def featureBand (c : Channel) : UInt64 :=
  c.bandNumber * 100

def toNumeric (c : Channel) : NumericVersion :=
  .release c.major (some c.minor) none

-- Long-term support, in a phase that still gets fixes.
def isSupportedLts (c : Channel) : Bool :=
  c.releaseKind = .lts && (c.supportPhase = .active || c.supportPhase = .maintenance)

def render (c : Channel) : String :=
  Text.writeNumber c.major ++ "." ++ Text.writeNumber c.minor

-- Whether a pair of numbers reaches the channel.
def isReachedBy (c : Channel) (major minor : UInt64) : Bool :=
  reaches major minor c.major c.minor

end Channel
end Repin
