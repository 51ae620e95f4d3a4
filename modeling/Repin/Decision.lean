import Repin.Version.Token
/-!
# Decisions

What becomes of a located token, by the first rule that fits:

1. a token that reaches the channel is unchanged;
2. a token of a gated kind is unsupported, unless the channel is a supported LTS;
3. a token whose text for the channel is the text it has is unchanged;
4. every other token is replaced by its text for the channel.
-/
namespace Repin

inductive Decision where
  | unchanged
  | replace (text : String)
  -- A newer value exists, but policy keeps it from being proposed.
  | unsupported
  deriving DecidableEq, Repr

-- The kinds of token that may only move to a supported LTS channel.
structure UpgradePolicy where
  ltsOnly : List TokenKind := [.managedRuntime]
  deriving DecidableEq, Repr

namespace UpgradePolicy

def gates (p : UpgradePolicy) (kind : TokenKind) : Bool :=
  p.ltsOnly.contains kind

-- Whether tokens of a kind may move to a channel.
def allows (p : UpgradePolicy) (kind : TokenKind) (c : Channel) : Bool :=
  !p.gates kind || c.isSupportedLts

-- Why tokens of a gated kind stay.
def explain (kind : TokenKind) (c : Channel) : String :=
  kind.description ++ " values only move to a long-term support channel in active or maintenance "
    ++ "support; channel " ++ c.render ++ " is " ++ c.releaseKind.name ++ " in phase "
    ++ c.supportPhase.name

end UpgradePolicy

-- The decision on one token.
def Decision.of (t : Token) (c : Channel) (p : UpgradePolicy) (newline : Newline) :
    Except Fault Decision :=
  if t.isAtLeast c then .ok .unchanged
  else if !p.allows t.kind c then .ok .unsupported
  else do
    let text ← t.upgraded c newline
    return if text = t.raw then .unchanged else .replace text

end Repin
