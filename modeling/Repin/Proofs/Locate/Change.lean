import Repin.Locate.Site
import Repin.Proofs.Patch.Splice
/-!
# Changes of sites

A change replaces a part of the value of a site. A site that shows its source is changed by an edit of
the source.
-/
namespace Repin

-- The part of a value that a selection takes, and where it starts in the value.
def Selection.bounds (s : Selection) (value : List Char) : Nat × Nat :=
  s.range.getD (0, Text.byteLength value)

def Selection.part? (s : Selection) (value : List Char) : Option (List Char) :=
  Text.slice (s.bounds value).1 (s.bounds value).2 value

-- What becomes of a part of a value.
structure Change where
  offset : Nat
  part : List Char
  text : String

namespace Change

-- The change as an edit, for a value that lies under a span.
def editIn (c : Change) (span : Span) : EditSpan :=
  ⟨.ofLength (span.start + c.offset) (Text.byteLength c.part), c.text⟩

-- The edits that the sites of a document call for.
def editsOf (change : Site → Option Change) (sites : List Site) : List EditSpan :=
  sites.filterMap fun s => (change s).map (·.editIn s.span)

-- The part lies at its offset in the value, and the text takes its place.
def Turns (c : Change) (value value' : String) : Prop :=
  ∃ before after, value.toList = before ++ (c.part ++ after) ∧ Text.byteLength before = c.offset ∧
    value'.toList = before ++ (c.text.toList ++ after)

-- The part can be cut out of the value of a site that is its source.
structure LiesIn (c : Change) (s : Site) : Prop where
  patchable : s.patchable
  part : Text.slice c.offset (c.offset + Text.byteLength c.part) s.value.toList = some c.part

-- A value without a change stays as it is.
def Turned (change : Option Change) (value value' : String) : Prop :=
  match change with
  | none => value' = value
  | some c => c.Turns value value'

-- By how many bytes a change makes a text longer.
def growth : Option Change → Int
  | none => 0
  | some c => Text.byteLength c.text.toList - Text.byteLength c.part

end Change

namespace Span

def bounds (s : Span) : Int × Int :=
  (s.start, s.stop)

-- Where spans come to lie that stand in order and grow, each by what is given with it. What the spans
-- in front have grown by so far shifts a span.
def grown (shift : Int) : List (Span × Int) → List (Int × Int)
  | [] => []
  | (s, growth) :: rest =>
    (s.start + shift, s.stop + (shift + growth)) :: grown (shift + growth) rest

end Span

namespace Site

-- The source under the span is the value, unless the site says otherwise.
def Shows (source : List Char) (s : Site) : Prop :=
  s.patchable → Text.slice s.span.start s.span.stop source = some s.value.toList

def segments (s : Site) : List Segment :=
  s.path.map (·.segment)

-- A site after a pass: in its place, with the change that it called for.
structure Moved (change : Site → Option Change) (s s' : Site) : Prop where
  segments : s'.segments = s.segments
  patchable : s'.patchable = s.patchable
  value : Change.Turned (change s) s.value s'.value

-- Whatever lies inside of separated sites is separated.
theorem pairwise_inside {α : Type} {sites : List Site} {span : α → Span} {f : Site → Option α}
    (separated : sites.Pairwise fun s t => s.span.Precedes t.span)
    (inside : ∀ s ∈ sites, ∀ a ∈ f s, s.span.start ≤ (span a).start ∧ (span a).stop ≤ s.span.stop) :
    (sites.filterMap f).Pairwise fun a b => (span a).Precedes (span b) := by
  apply List.pairwise_filterMap.mpr
  apply separated.imp_of_mem
  intro s t hs ht before a ha b hb
  have last := (inside s hs a ha).right
  have first := (inside t ht b hb).left
  unfold Span.Precedes at *
  omega

end Site

namespace Change

variable {source : List Char} {sites : List Site} {change : Site → Option Change}

theorem LiesIn.editIn_inside {c : Change} {s : Site} (lies : c.LiesIn s) (shows : s.Shows source) :
    Text.slice (c.editIn s.span).span.start (c.editIn s.span).span.stop source = some c.part ∧
      s.span.start ≤ (c.editIn s.span).span.start ∧ (c.editIn s.span).span.stop ≤ s.span.stop := by
  have value := shows lies.patchable
  have part := Text.slice_slice value lies.part
  have ⟨_, _, _, _, length⟩ := Text.slice_eq_some_iff.mp value
  have ⟨_, last⟩ := Text.le_of_slice lies.part
  simp only [editIn, Span.ofLength]
  rw [Nat.add_assoc]
  exact ⟨part, by omega, by omega⟩

theorem separated_editsOf (lies : ∀ s ∈ sites, ∀ c, change s = some c → c.LiesIn s)
    (shows : ∀ s ∈ sites, s.Shows source)
    (separated : sites.Pairwise fun s t => s.span.Precedes t.span) :
    (editsOf change sites).Pairwise fun e f => e.span.Precedes f.span := by
  apply Site.pairwise_inside separated
  intro s hs e he
  obtain ⟨c, hc, rfl⟩ := Option.map_eq_some_iff.mp he
  exact ((lies s hs c hc).editIn_inside (shows s hs)).right

-- The changes of separate sites can be made, all at once.
theorem exists_splice (lies : ∀ s ∈ sites, ∀ c, change s = some c → c.LiesIn s)
    (shows : ∀ s ∈ sites, s.Shows source)
    (separated : sites.Pairwise fun s t => s.span.Precedes t.span) :
    ∃ out, Splice 0 source (editsOf change sites) out := by
  apply Splice.exists_of_slice ((separated_editsOf lies shows separated).imp Nat.le_of_lt)
  intro e he
  obtain ⟨s, hs, he⟩ := List.mem_filterMap.mp he
  obtain ⟨c, hc, rfl⟩ := Option.map_eq_some_iff.mp he
  exact ⟨Nat.zero_le _, c.part, ((lies s hs c hc).editIn_inside (shows s hs)).left⟩

end Change

end Repin
