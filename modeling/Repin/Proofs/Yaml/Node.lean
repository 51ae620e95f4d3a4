import Repin.Proofs.Yaml.AppendedLine
import Repin.Yaml.Node
/-!
# Scalars in their source

A scalar that can be patched stands in the source, whatever marker and value were read for it. A plain
or quoted one is the text under its span; a block scalar of one line is that text but for blanks at the
end. Every site of a stream is the scalar of some event.
-/
namespace Repin.Yaml

namespace ScalarPlace

open Text (trimEnd stripTerminator terminatedLines lastLine byteLength)

variable {source value lines : List Char} {marker : Nat} {literal : Bool}

-- A value is its content with line feeds behind it.
theorem exists_append_feeds (value : List Char) :
    ∃ k, value = withoutLastBreaks value ++ List.replicate k '\n' := by
  refine ⟨(value.reverse.takeWhile (· = '\n')).reverse.length, ?_⟩
  have parts : withoutLastBreaks value ++ (value.reverse.takeWhile (· = '\n')).reverse = value := by
    rw [withoutLastBreaks, ← List.reverse_append, List.takeWhile_append_dropWhile,
      List.reverse_reverse]
  conv_lhs => rw [← parts]
  congr 1
  apply List.eq_replicate_of_mem
  intro d hd
  simpa using List.all_eq_true.mp List.all_takeWhile d (List.mem_reverse.mp hd)

theorem trimEnd_withoutLastBreaks (value : List Char) :
    trimEnd (withoutLastBreaks value) = trimEnd value := by
  obtain ⟨k, whole⟩ := exists_append_feeds value
  conv_rhs => rw [whole]
  rw [Text.trimEnd_append_blanks]
  intro d hd
  exact List.eq_of_mem_replicate hd ▸ by decide

-- Content of at most one line is the value, but for line feeds.
theorem isContent_nil (h : isContent literal [] value) : withoutLastBreaks value = [] := by
  cases literal <;> simp_all [isContent]

theorem isContent_singleton {line : List Char} (h : isContent literal [line] value) :
    withoutLastBreaks value = line := by
  cases literal <;> simp_all [isContent]

-- What the source under a patchable place has to do with the value, by the style of the scalar.
def Reads (style : ScalarStyle) (block : Bool) (under value : List Char) : Prop :=
  match style with
  | .plain | .singleQuoted | .doubleQuoted => under = value
  | .literal | .folded => block = false → trimEnd under = trimEnd value

-- Where a place can be patched, the source can be cut out there and reads as the value.
def Shows (source : List Char) (style : ScalarStyle) (value : List Char) (p : ScalarPlace) : Prop :=
  p.patchable → ∃ under, Text.slice p.span.start p.span.stop source = some under ∧
    Reads style p.block under value

theorem inline_shows {start : Nat} {exact : Bool} {style : ScalarStyle}
    (h : exact → Text.slice start (start + byteLength value) source = some value)
    (inline' : Reads style false value value) : (inline start value exact).Shows source style value := by
  intro hp
  obtain rfl : exact = true := hp
  exact ⟨value, h rfl, inline'⟩

theorem blockScalar_shows (h : (blockScalar source marker value literal).patchable) :
    ∃ under, Text.slice (blockScalar source marker value literal).span.start
        (blockScalar source marker value literal).span.stop source = some under ∧
      ((blockScalar source marker value literal).block = false → trimEnd under = trimEnd value) := by
  have ⟨before, cs, whole, length, opens, hv⟩ := exists_opens_of_patchable h
  subst whole length
  have found := finds_blockScalar before cs value literal
  generalize blockScalar (before ++ cs) (byteLength before) value literal = place at h found ⊢
  cases found with
  | unknown => cases h
  | ends =>
    refine ⟨[], Text.slice_eq_some_iff.mpr ⟨before, cs, rfl, rfl, ?_⟩, fun _ => ?_⟩
    · simp [Span.ofLength]
    · rw [← trimEnd_withoutLastBreaks value, isContent_nil h]
  | @stands under after bottom gap front back whole stands =>
    subst whole
    refine ⟨under, Text.slice_eq_some_iff.mpr ⟨before, after, rfl, rfl, Nat.add_comm ..⟩, ?_⟩
    intro single
    -- the only line of the content stands behind the margin of the marker
    have none : front = [] := by
      have few : ¬ 1 < (contentLines (lastLine before).length front (bottom ++ gap)).length :=
        of_decide_eq_false single
      simpa [contentLines] using few
    subst none
    have blank : ∀ c ∈ stripTerminator gap, Text.isBlank c :=
      fun c hc => stands.blank c ((Text.stripTerminator_isPrefix gap).mem hc)
    have line := isContent_singleton h
    have content : lastLine before ++ under = bottom := stands.content
    rw [stands.row.stripTerminator_append_eq, ← content, List.append_assoc,
      List.drop_left' rfl] at line
    rw [← trimEnd_withoutLastBreaks value, line, Text.trimEnd_append_blanks blank]

theorem find_shows (source : List Char) (marker : Nat) (style : ScalarStyle) (value : List Char) :
    (find source marker style value).Shows source style value := by
  cases style
  case plain => exact inline_shows of_decide_eq_true rfl
  case singleQuoted =>
    exact inline_shows (fun h => of_decide_eq_true (Bool.and_eq_true_iff.mp h).left) rfl
  case doubleQuoted =>
    exact inline_shows (fun h => of_decide_eq_true (Bool.and_eq_true_iff.mp h).left) rfl
  case literal => exact blockScalar_shows
  case folded => exact blockScalar_shows

end ScalarPlace

-- A scalar that stands somewhere in a value.
inductive Scalar.In (s : Scalar) : Node → Prop where
  | here : s.In (.scalar s)
  | item {item : Node} {items : List Node} : item ∈ items → s.In item → s.In (.sequence items)
  | value {key : Option String} {value : Node} {entries : List (Option String × Node)} :
    (key, value) ∈ entries → s.In value → s.In (.mapping entries)

namespace Node

variable {place : Mark → ScalarStyle → String → ScalarPlace} {events : List Event} {site : Site}

-- The site of a scalar at the end of a path.
def siteOf (path : List Frame) (s : Scalar) : Site :=
  { path, value := s.value, span := s.place.span, block := s.place.block,
    patchable := s.place.patchable }

mutual

theorem exists_of_mem_sitesOf : ∀ {path : List Frame} {node : Node}, site ∈ sitesOf path node →
    ∃ s path, s.In node ∧ site = siteOf path s
  | path, .scalar s, h => ⟨s, path, .here, by simpa [sitesOf, siteOf] using h⟩
  | path, .sequence items, h => by
    rw [sitesOf] at h
    obtain ⟨item, hi, s, path, inside, heq⟩ := exists_of_mem_sitesOfItems h
    exact ⟨s, path, .item hi inside, heq⟩
  | path, .mapping entries, h => by
    rw [sitesOf] at h
    obtain ⟨entry, he, s, path, inside, heq⟩ := exists_of_mem_sitesOfEntries h
    exact ⟨s, path, .value he inside, heq⟩
  | path, .reference, h => by simp [sitesOf] at h

theorem exists_of_mem_sitesOfItems : ∀ {path : List Frame} {position : Nat} {items : List Node},
    site ∈ sitesOfItems path position items →
      ∃ item ∈ items, ∃ s path, s.In item ∧ site = siteOf path s
  | path, position, [], h => by simp [sitesOfItems] at h
  | path, position, item :: items, h => by
    rw [sitesOfItems, List.mem_append] at h
    cases h
    case inl h => exact ⟨item, List.mem_cons_self, exists_of_mem_sitesOf h⟩
    case inr h =>
      obtain ⟨item, hi, found⟩ := exists_of_mem_sitesOfItems h
      exact ⟨item, List.mem_cons_of_mem _ hi, found⟩

theorem exists_of_mem_sitesOfEntries : ∀ {path : List Frame} {fields : List (String × String)}
    {entries : List (Option String × Node)}, site ∈ sitesOfEntries path fields entries →
      ∃ entry ∈ entries, ∃ s path, s.In entry.2 ∧ site = siteOf path s
  | path, fields, [], h => by simp [sitesOfEntries] at h
  | path, fields, (none, value) :: entries, h => by
    rw [sitesOfEntries] at h
    obtain ⟨entry, he, found⟩ := exists_of_mem_sitesOfEntries h
    exact ⟨entry, List.mem_cons_of_mem _ he, found⟩
  | path, fields, (some key, value) :: entries, h => by
    rw [sitesOfEntries, List.mem_append] at h
    cases h
    case inl h => exact ⟨(some key, value), List.mem_cons_self, exists_of_mem_sitesOf h⟩
    case inr h =>
      obtain ⟨entry, he, found⟩ := exists_of_mem_sitesOfEntries h
      exact ⟨entry, List.mem_cons_of_mem _ he, found⟩

end

-- The values that a collection holds so far.
def Partial.nodes : Partial → List Node
  | .sequence items => items
  | .beforeKey entries | .beforeValue entries _ => entries.map (·.2)

-- All values that a builder holds.
def Builder.nodes (b : Builder) : List Node :=
  b.documents ++ b.stack.flatMap Partial.nodes

-- A scalar that some value holds.
def Builder.Holds (b : Builder) (s : Scalar) : Prop :=
  ∃ node ∈ b.nodes, s.In node

variable {b : Builder} {node : Node} {s : Scalar}

theorem Partial.mem_nodes_add {p : Partial} {other : Node} (h : other ∈ (p.add node).nodes) :
    other = node ∨ other ∈ p.nodes := by
  cases p <;> simp_all [add, nodes]

theorem Partial.exists_of_in_close {p : Partial} (h : s.In p.close) :
    ∃ node ∈ p.nodes, s.In node := by
  cases p with
  | sequence items =>
    cases h with
    | item hi inside => exact ⟨_, List.mem_reverse.mp hi, inside⟩
  | beforeKey entries | beforeValue entries key =>
    cases h with
    | value he inside => exact ⟨_, List.mem_map_of_mem (List.mem_reverse.mp he), inside⟩

theorem Builder.holds_add (h : (b.add node).Holds s) : s.In node ∨ b.Holds s := by
  obtain ⟨other, ho, inside⟩ := h
  unfold add at ho
  split at ho
  case h_1 =>
    obtain rfl | ho := List.mem_cons.mp ho
    · exact .inl inside
    · exact .inr ⟨other, ho, inside⟩
  case h_2 innermost outer hs =>
    simp only [nodes, List.flatMap_cons, List.mem_append] at ho
    obtain ho | ho | ho := ho
    · exact .inr ⟨other, by simp [nodes, ho], inside⟩
    · obtain rfl | ho := Partial.mem_nodes_add ho
      · exact .inl inside
      · exact .inr ⟨other, by simp [nodes, hs, ho], inside⟩
    · exact .inr ⟨other, by simp [nodes, hs, ho], inside⟩

-- What a step adds is the scalar of its event.
theorem Builder.holds_step {e : Event} (h : (b.step place e).Holds s) : b.Holds s ∨
    ∃ mark style, e = .scalar mark style s.value ∧ s.place = place mark style s.value := by
  have opened (p : Partial) (hp : p.nodes = []) (h : (b.openCollection p).Holds s) : b.Holds s := by
    simpa [openCollection, Holds, nodes, hp] using h
  have closed (h : b.closeCollection.Holds s) : b.Holds s := by
    unfold closeCollection at h
    split at h
    case h_1 => exact h
    case h_2 innermost outer hs =>
      obtain inside | ⟨node, hn, inside⟩ := holds_add h
      · obtain ⟨node, hn, inside⟩ := Partial.exists_of_in_close inside
        exact ⟨node, by simp [nodes, hs, hn], inside⟩
      · refine ⟨node, ?_, inside⟩
        simp only [nodes, hs, List.flatMap_cons, List.mem_append] at hn ⊢
        exact hn.imp_right .inr
  cases e
  case scalar mark style text =>
    obtain inside | h := holds_add h
    · cases inside
      exact .inr ⟨mark, style, rfl, rfl⟩
    · exact .inl h
  case reference =>
    obtain inside | h := holds_add h
    · cases inside
    · exact .inl h
  case sequenceStart => exact .inl (opened _ rfl h)
  case mappingStart => exact .inl (opened _ rfl h)
  case sequenceEnd => exact .inl (closed h)
  case mappingEnd => exact .inl (closed h)

theorem Builder.holds_foldl (h : (events.foldl (step place) b).Holds s) : b.Holds s ∨
    ∃ mark style, .scalar mark style s.value ∈ events ∧ s.place = place mark style s.value := by
  induction events generalizing b with
  | nil => exact .inl h
  | cons e events ih =>
    obtain h | ⟨mark, style, he, found⟩ := ih h
    · obtain h | ⟨mark, style, rfl, found⟩ := holds_step h
      · exact .inl h
      · exact .inr ⟨mark, style, List.mem_cons_self, found⟩
    · exact .inr ⟨mark, style, List.mem_cons_of_mem _ he, found⟩

-- Every site of a stream is the scalar of some event, where that was found.
theorem exists_event_of_mem_sites (h : site ∈ sites (ofEvents place events)) :
    ∃ mark style, .scalar mark style site.value ∈ events ∧
      ScalarPlace.mk site.span site.block site.patchable = place mark style site.value := by
  obtain ⟨node, hn, h⟩ := List.mem_flatMap.mp h
  obtain ⟨s, path, inside, rfl⟩ := exists_of_mem_sitesOf h
  have held : (events.foldl (Builder.step place) {}).Holds s :=
    ⟨node, List.mem_append_left _ (List.mem_reverse.mp hn), inside⟩
  obtain ⟨_, none, _⟩ | found := Builder.holds_foldl held
  · cases none
  · exact found

-- Finds the scalars of a source, each from the place at which its token starts.
def placeIn (source : List Char) (mark : Mark) (style : ScalarStyle) (value : String) : ScalarPlace :=
  .find source ((Text.CharOffsets.ofText source).byteOffset mark.index) style value.toList

theorem read_eq (text : String) (events : List Event) :
    read text events = ofEvents (placeIn text.toList) events := rfl

end Node
end Repin.Yaml
