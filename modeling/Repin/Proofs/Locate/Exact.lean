import Repin.Proofs.Dockerfile.Document
import Repin.Proofs.Json.Document
import Repin.Proofs.Xml.Node
import Repin.Proofs.Yaml.Node
import Repin.Readers.Standard
import Repin.Upgrader.Basic
/-!
# Exact spans

Where a site can be patched, its span can be cut out of the source, and what stands there is the value;
a block scalar of YAML may differ from it in the blanks at its end. The strings of JSON stand in order,
each between its quotes. The readers of XML and YAML are not asked for anything: whatever tree or events
they give, a site of them is checked against the source.

Main statement: `spans_exact`.
-/
namespace Repin

variable {text : String} {source : List Char} {format : DocumentFormat} {found : List Site} {s : Site}

-- A span of a text that starts and ends between characters.
structure Span.FitsIn (source : List Char) (s : Span) : Prop where
  within : s.stop ≤ Text.byteLength source
  start : Text.IsBoundary source s.start
  stop : Text.IsBoundary source s.stop

theorem Span.fitsIn_of_slice {s : Span} {part : List Char}
    (h : Text.slice s.start s.stop source = some part) : s.FitsIn source := by
  have ⟨start, stop⟩ := (Text.exists_slice_iff s.start_le_stop).mp ⟨part, h⟩
  exact ⟨stop.le, start, stop⟩

-- The sites that a format shows for a source. XML may be read as any tree, YAML as any events.
inductive DocumentFormat.Locates (text : String) : DocumentFormat → List Site → Prop where
  | json {root : Json} : Json.parse text = .ok root → Locates text .json (Json.sites root)
  | yaml (events : List Yaml.Event) :
    Locates text .yaml (Yaml.Node.sites (Yaml.Node.ofEvents (Yaml.Node.placeIn text.toList) events))
  | xml (root : Xml.Node) : Locates text .xml (Xml.sites text root)
  | dockerfile : Locates text .dockerfile (Dockerfile.sites text)

theorem DocumentFormat.locates_of_sites {readers : Readers}
    (h : format.sites readers text = .ok found) :
    format.Locates text found := by
  cases format
  case json =>
    obtain ⟨root, parsed, rfl⟩ := map_eq_ok.mp h
    exact .json parsed
  case yaml =>
    obtain ⟨events, _, rfl⟩ := map_eq_ok.mp h
    rw [Yaml.Node.read_eq]
    exact .yaml events
  case xml =>
    obtain ⟨root, _, rfl⟩ := map_eq_ok.mp h
    exact .xml root
  case dockerfile =>
    cases h
    exact .dockerfile

-- A scalar of this style, met at this mark with the value of the site, is found where the site stands.
def Site.FoundAs (source : List Char) (s : Site) (mark : Yaml.Mark) (style : Yaml.ScalarStyle) : Prop :=
  Yaml.Node.placeIn source mark style s.value = ⟨s.span, s.block, s.patchable⟩

-- How the sites of a source stand in it, by format.
structure SpansExact (text : String) : Prop where
  -- What is read is among what is shown for some tree or events.
  located {readers : Readers} {format : DocumentFormat} {found : List Site} :
    format.sites readers text = .ok found → format.Locates text found
  fits {format : DocumentFormat} {found : List Site} : format.Locates text found →
    ∀ s ∈ found, s.patchable → s.span.FitsIn text.toList
  json {root : Json} : Json.parse text = .ok root →
    (Json.sites root).Pairwise (fun s t => s.span.Precedes t.span) ∧
      ∀ s ∈ Json.sites root, s.Shows text.toList ∧
        ∃ content, Json.IsQuoted text.toList s content
  dockerfile : ∀ s ∈ Dockerfile.sites text, s.Shows text.toList
  xml (root : Xml.Node) : ∀ s ∈ Xml.sites text root, s.Shows text.toList
  -- What a site reads as depends on its style, which is that of the scalar that was found there.
  yaml (events : List Yaml.Event) :
    ∀ s ∈ Yaml.Node.sites (Yaml.Node.ofEvents (Yaml.Node.placeIn text.toList) events),
      (∃ mark style, .scalar mark style s.value ∈ events ∧ s.FoundAs text.toList mark style) ∧
        ∀ mark style, s.FoundAs text.toList mark style → s.patchable →
          ∃ under, Text.slice s.span.start s.span.stop text.toList = some under ∧
            Yaml.ScalarPlace.Reads style s.block under s.value.toList

theorem Site.FoundAs.shows {mark : Yaml.Mark} {style : Yaml.ScalarStyle}
    (h : s.FoundAs source mark style) :
    (Yaml.ScalarPlace.mk s.span s.block s.patchable).Shows source style s.value.toList := by
  rw [← h]
  exact Yaml.ScalarPlace.find_shows _ _ _ _

theorem exists_foundAs_of_events {events : List Yaml.Event}
    (h : s ∈ Yaml.Node.sites (Yaml.Node.ofEvents (Yaml.Node.placeIn source) events)) :
    ∃ mark style, .scalar mark style s.value ∈ events ∧ s.FoundAs source mark style := by
  have ⟨mark, style, event, place⟩ := Yaml.Node.exists_event_of_mem_sites h
  exact ⟨mark, style, event, place.symm⟩

theorem Site.Shows.fitsIn (h : s.Shows source) (hp : s.patchable) : s.span.FitsIn source :=
  Span.fitsIn_of_slice (h hp)

theorem DocumentFormat.Locates.fitsIn (h : format.Locates text found) (hs : s ∈ found)
    (hp : s.patchable) : s.span.FitsIn text.toList := by
  cases h
  case json parsed => exact (Json.shows_of_parse parsed s hs).left.fitsIn hp
  case yaml events =>
    have ⟨_, _, _, as⟩ := exists_foundAs_of_events hs
    have ⟨_, slice, _⟩ := as.shows hp
    exact Span.fitsIn_of_slice slice
  case xml root => exact (Xml.Node.shows_of_mem_sitesOf hs).fitsIn hp
  case dockerfile => exact (Dockerfile.shows_of_mem_sites hs).fitsIn hp

theorem spans_exact (text : String) : SpansExact text where
  located := DocumentFormat.locates_of_sites
  fits h _ := h.fitsIn
  json h := ⟨Json.separated_of_parse h, fun s hs =>
    ⟨(Json.shows_of_parse h s hs).left, Json.exists_isQuoted_of_parse h hs⟩⟩
  dockerfile _ := Dockerfile.shows_of_mem_sites
  xml _ _ := Xml.Node.shows_of_mem_sitesOf
  yaml _ _ hs := ⟨exists_foundAs_of_events hs, fun _ _ as => as.shows⟩

-- The content of the block scalar is its only line; the line feed at the end of its value is not.
example : (DocumentFormat.sites .yaml .standard "a: é\nb: |\n  net8.0\n").toOption.map (·.map fun s =>
    (s.value, s.span.start, s.span.stop, s.patchable))
      = some [("é", 3, 5, true), ("net8.0\n", 13, 19, true)] := by
  decide +kernel

end Repin
