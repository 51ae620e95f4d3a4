import Repin.Proofs.Dockerfile.Document
import Repin.Proofs.Json.Document
import Repin.Proofs.Upgrader.Revision
/-!
# Passes that settle

A pass over the result of a pass changes nothing, when the format finds the sites of the document
again and the rules ask nothing more of a site that got its change.
-/
namespace Repin

variable {readers : Readers} {sites : List Site} {text : String}

-- A format whose documents keep their sites under changes: `holds` is what a document says about a
-- value that can be patched, and `fits` what a change has to keep to.
structure DocumentFormat.Stable (readers : Readers) (format : DocumentFormat)
    (holds : String → Prop)
    (fits : Change → Site → Prop) : Prop where
  shows {text : String} {sites : List Site} : format.sites readers text = .ok sites →
    ∀ s ∈ sites, s.Shows text.toList ∧ (s.patchable → holds s.value)
  separated {text : String} {sites : List Site} : format.sites readers text = .ok sites →
    sites.Pairwise fun s t => s.span.Precedes t.span
  splice {text out : String} {sites : List Site} {change : Site → Option Change} :
    format.sites readers text = .ok sites →
      (∀ s ∈ sites, ∀ c, change s = some c → c.LiesIn s ∧ fits c s) →
        Splice 0 text.toList (Change.editsOf change sites) out.toList →
          ∃ sites', format.sites readers out = .ok sites' ∧
            List.Forall₂ (Site.Moved change) sites sites'

namespace DocumentFormat

theorem stable_json (readers : Readers) :
    Stable readers .json (fun value => ∀ d ∈ value.toList, Json.IsPlain d) fun c _ =>
      ∀ d ∈ c.text.toList, Json.IsPlain d where
  shows h s hs := by
    obtain ⟨root, hr, rfl⟩ := map_eq_ok.mp h
    exact Json.shows_of_parse hr s hs
  separated h := by
    obtain ⟨root, hr, rfl⟩ := map_eq_ok.mp h
    exact Json.separated_of_parse hr
  splice h fits hs := by
    obtain ⟨root, hr, rfl⟩ := map_eq_ok.mp h
    have ⟨root', hr', moved⟩ := Json.exists_parse_of_splice hr fits hs
    exact ⟨_, map_eq_ok.mpr ⟨root', hr', rfl⟩, moved⟩

theorem stable_dockerfile (readers : Readers) :
    Stable readers .dockerfile (fun value => Dockerfile.IsImage value.toList)
      Dockerfile.Replaces where
  shows h s hs := by
    cases h
    exact ⟨Dockerfile.shows_of_mem_sites hs, fun _ => Dockerfile.isImage_of_mem_sitesFrom hs⟩
  separated h := by
    cases h
    exact Dockerfile.separated_sites _
  splice h fits hs := by
    cases h
    have moved := Dockerfile.exists_sites_of_splice (fun s hm c hc => (fits s hm c hc).right) hs
    exact ⟨_, rfl, moved.imp fun _ _ moved => moved.toMoved⟩

end DocumentFormat

namespace Revision

variable {rules : DocumentRules} {channel : Channel} {policy : UpgradePolicy}
variable {registry : Option (String → String → DigestAnswer)} {path : String}
variable {holds : String → Prop} {fits : Change → Site → Prop}

-- Rules by which a site that got its change calls for no other one, whatever the line convention.
structure Settles (rules : DocumentRules) (channel : Channel) (policy : UpgradePolicy)
    (registry : Option (String → String → DigestAnswer)) (path : String) (holds : String → Prop)
    (fits : Change → Site → Prop) : Prop where
  sound (site : Site) : IsSound rules path site
  fits {newline : Newline} {site : Site} {c : Change} : holds site.value →
    change? rules channel policy registry path newline site = some c → fits c site
  settled {newline newline' : Newline} {site site' : Site} :
    site.Moved (change? rules channel policy registry path newline) site' →
      change? rules channel policy registry path newline' site' = none

theorem exists_second_pass (stable : (rules.formatOf path).Stable readers holds fits)
    (settles : Settles rules channel policy registry path holds fits)
    (hs : (rules.formatOf path).sites readers text = .ok sites) :
    ∃ patch text', pass readers rules channel policy registry path text = .ok (.ok (patch, text')) ∧
      ∃ patch', pass readers rules channel policy registry path text' = .ok (.ok (patch', text')) ∧
        patch'.edits = [] := by
  have ⟨patch, text', hp, edits, splice⟩ := exists_pass channel policy registry hs
    (fun s hm => (stable.shows hs s hm).left) (stable.separated hs) fun s _ => settles.sound s
  have fits : ∀ s ∈ sites, ∀ c, change? rules channel policy registry path (.detect text.toList) s
      = some c → c.LiesIn s ∧ fits c s := by
    intro s hm c hc
    have inside := liesIn_of_change? hc
    exact ⟨inside, settles.fits ((stable.shows hs s hm).right inside.patchable) hc⟩
  rw [edits] at splice
  have ⟨sites', hs', moved⟩ := stable.splice hs fits splice
  have ⟨patch', text'', hp', edits', splice'⟩ := exists_pass channel policy registry hs'
    (fun s hm => (stable.shows hs' s hm).left) (stable.separated hs') fun s _ => settles.sound s
  have none : patch'.edits = [] := by
    rw [edits']
    apply List.filterMap_eq_nil_iff.mpr
    intro s' hm
    have ⟨s, _, moved⟩ := exists_of_forall₂_right moved hm
    rw [settles.settled moved]
    rfl
  rw [none] at splice'
  have same : text'' = text' := String.toList_inj.mp splice'.eq_of_nil
  rw [same] at hp'
  exact ⟨patch, text', hp, patch', hp', none⟩

end Revision
end Repin
