import Mathlib.Data.List.Forall2
import Repin.Json.Document
import Repin.Proofs.Locate.Change
/-!
# Visits of a document

The fields along the path of a site show values of other sites. A visit keeps the sites themselves, so
that it can be said what becomes of a field when the site that it shows is changed.
-/
namespace Repin.Json

-- The site of a string value.
def StringLiteral.site (path : List Frame) (l : StringLiteral) : Site :=
  { path, value := l.value, span := l.span, block := false, patchable := !l.escaped }

-- The fields that show the given sites, under the given names.
def fieldsShowing (shown : List (String × Site)) : List (String × String) :=
  shown.map fun (name, site) => (name, site.value)

@[simp] theorem fieldsShowing_nil : fieldsShowing [] = [] := rfl

-- A step on the way to a value, with the sites that the fields beside it show.
structure Step where
  segment : Segment
  shown : List (String × Site)

def Step.frame (s : Step) : Frame :=
  ⟨s.segment, fieldsShowing s.shown⟩

-- A string value of a document and the way to it.
structure Visit where
  steps : List Step
  literal : StringLiteral

def Visit.site (v : Visit) : Site :=
  v.literal.site (v.steps.map Step.frame)

-- The sites of the members of an object that are strings.
def shownIn (path : List Frame) (fields : List (String × String)) :
    List (StringLiteral × Json) → List (String × Site)
  | [] => []
  | (key, string l) :: members =>
    (key.value, l.site (path ++ [⟨.key key.value, fields⟩])) :: shownIn path fields members
  | _ :: members => shownIn path fields members

theorem fieldsShowing_shownIn (path : List Frame) (fields : List (String × String))
    (members : List (StringLiteral × Json)) :
    fieldsShowing (shownIn path fields members) = fieldsOf members := by
  fun_induction shownIn path fields members
  case case1 => rw [fieldsOf]; rfl
  case case2 ih => rw [fieldsOf, ← ih]; rfl
  case case3 string ih =>
    rw [fieldsOf]
    case _ => exact ih
    case _ => exact string

mutual

def visitsOf (steps : List Step) : Json → List Visit
  | string l => [⟨steps, l⟩]
  | array items => visitsOfItems steps 0 items
  | object members =>
    visitsOfMembers steps (shownIn (steps.map Step.frame) (fieldsOf members) members) members
  | other => []

def visitsOfItems (steps : List Step) (position : Nat) : List Json → List Visit
  | [] => []
  | item :: items =>
    visitsOf (steps ++ [⟨.index position, []⟩]) item ++ visitsOfItems steps (position + 1) items

def visitsOfMembers (steps : List Step) (shown : List (String × Site)) :
    List (StringLiteral × Json) → List Visit
  | [] => []
  | (key, value) :: members =>
    visitsOf (steps ++ [⟨.key key.value, shown⟩]) value ++ visitsOfMembers steps shown members

end

def visits (root : Json) : List Visit :=
  visitsOf [] root

mutual

theorem map_site_visitsOf : ∀ (steps : List Step) (value : Json),
    (visitsOf steps value).map Visit.site = sitesOf (steps.map Step.frame) value
  | _, .string l => by simp [visitsOf, sitesOf, Visit.site, StringLiteral.site]
  | steps, .array items => by rw [visitsOf, sitesOf, map_site_visitsOfItems]
  | steps, .object members => by
    rw [visitsOf, sitesOf, map_site_visitsOfMembers, fieldsShowing_shownIn]
  | _, .other => rfl

theorem map_site_visitsOfItems : ∀ (steps : List Step) (position : Nat) (items : List Json),
    (visitsOfItems steps position items).map Visit.site
      = sitesOfItems (steps.map Step.frame) position items
  | _, _, [] => rfl
  | steps, position, item :: items => by
    rw [visitsOfItems, sitesOfItems, List.map_append, map_site_visitsOf _ item,
      map_site_visitsOfItems, List.map_append]
    rfl

theorem map_site_visitsOfMembers : ∀ (steps : List Step) (shown : List (String × Site))
    (members : List (StringLiteral × Json)),
    (visitsOfMembers steps shown members).map Visit.site
      = sitesOfMembers (steps.map Step.frame) (fieldsShowing shown) members
  | _, _, [] => rfl
  | steps, shown, (key, value) :: members => by
    rw [visitsOfMembers, sitesOfMembers, List.map_append, map_site_visitsOf _ value,
      map_site_visitsOfMembers, List.map_append]
    rfl

end

-- The sites that visits lead to are the sites of the document.
theorem map_site_visits (root : Json) : (visits root).map Visit.site = sites root :=
  map_site_visitsOf [] root

section Shown

variable {all : List Site}

theorem mem_sitesOfMembers_of_mem_shownIn {path : List Frame} {fields : List (String × String)}
    {members : List (StringLiteral × Json)} :
    ∀ field ∈ shownIn path fields members, field.2 ∈ sitesOfMembers path fields members := by
  fun_induction shownIn path fields members
  case case1 => simp
  case case2 key l members ih =>
    intro field h
    rw [sitesOfMembers]
    obtain rfl | h := List.mem_cons.mp h
    · exact List.mem_append_left _ (by simp [sitesOf, StringLiteral.site])
    · exact List.mem_append_right _ (ih field h)
  case case3 ih =>
    intro field h
    rw [sitesOfMembers]
    exact List.mem_append_right _ (ih field h)

-- The fields of steps show sites of a document.
def ShowIn (all : List Site) (steps : List Step) : Prop :=
  ∀ s ∈ steps, ∀ field ∈ s.shown, field.2 ∈ all

theorem ShowIn.append {steps : List Step} (h : ShowIn all steps) {s : Step}
    (hs : ∀ field ∈ s.shown, field.2 ∈ all) : ShowIn all (steps ++ [s]) := by
  intro t ht
  obtain ht | ht := List.mem_append.mp ht
  · exact h t ht
  · obtain rfl := List.mem_singleton.mp ht
    exact hs

mutual

theorem showIn_visitsOf : ∀ {steps : List Step} {value : Json}, ShowIn all steps →
    (∀ s ∈ sitesOf (steps.map Step.frame) value, s ∈ all) →
      ∀ v ∈ visitsOf steps value, ShowIn all v.steps
  | _, .string _, hs, _ => by simpa [visitsOf] using hs
  | _, .array items, hs, ha => showIn_visitsOfItems hs ha
  | steps, .object members, hs, ha => by
    rw [sitesOf] at ha
    apply showIn_visitsOfMembers hs
    case _ => exact fun field h => ha _ (mem_sitesOfMembers_of_mem_shownIn field h)
    case _ => rwa [fieldsShowing_shownIn]
  | _, .other, _, _ => by simp [visitsOf]

theorem showIn_visitsOfItems : ∀ {steps : List Step} {position : Nat} {items : List Json},
    ShowIn all steps → (∀ s ∈ sitesOfItems (steps.map Step.frame) position items, s ∈ all) →
      ∀ v ∈ visitsOfItems steps position items, ShowIn all v.steps
  | _, _, [], _, _ => by simp [visitsOfItems]
  | steps, position, item :: items, hs, ha => by
    rw [sitesOfItems] at ha
    rw [visitsOfItems, List.forall_mem_append]
    constructor
    case left =>
      apply showIn_visitsOf (hs.append (by simp))
      intro s h
      exact ha s (List.mem_append_left _ (by simpa [Step.frame] using h))
    case right => exact showIn_visitsOfItems hs fun s h => ha s (List.mem_append_right _ h)

theorem showIn_visitsOfMembers : ∀ {steps : List Step} {shown : List (String × Site)}
    {members : List (StringLiteral × Json)}, ShowIn all steps → (∀ field ∈ shown, field.2 ∈ all) →
      (∀ s ∈ sitesOfMembers (steps.map Step.frame) (fieldsShowing shown) members, s ∈ all) →
        ∀ v ∈ visitsOfMembers steps shown members, ShowIn all v.steps
  | _, _, [], _, _, _ => by simp [visitsOfMembers]
  | steps, shown, (key, value) :: members, hs, ht, ha => by
    rw [sitesOfMembers] at ha
    rw [visitsOfMembers, List.forall_mem_append]
    constructor
    case left =>
      apply showIn_visitsOf (hs.append ht)
      intro s h
      exact ha s (List.mem_append_left _ (by simpa [Step.frame] using h))
    case right => exact showIn_visitsOfMembers hs ht fun s h => ha s (List.mem_append_right _ h)

end

theorem showIn_visits (root : Json) : ∀ v ∈ visits root, ShowIn (sites root) v.steps :=
  showIn_visitsOf (by simp [ShowIn]) fun _ h => h

end Shown

-- A field after the changes of a document: it shows what has become of the value that it showed.
structure FieldMoved (change : Site → Option Change) (a b : String × Site) : Prop where
  name : b.1 = a.1
  value : Change.Turned (change a.2) a.2.value b.2.value

structure Step.Moved (change : Site → Option Change) (s s' : Step) : Prop where
  segment : s'.segment = s.segment
  shown : List.Forall₂ (FieldMoved change) s.shown s'.shown

structure Visit.Moved (change : Site → Option Change) (v v' : Visit) : Prop where
  steps : List.Forall₂ (Step.Moved change) v.steps v'.steps
  patchable : v'.site.patchable = v.site.patchable
  value : Change.Turned (change v.site) v.site.value v'.site.value

section Moved

variable {change : Site → Option Change}

theorem segments_of_steps {steps steps' : List Step}
    (h : List.Forall₂ (Step.Moved change) steps steps') :
    (steps'.map Step.frame).map (·.segment) = (steps.map Step.frame).map (·.segment) := by
  induction h with
  | nil => rfl
  | cons moved _ ih => simpa [Step.frame, moved.segment] using ih

theorem Visit.Moved.site {v v' : Visit} (h : v.Moved change v') : v.site.Moved change v'.site :=
  ⟨segments_of_steps h.steps, h.patchable, h.value⟩

end Moved

end Repin.Json
