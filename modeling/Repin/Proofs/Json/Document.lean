import Repin.Proofs.Json.Edit
import Repin.Proofs.Json.Reading
import Repin.Proofs.Json.Visit
/-!
# Documents that keep their shape

Changes of values that need no escapes keep a document a document: its sites are found again in the
same order, under the same paths, each with its change made.
-/
namespace Repin.Json

variable {change : Site → Option Change} {f : StringLiteral → Option Change}

mutual

-- The literals of a value in the order of the text, together with the sites that they are. The keys of
-- an object are no sites.
def marks (path : List Frame) : Json → List (StringLiteral × Option Site)
  | string l => [(l, some (l.site path))]
  | array items => marksOfItems path 0 items
  | object members => marksOfMembers path (fieldsOf members) members
  | other => []

def marksOfItems (path : List Frame) (position : Nat) :
    List Json → List (StringLiteral × Option Site)
  | [] => []
  | item :: items =>
    marks (path ++ [⟨.index position, []⟩]) item ++ marksOfItems path (position + 1) items

def marksOfMembers (path : List Frame) (fields : List (String × String)) :
    List (StringLiteral × Json) → List (StringLiteral × Option Site)
  | [] => []
  | (key, value) :: members =>
    (key, none) :: (marks (path ++ [⟨.key key.value, fields⟩]) value ++
      marksOfMembers path fields members)

end

mutual

theorem sitesOf_eq : ∀ (path : List Frame) (value : Json),
    sitesOf path value = (marks path value).filterMap (·.2)
  | _, .string l => by simp [sitesOf, marks, StringLiteral.site]
  | path, .array items => by rw [sitesOf, marks, sitesOfItems_eq]
  | path, .object members => by rw [sitesOf, marks, sitesOfMembers_eq]
  | _, .other => rfl

theorem sitesOfItems_eq : ∀ (path : List Frame) (position : Nat) (items : List Json),
    sitesOfItems path position items = (marksOfItems path position items).filterMap (·.2)
  | _, _, [] => rfl
  | path, position, item :: items => by
    rw [sitesOfItems, marksOfItems, List.filterMap_append, sitesOf_eq _ item, sitesOfItems_eq]

theorem sitesOfMembers_eq : ∀ (path : List Frame) (fields : List (String × String))
    (members : List (StringLiteral × Json)),
    sitesOfMembers path fields members = (marksOfMembers path fields members).filterMap (·.2)
  | _, _, [] => rfl
  | path, fields, (key, value) :: members => by
    rw [sitesOfMembers, marksOfMembers, List.filterMap_cons_none rfl, List.filterMap_append,
      sitesOf_eq _ value, sitesOfMembers_eq]

end

mutual

theorem site_of_mem_marks : ∀ {path : List Frame} {value : Json} {l : StringLiteral} {s : Site},
    (l, some s) ∈ marks path value → ∃ path, s = l.site path
  | path, .string l, _, _, h => by
    obtain ⟨rfl, rfl⟩ := by simpa [marks] using h
    exact ⟨path, rfl⟩
  | path, .array items, _, _, h => site_of_mem_marksOfItems (by simpa [marks] using h)
  | path, .object members, _, _, h => site_of_mem_marksOfMembers (by simpa [marks] using h)
  | _, .other, _, _, h => by simp [marks] at h

theorem site_of_mem_marksOfItems : ∀ {path : List Frame} {position : Nat} {items : List Json}
    {l : StringLiteral} {s : Site},
    (l, some s) ∈ marksOfItems path position items → ∃ path, s = l.site path
  | _, _, [], _, _, h => by simp [marksOfItems] at h
  | path, position, item :: items, _, _, h => by
    rw [marksOfItems, List.mem_append] at h
    cases h
    case inl h => exact site_of_mem_marks h
    case inr h => exact site_of_mem_marksOfItems h

theorem site_of_mem_marksOfMembers : ∀ {path : List Frame} {fields : List (String × String)}
    {members : List (StringLiteral × Json)} {l : StringLiteral} {s : Site},
    (l, some s) ∈ marksOfMembers path fields members → ∃ path, s = l.site path
  | _, _, [], _, _, h => by simp [marksOfMembers] at h
  | path, fields, (key, value) :: members, _, _, h => by
    simp only [marksOfMembers, List.mem_cons, Prod.mk.injEq, reduceCtorEq, and_false, false_or,
      List.mem_append] at h
    cases h
    case inl h => exact site_of_mem_marks h
    case inr h => exact site_of_mem_marksOfMembers h

end

mutual

-- A value takes its own literals off the lexemes.
theorem ReadsValue.literals_eq : ∀ {n : Nat} {ls rest : List LocatedLexeme} {value : Json}
    (path : List Frame), ReadsValue n ls value rest →
      literals ls = (marks path value).map (·.1) ++ literals rest
  | _, _, _, .object members, path, .object hm => by
    simp [marks, hm.literals_eq path (fieldsOf members)]
  | _, _, _, _, path, .array hi => by simp [marks, hi.literals_eq path 0]
  | _, _, _, _, _, .string => by simp [marks]
  | _, _, _, _, _, .scalar => by simp [marks]

theorem ReadsMembers.literals_eq : ∀ {n : Nat} {ls rest : List LocatedLexeme}
    {members : List (StringLiteral × Json)} (path : List Frame)
    (fields : List (String × String)), ReadsMembers n ls members rest →
      literals ls = (marksOfMembers path fields members).map (·.1) ++ literals rest
  | _, _, _, _, _, _, .nil => by simp [marksOfMembers]
  | _, _, _, _, path, fields, @ReadsMembers.last _ _ _ _ _ _ key _ hv => by
    simp [marksOfMembers, hv.literals_eq (path ++ [⟨.key key.value, fields⟩])]
  | _, _, _, _, path, fields, @ReadsMembers.cons _ _ _ _ _ _ _ key _ _ hv hm => by
    simp [marksOfMembers, hv.literals_eq (path ++ [⟨.key key.value, fields⟩]), hm.literals_eq path fields]

theorem ReadsItems.literals_eq : ∀ {n : Nat} {ls rest : List LocatedLexeme} {items : List Json}
    (path : List Frame) (position : Nat), ReadsItems n ls items rest →
      literals ls = (marksOfItems path position items).map (·.1) ++ literals rest
  | _, _, _, _, _, _, .nil => by simp [marksOfItems]
  | _, _, _, _, path, position, .last hv => by
    simp [marksOfItems, hv.literals_eq (path ++ [⟨.index position, []⟩])]
  | _, _, _, _, path, position, .cons hv hi => by
    simp [marksOfItems, hv.literals_eq (path ++ [⟨.index position, []⟩]), hi.literals_eq path (position + 1)]

end

mutual

-- Values that differ in the changes of their literals only.
inductive Moved (f : StringLiteral → Option Change) : Json → Json → Prop where
  | object {members members' : List (StringLiteral × Json)} :
    MovedMembers f members members' → Moved f (.object members) (.object members')
  | array {items items' : List Json} : MovedItems f items items' → Moved f (.array items) (.array items')
  | string {l l' : StringLiteral} : l.Moved (f l) l' → Moved f (.string l) (.string l')
  | other : Moved f .other .other

inductive MovedMembers (f : StringLiteral → Option Change) :
    List (StringLiteral × Json) → List (StringLiteral × Json) → Prop where
  | nil : MovedMembers f [] []
  | cons {key key' : StringLiteral} {value value' : Json} {members members' : List (StringLiteral × Json)} :
    key.Moved (f key) key' → Moved f value value' → MovedMembers f members members' →
      MovedMembers f ((key, value) :: members) ((key', value') :: members')

inductive MovedItems (f : StringLiteral → Option Change) : List Json → List Json → Prop where
  | nil : MovedItems f [] []
  | cons {value value' : Json} {items items' : List Json} :
    Moved f value value' → MovedItems f items items' →
      MovedItems f (value :: items) (value' :: items')

end

section Lexemes

variable {stop stop' start : Nat} {ls ls' : List LocatedLexeme}

theorem exists_punctuation {p : Punctuation}
    (h : List.Forall₂ (LocatedLexeme.Moved f stop stop') (⟨start, .punctuation p⟩ :: ls) ls') :
    ∃ start' tail, ls' = ⟨start', .punctuation p⟩ :: tail ∧
      List.Forall₂ (LocatedLexeme.Moved f stop stop') ls tail := by
  cases h with
  | @cons _ b _ tail head h =>
    obtain ⟨start', lexeme'⟩ := b
    cases head.lexeme
    exact ⟨start', tail, rfl, h⟩

theorem exists_string {l : StringLiteral}
    (h : List.Forall₂ (LocatedLexeme.Moved f stop stop') (⟨start, .string l⟩ :: ls) ls') :
    ∃ start' l' tail, ls' = ⟨start', .string l'⟩ :: tail ∧ l.Moved (f l) l' ∧
      List.Forall₂ (LocatedLexeme.Moved f stop stop') ls tail := by
  cases h with
  | @cons _ b _ tail head h =>
    obtain ⟨start', lexeme'⟩ := b
    cases head.lexeme with
    | @string _ l' moved => exact ⟨start', l', tail, rfl, moved, h⟩

theorem exists_scalar
    (h : List.Forall₂ (LocatedLexeme.Moved f stop stop') (⟨start, .scalar⟩ :: ls) ls') :
    ∃ start' tail, ls' = ⟨start', .scalar⟩ :: tail ∧
      List.Forall₂ (LocatedLexeme.Moved f stop stop') ls tail := by
  cases h with
  | @cons _ b _ tail head h =>
    obtain ⟨start', lexeme'⟩ := b
    cases head.lexeme
    exact ⟨start', tail, rfl, h⟩

end Lexemes

mutual

-- The reader takes the same steps on lexemes that differ in places and changes only.
theorem ReadsValue.moved : ∀ {n stop stop' : Nat} {ls ls' rest : List LocatedLexeme} {value : Json},
    ReadsValue n ls value rest → List.Forall₂ (LocatedLexeme.Moved f stop stop') ls ls' →
      ∃ value' rest', ReadsValue n ls' value' rest' ∧ Moved f value value' ∧
        List.Forall₂ (LocatedLexeme.Moved f stop stop') rest rest'
  | _, _, _, _, _, _, _, .object hm, h => by
    obtain ⟨_, _, rfl, h₁⟩ := exists_punctuation h
    have ⟨members', rest', hm', moved, h₂⟩ := hm.moved h₁
    exact ⟨_, rest', .object hm', .object moved, h₂⟩
  | _, _, _, _, _, _, _, .array hi, h => by
    obtain ⟨_, _, rfl, h₁⟩ := exists_punctuation h
    have ⟨items', rest', hi', moved, h₂⟩ := hi.moved h₁
    exact ⟨_, rest', .array hi', .array moved, h₂⟩
  | _, _, _, _, _, _, _, .string, h => by
    obtain ⟨_, _, _, rfl, moved, h₁⟩ := exists_string h
    exact ⟨_, _, .string, .string moved, h₁⟩
  | _, _, _, _, _, _, _, .scalar, h => by
    obtain ⟨_, _, rfl, h₁⟩ := exists_scalar h
    exact ⟨_, _, .scalar, .other, h₁⟩

theorem ReadsMembers.moved : ∀ {n stop stop' : Nat} {ls ls' rest : List LocatedLexeme}
    {members : List (StringLiteral × Json)},
    ReadsMembers n ls members rest → List.Forall₂ (LocatedLexeme.Moved f stop stop') ls ls' →
      ∃ members' rest', ReadsMembers n ls' members' rest' ∧ MovedMembers f members members' ∧
        List.Forall₂ (LocatedLexeme.Moved f stop stop') rest rest'
  | _, _, _, _, _, _, _, .nil, h => by
    obtain ⟨_, _, rfl, h₁⟩ := exists_punctuation h
    exact ⟨_, _, .nil, .nil, h₁⟩
  | _, _, _, _, _, _, _, .last hv, h => by
    obtain ⟨_, _, _, rfl, key, h₁⟩ := exists_string h
    obtain ⟨_, _, rfl, h₂⟩ := exists_punctuation h₁
    have ⟨_, _, hv', moved, h₃⟩ := hv.moved h₂
    obtain ⟨_, _, rfl, h₄⟩ := exists_punctuation h₃
    exact ⟨_, _, .last hv', .cons key moved .nil, h₄⟩
  | _, _, _, _, _, _, _, .cons hv hm, h => by
    obtain ⟨_, _, _, rfl, key, h₁⟩ := exists_string h
    obtain ⟨_, _, rfl, h₂⟩ := exists_punctuation h₁
    have ⟨_, _, hv', moved, h₃⟩ := hv.moved h₂
    obtain ⟨_, _, rfl, h₄⟩ := exists_punctuation h₃
    have ⟨_, _, hm', others, h₅⟩ := hm.moved h₄
    exact ⟨_, _, .cons hv' hm', .cons key moved others, h₅⟩

theorem ReadsItems.moved : ∀ {n stop stop' : Nat} {ls ls' rest : List LocatedLexeme}
    {items : List Json},
    ReadsItems n ls items rest → List.Forall₂ (LocatedLexeme.Moved f stop stop') ls ls' →
      ∃ items' rest', ReadsItems n ls' items' rest' ∧ MovedItems f items items' ∧
        List.Forall₂ (LocatedLexeme.Moved f stop stop') rest rest'
  | _, _, _, _, _, _, _, .nil, h => by
    obtain ⟨_, _, rfl, h₁⟩ := exists_punctuation h
    exact ⟨_, _, .nil, .nil, h₁⟩
  | _, _, _, _, _, _, _, .last hv, h => by
    have ⟨_, _, hv', moved, h₁⟩ := hv.moved h
    obtain ⟨_, _, rfl, h₂⟩ := exists_punctuation h₁
    exact ⟨_, _, .last hv', .cons moved .nil, h₂⟩
  | _, _, _, _, _, _, _, .cons hv hi, h => by
    have ⟨_, _, hv', moved, h₁⟩ := hv.moved h
    obtain ⟨_, _, rfl, h₂⟩ := exists_punctuation h₁
    have ⟨_, _, hi', others, h₃⟩ := hi.moved h₂
    exact ⟨_, _, .cons hv' hi', .cons moved others, h₃⟩

end

theorem MovedMembers.shownIn {path path' : List Frame} {fields fields' : List (String × String)}
    {members members' : List (StringLiteral × Json)} (h : MovedMembers f members members')
    (hf : ∀ m ∈ marksOfMembers path fields members, f m.1 = m.2.bind change) :
    List.Forall₂ (FieldMoved change) (shownIn path fields members)
      (shownIn path' fields' members') := by
  induction members generalizing members' with
  | nil =>
    cases h
    exact .nil
  | cons member members ih =>
    cases h with
    | @cons key key' _ _ _ members' named moved others =>
      have name : key'.value = key.value := by
        have kept : f key = none := hf (key, none) (by simp [marksOfMembers])
        simpa [Change.Turned, kept] using named.value
      have rest : List.Forall₂ (FieldMoved change) (Json.shownIn path fields members)
          (Json.shownIn path' fields' members') :=
        ih others fun m hm => hf m (by simp [marksOfMembers, hm])
      cases moved with
      | @string l l' moved =>
        have same : f l = change (l.site (path ++ [⟨.key key.value, fields⟩])) :=
          hf (l, some (l.site _)) (by simp [marksOfMembers, marks])
        exact .cons ⟨name, same ▸ moved.value⟩ rest
      | object => exact rest
      | array => exact rest
      | other => exact rest

mutual

-- Where each literal takes the change of its site, and the keys none, the sites move with the literals.
theorem Moved.visitsOf : ∀ {steps steps' : List Step} {value value' : Json},
    Moved f value value' → List.Forall₂ (Step.Moved change) steps steps' →
      (∀ m ∈ marks (steps.map Step.frame) value, f m.1 = m.2.bind change) →
        List.Forall₂ (Visit.Moved change) (visitsOf steps value) (visitsOf steps' value')
  | steps, _, _, _, @Moved.object _ members _ hm, hs, hf => by
    rw [marks] at hf
    apply hm.visitsOfMembers hs (hm.shownIn hf)
    rwa [fieldsShowing_shownIn]
  | _, _, _, _, .array hi, hs, hf => hi.visitsOfItems hs hf
  | steps, steps', _, _, @Moved.string _ l l' moved, hs, hf => by
    have same : f l = change (l.site (steps.map Step.frame)) :=
      hf (l, some (l.site _)) (by simp [marks])
    exact .cons ⟨hs, by simp [Visit.site, StringLiteral.site, moved.escaped], same ▸ moved.value⟩ .nil
  | _, _, _, _, .other, _, _ => .nil

theorem MovedMembers.visitsOfMembers : ∀ {steps steps' : List Step}
    {shown shown' : List (String × Site)} {members members' : List (StringLiteral × Json)},
    MovedMembers f members members' → List.Forall₂ (Step.Moved change) steps steps' →
      List.Forall₂ (FieldMoved change) shown shown' →
      (∀ m ∈ marksOfMembers (steps.map Step.frame) (fieldsShowing shown) members,
        f m.1 = m.2.bind change) →
        List.Forall₂ (Visit.Moved change) (visitsOfMembers steps shown members)
          (visitsOfMembers steps' shown' members')
  | _, _, _, _, _, _, .nil, _, _, _ => .nil
  | steps, steps', shown, shown', _, _,
      @MovedMembers.cons _ key key' value value' members members' named moved others, hs, ht, hf => by
    have kept : f key = none := hf (key, none) (by simp [marksOfMembers])
    have name : key'.value = key.value := by simpa [Change.Turned, kept] using named.value
    apply List.rel_append
    case _ =>
      apply moved.visitsOf
      case _ => exact List.rel_append hs (.cons ⟨by rw [name], ht⟩ .nil)
      case _ =>
        intro m hm
        apply hf
        rw [marksOfMembers]
        exact List.mem_cons_of_mem _ (List.mem_append_left _ (by simpa [Step.frame] using hm))
    case _ => exact others.visitsOfMembers hs ht fun m hm => hf m (by simp [marksOfMembers, hm])

theorem MovedItems.visitsOfItems : ∀ {steps steps' : List Step} {position : Nat}
    {items items' : List Json},
    MovedItems f items items' → List.Forall₂ (Step.Moved change) steps steps' →
      (∀ m ∈ marksOfItems (steps.map Step.frame) position items, f m.1 = m.2.bind change) →
        List.Forall₂ (Visit.Moved change) (visitsOfItems steps position items)
          (visitsOfItems steps' position items')
  | _, _, _, _, _, .nil, _, _ => .nil
  | steps, steps', position, _, _, .cons moved others, hs, hf => by
    apply List.rel_append
    case _ =>
      apply moved.visitsOf
      case _ => exact List.rel_append hs (.cons ⟨rfl, .nil⟩ .nil)
      case _ =>
        intro m hm
        apply hf
        rw [marksOfItems]
        exact List.mem_append_left _ (by simpa [Step.frame] using hm)
    case _ => exact others.visitsOfItems hs fun m hm => hf m (by simp [marksOfItems, hm])

end

mutual

-- Values that differ in changes only have their sites and keys in the same places.
theorem Moved.marks : ∀ {path path' : List Frame} {value value' : Json}, Moved f value value' →
    List.Forall₂ (fun m m' => m'.2.isSome = m.2.isSome) (marks path value) (marks path' value')
  | _, _, _, _, .object hm => hm.marksOfMembers
  | _, _, _, _, .array hi => hi.marksOfItems
  | _, _, _, _, .string _ => .cons rfl .nil
  | _, _, _, _, .other => .nil

theorem MovedMembers.marksOfMembers : ∀ {path path' : List Frame}
    {fields fields' : List (String × String)} {members members' : List (StringLiteral × Json)},
    MovedMembers f members members' → List.Forall₂ (fun m m' => m'.2.isSome = m.2.isSome)
      (marksOfMembers path fields members) (marksOfMembers path' fields' members')
  | _, _, _, _, _, _, .nil => .nil
  | _, _, _, _, _, _, .cons _ moved others =>
    .cons rfl (List.rel_append moved.marks others.marksOfMembers)

theorem MovedItems.marksOfItems : ∀ {path path' : List Frame} {position : Nat}
    {items items' : List Json},
    MovedItems f items items' → List.Forall₂ (fun m m' => m'.2.isSome = m.2.isSome)
      (marksOfItems path position items) (marksOfItems path' position items')
  | _, _, _, _, _, .nil => .nil
  | _, _, _, _, _, .cons moved others => List.rel_append moved.marks others.marksOfItems

end

section Marks

variable {ms : List (StringLiteral × Option Site)} {m : StringLiteral × Option Site}

-- The change of a literal is the change of its site. The spans of the literals tell them apart.
def changeIn (change : Site → Option Change) (ms : List (StringLiteral × Option Site))
    (l : StringLiteral) : Option Change :=
  (ms.find? (·.1.span = l.span)).bind fun m => m.2.bind change

theorem changeIn_of_mem (separated : ms.Pairwise fun m n => m.1.span.Precedes n.1.span)
    (hm : m ∈ ms) : changeIn change ms m.1 = m.2.bind change := by
  have found : ms.find? (·.1.span = m.1.span) = some m := by
    induction ms with
    | nil => cases hm
    | cons n ms ih =>
      have ⟨first, others⟩ := List.pairwise_cons.mp separated
      obtain rfl | hm := List.mem_cons.mp hm
      · simp
      · have differs : n.1.span ≠ m.1.span := (first m hm).ne
        rw [List.find?_cons_of_neg (by simpa using differs), ih others hm]
  rw [changeIn, found]
  rfl

variable {ls : List StringLiteral}

-- Literals behind the document lie behind all of its own.
theorem changeIn_behind (order : (ms.map (·.1) ++ ls).Pairwise fun l m => l.span.Precedes m.span) :
    ∀ l ∈ ls, changeIn change ms l = none := by
  intro l hl
  have outside : ms.find? (·.1.span = l.span) = none := by
    apply List.find?_eq_none.mpr
    intro m hm
    simpa using ((List.pairwise_append.mp order).right.right _ (List.mem_map_of_mem hm) l hl).ne
  rw [changeIn, outside]
  rfl

theorem editsIn_changeIn (order : (ms.map (·.1) ++ ls).Pairwise fun l m => l.span.Precedes m.span)
    (moves : ∀ m ∈ ms, changeIn change ms m.1 = m.2.bind change)
    (sites : ∀ l s, (l, some s) ∈ ms → ∃ path, s = l.site path) :
    editsIn (changeIn change ms) (ms.map (·.1) ++ ls)
      = Change.editsOf change (ms.filterMap (·.2)) := by
  have none : editsIn (changeIn change ms) ls = [] := by
    apply List.filterMap_eq_nil_iff.mpr
    intro l hl
    simp [changeIn_behind order l hl]
  rw [editsIn, List.filterMap_append]
  change _ ++ editsIn _ _ = _
  rw [none, List.append_nil, Change.editsOf, List.filterMap_map, List.filterMap_filterMap]
  apply List.filterMap_congr
  intro m hm
  obtain ⟨l, site⟩ := m
  have same : changeIn change ms l = site.bind change := moves _ hm
  cases site with
  | none => simp_all
  | some s =>
    obtain ⟨path, rfl⟩ := sites l s hm
    simp_all [StringLiteral.site]

theorem takes_of_changeIn (order : (ms.map (·.1) ++ ls).Pairwise fun l m => l.span.Precedes m.span)
    (moves : ∀ m ∈ ms, changeIn change ms m.1 = m.2.bind change)
    (sites : ∀ l s, (l, some s) ∈ ms → ∃ path, s = l.site path)
    (lies : ∀ s ∈ ms.filterMap (·.2), ∀ c, change s = some c →
      c.LiesIn s ∧ ∀ d ∈ c.text.toList, IsPlain d) :
    ∀ l ∈ ms.map (·.1) ++ ls, ∀ c, changeIn change ms l = some c → l.Takes c := by
  intro l hl c hc
  obtain hl | hl := List.mem_append.mp hl
  · obtain ⟨⟨l, site⟩, hm, rfl⟩ := List.mem_map.mp hl
    obtain ⟨s, rfl, hs⟩ := Option.bind_eq_some_iff.mp ((moves _ hm).symm.trans hc)
    have ⟨inside, plain⟩ := lies s (List.mem_filterMap.mpr ⟨_, hm, rfl⟩) c hs
    obtain ⟨path, rfl⟩ := sites l s hm
    exact ⟨by simpa [StringLiteral.site] using inside.patchable, inside.part, plain⟩
  · simp [changeIn_behind order l hl] at hc

-- Keys do not grow, so the sites alone tell how far a site is shifted.
theorem bounds_eq_grown {ms' : List (StringLiteral × Option Site)} {shift : Int}
    {ls ls' : List StringLiteral} (hf : ∀ m ∈ ms, f m.1 = m.2.bind change)
    (same : List.Forall₂ (fun m m' => m'.2.isSome = m.2.isSome) ms ms')
    (sites : ∀ l s, (l, some s) ∈ ms → ∃ path, s = l.site path)
    (sites' : ∀ l s, (l, some s) ∈ ms' → ∃ path, s = l.site path)
    (h : (ms'.map (·.1) ++ ls').map (·.span.bounds)
      = Span.grown shift (growing f (ms.map (·.1) ++ ls))) :
    (ms'.filterMap (·.2)).map (·.span.bounds)
      = Span.grown shift ((ms.filterMap (·.2)).map fun s => (s.span, Change.growth (change s))) := by
  induction same generalizing shift with
  | nil => rfl
  | @cons m m' ms ms' kind same ih =>
    obtain ⟨l, site⟩ := m
    obtain ⟨l', site'⟩ := m'
    have own : f l = site.bind change := hf _ List.mem_cons_self
    simp only [List.map_cons, List.cons_append, growing, Span.grown, List.cons.injEq] at h
    have rest := ih (fun m hm => hf m (List.mem_cons_of_mem _ hm))
      (fun l s hm => sites l s (List.mem_cons_of_mem _ hm))
      (fun l s hm => sites' l s (List.mem_cons_of_mem _ hm)) h.right
    cases site with
    | none =>
      have none : site' = none := by simpa using kind
      subst none
      simpa [own, Change.growth] using rest
    | some s =>
      obtain ⟨s', rfl⟩ := Option.isSome_iff_exists.mp kind
      obtain ⟨_, rfl⟩ := sites l s List.mem_cons_self
      obtain ⟨_, rfl⟩ := sites' l' s' List.mem_cons_self
      rw [own] at h rest
      exact congrArg₂ List.cons h.left rest

end Marks

section Document

variable {text : String} {root : Json}

theorem readsValue_of_parse (h : parse text = .ok root) : ∃ rest,
    ReadsValue (2 * (lexemes text.toList).length) (lexemes text.toList) root rest ∧
      placeOf rest = Text.byteLength text.toList := by
  unfold parse at h
  dsimp only at h
  split at h
  case h_1 => cases h
  case h_2 rest hr =>
    split at h
    case isTrue stop =>
      cases h
      exact ⟨rest, readsValue hr, stop⟩
    case isFalse => cases h

theorem parse_of_readsValue {rest : List LocatedLexeme}
    (h : ReadsValue (2 * (lexemes text.toList).length) (lexemes text.toList) root rest)
    (stop : placeOf rest = Text.byteLength text.toList) : parse text = .ok root := by
  simp [parse, h.readValue_eq, stop]

theorem enclosed_of_mem_marks (h : parse text = .ok root) :
    ∀ m ∈ marks [] root, m.1.Enclosed 0 text.toList := by
  have ⟨rest, hr, _⟩ := readsValue_of_parse h
  intro m hm
  apply (lexes 0 text.toList).enclosed
  change m.1 ∈ literals (lexemes text.toList)
  rw [hr.literals_eq []]
  exact List.mem_append_left _ (List.mem_map_of_mem hm)

theorem liesIn_of_mem_marks (h : parse text = .ok root) :
    ∀ m ∈ marks [] root, m.1.LiesIn 0 text.toList :=
  fun m hm => (enclosed_of_mem_marks h m hm).liesIn

-- A site between its two quotes. What they enclose reads as the value, and it has a backslash unless
-- the site can be patched.
structure IsQuoted (source : List Char) (s : Site) (content : List Char) : Prop where
  start : 0 < s.span.start
  quotes : Text.slice (s.span.start - 1) (s.span.stop + 1) source = some ('"' :: (content ++ ['"']))
  inside : Text.slice s.span.start s.span.stop source = some content
  reads : Grammar.Quoted content s.value.toList
  patchable : s.patchable ↔ '\\' ∉ content

theorem StringLiteral.Enclosed.exists_isQuoted {cs : List Char} {l : StringLiteral}
    (h : l.Enclosed 0 cs) (path : List Frame) : ∃ content, IsQuoted cs (l.site path) content := by
  have quote : ('"' : Char).utf8Size = 1 := by decide
  obtain @⟨before, content, after, value, _, quoted, rfl⟩ := h
  refine ⟨content, ?start, ?quotes, ?inside, by simpa [StringLiteral.site] using quoted, ?patchable⟩
  case start =>
    simp only [StringLiteral.site, Span.ofLength]
    omega
  case quotes =>
    refine Text.slice_eq_some_iff.mpr ⟨before, after, by simp, ?_, ?_⟩
    all_goals
      simp only [StringLiteral.site, Span.ofLength, Text.byteLength_cons, Text.byteLength_append,
        Text.byteLength_nil, quote]
      omega
  case inside =>
    refine Text.slice_eq_some_iff.mpr ⟨before ++ ['"'], '"' :: after, by simp, ?_, ?_⟩
    all_goals
      simp only [StringLiteral.site, Span.ofLength, Text.byteLength_cons, Text.byteLength_append,
        Text.byteLength_nil, quote]
      omega
  case patchable => simp [StringLiteral.site]

theorem exists_isQuoted_of_parse (h : parse text = .ok root) {s : Site} (hs : s ∈ sites root) :
    ∃ content, IsQuoted text.toList s content := by
  rw [sites, sitesOf_eq] at hs
  obtain ⟨⟨l, site⟩, hm, rfl⟩ := List.mem_filterMap.mp hs
  obtain ⟨path, rfl⟩ := site_of_mem_marks hm
  exact (enclosed_of_mem_marks h _ hm).exists_isQuoted path

theorem separated_marks (h : parse text = .ok root) :
    (marks [] root).Pairwise fun m n => m.1.span.Precedes n.1.span := by
  have ⟨rest, hr, _⟩ := readsValue_of_parse h
  have separated : (literals (lexemes text.toList)).Pairwise fun l m => l.span.Precedes m.span :=
    (lexes 0 text.toList).separated
  rw [hr.literals_eq []] at separated
  exact (List.pairwise_append.mp separated).left.of_map (·.1) fun _ _ before => before

-- A site that can be patched is the text under its span, character by character.
theorem shows_of_parse (h : parse text = .ok root) : ∀ s ∈ sites root, s.Shows text.toList ∧
    (s.patchable → ∀ d ∈ s.value.toList, IsPlain d) := by
  intro s hs
  rw [sites, sitesOf_eq] at hs
  obtain ⟨⟨l, site⟩, hm, rfl⟩ := List.mem_filterMap.mp hs
  obtain ⟨path, rfl⟩ := site_of_mem_marks hm
  have ⟨before, content, after, cut, start, stop, value⟩ := (liesIn_of_mem_marks h _ hm).content
  have unescaped (patchable : (l.site path).patchable) :
      content = l.value.toList ∧ ∀ d ∈ content, IsPlain d :=
    value (by simpa [StringLiteral.site] using patchable)
  constructor
  case left =>
    intro patchable
    have ⟨same, _⟩ := unescaped patchable
    apply Text.slice_eq_some_iff.mpr
    simp only [StringLiteral.site] at start stop ⊢
    exact ⟨before, after, same ▸ cut, by omega, by rw [← same]; omega⟩
  case right =>
    intro patchable
    have ⟨same, plain⟩ := unescaped patchable
    exact same ▸ plain

theorem separated_of_parse (h : parse text = .ok root) :
    (sites root).Pairwise fun s t => s.span.Precedes t.span := by
  rw [sites, sitesOf_eq]
  apply List.pairwise_filterMap.mpr
  apply (separated_marks h).imp_of_mem
  rintro ⟨l, _⟩ ⟨m, _⟩ hl hm before s rfl t rfl
  obtain ⟨_, rfl⟩ := site_of_mem_marks hl
  obtain ⟨_, rfl⟩ := site_of_mem_marks hm
  exact before

-- Changes that need no escapes leave a document with the same sites and fields, changed, and shifted
-- by what the changes in front of them add.
theorem exists_visits_of_splice {out : String} (h : parse text = .ok root)
    (lies : ∀ s ∈ sites root, ∀ c, change s = some c → c.LiesIn s ∧ ∀ d ∈ c.text.toList, IsPlain d)
    (hs : Splice 0 text.toList (Change.editsOf change (sites root)) out.toList) :
    ∃ root', parse out = .ok root' ∧ List.Forall₂ (Visit.Moved change) (visits root) (visits root') ∧
      (sites root').map (·.span.bounds)
        = Span.grown 0 ((sites root).map fun s => (s.span, Change.growth (change s))) := by
  have ⟨rest, hr, stop⟩ := readsValue_of_parse h
  have moves (m) (hm : m ∈ marks [] root) : changeIn change (marks [] root) m.1 = m.2.bind change :=
    changeIn_of_mem (separated_marks h) hm
  have order : (literals (lexemes text.toList)).Pairwise fun l m => l.span.Precedes m.span :=
    (lexes 0 text.toList).separated
  have marked : literals (lexemes text.toList) = (marks [] root).map (·.1) ++ literals rest :=
    hr.literals_eq []
  rw [marked] at order
  rw [sites, sitesOf_eq] at lies hs
  have takes := takes_of_changeIn order moves (fun _ _ => site_of_mem_marks) lies
  rw [← editsIn_changeIn order moves (fun _ _ => site_of_mem_marks)] at hs
  rw [← marked] at takes hs
  have ⟨ls', hl, moved, shifted⟩ := (lexes 0 text.toList).splice takes hs 0
  have lexed : lexemes out.toList = ls' := hl.lexemesFrom_eq
  have length : (lexemes text.toList).length = ls'.length := moved.length_eq
  have ⟨root', rest', hr', tree, end'⟩ := hr.moved moved
  rw [length, ← lexed] at hr'
  refine ⟨root', parse_of_readsValue hr' ?stop, tree.visitsOf .nil moves, ?bounds⟩
  case stop =>
    cases end' with
    | nil =>
      have empty : text.toList = [] := Text.byteLength_eq_zero_iff.mp stop.symm
      rw [empty, lexemes, lexemesFrom_nil (by rw [skipTrivia])] at hr
      cases hr
    | cons head _ =>
      have last := head.atEnd (by simpa [placeOf] using stop)
      simpa [placeOf] using last
  case bounds =>
    rw [← lexed, hr'.literals_eq [], Int.sub_self] at shifted
    change _ = Span.grown 0 (growing _ (literals (lexemes text.toList))) at shifted
    rw [marked] at shifted
    rw [sites, sites, sitesOf_eq, sitesOf_eq]
    exact bounds_eq_grown moves tree.marks (fun _ _ => site_of_mem_marks)
      (fun _ _ => site_of_mem_marks) shifted

theorem exists_parse_of_splice {out : String} (h : parse text = .ok root)
    (lies : ∀ s ∈ sites root, ∀ c, change s = some c → c.LiesIn s ∧ ∀ d ∈ c.text.toList, IsPlain d)
    (hs : Splice 0 text.toList (Change.editsOf change (sites root)) out.toList) :
    ∃ root', parse out = .ok root' ∧ List.Forall₂ (Site.Moved change) (sites root) (sites root') := by
  have ⟨root', parsed, moved, _⟩ := exists_visits_of_splice h lies hs
  refine ⟨root', parsed, ?_⟩
  rw [← map_site_visits, ← map_site_visits, List.forall₂_map_left_iff, List.forall₂_map_right_iff]
  exact moved.imp fun _ _ moved => moved.site

end Document

end Repin.Json
