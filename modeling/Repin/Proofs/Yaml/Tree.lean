import Repin.Proofs.Yaml.Node
/-!
# Trees and their events

A stream writes a tree as the events of its parts, each collection between its start and its end. Reading
the events puts the tree where the next value belongs, whatever stands around it. A walk over the trees
that were read comes by every scalar once that is neither a key nor under a key that is no scalar. Main
statement: `Tree.read_and_walked`.
-/
namespace Repin.Yaml

-- A value as it is written, with its keys.
inductive Tree where
  | scalar (mark : Mark) (style : ScalarStyle) (text : String)
  | sequence (items : List Tree)
  | mapping (entries : List (Tree × Tree))
  | reference

namespace Tree

-- Induction over a tree, with the hypothesis at every item, key and value.
@[elab_as_elim, induction_eliminator]
theorem induction {motive : Tree → Prop}
    (scalar : ∀ mark style text, motive (.scalar mark style text))
    (sequence : ∀ items, (∀ item ∈ items, motive item) → motive (.sequence items))
    (mapping : ∀ entries, (∀ e ∈ entries, motive e.1 ∧ motive e.2) → motive (.mapping entries))
    (reference : motive .reference) : ∀ tree, motive tree
  | .scalar mark style text => scalar mark style text
  | .sequence items =>
    sequence items fun item _ => induction scalar sequence mapping reference item
  | .mapping entries => mapping entries fun e _ =>
    ⟨induction scalar sequence mapping reference e.1, induction scalar sequence mapping reference e.2⟩
  | .reference => reference
termination_by tree => sizeOf tree
decreasing_by
  case _ he =>
    have := List.sizeOf_lt_of_mem he
    simp only [Tree.sequence.sizeOf_spec]
    omega
  all_goals
    have := List.sizeOf_lt_of_mem ‹e ∈ entries›
    obtain ⟨key, value⟩ := e
    simp only [Tree.mapping.sizeOf_spec, Prod.mk.sizeOf_spec] at *
    omega

mutual

def events : Tree → List Event
  | scalar mark style text => [.scalar mark style text]
  | sequence items => .sequenceStart :: (eventsOfItems items ++ [.sequenceEnd])
  | mapping entries => .mappingStart :: (eventsOfEntries entries ++ [.mappingEnd])
  | reference => [.reference]

def eventsOfItems : List Tree → List Event
  | [] => []
  | item :: items => events item ++ eventsOfItems items

def eventsOfEntries : List (Tree × Tree) → List Event
  | [] => []
  | (key, value) :: entries => events key ++ events value ++ eventsOfEntries entries

end

-- The events of a key and its value.
def entryEvents (e : Tree × Tree) : List Event :=
  e.1.events ++ e.2.events

theorem eventsOfItems_eq (items : List Tree) : eventsOfItems items = items.flatMap events := by
  induction items with
  | nil => rfl
  | cons item items ih => rw [eventsOfItems, ih, List.flatMap_cons]

theorem eventsOfEntries_eq (entries : List (Tree × Tree)) :
    eventsOfEntries entries = entries.flatMap entryEvents := by
  induction entries with
  | nil => rfl
  | cons e entries ih => rw [eventsOfEntries, ih, List.flatMap_cons, entryEvents]

-- The text of a scalar.
def text? : Tree → Option String
  | scalar _ _ text => some text
  | _ => none

-- The entries whose key and value are both scalars.
def fields (entries : List (Tree × Tree)) : List (String × String) :=
  entries.filterMap fun (key, value) => do return (← key.text?, ← value.text?)

variable (place : Mark → ScalarStyle → String → ScalarPlace)

mutual

-- The tree without what is not kept of its keys; `place` finds a scalar in the source.
def node : Tree → Node
  | scalar mark style text => .scalar ⟨text, place mark style text⟩
  | sequence items => .sequence (nodesOfItems items)
  | mapping entries => .mapping (nodesOfEntries entries)
  | reference => .reference

def nodesOfItems : List Tree → List Node
  | [] => []
  | item :: items => node item :: nodesOfItems items

def nodesOfEntries : List (Tree × Tree) → List (Option String × Node)
  | [] => []
  | (key, value) :: entries => (key.text?, node value) :: nodesOfEntries entries

end

variable {place}

theorem text?_node (tree : Tree) : (node place tree).text? = tree.text? := by
  cases tree <;> rfl

theorem fieldsOf_nodesOfEntries (entries : List (Tree × Tree)) :
    Node.fieldsOf (nodesOfEntries place entries) = fields entries := by
  induction entries with
  | nil => rfl
  | cons e entries ih =>
    obtain ⟨key, value⟩ := e
    cases key <;> cases value <;>
      simpa [nodesOfEntries, node, Node.fieldsOf, fields, text?] using ih

end Tree

-- A value comes to the place that is next: it is the next document, the next item, the next key, or the
-- value of the key before it. All around it stays. What was read last stands first.
inductive Node.Builder.Inserts (value : Node) : Node.Builder → Node.Builder → Prop where
  | document {documents : List Node} : Inserts value ⟨[], documents⟩ ⟨[], value :: documents⟩
  | item {items : List Node} {outer : List Node.Partial} {documents : List Node} :
    Inserts value ⟨.sequence items :: outer, documents⟩ ⟨.sequence (value :: items) :: outer, documents⟩
  | key {entries : List (Option String × Node)} {outer : List Node.Partial} {documents : List Node} :
    Inserts value ⟨.beforeKey entries :: outer, documents⟩
      ⟨.beforeValue entries value.text? :: outer, documents⟩
  | value {entries : List (Option String × Node)} {key : Option String} {outer : List Node.Partial}
      {documents : List Node} :
    Inserts value ⟨.beforeValue entries key :: outer, documents⟩
      ⟨.beforeKey ((key, value) :: entries) :: outer, documents⟩

namespace Node.Builder

variable {place : Mark → ScalarStyle → String → ScalarPlace} {outer : List Partial} {documents : List Node}

theorem inserts_add (b : Builder) (value : Node) : Inserts value b (b.add value) := by
  obtain ⟨stack, documents⟩ := b
  match stack with
  | [] => exact .document
  | .sequence items :: outer => exact .item
  | .beforeKey entries :: outer => exact .key
  | .beforeValue entries key :: outer => exact .value

theorem foldl_items {items : List Tree} {done : List Node}
    (h : ∀ item ∈ items, ∀ b : Builder, item.events.foldl (step place) b = b.add (item.node place)) :
    (Tree.eventsOfItems items).foldl (step place) ⟨.sequence done :: outer, documents⟩
      = ⟨.sequence ((Tree.nodesOfItems place items).reverse ++ done) :: outer, documents⟩ := by
  induction items generalizing done with
  | nil => rfl
  | cons item items ih =>
    have ⟨first, others⟩ := List.forall_mem_cons.mp h
    rw [Tree.eventsOfItems, List.foldl_append, first, Tree.nodesOfItems, List.reverse_cons,
      List.append_assoc]
    exact ih others

theorem foldl_entries {entries : List (Tree × Tree)} {done : List (Option String × Node)}
    (h : ∀ e ∈ entries, (∀ b : Builder, e.1.events.foldl (step place) b = b.add (e.1.node place)) ∧
      ∀ b : Builder, e.2.events.foldl (step place) b = b.add (e.2.node place)) :
    (Tree.eventsOfEntries entries).foldl (step place) ⟨.beforeKey done :: outer, documents⟩
      = ⟨.beforeKey ((Tree.nodesOfEntries place entries).reverse ++ done) :: outer, documents⟩ := by
  induction entries generalizing done with
  | nil => rfl
  | cons e entries ih =>
    have ⟨⟨key, value⟩, others⟩ := List.forall_mem_cons.mp h
    have same : (e.1.node place).text? = e.1.text? := e.1.text?_node
    rw [Tree.eventsOfEntries, List.foldl_append, List.foldl_append, key, value, Tree.nodesOfEntries,
      List.reverse_cons, List.append_assoc, ← same]
    exact ih others

-- The events of a tree add the tree, and nothing else changes.
theorem foldl_events (tree : Tree) (b : Builder) :
    tree.events.foldl (step place) b = b.add (tree.node place) := by
  induction tree generalizing b with
  | scalar | reference => rfl
  | sequence items ih =>
    rw [Tree.events, List.foldl_cons, List.foldl_append]
    have inner := @foldl_items _ b.stack b.documents items [] ih
    rw [List.append_nil] at inner
    refine (congrArg (fun b => [Event.sequenceEnd].foldl (step place) b) inner).trans ?_
    simp [step, closeCollection, Partial.close, Tree.node]
  | mapping entries ih =>
    rw [Tree.events, List.foldl_cons, List.foldl_append]
    have inner := @foldl_entries _ b.stack b.documents entries [] ih
    rw [List.append_nil] at inner
    refine (congrArg (fun b => [Event.mappingEnd].foldl (step place) b) inner).trans ?_
    simp [step, closeCollection, Partial.close, Tree.node]

theorem foldl_documents (trees : List Tree) (documents : List Node) :
    (trees.flatMap Tree.events).foldl (step place) ⟨[], documents⟩
      = ⟨[], (trees.map (Tree.node place)).reverse ++ documents⟩ := by
  induction trees generalizing documents with
  | nil => rfl
  | cons tree trees ih =>
    rw [List.flatMap_cons, List.foldl_append, foldl_events, List.map_cons, List.reverse_cons,
      List.append_assoc]
    exact ih _

end Node.Builder

theorem Node.ofEvents_flatMap (place : Mark → ScalarStyle → String → ScalarPlace) (trees : List Tree) :
    ofEvents place (trees.flatMap Tree.events) = trees.map (Tree.node place) := by
  rw [ofEvents]
  refine (congrArg (fun b => b.documents.reverse) (Builder.foldl_documents trees [])).trans ?_
  simp

-- A scalar that a walk comes by: the position of its event and the path that leads to it.
structure Leaf where
  event : Nat
  path : List Frame
  mark : Mark
  style : ScalarStyle
  text : String

namespace Leaf

-- The leaf in a tree that stands under a frame.
def under (frame : Frame) (l : Leaf) : Leaf :=
  { l with path := frame :: l.path }

-- The leaf behind further events.
def behind (events : Nat) (l : Leaf) : Leaf :=
  { l with event := events + l.event }

-- What a visitor is shown of a leaf at the end of a path.
def site (place : Mark → ScalarStyle → String → ScalarPlace) (path : List Frame) (l : Leaf) : Site :=
  Node.siteOf (path ++ l.path) ⟨l.text, place l.mark l.style l.text⟩

-- The scalars of a tree that are no keys and have only scalars as keys above them. An item stands behind
-- the start of its sequence and the items before it; a value stands behind the start of its mapping, the
-- entries before it and its key.
inductive In : Leaf → Tree → Prop where
  | here {mark : Mark} {style : ScalarStyle} {text : String} :
    In ⟨0, [], mark, style, text⟩ (.scalar mark style text)
  | item {l : Leaf} {items before after : List Tree} {item : Tree} :
    items = before ++ item :: after → In l item →
      In ((l.under ⟨.index before.length, []⟩).behind (1 + (before.flatMap Tree.events).length))
        (.sequence items)
  | value {l : Leaf} {entries before after : List (Tree × Tree)} {mark : Mark} {style : ScalarStyle}
      {key : String} {value : Tree} :
    entries = before ++ (.scalar mark style key, value) :: after → In l value →
      In ((l.under ⟨.key key, Tree.fields entries⟩).behind
        (1 + (before.flatMap Tree.entryEvents).length + 1)) (.mapping entries)

-- The leaves of a stream: each stands behind the trees before its own.
def InStream (l : Leaf) (trees : List Tree) : Prop :=
  ∃ before tree after inner, trees = before ++ tree :: after ∧ In inner tree ∧
    l = inner.behind (before.flatMap Tree.events).length

end Leaf

-- A walk by the leaves of a kind, in the order of their events.
structure Walk (place : Mark → ScalarStyle → String → ScalarPlace) (kind : Leaf → Prop)
    (events : List Event) (sites : List Frame → List Site) (leaves : List Leaf) : Prop where
  ordered : leaves.Pairwise fun l m => l.event < m.event
  mem_iff : ∀ l, l ∈ leaves ↔ kind l
  event : ∀ l ∈ leaves, events[l.event]? = some (.scalar l.mark l.style l.text)
  sites : ∀ path, sites path = leaves.map (Leaf.site place path)

namespace Walk

variable {place : Mark → ScalarStyle → String → ScalarPlace} {kind kind' : Leaf → Prop}
variable {events events' : List Event} {sites sites' : List Frame → List Site} {leaves leaves' : List Leaf}

theorem empty (events : List Event) : Walk place (fun _ => False) events (fun _ => []) [] where
  ordered := .nil
  mem_iff _ := by simp
  event := by simp
  sites _ := rfl

theorem congr (h : Walk place kind events sites leaves) (same : ∀ l, kind' l ↔ kind l) :
    Walk place kind' events sites leaves where
  ordered := h.ordered
  mem_iff l := (h.mem_iff l).trans (same l).symm
  event := h.event
  sites := h.sites

theorem lt_length (h : Walk place kind events sites leaves) {l : Leaf} (hl : l ∈ leaves) :
    l.event < events.length :=
  (List.getElem?_eq_some_iff.mp (h.event l hl)).1

theorem under (h : Walk place kind events sites leaves) (frame : Frame) :
    Walk place (fun l => ∃ inner, kind inner ∧ l = inner.under frame) events
      (fun path => sites (path ++ [frame])) (leaves.map (Leaf.under frame)) where
  ordered := List.pairwise_map.mpr h.ordered
  mem_iff l := by simp [h.mem_iff, eq_comm]
  event := by simpa [Leaf.under] using h.event
  sites path := by simp [h.sites, Leaf.site, Leaf.under]

theorem behind (h : Walk place kind events sites leaves) (before after : List Event) :
    Walk place (fun l => ∃ inner, kind inner ∧ l = inner.behind before.length) (before ++ (events ++ after))
      sites (leaves.map (Leaf.behind before.length)) where
  ordered := List.pairwise_map.mpr (h.ordered.imp fun order => Nat.add_lt_add_left order _)
  mem_iff l := by simp [h.mem_iff, eq_comm]
  event := by
    intro l hl
    obtain ⟨inner, hi, rfl⟩ := List.mem_map.mp hl
    have last := h.lt_length hi
    rw [Leaf.behind, List.getElem?_append_right (Nat.le_add_right ..), Nat.add_sub_cancel_left,
      List.getElem?_append_left last]
    exact h.event inner hi
  sites path := by simp [h.sites, Leaf.site, Leaf.behind]

theorem append (h : Walk place kind events sites leaves) (h' : Walk place kind' events' sites' leaves') :
    Walk place (fun l => kind l ∨ ∃ inner, kind' inner ∧ l = inner.behind events.length) (events ++ events')
      (fun path => sites path ++ sites' path) (leaves ++ leaves'.map (Leaf.behind events.length)) where
  ordered := by
    refine List.pairwise_append.mpr ⟨h.ordered, ?_, fun l hl m hm => ?_⟩
    case refine_1 => exact List.pairwise_map.mpr (h'.ordered.imp fun order => Nat.add_lt_add_left order _)
    case refine_2 =>
      obtain ⟨inner, _, rfl⟩ := List.mem_map.mp hm
      exact Nat.lt_of_lt_of_le (h.lt_length hl) (Nat.le_add_right ..)
  mem_iff l := by simp [h.mem_iff, h'.mem_iff, eq_comm]
  event := by
    intro l hl
    obtain hl | hl := List.mem_append.mp hl
    · rw [List.getElem?_append_left (h.lt_length hl)]
      exact h.event l hl
    · obtain ⟨inner, hi, rfl⟩ := List.mem_map.mp hl
      rw [Leaf.behind, List.getElem?_append_right (Nat.le_add_right ..), Nat.add_sub_cancel_left]
      exact h'.event inner hi
  sites path := by simp [h.sites, h'.sites, Leaf.site, Leaf.behind]

section Amid

variable {α : Type} {eventsOf : α → List Event} {kindOf : Nat → α → Leaf → Prop}
variable {sitesOf : Nat → α → List Frame → List Site}

-- The leaves of the parts of a list, whose parts have positions: a leaf stands behind the parts before
-- its own.
def Amid (eventsOf : α → List Event) (kindOf : Nat → α → Leaf → Prop) (position : Nat) (parts : List α)
    (l : Leaf) : Prop :=
  ∃ before part after inner, parts = before ++ part :: after ∧
    kindOf (position + before.length) part inner ∧ l = inner.behind (before.flatMap eventsOf).length

-- The sites of the parts of a list, from a position on.
def sitesAmid (sitesOf : Nat → α → List Frame → List Site) (position : Nat) :
    List α → List Frame → List Site
  | [], _ => []
  | part :: parts, path => sitesOf position part path ++ sitesAmid sitesOf (position + 1) parts path

theorem amid_cons_iff {position : Nat} {part : α} {parts : List α} {l : Leaf} :
    Amid eventsOf kindOf position (part :: parts) l ↔ kindOf position part l ∨
      ∃ inner, Amid eventsOf kindOf (position + 1) parts inner ∧
        l = inner.behind (eventsOf part).length := by
  constructor
  case mp =>
    rintro ⟨before, a, after, inner, cut, hk, rfl⟩
    cases before with
    | nil =>
      cases cut
      exact .inl (by simpa [Leaf.behind] using hk)
    | cons b before =>
      cases cut
      refine .inr ⟨inner.behind (before.flatMap eventsOf).length,
        ⟨before, a, after, inner, rfl, ?_, rfl⟩, by simp [Leaf.behind, Nat.add_assoc]⟩
      simpa [Nat.add_assoc, Nat.add_comm 1] using hk
  case mpr =>
    rintro (hk | ⟨_, ⟨before, a, after, inner, rfl, hk, rfl⟩, rfl⟩)
    · exact ⟨[], part, parts, l, rfl, hk, by simp [Leaf.behind]⟩
    · refine ⟨part :: before, a, after, inner, rfl, ?_, by simp [Leaf.behind, Nat.add_assoc]⟩
      simpa [Nat.add_assoc, Nat.add_comm 1] using hk

-- The parts of a list are walked through one after another.
theorem exists_amid {parts : List α} (position : Nat)
    (h : ∀ part ∈ parts, ∀ i, ∃ leaves,
      Walk place (kindOf i part) (eventsOf part) (sitesOf i part) leaves) :
    ∃ leaves, Walk place (Amid eventsOf kindOf position parts) (parts.flatMap eventsOf)
      (sitesAmid sitesOf position parts) leaves := by
  induction parts generalizing position with
  | nil => exact ⟨[], (empty []).congr fun l => by simp [Amid]⟩
  | cons part parts ih =>
    have ⟨first, others⟩ := List.forall_mem_cons.mp h
    obtain ⟨leaves, walk⟩ := first position
    obtain ⟨leaves', walk'⟩ := ih (position + 1) others
    exact ⟨_, (walk.append walk').congr fun l => amid_cons_iff⟩

end Amid

end Walk

namespace Tree

variable {place : Mark → ScalarStyle → String → ScalarPlace}

theorem sitesOfItems_eq (path : List Frame) (position : Nat) (items : List Tree) :
    Node.sitesOfItems path position (nodesOfItems place items) = Walk.sitesAmid
      (fun i item path => Node.sitesOf (path ++ [⟨.index i, []⟩]) (node place item)) position items
        path := by
  induction items generalizing position with
  | nil => rfl
  | cons item items ih => rw [nodesOfItems, Node.sitesOfItems, ih, Walk.sitesAmid]

-- The sites of the value of an entry, if its key is a scalar.
def sitesOfEntry (place : Mark → ScalarStyle → String → ScalarPlace) (fields : List (String × String))
    (e : Tree × Tree) (path : List Frame) : List Site :=
  match e.1.text? with
  | none => []
  | some key => Node.sitesOf (path ++ [⟨.key key, fields⟩]) (node place e.2)

theorem sitesOfEntries_eq (path : List Frame) (fields : List (String × String)) (position : Nat)
    (entries : List (Tree × Tree)) :
    Node.sitesOfEntries path fields (nodesOfEntries place entries)
      = Walk.sitesAmid (fun _ => sitesOfEntry place fields) position entries path := by
  induction entries generalizing position with
  | nil => rfl
  | cons e entries ih =>
    obtain ⟨key, value⟩ := e
    rw [nodesOfEntries, Walk.sitesAmid, ← ih]
    cases key <;> rfl

-- The leaves of the value of an entry, if its key is a scalar.
def InEntry (fields : List (String × String)) (e : Tree × Tree) (l : Leaf) : Prop :=
  ∃ key, e.1.text? = some key ∧
    ∃ inner, (∃ l, Leaf.In l e.2 ∧ inner = l.under ⟨.key key, fields⟩) ∧ l = inner.behind e.1.events.length

theorem in_sequence_iff {items : List Tree} {l : Leaf} : l.In (.sequence items) ↔
    ∃ inner, Walk.Amid events (fun i item l => ∃ inner, Leaf.In inner item ∧ l = inner.under ⟨.index i, []⟩)
      0 items inner ∧ l = inner.behind 1 := by
  constructor
  case mp =>
    rintro (_ | ⟨cut, inside⟩ | _)
    exact ⟨_, ⟨_, _, _, _, cut, ⟨_, inside, rfl⟩, rfl⟩, by simp [Leaf.behind, Leaf.under, Nat.add_assoc]⟩
  case mpr =>
    rintro ⟨_, ⟨before, item, after, _, cut, ⟨inner, inside, rfl⟩, rfl⟩, rfl⟩
    have found := Leaf.In.item cut inside
    simpa [Leaf.behind, Leaf.under, Nat.add_assoc] using found

theorem in_mapping_iff {entries : List (Tree × Tree)} {l : Leaf} : l.In (.mapping entries) ↔
    ∃ inner, Walk.Amid entryEvents (fun _ => InEntry (fields entries)) 0 entries inner ∧
      l = inner.behind 1 := by
  constructor
  case mp =>
    rintro (_ | _ | ⟨cut, inside⟩)
    refine ⟨_, ⟨_, _, _, _, cut, ⟨_, rfl, _, ⟨_, inside, rfl⟩, rfl⟩, rfl⟩, ?_⟩
    simp [Leaf.behind, Leaf.under, events, Nat.add_assoc]
  case mpr =>
    rintro ⟨_, ⟨before, ⟨key, value⟩, after, _, cut, ⟨text, ht, _, ⟨inner, inside, rfl⟩, rfl⟩, rfl⟩, rfl⟩
    cases key <;> cases ht
    have found := Leaf.In.value cut inside
    simpa [Leaf.behind, Leaf.under, events, Nat.add_assoc] using found

-- The scalars in the events of a tree that have sites are the leaves of the tree.
def HasWalk (place : Mark → ScalarStyle → String → ScalarPlace) (tree : Tree) : Prop :=
  ∃ leaves, Walk place (·.In tree) tree.events (fun path => Node.sitesOf path (tree.node place)) leaves

theorem HasWalk.entry {e : Tree × Tree} (fields : List (String × String)) (h : HasWalk place e.2) :
    ∃ leaves, Walk place (InEntry fields e) (entryEvents e) (sitesOfEntry place fields e) leaves := by
  obtain ⟨leaves, walk⟩ := h
  unfold InEntry sitesOfEntry entryEvents
  cases e.1.text? with
  | none => exact ⟨[], (Walk.empty _).congr fun l => by simp⟩
  | some key =>
    have inner := (walk.under ⟨.key key, fields⟩).behind e.1.events []
    rw [List.append_nil] at inner
    exact ⟨_, inner.congr fun l => by simp⟩

theorem HasWalk.sequence {items : List Tree} (h : ∀ item ∈ items, HasWalk place item) :
    HasWalk place (.sequence items) := by
  have parts : ∀ item ∈ items, ∀ i : Nat, ∃ leaves,
      Walk place (fun l => ∃ inner, Leaf.In inner item ∧ l = inner.under ⟨.index i, []⟩) item.events
        (fun path => Node.sitesOf (path ++ [⟨.index i, []⟩]) (node place item)) leaves := by
    intro item hi i
    obtain ⟨leaves, walk⟩ := h item hi
    exact ⟨_, walk.under ⟨.index i, []⟩⟩
  obtain ⟨leaves, walk⟩ := Walk.exists_amid 0 parts
  have whole := walk.behind [.sequenceStart] [.sequenceEnd]
  rw [← eventsOfItems_eq] at whole
  refine ⟨_, whole.ordered, fun l => ?_, whole.event, fun path => ?_⟩
  case refine_1 =>
    rw [whole.mem_iff, in_sequence_iff]
    rfl
  case refine_2 => rw [← whole.sites, node, Node.sitesOf, sitesOfItems_eq]

theorem HasWalk.mapping {entries : List (Tree × Tree)} (h : ∀ e ∈ entries, HasWalk place e.2) :
    HasWalk place (.mapping entries) := by
  have parts : ∀ e ∈ entries, ∀ _ : Nat, ∃ leaves, Walk place (InEntry (fields entries) e)
      (entryEvents e) (sitesOfEntry place (fields entries) e) leaves := fun e he _ => (h e he).entry _
  obtain ⟨leaves, walk⟩ := Walk.exists_amid 0 parts
  have whole := walk.behind [.mappingStart] [.mappingEnd]
  rw [← eventsOfEntries_eq] at whole
  refine ⟨_, whole.ordered, fun l => ?_, whole.event, fun path => ?_⟩
  case refine_1 =>
    rw [whole.mem_iff, in_mapping_iff]
    rfl
  case refine_2 =>
    rw [← whole.sites, node, Node.sitesOf, sitesOfEntries_eq _ _ 0, fieldsOf_nodesOfEntries]

theorem hasWalk (place : Mark → ScalarStyle → String → ScalarPlace) (tree : Tree) :
    HasWalk place tree := by
  induction tree with
  | scalar mark style text =>
    refine ⟨[⟨0, [], mark, style, text⟩], List.pairwise_singleton .., fun l => ?_, by simp [events], ?_⟩
    case refine_1 =>
      rw [List.mem_singleton]
      exact ⟨fun h => h ▸ .here, fun h => by cases h; rfl⟩
    case refine_2 => simp [Node.sitesOf, node, Leaf.site, Node.siteOf]
  | reference => exact ⟨[], (Walk.empty _).congr fun l => by simpa using nofun⟩
  | sequence items ih => exact .sequence ih
  | mapping entries ih => exact .mapping fun e he => (ih e he).2

theorem sites_map_node (trees : List Tree) (position : Nat) :
    Node.sites (trees.map (node place))
      = Walk.sitesAmid (fun _ tree path => Node.sitesOf path (node place tree)) position trees [] := by
  induction trees generalizing position with
  | nil => rfl
  | cons tree trees ih =>
    rw [Walk.sitesAmid, ← ih]
    rfl

-- From any state, the events of a tree put the tree where the next value belongs, and nothing around it
-- changes. The documents of a stream are its trees, and a walk over them comes by their leaves: by each
-- of them once, in the order of their events, with the path of keys and positions that leads to it and
-- with the fields beside each key.
theorem read_and_walked (place : Mark → ScalarStyle → String → ScalarPlace) :
    (∀ (tree : Tree) (b : Node.Builder),
      b.Inserts (tree.node place) (tree.events.foldl (Node.Builder.step place) b)) ∧
    ∀ trees : List Tree,
      Node.ofEvents place (trees.flatMap events) = trees.map (node place) ∧
      ∃ leaves : List Leaf, (leaves.Pairwise fun l m => l.event < m.event) ∧
        (∀ l, l ∈ leaves ↔ l.InStream trees) ∧
        (∀ l ∈ leaves, (trees.flatMap events)[l.event]? = some (.scalar l.mark l.style l.text)) ∧
        Node.sites (Node.ofEvents place (trees.flatMap events)) = leaves.map (Leaf.site place []) := by
  refine ⟨fun tree b => ?_, fun trees => ⟨Node.ofEvents_flatMap place trees, ?_⟩⟩
  case refine_1 =>
    rw [Node.Builder.foldl_events]
    exact b.inserts_add _
  case refine_2 =>
    obtain ⟨leaves, walk⟩ := Walk.exists_amid 0 fun tree (_ : tree ∈ trees) _ => hasWalk place tree
    refine ⟨leaves, walk.ordered, walk.mem_iff, walk.event, ?_⟩
    rw [Node.ofEvents_flatMap, sites_map_node trees 0, walk.sites]

end Tree
end Repin.Yaml
