import Mathlib.Data.List.Dedup
import Repin.Proofs.Run.Record
/-!
# Lookups one after another

The registry is asked for a name until it replies with a digest, or that it knows none. Later requests
for the name are answered by that reply, and the registry does not hear of them. An error answers one
request only. Main statement: `DigestCache.lookUpAll_recalls`.
-/
namespace Repin.DigestCache

-- A name to be looked up, and the registry to ask for it.
structure Request (σ : Type) where
  image : String
  tag : String
  registry : String → String → StateM (World σ) DigestAnswer

def Request.name {σ : Type} (r : Request σ) : String × String :=
  (r.image, r.tag)

-- What became of a request: what the registry replied meanwhile, and the answer that was given.
structure Lookup where
  image : String
  tag : String
  replies : List Reply
  answer : DigestAnswer

def Lookup.name (l : Lookup) : String × String :=
  (l.image, l.tag)

variable {σ : Type} {c c' : DigestCache} {heard more : List Reply} {image tag : String}
variable {name : String × String} {digest : Option String} {answer : DigestAnswer} {r : Request σ}
variable {requests : List (Request σ)} {w w' : World σ} {lookups : List Lookup}

-- The answers to requests, and what is remembered behind them.
def resolveAll : List (Request σ) → DigestCache → StateM (World σ) (List DigestAnswer × DigestCache)
  | [], c => pure ([], c)
  | r :: requests, c => do
    let (answer, c) ← c.resolve r.image r.tag (r.registry r.image r.tag)
    let (answers, c) ← resolveAll requests c
    return (answer :: answers, c)

-- The same, while it is recorded for each request what the registry replies.
def lookUpAll : List (Request σ) → DigestCache → World σ → List Lookup × DigestCache × World σ
  | [], c, w => ([], c, w)
  | r :: requests, c, w =>
    let ((answer, c), v) :=
      c.resolve r.image r.tag (Collaborators.overheard r.registry r.image r.tag) (w.recording [])
    let (lookups, c, w) := lookUpAll requests c v.unrecorded
    (⟨r.image, r.tag, v.outside.2, answer⟩ :: lookups, c, w)

-- The first digest that was replied for a name, or that it is unknown.
def firstDigest? (heard : List Reply) (name : String × String) : Option (Option String) :=
  heard.findSome? fun r => if r.name = name then r.answer.toOption else none

-- Lookups behind some replies. Each of them recalls the first digest for its name, or else the
-- registry is asked for that name once.
inductive AsksOnce : List Reply → List Lookup → Prop where
  | nil {heard : List Reply} : AsksOnce heard []
  | recalled {heard : List Reply} {image tag : String} {digest : Option String}
      {lookups : List Lookup} :
    firstDigest? heard (image, tag) = some digest → AsksOnce heard lookups →
      AsksOnce heard (⟨image, tag, [], .ok digest⟩ :: lookups)
  | asked {heard : List Reply} {image tag : String} {answer : DigestAnswer}
      {lookups : List Lookup} :
    firstDigest? heard (image, tag) = none → AsksOnce (heard ++ [⟨image, tag, answer⟩]) lookups →
      AsksOnce heard (⟨image, tag, [⟨image, tag, answer⟩], answer⟩ :: lookups)

-- All that is remembered are the first digests that were replied, one for each name.
structure Recalls (c : DigestCache) (heard : List Reply) : Prop where
  first : ∀ image tag, c.find? image tag = firstDigest? heard (image, tag)
  distinct : (c.entries.map Prod.fst).Nodup

theorem firstDigest?_append (r : Reply) : firstDigest? (heard ++ [r]) name
    = (firstDigest? heard name).or (if r.name = name then r.answer.toOption else none) := by
  simp [firstDigest?, List.findSome?_append]

theorem firstDigest?_isSome :
    (firstDigest? heard name).isSome ↔ name ∈ (heard.filter (·.answer.isOk)).map Reply.name := by
  have settled (r : Reply) : (if r.name = name then r.answer.toOption else none).isSome
      ↔ r.answer.isOk ∧ r.name = name := by
    cases r.answer <;> by_cases h : r.name = name <;> simp [h, Except.toOption, Except.isOk, Except.toBool]
  simp only [firstDigest?, List.findSome?_isSome_iff, settled, List.mem_map, List.mem_filter, and_assoc]

-- A name is remembered if there is an entry for it.
theorem find?_isSome : (c.find? image tag).isSome ↔ (image, tag) ∈ c.entries.map Prod.fst := by
  simp [find?, List.lookup_isSome_iff]

theorem find?_insert_eq {image' tag' : String} : (c.insert image tag digest).find? image' tag'
    = if (image, tag) = (image', tag') then some digest else c.find? image' tag' := by
  simp only [find?, insert, List.lookup_cons]
  by_cases same : (image, tag) = (image', tag')
  case pos => simp [same]
  case neg => rw [beq_false_of_ne (Ne.symm same), if_neg same]

namespace Recalls

theorem empty : ({} : DigestCache).Recalls [] :=
  ⟨fun _ _ => rfl, .nil⟩

-- Only names that are not remembered are asked for.
theorem remember (h : c.Recalls heard) (unknown : c.find? image tag = none) :
    (c.remember image tag answer).Recalls (heard ++ [⟨image, tag, answer⟩]) := by
  cases answer
  case error e =>
    refine ⟨fun image' tag' => ?_, h.distinct⟩
    simp [firstDigest?_append, ← h.first, DigestCache.remember, Except.toOption]
  case ok digest =>
    have fresh : (image, tag) ∉ c.entries.map Prod.fst := by simp [← find?_isSome, unknown]
    refine ⟨fun image' tag' => ?_, List.nodup_cons.mpr ⟨fresh, h.distinct⟩⟩
    rw [firstDigest?_append, ← h.first, DigestCache.remember, find?_insert_eq]
    by_cases same : (image, tag) = (image', tag')
    case pos =>
      cases same
      simp [unknown, Reply.name, Except.toOption]
    case neg => simp [same, Reply.name]

-- As many names are remembered as there are names for which a digest was replied.
theorem size_eq (h : c.Recalls heard) :
    c.size = ((heard.filter (·.answer.isOk)).map Reply.name).dedup.length := by
  have same : (c.entries.map Prod.fst).Perm ((heard.filter (·.answer.isOk)).map Reply.name).dedup := by
    refine (List.perm_ext_iff_of_nodup h.distinct (List.nodup_dedup _)).mpr fun (image, tag) => ?_
    rw [List.mem_dedup, ← firstDigest?_isSome, ← h.first, find?_isSome]
  rw [← same.length_eq, List.length_map]
  rfl

end Recalls

section lookUpAll

-- A remembered name is no matter for the registry.
theorem lookUpAll_of_found (found : c.find? r.image r.tag = some digest) :
    lookUpAll (r :: requests) c w =
      let (lookups, c, w) := lookUpAll requests c w
      (⟨r.image, r.tag, [], .ok digest⟩ :: lookups, c, w) := by
  simp only [lookUpAll, resolve, found]
  rfl

theorem lookUpAll_of_unknown (unknown : c.find? r.image r.tag = none) :
    lookUpAll (r :: requests) c w =
      let (answer, w) := r.registry r.image r.tag w
      let (lookups, c, w) := lookUpAll requests (c.remember r.image r.tag answer) w
      (⟨r.image, r.tag, [⟨r.image, r.tag, answer⟩], answer⟩ :: lookups, c, w) := by
  simp only [lookUpAll, resolve, unknown]
  rfl

theorem resolveAll_of_found (found : c.find? r.image r.tag = some digest) :
    resolveAll (r :: requests) c w =
      let ((answers, c), w) := resolveAll requests c w
      ((.ok digest :: answers, c), w) := by
  simp only [resolveAll, resolve, found]
  rfl

theorem resolveAll_of_unknown (unknown : c.find? r.image r.tag = none) :
    resolveAll (r :: requests) c w =
      let (answer, w) := r.registry r.image r.tag w
      let ((answers, c), w) := resolveAll requests (c.remember r.image r.tag answer) w
      ((answer :: answers, c), w) := by
  simp only [resolveAll, resolve, unknown]
  rfl

end lookUpAll

-- What a run of lookups comes to, behind some replies.
structure Runs (requests : List (Request σ)) (c : DigestCache) (heard : List Reply) (w : World σ)
    (lookups : List Lookup) (c' : DigestCache) (w' : World σ) : Prop where
  resolved : resolveAll requests c w = ((lookups.map (·.answer), c'), w')
  names : lookups.map Lookup.name = requests.map Request.name
  asksOnce : AsksOnce heard lookups
  recalls : c'.Recalls (heard ++ lookups.flatMap (·.replies))

namespace Runs

theorem recalled (found : c.find? r.image r.tag = some digest) (recalls : c.Recalls heard)
    (rest : Runs requests c heard w lookups c' w') :
    Runs (r :: requests) c heard w (⟨r.image, r.tag, [], .ok digest⟩ :: lookups) c' w' where
  resolved := by rw [resolveAll_of_found found, rest.resolved]; rfl
  names := congrArg (r.name :: ·) rest.names
  asksOnce := .recalled (recalls.first .. ▸ found) rest.asksOnce
  recalls := rest.recalls

theorem asked {v : World σ} (unknown : c.find? r.image r.tag = none) (recalls : c.Recalls heard)
    (replied : r.registry r.image r.tag w = (answer, v))
    (rest : Runs requests (c.remember r.image r.tag answer) (heard ++ [⟨r.image, r.tag, answer⟩]) v
      lookups c' w') :
    Runs (r :: requests) c heard w
      (⟨r.image, r.tag, [⟨r.image, r.tag, answer⟩], answer⟩ :: lookups) c' w' where
  resolved := by rw [resolveAll_of_unknown unknown, replied]; simp [rest.resolved]
  names := congrArg (r.name :: ·) rest.names
  asksOnce := .asked (recalls.first .. ▸ unknown) rest.asksOnce
  recalls := by simpa using rest.recalls

end Runs

-- The induction is on the requests. Before each of them, the first digests for all names are remembered.
theorem lookUpAll_runs (recalls : c.Recalls heard)
    (ran : lookUpAll requests c w = (lookups, c', w')) : Runs requests c heard w lookups c' w' := by
  induction requests generalizing c heard w lookups
  case nil =>
    cases ran
    exact ⟨rfl, rfl, .nil, by simpa using recalls⟩
  case cons r requests ih =>
    cases known : c.find? r.image r.tag
    case some digest =>
      rw [lookUpAll_of_found known] at ran
      cases ran
      exact .recalled known recalls (ih recalls rfl)
    case none =>
      rw [lookUpAll_of_unknown known] at ran
      cases ran
      exact .asked known recalls rfl (ih (recalls.remember known) rfl)

-- Requests from the start on, whatever the registries reply to them. What is remembered behind them are
-- the first digests for all names, and none for names that only errors were replied for.
theorem lookUpAll_recalls (requests : List (Request σ)) (w : World σ) :
    let (lookups, c, w') := lookUpAll requests {} w
    let heard := lookups.flatMap (·.replies)
    resolveAll requests {} w = ((lookups.map (·.answer), c), w') ∧
    lookups.map Lookup.name = requests.map Request.name ∧
    AsksOnce [] lookups ∧
    (∀ image tag, c.find? image tag = firstDigest? heard (image, tag)) ∧
    c.size = ((heard.filter (·.answer.isOk)).map Reply.name).dedup.length := by
  have runs := lookUpAll_runs .empty (Eq.refl (lookUpAll requests {} w))
  exact ⟨runs.resolved, runs.names, runs.asksOnce, runs.recalls.first, runs.recalls.size_eq⟩

-- A registry that fails once, and then has another digest each time.
def restless : String → String → StateM (World Nat) DigestAnswer := fun _ _ w =>
  let answer := if w.outside = 0 then .error .cancelled else .ok (some (toString w.outside))
  (answer, { w with outside := w.outside + 1 })

-- Names are apart also where they read the same without their colon.
example :
    let requests : List (Request Nat) :=
      [⟨"a", "bc", restless⟩, ⟨"a", "bc", restless⟩, ⟨"ab", "c", restless⟩, ⟨"a", "bc", restless⟩]
    (resolveAll requests {} { disk := {}, outside := 0 }).1.1
      = [.error .cancelled, .ok (some "1"), .ok (some "2"), .ok (some "1")] := by
  decide

end Repin.DigestCache
