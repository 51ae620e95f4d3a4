import Repin.Proofs.Locate.Overlap
import Repin.Proofs.State
import Repin.Proofs.Text.Decimal
import Repin.Run.Documents
/-!
# Explanations of gates

Policy withholds a channel from candidates of gated kinds. A file in which it does so gets a warning, and
no edit stands at such a candidate. Of what is told about a file, the explanation why candidates are gated
is known by its text: nothing else that a run tells reads like it.
-/
namespace Repin

variable {σ : Type} {rules : DocumentRules} {channel : Channel} {policy : UpgradePolicy}
variable {newline : Newline} {found : List (Candidate × Verdict)} {c : Candidate} {v : Verdict}
variable {readers : Readers} {text : String}

namespace UpgradePolicy

-- Whether policy keeps a candidate below a channel from moving there.
def withholds (p : UpgradePolicy) (channel : Channel) (c : Candidate) : Bool :=
  !p.allows c.token.kind channel && !c.token.isAtLeast channel

theorem allows_eq_false_iff {kind : TokenKind} :
    policy.allows kind channel = false ↔ policy.gates kind ∧ channel.isSupportedLts = false := by
  simp [allows]

theorem withholds_iff : policy.withholds channel c ↔
    (policy.gates c.token.kind ∧ channel.isSupportedLts = false) ∧
      c.token.isAtLeast channel = false := by
  simp [withholds, ← allows_eq_false_iff]

theorem withholds_of_allows (h : policy.allows c.token.kind channel) :
    policy.withholds channel c = false := by
  simp [withholds, h]

-- Whether a text explains why candidates of some kind are gated.
def explains (channel : Channel) (text : String) : Bool :=
  TokenKind.all.any fun kind => text == explain kind channel

@[simp]
theorem explains_explain (kind : TokenKind) : explains channel (explain kind channel) := by
  cases kind <;> simp [explains, TokenKind.all]

-- How the other texts of a run differ: they hold a colon, or they end like no name of a support phase.
def IsForeign (text : String) : Prop :=
  ':' ∈ text.toList ∨ text.toList.getLast? ∈ [some 'd', some 'g', some 't']

theorem not_isForeign_explain (kind : TokenKind) (channel : Channel) :
    ¬ IsForeign (explain kind channel) := by
  have number (n : UInt64) : ':' ∉ (Text.writeNumber n).toList :=
    Text.not_mem_writeNumber (by decide)
  have kinds : ':' ∉ kind.description.toList := by cases kind <;> decide
  have releases : ':' ∉ channel.releaseKind.name.toList := by cases channel.releaseKind <;> decide
  have phases : ':' ∉ channel.supportPhase.name.toList := by cases channel.supportPhase <;> decide
  rintro (colon | ends)
  case inl => simp [explain, Channel.render, number, kinds, releases, phases] at colon
  case inr =>
    rw [explain, String.toList_append, List.getLast?_append] at ends
    revert ends
    cases channel.supportPhase <;> exact of_decide_eq_false rfl

theorem explains_of_isForeign (h : IsForeign text) : explains channel text = false := by
  refine List.any_eq_false.mpr fun kind _ same => not_isForeign_explain kind channel ?_
  exact eq_of_beq same ▸ h

end UpgradePolicy

namespace UpgradePolicy.IsForeign

theorem of_parseFailure (f : ParseFailure) : IsForeign f.message :=
  .inl (by simp [ParseFailure.message])

theorem of_documentError (e : DocumentError) : IsForeign e.message := by
  unfold DocumentError.message
  cases e with
  | unreadable | unwritable => exact .inl (by simp)
  | malformed => exact .inl (by simp [SyntaxError.render])
  | undecodable | modified =>
    refine .inr ?_
    rw [String.toList_append, List.getLast?_append]
    exact of_decide_eq_true rfl

theorem of_runError (e : RunError) : IsForeign e.message := by
  unfold RunError.message
  cases e with
  | document e => exact of_documentError e
  | cancelled => exact .inr (by decide)
  | invalidArguments | workspace | config | process | registry | upgradeFailed | internal =>
    exact .inl (by simp)

end UpgradePolicy.IsForeign

-- A candidate is gated exactly if policy withholds the channel from it, and none is replaced whose kind
-- may not move.
theorem Decision.of_cases {d : Decision} (h : of c.token channel policy newline = .ok d) :
    (d = .unchanged ∧ policy.withholds channel c = false) ∨
    (d = .unsupported ∧ policy.withholds channel c) ∨
    ∃ text, d = .replace text ∧ policy.allows c.token.kind channel := by
  unfold of at h
  unfold UpgradePolicy.withholds
  split at h
  case isTrue reached =>
    cases h
    exact .inl ⟨rfl, by simp [reached]⟩
  case isFalse below =>
    split at h
    case isTrue barred =>
      cases h
      exact .inr (.inl ⟨rfl, by simp_all⟩)
    case isFalse free =>
      have allowed : policy.allows c.token.kind channel := by simpa using free
      obtain ⟨text, _, h⟩ := bind_eq_ok.mp h
      cases h
      split
      case isTrue => exact .inl ⟨rfl, by simp [allowed]⟩
      case isFalse => exact .inr (.inr ⟨_, rfl, allowed⟩)

namespace Revision

-- A verdict that heeds policy. What it tells of a candidate that is not gated is no explanation.
inductive Heeds (policy : UpgradePolicy) (channel : Channel) (c : Candidate) : Verdict → Prop where
  | kept : policy.withholds channel c = false → Heeds policy channel c .keep
  | gated : policy.withholds channel c → Heeds policy channel c .gated
  | edited {text : String} :
    policy.allows c.token.kind channel → Heeds policy channel c (.edit ⟨c.span, text⟩)
  | skipped {reason : String} : policy.withholds channel c = false →
    UpgradePolicy.explains channel reason = false → Heeds policy channel c (.skip reason)

section verdict

variable {lookup : Option (Lookup (RunM σ))} {s s' : RunState σ}

theorem Heeds.skipped_of_allows {reason : String} (allowed : policy.allows c.token.kind channel)
    (foreign : UpgradePolicy.IsForeign reason) : Heeds policy channel c (.skip reason) :=
  .skipped (UpgradePolicy.withholds_of_allows allowed) (UpgradePolicy.explains_of_isForeign foreign)

theorem heeds_verdictOfDigest (allowed : policy.allows c.token.kind channel) (text : String)
    (image : ImageReference) (answer : DigestAnswer) :
    Heeds policy channel c (verdictOfDigest c text image answer) := by
  unfold verdictOfDigest
  split
  case h_1 => exact .edited allowed
  case h_2 => exact .skipped_of_allows allowed (.inl (by simp))
  case h_3 e => exact .skipped_of_allows allowed (.of_runError e)

theorem heeds_of_pinnedVerdict (allowed : policy.allows c.token.kind channel)
    (h : pinnedVerdict lookup c text s = .ok v s') : Heeds policy channel c v := by
  unfold pinnedVerdict at h
  cases parsed : ImageReference.parse text with
  | error failure =>
    rw [parsed] at h
    cases h
    exact .skipped_of_allows allowed (.of_parseFailure failure)
  | ok image =>
    rw [parsed] at h
    cases lookup with
    | none =>
      cases h
      refine .skipped_of_allows allowed (.inr ?_)
      rw [String.toList_append, List.getLast?_append]
      exact of_decide_eq_true rfl
    | some lookup =>
      obtain ⟨answer, _, _, h⟩ := exists_of_bind h
      cases h
      exact heeds_verdictOfDigest allowed text image answer

theorem heeds_of_verdict (h : verdict rules channel policy lookup newline c s = .ok v s') :
    Heeds policy channel c v := by
  obtain ⟨d, decided, h⟩ := RunM.exists_of_ofFault_bind h
  obtain ⟨rfl, free⟩ | ⟨rfl, gated⟩ | ⟨text, rfl, allowed⟩ := Decision.of_cases decided
  case inl =>
    cases h
    exact .kept free
  case inr.inl =>
    cases h
    exact .gated gated
  case inr.inr =>
    cases pinned : pinnedImage? rules c with
    | none =>
      rw [pinned] at h
      cases h
      exact .edited allowed
    | some =>
      rw [pinned] at h
      exact heeds_of_pinnedVerdict allowed h

end verdict

section found

-- The explanation of the first gate, if there is one.
def explanation? (policy : UpgradePolicy) (channel : Channel) (cs : List Candidate) : Option String :=
  (cs.find? (policy.withholds channel)).map fun c => UpgradePolicy.explain c.token.kind channel

-- Of what is told about a file, the explanation of the first gate is all that explains gates. The induction
-- is on the verdicts, for both values of the flag: the first gate sets it for those behind.
theorem filter_notices (heeds : ∀ f ∈ found, Heeds policy channel f.1 f.2) (told : Bool) :
    (notices channel told found).filter (UpgradePolicy.explains channel)
      = if told then [] else (explanation? policy channel (found.map Prod.fst)).toList := by
  induction found generalizing told with
  | nil => simp [notices, explanation?]
  | cons f found ih =>
    have ⟨first, rest⟩ := List.forall_mem_cons.mp heeds
    obtain ⟨c, v⟩ := f
    dsimp only at first
    rw [explanation?, List.map_cons, List.find?_cons]
    cases first with
    | kept free => rw [free]; exact ih rest _
    | edited allowed => rw [UpgradePolicy.withholds_of_allows allowed]; exact ih rest _
    | skipped free silent =>
      rw [free, notices, List.filter_cons_of_neg (by simp [silent])]
      exact ih rest _
    | gated gated =>
      rw [gated, notices]
      cases told with
      | true => exact ih rest _
      | false => simp [ih rest _]

theorem isSome_explanation? {cs : List Candidate} :
    (explanation? policy channel cs).isSome ↔ ∃ c ∈ cs, policy.withholds channel c := by
  simp [explanation?]

theorem Heeds.eq_gated_iff (h : Heeds policy channel c v) : v = .gated ↔ policy.withholds channel c := by
  cases h with
  | kept free | skipped free => simp [free]
  | edited allowed => simp [UpgradePolicy.withholds_of_allows allowed]
  | gated gated => simp [gated]

theorem gated_mem_iff (heeds : ∀ f ∈ found, Heeds policy channel f.1 f.2) :
    .gated ∈ found.map Prod.snd ↔ ∃ c ∈ found.map Prod.fst, policy.withholds channel c := by
  simp only [List.mem_map, exists_exists_and_eq_and]
  exact exists_congr fun f => and_congr_right fun listed => (heeds f listed).eq_gated_iff

-- The edits of a patch stand where candidates may move.
theorem exists_of_mem_patchOf {patch : PatchSet} {e : EditSpan}
    (heeds : ∀ f ∈ found, Heeds policy channel f.1 f.2)
    (hp : patchOf (found.map Prod.snd) = .ok patch) (he : e ∈ patch.edits) :
    ∃ c ∈ found.map Prod.fst, policy.allows c.token.kind channel ∧ e.span = c.span := by
  have made := (PatchSet.perm_of_ofUnordered hp).mem_iff.mp he
  have ⟨v, listed, same⟩ := List.mem_filterMap.mp made
  obtain ⟨f, hf, rfl⟩ := List.mem_map.mp listed
  have heeds := heeds f hf
  generalize f.2 = v at heeds same
  cases heeds <;> cases same
  case edited allowed => exact ⟨f.1, List.mem_map_of_mem hf, allowed, rfl⟩

-- So they keep clear of candidates that may not.
theorem spared_of_mem_patchOf {path : String} {patch : PatchSet} {e : EditSpan}
    (hf : candidates readers rules path text = .ok (.ok (found.map Prod.fst)))
    (heeds : ∀ f ∈ found, Heeds policy channel f.1 f.2)
    (hp : patchOf (found.map Prod.snd) = .ok patch) (he : e ∈ patch.edits)
    (hc : c ∈ found.map Prod.fst) (barred : policy.allows c.token.kind channel = false) :
    e.span ≠ c.span ∧ e.span.overlaps c.span = false := by
  have ⟨d, hd, allowed, same⟩ := exists_of_mem_patchOf heeds hp he
  have ⟨sites, _, located⟩ := map_eq_ok.mp hf
  rw [same]
  refine Candidate.apart_of_find located hd hc fun eq => ?_
  rw [eq, barred] at allowed
  cases allowed

end found
end Revision
end Repin
