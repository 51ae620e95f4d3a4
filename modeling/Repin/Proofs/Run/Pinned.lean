import Repin.Proofs.Locate.Overlap
import Repin.Proofs.Run.DryRun
import Repin.Proofs.Run.Record
import Repin.Proofs.Upgrader.Settled
import Repin.Proofs.Version.PinnedImage
/-!
# Pinned images in a run

A reference that pins a digest is looked up under its repository and its new tag, and gets a digest that
was replied for just these in this run, or it is left alone and that is told. Nothing else is looked up.
Main statement: `reviseFile_repins`.
-/
namespace Repin.Run

variable {σ : Type} {plan : RunPlan} {outside : Collaborators σ} {rules : DocumentRules}
variable {newline : Newline} {heard more : List Reply} {c : Candidate} {image : ImageReference}
variable {v : Verdict} {file : String}

-- What becomes of a reference with a digest that is to be moved, given what was replied in the run.
inductive Repinned (plan : RunPlan) (outside : Collaborators σ) (heard : List Reply) (c : Candidate)
    (image : ImageReference) : Verdict → Prop where
  | repinned {digest : String} : outside.registry.isSome →
    ⟨image.repository, image.upgradedTag plan.channel, .ok (some digest)⟩ ∈ heard →
      Repinned plan outside heard c image
        (.edit ⟨c.span, image.repository ++ ":" ++ image.upgradedTag plan.channel ++ "@" ++ digest⟩)
  | unknown : outside.registry.isSome →
    ⟨image.repository, image.upgradedTag plan.channel, .ok none⟩ ∈ heard →
      Repinned plan outside heard c image (.skip ("no digest found for " ++ image.repository ++ ":"
        ++ image.upgradedTag plan.channel ++ "; " ++ c.token.raw ++ " left unchanged"))
  | failed {e : RunError} : outside.registry.isSome →
    ⟨image.repository, image.upgradedTag plan.channel, .error e⟩ ∈ heard →
      Repinned plan outside heard c image (.skip e.message)
  | offline : outside.registry = none → Repinned plan outside heard c image
      (.skip (c.token.raw ++ " is pinned by digest and registry lookups are disabled"))
  -- The version of the SDK is no version in a tag.
  | unreadable {failure : ParseFailure} :
    ImageReference.parse (image.upgraded plan.channel) = .error failure →
      Repinned plan outside heard c image (.skip failure.message)

-- What becomes of a reference with a digest.
inductive Fares (plan : RunPlan) (outside : Collaborators σ) (newline : Newline) (heard : List Reply)
    (c : Candidate) (image : ImageReference) : Verdict → Prop where
  | kept : Decision.of c.token plan.channel plan.policy newline = .ok .unchanged →
    Fares plan outside newline heard c image .keep
  | gated : Decision.of c.token plan.channel plan.policy newline = .ok .unsupported →
    Fares plan outside newline heard c image .gated
  | moved {v : Verdict} : Decision.of c.token plan.channel plan.policy newline
      = .ok (.replace (image.upgraded plan.channel)) → Repinned plan outside heard c image v →
    Fares plan outside newline heard c image v

theorem Repinned.append (h : Repinned plan outside heard c image v) (more : List Reply) :
    Repinned plan outside (heard ++ more) c image v := by
  cases h with
  | repinned online h => exact .repinned online (List.mem_append_left _ h)
  | unknown online h => exact .unknown online (List.mem_append_left _ h)
  | failed online h => exact .failed online (List.mem_append_left _ h)
  | offline none => exact .offline none
  | unreadable h => exact .unreadable h

theorem Fares.append (h : Fares plan outside newline heard c image v) (more : List Reply) :
    Fares plan outside newline (heard ++ more) c image v := by
  cases h with
  | kept h => exact .kept h
  | gated h => exact .gated h
  | moved due h => exact .moved due (h.append more)

-- What a candidate is looked up under, if it is to be moved and pins a digest.
def lookedUp? (plan : RunPlan) (rules : DocumentRules) (newline : Newline) (c : Candidate) :
    Option (String × String) :=
  match Decision.of c.token plan.channel plan.policy newline with
  | .ok (.replace _) => (Revision.pinnedImage? rules c).map fun image =>
      (image.repository, image.upgradedTag plan.channel)
  | _ => none

theorem pinnedImage?_eq_some (h : Revision.pinnedImage? rules c = some image) :
    c.token.value = .image image ∧ image.digest.isSome := by
  unfold Revision.pinnedImage? at h
  split at h
  case isFalse => cases h
  case isTrue =>
    split at h
    case h_2 => cases h
    case h_1 hv =>
      split at h
      case isFalse => cases h
      case isTrue pinned =>
        cases h
        exact ⟨hv, pinned⟩

-- The lookup for a reference with a digest.
theorem consults_pinnedVerdict (parsed : ImageReference.parse c.token.raw = .ok image)
    (pinned : image.digest.isSome) :
    Consults [(image.repository, image.upgradedTag plan.channel)]
      (fun v heard => Repinned plan outside heard c image v)
      (Revision.pinnedVerdict (lookup outside) c (image.upgraded plan.channel))
      (Revision.pinnedVerdict (lookup outside.recorded) c (image.upgraded plan.channel)) := by
  unfold Revision.pinnedVerdict
  cases again : ImageReference.parse (image.upgraded plan.channel) with
  | error failure => exact .of_pure (List.nil_sublist _) fun _ => .unreadable again
  | ok new =>
    obtain ⟨repository, tag⟩ := ImageReference.parse_upgraded parsed again
    unfold Run.lookup Collaborators.recorded
    cases hr : outside.registry with
    | none => exact .of_pure (List.nil_sublist _) fun _ => .offline hr
    | some registry =>
      have online : outside.registry.isSome := by rw [hr]; rfl
      dsimp only [Option.map_some]
      rw [repository, tag]
      refine (Consults.digest _ _).map (fun _ => List.mem_append_left _) fun answer heard replied => ?_
      cases answer with
      | error e => exact .failed online replied
      | ok answer =>
        cases answer with
        | none =>
          rw [Revision.verdictOfDigest, repository, tag]
          exact .unknown online replied
        | some digest =>
          rw [Revision.verdictOfDigest, ImageReference.replaceDigest_upgraded parsed pinned]
          exact .repinned online replied

theorem consults_verdict (parsed : ∀ image, c.token.value = .image image →
      ImageReference.parse c.token.raw = .ok image) :
    Consults (lookedUp? plan rules newline c).toList
      (fun v heard => ∀ image, Revision.pinnedImage? rules c = some image →
        Fares plan outside newline heard c image v)
      (Revision.verdict rules plan.channel plan.policy (lookup outside) newline c)
      (Revision.verdict rules plan.channel plan.policy (lookup outside.recorded) newline c) := by
  unfold Revision.verdict lookedUp?
  rcases decision : Decision.of c.token plan.channel plan.policy newline with _ | _ | text | _
  case error => exact .of_same (List.nil_sublist _) (fun _ _ => rfl) (fun _ => rfl) nofun
  case ok.unchanged => exact .of_pure (List.nil_sublist _) fun _ _ _ => .kept decision
  case ok.unsupported => exact .of_pure (List.nil_sublist _) fun _ _ _ => .gated decision
  case ok.replace =>
    cases hp : Revision.pinnedImage? rules c with
    | none => exact .of_pure (List.nil_sublist _) nofun
    | some image =>
      obtain ⟨value, pinned⟩ := pinnedImage?_eq_some hp
      have upgraded := (Decision.isAtLeast_of_replace decision).right
      obtain rfl : image.upgraded plan.channel = text := by simpa [Token.upgraded, value] using upgraded
      refine (consults_pinnedVerdict (parsed image value) pinned).imp (fun _ => id) ?_
      intro v heard h image' same
      cases same
      exact .moved decision h

-- A candidate of a document was read in one of the grammars.
theorem exists_parse_of_mem_candidates {text : String} {candidates : List Candidate}
    (h : Revision.candidates plan.readers rules file text = .ok (.ok candidates)) (hc : c ∈ candidates) :
    ∃ kind, Token.parse c.token.raw kind = .ok c.token := by
  obtain ⟨sites, _, found⟩ := map_eq_ok.mp h
  obtain ⟨all, collected, resolved⟩ := bind_eq_ok.mp found
  obtain ⟨site, _, selection, _, isOf⟩ :=
    Candidate.exists_of_mem_collect collected ((Candidate.apart_of_resolveOverlaps resolved).right c hc)
  exact ⟨selection.kind, isOf.token⟩

theorem parse_of_image {token : Token} {raw : String} {kind : TokenKind}
    (h : Token.parse raw kind = .ok token) (hv : token.value = .image image) :
    ImageReference.parse raw = .ok image := by
  have ⟨_, value⟩ := Token.parse_eq_ok h
  rw [hv] at value
  cases kind <;> simp only [Token.parseValue, mapError_eq_ok, map_eq_ok] at value <;>
    obtain ⟨_, parsed, same⟩ := value <;> cases same
  exact parsed

-- Why a candidate is skipped is told.
theorem mem_notices_of_skip {found : List (Candidate × Verdict)} {reason : String} {channel : Channel}
    {told : Bool} (h : (c, .skip reason) ∈ found) : reason ∈ Revision.notices channel told found := by
  induction found generalizing told with
  | nil => cases h
  | cons pair found ih =>
    obtain ⟨d, v⟩ := pair
    obtain same | later := List.mem_cons.mp h
    · cases same
      exact List.mem_cons_self
    · cases v with
      | keep | edit => exact ih later
      | skip => exact List.mem_cons_of_mem _ (ih later)
      | gated =>
        rw [Revision.notices]
        split
        case isTrue => exact ih later
        case isFalse => exact List.mem_cons_of_mem _ (ih later)

-- What a step made of the references in its file, given what was replied before it and in it.
structure RepinsFile (plan : RunPlan) (outside : Collaborators σ) (rules : DocumentRules)
    (file : String) (heard new : List Reply) (source : SourceDocument)
    (found : List (Candidate × Verdict)) (told : List Diagnostic) : Prop where
  fares : ∀ c v image, (c, v) ∈ found → c.token.value = .image image → image.digest.isSome →
    Fares plan outside source.metadata.newline (heard ++ new) c image v
  -- Only references with a digest are looked up, in their order, each once at most.
  asked : (new.map Reply.name).Sublist
    ((found.map Prod.fst).filterMap (lookedUp? plan rules source.metadata.newline))
  warned : ∀ c reason, (c, .skip reason) ∈ found →
    ⟨.warning, rules.info.name, some file, .decide, reason⟩ ∈ told

theorem Weighed.repinsFile {s : RunState σ} {source : SourceDocument}
    {found : List (Candidate × Verdict)} {patch : PatchSet} {w : RunState (σ × List Reply)}
    {p : Progress} {told : List Diagnostic} (pins : rules.pinsDigests)
    (h : Weighed plan outside.recorded rules file (s.recording heard) source found patch w)
    (cache : s.digests.Heard heard)
    (notices : ∀ d ∈ noticesOf plan rules file p found, d ∈ told) :
    ∃ new, w.world.outside.2 = heard ++ new ∧
      RepinsFile plan outside rules file heard new source found told := by
  have ⟨_, candidates⟩ := examine_eq_ok_iff.mp h.examined
  obtain ⟨_, checked, judged⟩ := h.judged
  obtain ⟨_, rfl⟩ := RunM.checkpoint_eq_ok checked
  have parsed (c) (hc : c ∈ found.map Prod.fst) (image) (hv : c.token.value = .image image) :
      ImageReference.parse c.token.raw = .ok image :=
    have ⟨_, read⟩ := exists_parse_of_mem_candidates candidates hc
    parse_of_image read hv
  have verdict (c) (hc : c ∈ found.map Prod.fst) :
      Consults (lookedUp? plan rules source.metadata.newline c).toList
        (fun v heard => ∀ image, Revision.pinnedImage? rules c = some image →
          Fares plan outside source.metadata.newline heard c image v) _ _ :=
    consults_verdict (parsed c hc)
  have consults := Consults.mapM verdict fun more h image hi => (h image hi).append more
  obtain ⟨new, asked, record, fares⟩ :=
    consults.exists_of_recorded_ok (s := s.checked) cache judged
  have pairs : (found.map Prod.fst).zip (found.map Prod.snd) = found :=
    (List.zip_of_prod rfl rfl).symm
  rw [pairs] at fares
  refine ⟨new, record, ?fares, ?asked, ?warned⟩
  case fares =>
    intro c v image hc hv pinned
    exact fares (c, v) hc image (by simp [Revision.pinnedImage?, pins, hv, pinned])
  case asked => rwa [List.filterMap_eq_flatMap_toList]
  case warned =>
    intro c reason hc
    exact notices _ (List.mem_map_of_mem (mem_notices_of_skip hc))

-- The run of a category up to some of its files, behind the turns of other upgraders.
def headway (plan : RunPlan) (outside : Collaborators σ) (earlier : List Upgrader)
    (rules : DocumentRules) (before : List String) : RunM σ Progress := do
  let start : RunReport :=
    { channel := plan.channel.render, sdkVersion := plan.channel.sdk.render, dryRun := plan.dryRun }
  let _ ← earlier.foldlM (turn plan outside) start
  RunM.checkpoint
  before.foldlM (reviseFile plan outside rules) { report := { name := rules.info.name } }

theorem unnoticed_headway {earlier : List Upgrader} {before : List String} :
    Unnoticed (headway plan outside earlier rules before)
      (headway plan outside.recorded earlier rules before) :=
  (Unnoticed.turns _).bind fun _ => Unnoticed.checkpoint.bind fun _ =>
    Unnoticed.foldlM Unnoticed.reviseFile _

-- A run that comes to its end has made its way up to each file of each category.
theorem exists_headway {upgraders earlier later : List Upgrader} {report : RunReport}
    {before after : List String} {patterns : List (String → Bool)} {s s' : RunState σ}
    (h : all plan outside upgraders s = .ok report s')
    (order : Upgrader.inOrder upgraders = earlier ++ .documents rules :: later)
    (enabled : plan.settings.isDisabled rules.info.name = false) (applies : rules.appliesTo plan.channel)
    (read : Workspace.readPatterns plan.readers rules.info.patterns = .ok patterns)
    (files : plan.workspace.matching patterns = before ++ file :: after) :
    ∃ p t p' t', headway plan outside earlier rules before s = .ok p t ∧
      reviseFile plan outside rules p file t = .ok p' t' := by
  obtain ⟨_, _, ended, _⟩ := exists_of_bind h
  rw [order, List.foldlM_append] at ended
  obtain ⟨r, s₁, turns, ended⟩ := exists_of_bind ended
  rw [List.foldlM_cons] at ended
  obtain ⟨r', s₂, taken, _⟩ := exists_of_bind ended
  obtain ⟨disabled, _⟩ | ⟨_, patterns', c, s₃, read', checked, made, _⟩ := turn_cases taken
  case inl => cases enabled.symm.trans disabled
  case inr =>
    cases read.symm.trans read'
    change reviseFiles plan outside rules _ s₃ = .ok c s₂ at made
    unfold reviseFiles at made
    simp only [applies, if_true] at made
    obtain ⟨_, _, steps, _⟩ := exists_of_bind made
    rw [files, List.foldlM_append] at steps
    obtain ⟨p, t, first, steps⟩ := exists_of_bind steps
    rw [List.foldlM_cons] at steps
    obtain ⟨p', t', step, _⟩ := exists_of_bind steps
    refine ⟨p, t, p', t', ?_, step⟩
    unfold headway
    rw [bind_apply, turns]
    dsimp only
    rw [bind_apply, checked]
    exact first

-- Whenever in a run the step of a file is taken: the run goes the same way while what the registry
-- replies is recorded, and a new digest of a reference was replied in this run, for its repository and
-- its new tag.
theorem reviseFile_repins {earlier : List Upgrader} {before : List String} {world : World σ}
    {p p' : Progress} {s s' : RunState σ} (pins : rules.pinsDigests)
    (reached : headway plan outside earlier rules before { world } = .ok p s)
    (step : reviseFile plan outside rules p file s = .ok p' s') :
    ∃ heard new,
      headway plan outside.recorded earlier rules before { world := world.recording [] }
        = .ok p (s.recording heard) ∧
      reviseFile plan outside.recorded rules p file (s.recording heard)
        = .ok p' (s'.recording (heard ++ new)) ∧
      ((∃ e, examine plan rules s.world.disk file = .error e ∧ new = [] ∧
          p'.report.changes = p.report.changes) ∨
        ∃ source found patch,
          examine plan rules s.world.disk file = .ok (source, .ok (found.map Prod.fst)) ∧
          RepinsFile plan outside rules file heard new source found s'.diagnostics ∧
          Revision.patchOf (found.map Prod.snd) = .ok patch ∧
          (p'.report.changes = p.report.changes ∨ ∃ diff, p'.report.changes = p.report.changes
            ++ [⟨file, patch.materialize file source.text, !plan.dryRun, diff⟩])) := by
  obtain ⟨heard, _, before', cache⟩ := unnoticed_headway.exists_of_ok .empty reached
  rw [List.nil_append] at before' cache
  obtain ⟨new, _, recorded, _⟩ := (Unnoticed.reviseFile p file).exists_of_ok cache step
  refine ⟨heard, new, before', recorded, ?_⟩
  generalize ends : s'.recording (heard ++ new) = t at recorded
  have record : t.world.outside.2 = heard ++ new := by rw [← ends]; rfl
  have told : s'.diagnostics = t.diagnostics := by rw [← ends]; rfl
  -- the verdicts are followed by nothing that is recorded
  have read {source} {found : List (Candidate × Verdict)} {patch} {w : RunState (σ × List Reply)}
      (weighed : Weighed plan outside.recorded rules file (s.recording heard) source found patch w)
      (same : t.world.outside = w.world.outside)
      (notices : ∀ d ∈ noticesOf plan rules file p found, d ∈ t.diagnostics) :
      examine plan rules s.world.disk file = .ok (source, .ok (found.map Prod.fst)) ∧
      RepinsFile plan outside rules file heard new source found s'.diagnostics ∧
      Revision.patchOf (found.map Prod.snd) = .ok patch := by
    obtain ⟨new', record', repins⟩ := weighed.repinsFile pins cache (told ▸ notices)
    rw [← same, record] at record'
    exact ⟨weighed.examined, List.append_cancel_left record' ▸ repins, weighed.patched⟩
  cases reviseFile_ends recorded with
  | @unread e s₁ checked examined =>
    obtain ⟨_, rfl⟩ := RunM.checkpoint_eq_ok checked
    exact .inl ⟨e, examined, List.self_eq_append_right.mp record, rfl⟩
  | @current source found patch w weighed =>
    obtain ⟨examined, repins, patched⟩ := read weighed rfl fun d => List.mem_append_right _
    exact .inr ⟨source, found, patch, examined, repins, patched, .inl rfl⟩
  | @changed source found patch w text diff disk weighed =>
    obtain ⟨examined, repins, patched⟩ := read weighed rfl fun d => List.mem_append_right _
    exact .inr ⟨source, found, patch, examined, repins, patched, .inr ⟨diff, rfl⟩⟩
  | @blocked source found patch w text diff e weighed =>
    obtain ⟨examined, repins, patched⟩ := read weighed rfl fun d hd =>
      List.mem_append_right _ (List.mem_append_left _ hd)
    exact .inr ⟨source, found, patch, examined, repins, patched, .inl rfl⟩

-- An image that is pinned in two files.
def imagePlan : RunPlan :=
  { sharedPlan with workspace := ⟨⟨"", "."⟩, "", ["Dockerfile", "tools/Dockerfile"]⟩ }

def imageWorld : World Unit where
  disk :=
    let image := "FROM mcr/dotnet/sdk:8.0@sha256:a\n".toUTF8
    { entries := [("Dockerfile", .file image), ("tools/Dockerfile", .file image)] }
  outside := ()

def sdkRegistry : Collaborators Unit :=
  { noCollaborators with registry := some fun _ _ => pure (.ok (some "sha256:b")) }

-- The new texts in each file that a category has changed.
def newTexts (report : CategoryReport) : List (String × List String) :=
  report.changes.map fun change => (change.path, change.edits.map (·.newText))

-- What was replied for the first file is remembered for the second.
theorem reviseFile_repins_remembered : ∃ p p' s s' heard new source found,
    headway imagePlan sdkRegistry [] Upgrader.dockerfile ["Dockerfile"] { world := imageWorld }
      = .ok p s ∧
    reviseFile imagePlan sdkRegistry Upgrader.dockerfile p "tools/Dockerfile" s = .ok p' s' ∧
    RepinsFile imagePlan sdkRegistry Upgrader.dockerfile "tools/Dockerfile" heard new source found
      s'.diagnostics ∧
    newTexts p'.report = [("Dockerfile", ["mcr/dotnet/sdk:10.0@sha256:b"]),
      ("tools/Dockerfile", ["mcr/dotnet/sdk:10.0@sha256:b"])] := by
  let run : RunM Unit (CategoryReport × Progress) := do
    let p ← headway imagePlan sdkRegistry [] Upgrader.dockerfile ["Dockerfile"]
    (p.report, ·) <$> reviseFile imagePlan sdkRegistry Upgrader.dockerfile p "tools/Dockerfile"
  have evaluated : (match run { world := imageWorld } with
      | .ok (r, p') _ => some (newTexts r, newTexts p'.report)
      | .error _ _ => none)
        = some ([("Dockerfile", ["mcr/dotnet/sdk:10.0@sha256:b"])],
          [("Dockerfile", ["mcr/dotnet/sdk:10.0@sha256:b"]),
            ("tools/Dockerfile", ["mcr/dotnet/sdk:10.0@sha256:b"])]) := by
    decide +kernel
  cases ran : run { world := imageWorld } with
  | error =>
    rw [ran] at evaluated
    cases evaluated
  | ok ended s' =>
    rw [ran] at evaluated
    obtain ⟨p, s, reached, ran⟩ := exists_of_bind ran
    obtain ⟨p', s'', step, ran⟩ := exists_of_bind ran
    cases ran
    have ⟨first, both⟩ := Prod.mk.inj (Option.some.inj evaluated)
    obtain ⟨heard, new, _, _, outcome⟩ := reviseFile_repins rfl reached step
    obtain ⟨_, _, _, same⟩ | ⟨source, found, _, _, repins, _⟩ := outcome
    case inl =>
      rw [newTexts, same] at both
      cases first.symm.trans both
    case inr => exact ⟨p, p', s, s', heard, new, source, found, reached, step, repins, both⟩

end Repin.Run
