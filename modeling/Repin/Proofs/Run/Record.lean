import Repin.Proofs.Run.Conduct
import Repin.Proofs.Run.Forecast
/-!
# Replies on record

What the registry replies in a run can be recorded by those outside, and the run does not notice. Along
the way it remembers nothing but what was replied to it. Main statement: `Unnoticed.turns`.
-/
namespace Repin

variable {σ α β : Type}

-- An answer of the registry, and what it was asked.
structure Reply where
  image : String
  tag : String
  answer : DigestAnswer

-- What the registry was asked for.
def Reply.name (r : Reply) : String × String :=
  (r.image, r.tag)

-- A world in which those outside keep a record besides.
def World.recording (w : World σ) (heard : List Reply) : World (σ × List Reply) where
  disk := w.disk
  cancellation := w.cancellation
  outside := (w.outside, heard)

def World.unrecorded (w : World (σ × List Reply)) : World σ where
  disk := w.disk
  cancellation := w.cancellation
  outside := w.outside.1

def RunState.recording (s : RunState σ) (heard : List Reply) : RunState (σ × List Reply) where
  world := s.world.recording heard
  digests := s.digests
  diagnostics := s.diagnostics

namespace Collaborators

-- A registry that records what it replies.
def overheard (registry : String → String → StateM (World σ) DigestAnswer) :
    String → String → StateM (World (σ × List Reply)) DigestAnswer := fun image tag w =>
  let (answer, w') := registry image tag w.unrecorded
  (answer, w'.recording (w.outside.2 ++ [⟨image, tag, answer⟩]))

-- The same collaborators, while a record is kept of what the registry replies.
def recorded (outside : Collaborators σ) : Collaborators (σ × List Reply) where
  runTool call := fun w =>
    let (output, w') := outside.runTool call w.unrecorded
    (output, w'.recording w.outside.2)
  registry := outside.registry.map overheard

end Collaborators

-- All that is remembered was replied.
def DigestCache.Heard (c : DigestCache) (heard : List Reply) : Prop :=
  ∀ image tag digest, c.find? image tag = some digest → ⟨image, tag, .ok digest⟩ ∈ heard

namespace DigestCache.Heard

variable {c : DigestCache} {heard : List Reply}

theorem empty : ({} : DigestCache).Heard [] := by
  intro image tag digest found
  cases found

theorem remember (h : c.Heard heard) (image tag : String) (answer : DigestAnswer) :
    (c.remember image tag answer).Heard (heard ++ [⟨image, tag, answer⟩]) := by
  intro image' tag' digest' found
  cases answer with
  | error e => exact List.mem_append_left _ (h image' tag' digest' found)
  | ok digest =>
    obtain ⟨rfl, rfl, rfl⟩ | found := DigestCache.find?_insert found
    · simp
    · exact List.mem_append_left _ (h image' tag' digest' found)

end DigestCache.Heard

-- How a part of a run ends, with a record.
def RunM.recording (heard : List Reply) : EStateM.Result RunStop (RunState σ) α →
    EStateM.Result RunStop (RunState (σ × List Reply)) α
  | .ok a s => .ok a (s.recording heard)
  | .error stop s => .error stop (s.recording heard)

theorem RunM.checkpoint_recording (s : RunState σ) (heard : List Reply) :
    RunM.checkpoint (s.recording heard) = RunM.recording heard (RunM.checkpoint s) := by
  have same : (s.recording heard).world.cancellation.isDue = s.world.cancellation.isDue := rfl
  unfold RunM.checkpoint
  dsimp only
  rw [same]
  split <;> rfl

theorem RunM.checkpoint_digests (s : RunState σ) :
    (RunM.final (RunM.checkpoint s)).digests = s.digests := by
  unfold RunM.checkpoint
  dsimp only
  split <;> rfl

-- A part of a run comes to the same while it is recorded, and goes on to remember only what was replied.
-- What it asks is restricted, and its answer is borne out by the record.
def Recorded (asks : List Reply → Prop) (Q : α → List Reply → Prop) (x : RunM σ α)
    (y : RunM (σ × List Reply) α) : Prop :=
  ∀ s heard, s.digests.Heard heard → ∃ new, asks new ∧
    y (s.recording heard) = RunM.recording (heard ++ new) (x s) ∧
    (RunM.final (x s)).digests.Heard (heard ++ new) ∧ ∀ a s', x s = .ok a s' → Q a (heard ++ new)

namespace Recorded

variable {asks asks' asks'' : List Reply → Prop} {Q Q' : α → List Reply → Prop}
variable {x : RunM σ α} {y : RunM (σ × List Reply) α}

theorem of_same (none : asks []) (same : ∀ s heard, y (s.recording heard) = RunM.recording heard (x s))
    (kept : ∀ s, (RunM.final (x s)).digests = s.digests)
    (hq : ∀ s a s' heard, x s = .ok a s' → Q a heard) : Recorded asks Q x y := by
  intro s heard cache
  refine ⟨[], none, ?_, ?_, fun a s' h => hq s a s' _ h⟩
  · rw [List.append_nil, same]
  · rwa [List.append_nil, kept]

theorem of_pure {a : α} (none : asks []) (hq : ∀ heard, Q a heard) :
    Recorded asks Q (pure a : RunM σ α) (pure a) := by
  refine of_same none (fun _ _ => rfl) (fun _ => rfl) fun s a' s' heard h => ?_
  cases h
  exact hq heard

theorem imp (h : Recorded asks Q x y) (ha : ∀ new, asks new → asks' new)
    (hq : ∀ a heard, Q a heard → Q' a heard) : Recorded asks' Q' x y := by
  intro s heard cache
  obtain ⟨new, asked, same, cache, hQ⟩ := h s heard cache
  exact ⟨new, ha new asked, same, cache, fun a s' hs => hq a _ (hQ a s' hs)⟩

-- The record of two parts is that of the first and then that of the second.
theorem bind {f : α → RunM σ β} {g : α → RunM (σ × List Reply) β} {R : α → β → List Reply → Prop}
    (hx : Recorded asks Q x y) (hf : ∀ a, Recorded asks' (R a) (f a) (g a))
    (mono : ∀ {a heard} more, Q a heard → Q a (heard ++ more))
    (stops : ∀ new, asks new → asks'' new)
    (joins : ∀ new new', asks new → asks' new' → asks'' (new ++ new')) :
    Recorded asks'' (fun b heard => ∃ a, Q a heard ∧ R a b heard) (x >>= f) (y >>= g) := by
  intro s heard cache
  obtain ⟨new, asked, same, cache, hQ⟩ := hx s heard cache
  simp only [bind_apply, same]
  cases hs : x s with
  | error stop s₁ =>
    rw [hs] at cache
    exact ⟨new, stops new asked, rfl, cache, nofun⟩
  | ok a s₁ =>
    rw [hs] at cache
    obtain ⟨new', asked', same', cache', hR⟩ := hf a s₁ (heard ++ new) cache
    rw [List.append_assoc] at same' cache' hR
    exact ⟨new ++ new', joins new new' asked asked', same', cache', fun b s' hb =>
      ⟨a, List.append_assoc .. ▸ mono new' (hQ a s₁ hs), hR b s' hb⟩⟩

variable {s s' : RunState σ} {heard : List Reply} {a : α}

-- Where a part comes to its end, so does the one that is recorded.
theorem exists_of_ok (h : Recorded asks Q x y) (cache : s.digests.Heard heard) (hs : x s = .ok a s') :
    ∃ new, asks new ∧ y (s.recording heard) = .ok a (s'.recording (heard ++ new)) ∧
      s'.digests.Heard (heard ++ new) := by
  obtain ⟨new, asked, same, cache', _⟩ := h s heard cache
  rw [hs] at same cache'
  exact ⟨new, asked, same, cache'⟩

-- And where the one that is recorded comes to its end, the record bears out its answer.
theorem exists_of_recorded_ok {t : RunState (σ × List Reply)} (h : Recorded asks Q x y)
    (cache : s.digests.Heard heard) (ht : y (s.recording heard) = .ok a t) :
    ∃ new, asks new ∧ t.world.outside.2 = heard ++ new ∧ Q a (heard ++ new) := by
  obtain ⟨new, asked, same, _, hQ⟩ := h s heard cache
  rw [ht] at same
  cases hs : x s with
  | error stop s₁ =>
    rw [hs] at same
    cases same
  | ok b s₁ =>
    rw [hs] at same
    obtain ⟨rfl, rfl⟩ := EStateM.Result.ok.inj same
    exact ⟨new, asked, rfl, hQ a s₁ hs⟩

end Recorded

-- A part of a run that asks for some of the names, in their order.
abbrev Consults (names : List (String × String)) (Q : α → List Reply → Prop) (x : RunM σ α)
    (y : RunM (σ × List Reply) α) : Prop :=
  Recorded (fun new => (new.map Reply.name).Sublist names) Q x y

namespace Consults

theorem map {names : List (String × String)} {Q : α → List Reply → Prop}
    {Q' : β → List Reply → Prop} {x : RunM σ α} {y : RunM (σ × List Reply) α} {f : α → β}
    (hx : Consults names Q x y) (mono : ∀ {a heard} more, Q a heard → Q a (heard ++ more))
    (hf : ∀ a heard, Q a heard → Q' (f a) heard) : Consults names Q' (f <$> x) (f <$> y) := by
  have last (a : α) : Recorded (σ := σ) (· = []) (fun b _ => b = f a) (pure (f a)) (pure (f a)) :=
    .of_pure rfl fun _ => rfl
  have all := Recorded.bind hx last mono (fun _ => id)
    (by rintro new _ asked rfl; rwa [List.append_nil])
  refine all.imp (fun _ => id) ?_
  rintro _ heard ⟨a, hQ, rfl⟩
  exact hf a heard hQ

theorem mapM {f : α → RunM σ β} {g : α → RunM (σ × List Reply) β}
    {names : α → List (String × String)} {Q : α → β → List Reply → Prop} {as : List α}
    (hf : ∀ a ∈ as, Consults (names a) (Q a) (f a) (g a))
    (mono : ∀ {a b heard} more, Q a b heard → Q a b (heard ++ more)) :
    Consults (as.flatMap names) (fun bs heard => ∀ p ∈ as.zip bs, Q p.1 p.2 heard)
      (as.mapM f) (as.mapM g) := by
  induction as with
  | nil => exact .of_pure (List.nil_sublist _) (by simp)
  | cons a as ih =>
    simp only [List.mapM_cons]
    have rest (b : β) : Consults (as.flatMap names)
        (fun bs heard => ∃ bs', bs = b :: bs' ∧ ∀ p ∈ as.zip bs', Q p.1 p.2 heard)
        ((b :: ·) <$> as.mapM f) ((b :: ·) <$> as.mapM g) :=
      (ih fun a' ha => hf a' (List.mem_cons_of_mem a ha)).map (fun more h p hp => mono more (h p hp))
        fun bs heard h => ⟨bs, rfl, h⟩
    refine (Recorded.bind (hf a List.mem_cons_self) rest mono ?_ ?_).imp (fun _ => id) ?_
    case refine_1 => exact fun new asked => asked.trans (List.sublist_append_left ..)
    case refine_2 =>
      intro new new' asked asked'
      rw [List.map_append]
      exact asked.append asked'
    case refine_3 =>
      rintro _ heard ⟨b, first, bs, rfl, later⟩ p hp
      obtain rfl | hp := List.mem_cons.mp hp
      · exact first
      · exact later p hp

-- A digest is remembered or asked for. Either way it was replied.
theorem digest {registry : String → String → StateM (World σ) DigestAnswer} (image tag : String) :
    Consults [(image, tag)] (fun answer heard => ⟨image, tag, answer⟩ ∈ heard)
      (RunM.digest registry image tag)
      (RunM.digest (Collaborators.overheard registry) image tag) := by
  intro s heard cache
  have kept := RunM.checkpoint_digests s
  simp only [RunM.digest, bind_apply, RunM.checkpoint_recording]
  cases hc : RunM.checkpoint s with
  | error stop s₁ =>
    rw [hc] at kept
    refine ⟨[], List.nil_sublist _, by rw [List.append_nil]; rfl, ?_, ?_⟩
    · rw [List.append_nil]
      exact kept ▸ cache
    · intro answer s' same
      cases same
  | ok _ s₁ =>
    rw [hc] at kept
    have cache : s₁.digests.Heard heard := kept ▸ cache
    have digests : (s₁.recording heard).digests = s₁.digests := rfl
    simp only [RunM.recording, get_apply, DigestCache.resolve, digests]
    cases found : s₁.digests.find? image tag with
    | some digest =>
      refine ⟨[], List.nil_sublist _, by rw [List.append_nil]; rfl,
        by rw [List.append_nil]; exact cache, ?_⟩
      intro answer s' same
      cases same
      rw [List.append_nil]
      exact cache image tag digest found
    | none =>
      refine ⟨[⟨image, tag, (registry image tag s₁.world).1⟩], .refl _, rfl, cache.remember image tag _, ?_⟩
      intro answer s' same
      cases same
      simp

end Consults

-- A part of a run that comes to the same while it is recorded.
abbrev Unnoticed (x : RunM σ α) (y : RunM (σ × List Reply) α) : Prop :=
  Recorded (fun _ => True) (fun _ _ => True) x y

namespace Unnoticed

open Run

variable {x : RunM σ α} {y : RunM (σ × List Reply) α}

theorem of_consults {names : List (String × String)} {Q : α → List Reply → Prop}
    (h : Consults names Q x y) : Unnoticed x y :=
  h.imp (fun _ _ => trivial) fun _ _ _ => trivial

theorem of_same (same : ∀ s heard, y (s.recording heard) = RunM.recording heard (x s))
    (kept : ∀ s, (RunM.final (x s)).digests = s.digests) : Unnoticed x y :=
  Recorded.of_same trivial same kept fun _ _ _ _ _ => trivial

theorem of_pure (a : α) : Unnoticed (pure a : RunM σ α) (pure a) :=
  Recorded.of_pure trivial fun _ => trivial

theorem bind {f : α → RunM σ β} {g : α → RunM (σ × List Reply) β} (hx : Unnoticed x y)
    (hf : ∀ a, Unnoticed (f a) (g a)) : Unnoticed (x >>= f) (y >>= g) :=
  (Recorded.bind hx hf (fun _ _ => trivial) (fun _ => id) fun _ _ _ _ => trivial).imp (fun _ => id)
    fun _ _ _ => trivial

theorem foldlM {f : β → α → RunM σ β} {g : β → α → RunM (σ × List Reply) β} {as : List α}
    (hf : ∀ b a, Unnoticed (f b a) (g b a)) (b : β) : Unnoticed (as.foldlM f b) (as.foldlM g b) := by
  induction as generalizing b with
  | nil => exact of_pure b
  | cons a as ih => exact (hf b a).bind ih

theorem forM {f : α → RunM σ PUnit} {g : α → RunM (σ × List Reply) PUnit} {as : List α}
    (hf : ∀ a, Unnoticed (f a) (g a)) : Unnoticed (as.forM f) (as.forM g) := by
  induction as with
  | nil => exact of_pure _
  | cons a as ih => exact (hf a).bind fun _ => ih

theorem checkpoint : Unnoticed (RunM.checkpoint : RunM σ Unit) RunM.checkpoint :=
  of_same RunM.checkpoint_recording RunM.checkpoint_digests

theorem diagnose (d : Diagnostic) : Unnoticed (RunM.diagnose d : RunM σ Unit) (RunM.diagnose d) :=
  of_same (fun _ _ => rfl) fun _ => rfl

-- A part that goes on with what it finds on the disk.
theorem of_disk {f : Disk → RunM σ α} {g : Disk → RunM (σ × List Reply) α}
    (hf : ∀ disk, Unnoticed (f disk) (g disk)) :
    Unnoticed (get >>= fun s => f s.world.disk) (get >>= fun s => g s.world.disk) :=
  fun s => hf s.world.disk s

theorem ofFault (a : Except Fault α) : Unnoticed (RunM.ofFault a : RunM σ α) (RunM.ofFault a) := by
  cases a with
  | ok a => exact of_pure a
  | error => exact of_same (fun _ _ => rfl) fun _ => rfl

theorem ofExcept (a : Except RunError α) :
    Unnoticed (RunM.ofExcept a : RunM σ α) (RunM.ofExcept a) := by
  cases a with
  | ok a => exact of_pure a
  | error => exact of_same (fun _ _ => rfl) fun _ => rfl

theorem writeBack (readers : Readers) (source : SourceDocument) (text : String) :
    Unnoticed (writeBack readers source text : RunM σ _) (writeBack readers source text) := by
  refine of_same (fun s heard => ?_) fun s => rfl
  have disk : (s.recording heard).world.disk = s.world.disk := rfl
  simp only [Run.writeBack, RunM.ask_apply, disk]
  cases source.writeBack readers text s.world.disk <;> rfl

theorem start (outside : Collaborators σ) (call : ToolCall) :
    Unnoticed (RunM.ask (outside.runTool call)) (RunM.ask (outside.recorded.runTool call)) :=
  of_same (fun _ _ => rfl) fun _ => rfl

theorem map {f : α → β} (hx : Unnoticed x y) : Unnoticed (f <$> x) (f <$> y) :=
  hx.bind fun a => of_pure (f a)

theorem mapM {f : α → RunM σ β} {g : α → RunM (σ × List Reply) β} {as : List α}
    (hf : ∀ a, Unnoticed (f a) (g a)) : Unnoticed (as.mapM f) (as.mapM g) := by
  induction as with
  | nil => exact of_pure _
  | cons a as ih =>
    simp only [List.mapM_cons]
    exact (hf a).bind fun b => ih.bind fun bs => of_pure (b :: bs)

variable {outside : Collaborators σ} {plan : RunPlan} {rules : DocumentRules} {info : UpgraderInfo}
variable {file : String} {files : List String}

theorem pinnedVerdict (c : Candidate) (text : String) :
    Unnoticed (Revision.pinnedVerdict (lookup outside) c text)
      (Revision.pinnedVerdict (lookup outside.recorded) c text) := by
  unfold Revision.pinnedVerdict Run.lookup Collaborators.recorded
  split
  case h_1 => exact of_pure _
  case h_2 =>
    cases outside.registry with
    | none => exact of_pure _
    | some registry => exact (of_consults (.digest _ _)).map

theorem verdict {channel : Channel} {policy : UpgradePolicy} {newline : Newline} (c : Candidate) :
    Unnoticed (Revision.verdict rules channel policy (lookup outside) newline c)
      (Revision.verdict rules channel policy (lookup outside.recorded) newline c) := by
  unfold Revision.verdict
  refine (ofFault _).bind fun d => ?_
  cases d with
  | unchanged | unsupported => exact of_pure _
  | replace text =>
    dsimp only
    split
    case h_1 => exact of_pure _
    case h_2 => exact pinnedVerdict c text

theorem carryOut {source : SourceDocument} {patch : PatchSet} {judged : Severity} {p : Progress} :
    Unnoticed (carryOut plan rules.info.name file source patch judged p : RunM σ Progress)
      (carryOut plan rules.info.name file source patch judged p) := by
  unfold Run.carryOut
  refine (ofFault _).bind fun text => (ofFault _).bind fun diff => ?_
  dsimp only
  split
  case isTrue => exact of_pure _
  case isFalse =>
    refine (writeBack plan.readers source text).bind fun done => ?_
    cases done with
    | ok => exact of_pure _
    | error e => exact (diagnose _).bind fun _ => of_pure _

theorem judge {source : SourceDocument} {candidates : List Candidate} {p : Progress} :
    Unnoticed (judge plan outside rules file source candidates p)
      (judge plan outside.recorded rules file source candidates p) := by
  unfold Run.judge
  refine (mapM verdict).bind fun verdicts => (forM fun _ => diagnose _).bind fun _ =>
    (ofFault _).bind fun patch => ?_
  split
  case isTrue => exact carryOut
  case isFalse => exact of_pure _

theorem reviseFile (p : Progress) (file : String) :
    Unnoticed (reviseFile plan outside rules p file) (reviseFile plan outside.recorded rules p file) := by
  simp only [reviseFile_eq]
  refine checkpoint.bind fun _ => of_disk
    (f := fun disk => handle plan outside rules p file (examine plan rules disk file))
    (g := fun disk => handle plan outside.recorded rules p file (examine plan rules disk file))
    fun disk => ?_
  cases examine plan rules disk file with
  | error e => exact (diagnose _).bind fun _ => of_pure _
  | ok read => exact (ofFault _).bind fun candidates => judge

theorem reviseFiles : Unnoticed (reviseFiles plan outside rules files)
    (reviseFiles plan outside.recorded rules files) := by
  unfold Run.reviseFiles
  dsimp only
  split
  case isTrue => exact (foldlM reviseFile _).bind fun p => of_pure _
  case isFalse => exact of_pure _

theorem scanProject (found : CategoryReport × List StaleReference) (file : String) :
    Unnoticed (scanProject plan info found file : RunM σ _) (scanProject plan info found file) := by
  obtain ⟨report, stale⟩ := found
  simp only [scanProject_eq]
  refine checkpoint.bind fun _ => of_disk
    (f := fun disk => collect info report stale file (staleIn plan disk file))
    (g := fun disk => collect info report stale file (staleIn plan disk file)) fun disk => ?_
  cases staleIn plan disk file with
  | error e => exact (diagnose _).bind fun _ => of_pure _
  | ok more => exact of_pure _

theorem upgradePackages {report : CategoryReport} {stale : List StaleReference} :
    Unnoticed (upgradePackages plan outside info report stale)
      (upgradePackages plan outside.recorded info report stale) := by
  unfold Run.upgradePackages
  dsimp only
  split
  case isTrue => exact (diagnose _).bind fun _ => of_pure _
  case isFalse =>
    refine checkpoint.bind fun _ => (start outside _).bind fun answer => ?_
    cases answer with
    | error e => exact (diagnose _).bind fun _ => of_pure _
    | ok output =>
      dsimp only
      split
      case isTrue => exact of_pure _
      case isFalse => exact (diagnose _).bind fun _ => of_pure _

theorem packages : Unnoticed (packages plan outside info files)
    (packages plan outside.recorded info files) := by
  unfold Run.packages
  dsimp only
  split
  case isTrue =>
    refine (foldlM scanProject _).bind fun found => ?_
    split
    case isTrue => exact of_pure _
    case isFalse => exact upgradePackages
  case isFalse => exact of_pure _

theorem turn (report : RunReport) (upgrader : Upgrader) :
    Unnoticed (turn plan outside report upgrader) (turn plan outside.recorded report upgrader) := by
  unfold Run.turn
  split
  case isTrue => exact of_pure _
  case isFalse =>
    refine checkpoint.bind fun _ => (ofExcept _).bind fun patterns => .bind ?_ fun _ => of_pure _
    cases upgrader with
    | documents rules => exact reviseFiles
    | packages info => exact packages

theorem turns {upgraders : List Upgrader} (report : RunReport) :
    Unnoticed (upgraders.foldlM (Run.turn plan outside) report)
      (upgraders.foldlM (Run.turn plan outside.recorded) report) :=
  foldlM turn report

end Unnoticed

end Repin
