import Repin.Document.Source
import Repin.Proofs.Disk.Write
/-!
# Writing documents back

A document is written only over the bytes it was read from, and then as a whole; otherwise its disk is
left as it was.
-/
namespace Repin.SourceDocument

variable {readers : Readers} {source : SourceDocument} {text : String} {d : Disk}

theorem exists_of_read {path shown : String} (h : read readers d path shown = .ok source) :
    ∃ bytes, d.read path = .ok bytes ∧ FileMetadata.decode? bytes = some (source.text, source.metadata) ∧
      source.path = path ∧ source.hash = readers.hash bytes := by
  unfold read at h
  split at h
  case h_1 => cases h
  case h_2 bytes hr =>
    split at h
    case h_2 => cases h
    case h_1 text metadata hd =>
      cases h
      exact ⟨bytes, hr, hd, rfl, rfl⟩

-- What keeps a document from being written: its file cannot be read any more or has other bytes than
-- before, or a step of writing it is refused.
inductive IsBlocked (readers : Readers) (source : SourceDocument) (d : Disk) :
    DocumentError → Prop where
  | unreadable {e : DiskFailure} :
    d.read source.path = .error e → IsBlocked readers source d (.unwritable source.shown e.message)
  | modified {bytes : ByteArray} :
    d.read source.path = .ok bytes → readers.hash bytes ≠ source.hash →
      IsBlocked readers source d (.modified source.shown)
  | refused {step : WriteStep} {cause : String} :
    d.unwritable.lookup source.path = some (step, cause) →
      IsBlocked readers source d (.unwritable source.shown cause)

theorem writeBack_cases (readers : Readers) (source : SourceDocument) (text : String) (d : Disk) :
    (∃ bytes, d.read source.path = .ok bytes ∧ readers.hash bytes = source.hash ∧
      source.writeBack readers text d
        = .ok () (d.insert source.path (.file (source.metadata.encode text)))) ∨
    ∃ e, IsBlocked readers source d e ∧ source.writeBack readers text d = .error e d := by
  unfold writeBack
  simp only [bind_apply, get_apply]
  cases hr : d.read source.path with
  | error e => exact .inr ⟨_, .unreadable hr, rfl⟩
  | ok bytes =>
    dsimp only
    split
    case isFalse other => exact .inr ⟨_, .modified hr other, rfl⟩
    case isTrue same =>
      rw [adaptExcept_apply, Disk.write_eq]
      cases hw : d.unwritable.lookup source.path with
      | none => exact .inl ⟨bytes, rfl, same, rfl⟩
      | some refusal => exact .inr ⟨_, .refused hw, rfl⟩

-- A document is written over the bytes it was read from unless a step of that is refused.
theorem writeBack_of_read {path shown : String} (h : read readers d path shown = .ok source)
    (text : String) :
    source.writeBack readers text d =
      match d.unwritable.lookup path with
      | some (_, cause) => .error (.unwritable source.shown cause) d
      | none => .ok () (d.insert path (.file (source.metadata.encode text))) := by
  obtain ⟨bytes, hr, _, rfl, hash⟩ := exists_of_read h
  unfold writeBack
  simp only [bind_apply, get_apply, hr, hash, if_true, adaptExcept_apply, Disk.write_eq]
  cases d.unwritable.lookup source.path <;> rfl

end Repin.SourceDocument
