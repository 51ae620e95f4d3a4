import Repin.Disk.Basic
import Repin.Proofs.State
/-!
# Writing files

A file is written beside the place it is meant for. Since nothing else is kept there, removing it
leaves the disk as it was, so whichever step fails: the file is either written as a whole or not at
all, and no other entry changes.
-/
namespace Repin.Disk

variable {d : Disk} {path beside : String} {entry : Entry} {bytes : ByteArray}

theorem find?_of_read {bytes : ByteArray} (h : d.read path = .ok bytes) :
    d.find? path = some (.file bytes) := by
  unfold read at h
  split at h
  case h_1 => cases h
  case h_2 =>
    split at h
    case h_1 hf =>
      cases h
      exact hf
    case h_2 => cases h

theorem length_le_longest {entries : List (String × Entry)} :
    ∀ e ∈ entries, e.1.length ≤ entries.foldr (fun e n => max e.1.length n) 0 := by
  induction entries with
  | nil => simp
  | cons f entries ih =>
    intro e he
    rw [List.foldr_cons]
    rcases List.mem_cons.mp he with rfl | he
    case inl => omega
    case inr =>
      have := ih e he
      omega

-- What a file is written beside of is no entry of the disk yet.
theorem temporary_not_mem (d : Disk) (path : String) : ∀ e ∈ d.entries, e.1 ≠ d.temporary path := by
  intro e he h
  have short := length_le_longest e he
  have long : d.entries.foldr (fun e n => max e.1.length n) 0 < (d.temporary path).length := by
    simp only [temporary, String.length_ofList, List.length_append, List.length_replicate]
    omega
  rw [h] at short
  omega

theorem insert_insert {old : Entry} : (d.insert path old).insert path entry = d.insert path entry := by
  simp [insert, List.filter_filter]

theorem erase_insert (new : ∀ e ∈ d.entries, e.1 ≠ path) : (d.insert path entry).erase path = d := by
  have kept : d.entries.filter (·.1 != path) = d.entries := by
    apply List.filter_eq_self.mpr
    simpa using new
  simp [erase, insert, kept]

theorem move_insert (new : ∀ e ∈ d.entries, e.1 ≠ beside) :
    move beside path (d.insert beside entry) = .ok () (d.insert path entry) := by
  simp [move, erase_insert new]

-- A file is written as a whole, or whichever step is refused, the disk is as it was.
theorem write_eq (path : String) (bytes : ByteArray) (d : Disk) :
    write path bytes d =
      match d.unwritable.lookup path with
      | some (_, cause) => .error (.refused cause) d
      | none => .ok () (d.insert path (.file bytes)) := by
  have new := d.temporary_not_mem path
  have unwritable (beside : String) (entry : Entry) :
    (d.insert beside entry).unwritable = d.unwritable := rfl
  unfold write
  simp only [bind_apply, get_apply, modify_apply, tryCatch_apply, throw_apply]
  unfold permit fill
  cases h : d.unwritable.lookup path with
  | none => simp only [unwritable, h, insert_insert, move_insert new]
  | some refusal =>
    obtain ⟨step, cause⟩ := refusal
    cases step <;> simp [unwritable, h, insert_insert, erase_insert new]

end Repin.Disk
