import Repin.Document.Encoding
/-!
# Encodings there and back

A file is read exactly when it is what some text is written as. Its encoding is told from its first
bytes, so a text is only read back if what is written of it does not begin with another mark. Main
statement: `decode?_encode`.
-/
namespace Repin

variable {c : Char} {cs : List Char} {bytes : List UInt8} {bigEndian : Bool}

namespace Utf16

variable {us : List Nat} {u : Nat}

-- A character is no half of a surrogate pair.
theorem toNat_cases (c : Char) : c.toNat < 0xD800 ∨ 0xE000 ≤ c.toNat ∧ c.toNat < 0x110000 := by
  have valid := c.valid
  simp only [UInt32.isValidChar, Nat.isValidChar] at valid
  change c.toNat < _ ∨ _ < c.toNat ∧ c.toNat < _ at valid
  omega

theorem toNat_ofNat (h : u < 0xD800 ∨ 0xE000 ≤ u ∧ u < 0x110000) : (Char.ofNat u).toNat = u := by
  have valid : u.isValidChar := by
    simp only [Nat.isValidChar]
    omega
  rw [Char.ofNat, dif_pos valid]
  rfl

theorem ofUnits?_unitsOf_append (c : Char) (us : List Nat) :
    ofUnits? (unitsOf c ++ us) = (ofUnits? us).map (c :: ·) := by
  have range := toNat_cases c
  unfold unitsOf
  dsimp only
  split
  case isTrue low =>
    have single : c.toNat < 0xD800 ∨ 0xE000 ≤ c.toNat := by omega
    cases us <;> simp [ofUnits?, single]
  case isFalse high =>
    have first : ¬ (0xD800 + (c.toNat - 0x10000) / 0x400 < 0xD800 ∨
        0xE000 ≤ 0xD800 + (c.toNat - 0x10000) / 0x400) := by omega
    have pair : 0xD800 + (c.toNat - 0x10000) / 0x400 < 0xDC00 ∧
        0xDC00 ≤ 0xDC00 + (c.toNat - 0x10000) % 0x400 ∧
        0xDC00 + (c.toNat - 0x10000) % 0x400 < 0xE000 := by omega
    have number : 0x10000 + (0xD800 + (c.toNat - 0x10000) / 0x400 - 0xD800) * 0x400
        + (0xDC00 + (c.toNat - 0x10000) % 0x400 - 0xDC00) = c.toNat := by omega
    rw [List.cons_append, List.cons_append, List.nil_append, ofUnits?, if_neg first, if_pos pair,
      number, Char.ofNat_toNat]

theorem ofUnits?_flatMap (cs : List Char) : ofUnits? (cs.flatMap unitsOf) = some cs := by
  induction cs with
  | nil => rfl
  | cons c cs ih => rw [List.flatMap_cons, ofUnits?_unitsOf_append, ih, Option.map_some]

-- The units that are read are those of the characters, as long as none takes more than two bytes.
theorem flatMap_of_ofUnits? (h : ofUnits? us = some cs) (hu : ∀ u ∈ us, u < 0x10000) :
    cs.flatMap unitsOf = us := by
  have single {u : Nat} (range : u < 0xD800 ∨ 0xE000 ≤ u) (bound : u < 0x10000) :
      unitsOf (Char.ofNat u) = [u] := by
    simp [unitsOf, toNat_ofNat (by omega : u < 0xD800 ∨ 0xE000 ≤ u ∧ u < 0x110000), bound]
  fun_induction ofUnits? us generalizing cs
  case case1 =>
    cases h
    rfl
  case case2 u range =>
    cases h
    simp [single range (hu u List.mem_cons_self)]
  case case3 => cases h
  case case4 u v rest range ih =>
    obtain ⟨cs, hc, rfl⟩ := Option.map_eq_some_iff.mp h
    rw [List.flatMap_cons, single range (hu u List.mem_cons_self),
      ih hc fun w hw => hu w (List.mem_cons_of_mem _ hw)]
    rfl
  case case5 u v rest range pair ih =>
    obtain ⟨cs, hc, rfl⟩ := Option.map_eq_some_iff.mp h
    have number := toNat_ofNat (u := 0x10000 + (u - 0xD800) * 0x400 + (v - 0xDC00)) (by omega)
    have high : ¬ 0x10000 + (u - 0xD800) * 0x400 + (v - 0xDC00) < 0x10000 := by omega
    have halves : 0xD800 + (0x10000 + (u - 0xD800) * 0x400 + (v - 0xDC00) - 0x10000) / 0x400 = u ∧
        0xDC00 + (0x10000 + (u - 0xD800) * 0x400 + (v - 0xDC00) - 0x10000) % 0x400 = v := by omega
    rw [List.flatMap_cons, ih hc fun w hw => hu w (by simp [hw]), unitsOf, number, if_neg high,
      halves.left, halves.right]
    rfl
  case case6 => cases h

theorem lt_of_mem_unitsOf (h : u ∈ unitsOf c) : u < 0x10000 := by
  have range := toNat_cases c
  unfold unitsOf at h
  dsimp only at h
  split at h
  case isTrue low => exact List.mem_singleton.mp h ▸ low
  case isFalse =>
    simp only [List.mem_cons, List.not_mem_nil, or_false] at h
    omega

theorem unitsOfBytes?_flatMap (h : ∀ u ∈ us, u < 0x10000) :
    unitsOfBytes? bigEndian (us.flatMap (bytesOf bigEndian)) = some us := by
  induction us with
  | nil => rfl
  | cons u us ih =>
    have ⟨bound, rest⟩ := List.forall_mem_cons.mp h
    have low : (UInt8.ofNat (u % 256)).toNat = u % 256 :=
      UInt8.toNat_ofNat_of_lt' (Nat.mod_lt u (by decide))
    have high : (UInt8.ofNat (u / 256)).toNat = u / 256 :=
      UInt8.toNat_ofNat_of_lt' (Nat.div_lt_of_lt_mul bound)
    have number : u / 256 * 256 + u % 256 = u := by omega
    rw [List.flatMap_cons]
    cases bigEndian <;> simp [bytesOf, unitsOfBytes?, ih rest, low, high, number]

theorem flatMap_of_unitsOfBytes? (h : unitsOfBytes? bigEndian bytes = some us) :
    us.flatMap (bytesOf bigEndian) = bytes ∧ ∀ u ∈ us, u < 0x10000 := by
  fun_induction unitsOfBytes? bigEndian bytes generalizing us
  case case1 =>
    cases h
    simp
  case case2 => cases h
  case case3 a b rest unit ih =>
    obtain ⟨us, hu, rfl⟩ := Option.map_eq_some_iff.mp h
    have ⟨same, bounds⟩ := ih hu
    have := a.toNat_lt
    have := b.toNat_lt
    have parts (high low : UInt8) : UInt8.ofNat ((high.toNat * 256 + low.toNat) % 256) = low ∧
        UInt8.ofNat ((high.toNat * 256 + low.toNat) / 256) = high := by
      have := low.toNat_lt
      have first : (high.toNat * 256 + low.toNat) % 256 = low.toNat := by omega
      have last : (high.toNat * 256 + low.toNat) / 256 = high.toNat := by omega
      simp [first, last]
    refine ⟨?_, List.forall_mem_cons.mpr ⟨?_, bounds⟩⟩
    case refine_1 =>
      rw [List.flatMap_cons, same]
      cases bigEndian <;> simp [unit, bytesOf, parts]
    case refine_2 =>
      simp only [unit]
      split <;> omega

-- Bytes are read exactly as the characters of which they are the units.
theorem decode?_eq_some_iff : decode? bigEndian bytes = some cs ↔ encode bigEndian cs = bytes := by
  unfold decode? encode
  rw [Option.bind_eq_some_iff]
  constructor
  case mp =>
    rintro ⟨us, hb, hu⟩
    have ⟨same, bounds⟩ := flatMap_of_unitsOfBytes? hb
    rw [flatMap_of_ofUnits? hu bounds, same]
  case mpr =>
    rintro rfl
    refine ⟨_, unitsOfBytes?_flatMap fun u hu => ?_, ofUnits?_flatMap cs⟩
    obtain ⟨c, _, hc⟩ := List.mem_flatMap.mp hu
    exact lt_of_mem_unitsOf hc

end Utf16

namespace TextEncoding

variable {e : TextEncoding} {bom : Bool} {body : List UInt8}

-- Without a mark a file is UTF-8, and nothing in it may be taken for one.
theorem sniff_eq_iff : sniff bytes = (e, bom, body) ↔ bytes = (if bom then e.mark else []) ++ body ∧
    (bom = false → e = .utf8 ∧ ∀ other : TextEncoding, ¬ other.mark <+: body) := by
  constructor
  case mp =>
    intro h
    unfold sniff at h
    split at h
    case h_4 utf8 utf16le utf16be =>
      cases h
      refine ⟨rfl, fun _ => ⟨rfl, fun other => ?_⟩⟩
      rintro ⟨rest, rfl⟩
      cases other
      case utf8 => exact utf8 rest rfl
      case utf16le => exact utf16le rest rfl
      case utf16be => exact utf16be rest rfl
    all_goals
      cases h
      exact ⟨rfl, nofun⟩
  case mpr =>
    rintro ⟨rfl, unmarked⟩
    cases bom with
    | true => cases e <;> rfl
    | false =>
      obtain ⟨rfl, absent⟩ := unmarked rfl
      simp only [Bool.false_eq_true, if_false, List.nil_append]
      unfold sniff
      split
      case h_1 => exact absurd (List.prefix_append utf8.mark _) (absent .utf8)
      case h_2 => exact absurd (List.prefix_append utf16le.mark _) (absent .utf16le)
      case h_3 => exact absurd (List.prefix_append utf16be.mark _) (absent .utf16be)
      case h_4 => rfl

end TextEncoding

namespace FileMetadata

variable {text : String} {m : FileMetadata}

-- The character that marks of all encodings stand for.
def markChar : Char := '\uFEFF'

theorem decodeBody?_eq_some_iff {e : TextEncoding} :
    decodeBody? e bytes = some text ↔ encodeBody e text = bytes := by
  have characters {other : Option (List Char)} :
      other.map String.ofList = some text ↔ other = some text.toList := by
    cases other <;> simp [← String.toList_inj]
  cases e
  case utf16le | utf16be =>
    unfold decodeBody? encodeBody
    exact characters.trans Utf16.decode?_eq_some_iff
  case utf8 =>
    unfold decodeBody? encodeBody
    dsimp only
    unfold String.fromUTF8?
    constructor
    case mp =>
      intro h
      split at h <;> cases h
      rfl
    case mpr =>
      rintro rfl
      exact dif_pos text.isValidUTF8

theorem encodeBody_utf8 : encodeBody .utf8 text = text.toList.flatMap String.utf8EncodeChar := by
  have characters : text.toByteArray = text.toList.utf8Encode := by
    rw [← String.toByteArray_ofList, String.ofList_toList]
  unfold encodeBody
  rw [String.toUTF8_eq_toByteArray, characters, List.utf8Encode, List.toList_data_toByteArray]

-- The first byte of a character lies below all bytes of the marks of UTF-16, and the mark of UTF-8 is
-- a character itself.
theorem mark_isPrefix_utf8EncodeChar_iff (c : Char) (rest : List UInt8) :
    (∃ e : TextEncoding, e.mark <+: String.utf8EncodeChar c ++ rest) ↔ c = markChar := by
  constructor
  case mp =>
    rintro ⟨e, behind, h⟩
    have range := Utf16.toNat_cases c
    apply Char.toNat_inj.mp
    change c.toNat = 0xFEFF
    unfold String.utf8EncodeChar at h
    simp only [Char.toNat_val] at h
    repeat' split at h
    all_goals
      cases e <;> simp [TextEncoding.mark, ← UInt8.toNat_inj] at h <;> omega
  case mpr =>
    rintro rfl
    exact ⟨.utf8, rest, rfl⟩

-- The UTF-8 form of a text begins with a mark only if the text does.
theorem mark_isPrefix_iff : (∃ e : TextEncoding, e.mark <+: encodeBody .utf8 text) ↔
    text.toList.head? = some markChar := by
  rw [encodeBody_utf8]
  cases text.toList with
  | nil =>
    simp only [List.flatMap_nil, List.prefix_nil, List.head?_nil, reduceCtorEq, iff_false]
    rintro ⟨e, h⟩
    cases e <;> cases h
  | cons c cs =>
    rw [List.flatMap_cons, mark_isPrefix_utf8EncodeChar_iff, List.head?_cons, Option.some_inj]

-- A file is read as a text exactly when it is what the text is written as, and when nothing in front of
-- the text is taken for a mark that is none.
theorem decode?_eq_some_iff {bytes : ByteArray} : decode? bytes = some (text, m) ↔
    m.encode text = bytes ∧ m.newline = Newline.detect text.toList ∧
      (m.bom = false → m.encoding = .utf8 ∧ text.toList.head? ≠ some markChar) := by
  obtain ⟨encoding, bom, newline⟩ := m
  have whole {body : List UInt8} :
      (⟨body.toArray⟩ : ByteArray) = bytes ↔ body = bytes.data.toList := by
    rw [ByteArray.ext_iff, ← Array.toList_inj]
  have absent : (∀ e : TextEncoding, ¬ e.mark <+: encodeBody .utf8 text) ↔
      text.toList.head? ≠ some markChar := by
    rw [← not_exists, mark_isPrefix_iff]
  unfold decode? encode
  dsimp only
  rw [whole, eq_comm (b := bytes.data.toList)]
  constructor
  case mp =>
    intro h
    obtain ⟨e, b, body, sniffed⟩ : ∃ e b body, TextEncoding.sniff bytes.data.toList = (e, b, body) :=
      ⟨_, _, _, rfl⟩
    simp only [sniffed, Option.map_eq_some_iff, decodeBody?_eq_some_iff] at h
    obtain ⟨_, rfl, he⟩ := h
    cases he
    have ⟨parts, unmarked⟩ := TextEncoding.sniff_eq_iff.mp sniffed
    refine ⟨parts, rfl, fun none => ?_⟩
    obtain ⟨rfl, inside⟩ := unmarked none
    exact ⟨rfl, absent.mp inside⟩
  case mpr =>
    rintro ⟨parts, rfl, unmarked⟩
    have sniffed : TextEncoding.sniff bytes.data.toList = (encoding, bom, encodeBody encoding text) := by
      refine TextEncoding.sniff_eq_iff.mpr ⟨parts, fun none => ?_⟩
      obtain ⟨rfl, front⟩ := unmarked none
      exact ⟨rfl, absent.mpr front⟩
    have read : decodeBody? encoding (encodeBody encoding text) = some text :=
      decodeBody?_eq_some_iff.mpr rfl
    rw [sniffed]
    simp only [read, Option.map_some]

-- What was read is written as it was, and whatever is written the way a file was read is read back; a
-- text for a file without a mark must not look like one.
theorem decode?_encode {bytes : ByteArray} (h : decode? bytes = some (text, m)) :
    m.encode text = bytes ∧ ∀ new : String,
      (m.bom = false → new.toList.head? ≠ some markChar) →
        decode? (m.encode new) = some (new, { m with newline := Newline.detect new.toList }) := by
  have ⟨written, _, unmarked⟩ := decode?_eq_some_iff.mp h
  refine ⟨written, fun new fresh => ?_⟩
  apply decode?_eq_some_iff.mpr
  exact ⟨rfl, rfl, fun none => ⟨(unmarked none).left, fresh none⟩⟩

-- A pair of surrogates behind a mark that stands twice.
theorem decode?_encode_utf16le :
    let bytes : ByteArray := ⟨#[0xFF, 0xFE, 0xFF, 0xFE, 0x3D, 0xD8, 0x00, 0xDE]⟩
    let m : FileMetadata := ⟨.utf16le, true, .lf⟩
    decode? bytes = some ("\uFEFF😀", m) ∧ m.encode "\uFEFF😀" = bytes ∧
      decode? (m.encode "") = some ("", m) ∧
      decode? (m.encode "\uFEFF\r\n") = some ("\uFEFF\r\n", { m with newline := .crlf }) := by
  intro bytes m
  have read : decode? bytes = some ("\uFEFF😀", m) := by decide +kernel
  have ⟨written, again⟩ := decode?_encode read
  exact ⟨read, written, again "" nofun, again "\uFEFF\r\n" nofun⟩

end FileMetadata
end Repin
