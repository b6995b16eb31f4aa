import Mathlib.Data.String.Basic

/-! Texts are ordered by their characters, and stored as bytes. The two orders are the same: the
first byte of a character tells how many bytes follow, and grows with that number, and the bytes
that follow are digits, the most significant one first. So of two characters the smaller one has
the smaller byte where their bytes differ first. Neither is a beginning of the other one, and it
makes no difference what comes after them. -/

namespace FormulaEngine

/-- The bytes that a text is stored as. -/
def utf8Bytes (text : String) : List UInt8 := text.toByteArray.data.toList

theorem utf8Bytes_eq_flatMap (text : String) :
    utf8Bytes text = text.toList.flatMap String.utf8EncodeChar := by
  rw [utf8Bytes, ← String.utf8Encode_toList, List.utf8Encode, List.toList_data_toByteArray]

/-- Both lists have a byte where they differ first, and the first one has the smaller. -/
inductive DiffersBelow : List UInt8 → List UInt8 → Prop
  | here {x y : UInt8} (h : x < y) (l l' : List UInt8) : DiffersBelow (x :: l) (y :: l')
  | later (x : UInt8) {l l' : List UInt8} (h : DiffersBelow l l') :
      DiffersBelow (x :: l) (x :: l')

theorem DiffersBelow.append_lt {l l' : List UInt8} (h : DiffersBelow l l')
    (rest rest' : List UInt8) : l ++ rest < l' ++ rest' := by
  induction h with
  | here h l l' => exact List.cons_lt_cons_iff.mpr (.inl h)
  | later x h ih => exact List.cons_lt_cons_iff.mpr (.inr ⟨rfl, ih⟩)

theorem ofNat_lt_ofNat {v w : Nat} (h : v < w) (hw : w < 256) : UInt8.ofNat v < UInt8.ofNat w :=
  (UInt8.ofNat_lt_iff_lt (h.trans hw) hw).mpr h

/-- The last digits of a number to base 64, each marked as a byte that does not come first. -/
def digitBytes : Nat → Nat → List UInt8
  | 0, _ => []
  | count + 1, v => UInt8.ofNat (v / 64 ^ count % 64 + 128) :: digitBytes count v

theorem differsBelow_digitBytes {count v w : Nat} (hlt : v < w)
    (hsame : v / 64 ^ count = w / 64 ^ count) :
    DiffersBelow (digitBytes count v) (digitBytes count w) := by
  induction count with
  | zero =>
    rw [pow_zero, Nat.div_one, Nat.div_one] at hsame
    exact absurd hsame hlt.ne
  | succ count ih =>
    rw [pow_succ, ← Nat.div_div_eq_div_mul, ← Nat.div_div_eq_div_mul] at hsame
    -- the leading digits agree, so either this one tells or those behind it do
    obtain heq | hdigit := (Nat.div_le_div_right (c := 64 ^ count) hlt.le).eq_or_lt
    · rw [digitBytes, digitBytes, heq]
      exact .later _ (ih heq)
    · exact .here (ofNat_lt_ofNat (by omega) (by omega)) _ _

/-- The number of bytes of a character after the first one. -/
def followingBytes (v : Nat) : Nat :=
  if v ≤ 127 then 0 else if v ≤ 2047 then 1 else if v ≤ 65535 then 2 else 3

/-- The first byte of a character: the digits of its number that are not in the bytes after it,
and a mark for how many these are. -/
def firstByte (v : Nat) : Nat :=
  v / 64 ^ followingBytes v +
    if v ≤ 127 then 0 else if v ≤ 2047 then 192 else if v ≤ 65535 then 224 else 240

theorem toNat_char_lt (c : Char) : c.toNat < 1114112 := by
  obtain h | h := c.valid
  · exact Nat.lt_trans h (by decide)
  · exact h.2

/-- The four lengths of a character, by its number. -/
theorem length_cases (v : Nat) :
    (v ≤ 127 ∧ followingBytes v = 0 ∧ firstByte v = v) ∨
    (127 < v ∧ v ≤ 2047 ∧ followingBytes v = 1 ∧ firstByte v = v / 64 + 192) ∨
    (2047 < v ∧ v ≤ 65535 ∧ followingBytes v = 2 ∧ firstByte v = v / 4096 + 224) ∨
    65535 < v ∧ followingBytes v = 3 ∧ firstByte v = v / 262144 + 240 := by
  unfold firstByte followingBytes
  split_ifs <;> simp <;> omega

theorem utf8EncodeChar_eq (c : Char) : String.utf8EncodeChar c =
    UInt8.ofNat (firstByte c.toNat) :: digitBytes (followingBytes c.toNat) c.toNat := by
  have hval : c.val.toNat = c.toNat := rfl
  have hlt := toNat_char_lt c
  rw [String.utf8EncodeChar, hval]
  obtain ⟨h, hcount, hfirst⟩ | ⟨h, h', hcount, hfirst⟩ | ⟨h, h', hcount, hfirst⟩ |
    ⟨h, hcount, hfirst⟩ := length_cases c.toNat
  · simp [hcount, hfirst, digitBytes, h]
  · have hdigit : c.toNat / 64 % 32 = c.toNat / 64 := by omega
    simp [hcount, hfirst, digitBytes, hdigit, h.not_ge, h']
  · have hdigit : c.toNat / 4096 % 16 = c.toNat / 4096 := by omega
    have hlong : ¬c.toNat ≤ 127 := by omega
    simp [hcount, hfirst, digitBytes, hdigit, hlong, h.not_ge, h']
  · have hdigit : c.toNat / 262144 % 8 = c.toNat / 262144 := by omega
    have hlong : ¬c.toNat ≤ 127 ∧ ¬c.toNat ≤ 2047 := by omega
    simp [hcount, hfirst, digitBytes, hdigit, hlong, h.not_ge]

/-- A longer character has a larger first byte, so if two have the same one, then they are of one
length and differ in the digits that follow. -/
theorem firstByte_lt_or_same {v w : Nat} (hlt : v < w) (hw : w < 1114112) :
    (firstByte v < firstByte w ∧ firstByte w < 256) ∨
      followingBytes v = followingBytes w ∧ firstByte v = firstByte w ∧
        v / 64 ^ followingBytes v = w / 64 ^ followingBytes v := by
  obtain ⟨hv, hcount, hfirst⟩ | ⟨hv, hv', hcount, hfirst⟩ | ⟨hv, hv', hcount, hfirst⟩ |
      ⟨hv, hcount, hfirst⟩ := length_cases v <;>
    obtain ⟨hw, hcount', hfirst'⟩ | ⟨hw, hw', hcount', hfirst'⟩ | ⟨hw, hw', hcount', hfirst'⟩ |
      ⟨hw, hcount', hfirst'⟩ := length_cases w <;>
    rw [hcount, hcount', hfirst, hfirst'] <;> omega

theorem differsBelow_utf8EncodeChar {c d : Char} (h : c < d) :
    DiffersBelow (String.utf8EncodeChar c) (String.utf8EncodeChar d) := by
  have hlt : c.toNat < d.toNat := h
  rw [utf8EncodeChar_eq, utf8EncodeChar_eq]
  obtain ⟨hfirst, hbyte⟩ | ⟨hcount, hfirst, hsame⟩ := firstByte_lt_or_same hlt (toNat_char_lt d)
  · exact .here (ofNat_lt_ofNat hfirst hbyte) _ _
  · rw [← hcount, hfirst]
    exact .later _ (differsBelow_digitBytes hlt hsame)

theorem flatMap_utf8EncodeChar_lt {l l' : List Char} (h : l < l') :
    l.flatMap String.utf8EncodeChar < l'.flatMap String.utf8EncodeChar := by
  induction h with
  | nil =>
    rw [List.flatMap_nil, List.flatMap_cons, utf8EncodeChar_eq, List.cons_append]
    exact List.nil_lt_cons _ _
  | rel h =>
    rw [List.flatMap_cons, List.flatMap_cons]
    exact (differsBelow_utf8EncodeChar h).append_lt _ _
  | cons h ih =>
    rw [List.flatMap_cons, List.flatMap_cons]
    exact List.append_left_lt ih

/-- The order of texts is the order of their bytes. -/
theorem utf8Bytes_lt_iff {a b : String} : utf8Bytes a < utf8Bytes b ↔ a < b := by
  have hmono {a b : String} (h : a < b) : utf8Bytes a < utf8Bytes b := by
    rw [utf8Bytes_eq_flatMap, utf8Bytes_eq_flatMap]
    exact flatMap_utf8EncodeChar_lt (String.lt_iff_toList_lt.mp h)
  refine ⟨fun h => ?_, hmono⟩
  obtain hlt | rfl | hgt := lt_trichotomy a b
  · exact hlt
  · exact absurd h (List.lt_irrefl _)
  · exact absurd h (List.lt_asymm (hmono hgt))

theorem utf8Bytes_le_iff {a b : String} : utf8Bytes a ≤ utf8Bytes b ↔ a ≤ b := by
  rw [← List.not_lt, ← not_lt, utf8Bytes_lt_iff]

end FormulaEngine
