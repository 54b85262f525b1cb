import Mathlib
import Scriptlet.Text.Quoted

/-! The order of texts.  Texts compare by their characters, the first difference deciding; the
bytes that they are written in compare just the same way. -/

namespace Scriptlet.Text

def bytes (s : String) : List UInt8 := s.toUTF8.data.toList

/-- The bytes `xs` come before `ys` by a byte that both have, whatever follows them. -/
inductive Below : List UInt8 → List UInt8 → Prop
  | here {x y : UInt8} {xs ys : List UInt8} : x < y → Below (x :: xs) (y :: ys)
  | later {x : UInt8} {xs ys : List UInt8} : Below xs ys → Below (x :: xs) (x :: ys)

theorem below_cons_iff {x y : UInt8} {xs ys : List UInt8} :
    Below (x :: xs) (y :: ys) ↔ x < y ∨ x = y ∧ Below xs ys := by
  constructor
  · intro h
    cases h with
    | here h => exact .inl h
    | later h => exact .inr ⟨rfl, h⟩
  · rintro (h | ⟨rfl, h⟩)
    · exact .here h
    · exact .later h

theorem Below.append_lt {xs ys : List UInt8} (h : Below xs ys) (us vs : List UInt8) :
    xs ++ us < ys ++ vs := by
  induction h with
  | here h => exact .rel h
  | later _ ih => exact .cons ih

theorem byte_lt_iff {m n : Nat} (hm : m < 256) (hn : n < 256) :
    UInt8.ofNat m < UInt8.ofNat n ↔ m < n := by
  rw [UInt8.lt_iff_toNat_lt, UInt8.toNat_ofNat_of_lt' hm, UInt8.toNat_ofNat_of_lt' hn]

theorem byte_eq_iff {m n : Nat} (hm : m < 256) (hn : n < 256) :
    UInt8.ofNat m = UInt8.ofNat n ↔ m = n := by
  rw [← UInt8.toNat_inj, UInt8.toNat_ofNat_of_lt' hm, UInt8.toNat_ofNat_of_lt' hn]

theorem div_lt_or_mod_lt {m n : Nat} (h : m < n) :
    m / 64 < n / 64 ∨ m / 64 = n / 64 ∧ m % 64 < n % 64 := by
  omega

theorem digits_lt {m n : Nat} (h : m < n) :
    m / 262144 < n / 262144 ∨
    m / 262144 = n / 262144 ∧ m / 4096 % 64 < n / 4096 % 64 ∨
    m / 4096 = n / 4096 ∧ m / 64 % 64 < n / 64 % 64 ∨
    m / 64 = n / 64 ∧ m % 64 < n % 64 := by
  have hdigits (k : Nat) : k / 64 / 64 = k / 4096 ∧ k / 4096 / 64 = k / 262144 := by omega
  have hm := hdigits m
  have hn := hdigits n
  rcases div_lt_or_mod_lt h with h | h
  · rcases div_lt_or_mod_lt h with h | h
    · rw [hm.1, hn.1] at h
      rcases div_lt_or_mod_lt h with h | h <;> omega
    · omega
  · omega

/-- A character with a smaller number has smaller bytes.  The first byte tells how many there
are, and among characters with as many bytes these are the digits of the number. -/
theorem below_utf8EncodeChar {c d : Char} (h : c < d) :
    Below (String.utf8EncodeChar c) (String.utf8EncodeChar d) := by
  have hlt : c.val.toNat < d.val.toNat := h
  have hd : d.val.toNat < 0x110000 := by
    have hvalid : d.val.toNat.isValidChar := d.valid
    simp only [Nat.isValidChar] at hvalid
    omega
  have hdigits := digits_lt hlt
  simp only [String.utf8EncodeChar]
  generalize c.val.toNat = m at *
  generalize d.val.toNat = n at *
  repeat' split
  all_goals
    first
    | omega
    | simp (disch := omega) only [below_cons_iff, byte_lt_iff, byte_eq_iff, Nat.mod_eq_of_lt]
      omega

theorem bytes_ofList (cs : List Char) :
    bytes (String.ofList cs) = cs.flatMap String.utf8EncodeChar := by
  rw [bytes, String.toUTF8_eq_toByteArray, String.toByteArray_ofList, List.utf8Encode,
    List.toList_data_toByteArray]

theorem flatMap_lt_of_lt {cs ds : List Char} (h : cs < ds) :
    cs.flatMap String.utf8EncodeChar < ds.flatMap String.utf8EncodeChar := by
  induction h with
  | @nil d ds =>
    obtain ⟨x, xs, hx⟩ := List.exists_cons_of_length_pos
      (String.length_utf8EncodeChar d ▸ d.utf8Size_pos)
    rw [List.flatMap_cons, hx]
    exact .nil
  | @cons c cs ds _ ih => exact List.append_left_lt ih
  | @rel c cs d ds h => exact (below_utf8EncodeChar h).append_lt _ _

theorem bytes_lt_of_lt {a b : String} (h : a < b) : bytes a < bytes b := by
  rw [← String.ofList_toList (s := a), ← String.ofList_toList (s := b), bytes_ofList, bytes_ofList]
  exact flatMap_lt_of_lt h

theorem bytes_le_iff {a b : String} : bytes a ≤ bytes b ↔ a ≤ b := by
  constructor
  · intro h
    rw [← String.not_lt]
    intro hlt
    exact h (bytes_lt_of_lt hlt)
  · intro h
    by_cases heq : a = b
    · rw [heq]
      exact List.le_refl _
    · have hlt : a < b := by
        rw [← String.not_le]
        exact fun hle => heq (String.le_antisymm h hle)
      exact List.le_of_lt (bytes_lt_of_lt hlt)

end Scriptlet.Text
