import Mathlib
import Scriptlet.Code.Image

/-! Reading an image back.  The bytes that write a value are read as that value whatever
follows them, and a part of them that stops short lacks bytes and has no other fault.  Both
are shown of each reader against its writer, and pass from the parts to the program. -/

namespace Scriptlet

namespace Image

/-- The reader takes `bs` for `a`, and asks for more bytes if they stop short. -/
structure Inverts (get : Reader α) (bs : Bytes) (a : α) : Prop where
  whole : ∀ s, get (bs ++ s) = .ok (a, s)
  short : ∀ s, s <+: bs → s ≠ bs → get s = .error .unexpectedEnd

namespace Inverts

variable {α β : Type} {get : Reader α} {f : α → Reader β} {bs cs : Bytes} {a : α} {b : β}

protected theorem pure : Inverts (pure a) [] a := by
  refine ⟨fun s => rfl, fun s hs hne => ?_⟩
  exact absurd (List.prefix_nil.1 hs) hne

theorem bind (ha : Inverts get bs a) (hb : Inverts (f a) cs b) :
    Inverts (get >>= f) (bs ++ cs) b := by
  have hwhole (s : Bytes) : (get >>= f) (bs ++ s) = f a s := by
    simp only [Bind.bind, StateT.bind, ha.whole, Except.bind]
  constructor
  · intro s
    rw [List.append_assoc, hwhole]
    exact hb.whole s
  · intro s hs hne
    -- the bytes stop before the end of `bs`, or somewhere in `cs`
    by_cases hbs : bs <+: s
    · obtain ⟨s, rfl⟩ := hbs
      rw [hwhole]
      refine hb.short s ((List.prefix_append_right_inj bs).1 hs) ?_
      rintro rfl
      exact hne rfl
    · have hs : s <+: bs :=
        (List.prefix_or_prefix_of_prefix hs (List.prefix_append bs cs)).resolve_right hbs
      have hne : s ≠ bs := by
        rintro rfl
        exact hbs List.prefix_rfl
      simp only [Bind.bind, StateT.bind, ha.short s hs hne, Except.bind]

theorem map (ha : Inverts get bs a) (g : α → β) : Inverts (do return g (← get)) bs (g a) := by
  rw [← List.append_nil bs]
  exact ha.bind .pure

end Inverts

theorem inverts_getByte (b : UInt8) : Inverts getByte [b] b := by
  refine ⟨fun s => rfl, fun s hs hne => ?_⟩
  have hnil : s = [] := by
    obtain rfl | ⟨t, rfl, ht⟩ := List.prefix_cons_iff.1 hs
    · rfl
    · rw [List.prefix_nil.1 ht] at hne
      exact absurd rfl hne
  rw [hnil]
  rfl

section

variable {top more : Nat}

theorem inverts_last {n : Nat} (hn : n < 128) (htop : more = 0 → n ≤ top) :
    Inverts (getVarint top (more + 1)) [UInt8.ofNat n] n := by
  have hb : (UInt8.ofNat n).toNat = n := by
    rw [UInt8.toNat_ofNat']
    omega
  rw [getVarint, ← List.append_nil [_]]
  refine (inverts_getByte _).bind ?_
  rw [if_pos (UInt8.lt_iff_toNat_lt.2 (by rw [hb]; exact hn)), hb, if_neg (by omega)]
  exact .pure

theorem inverts_more {d m : Nat} {bs : Bytes} (hd : d < 128)
    (hm : Inverts (getVarint top more) bs m) :
    Inverts (getVarint top (more + 1)) (UInt8.ofNat (d + 128) :: bs) (d + 128 * m) := by
  have hb : (UInt8.ofNat (d + 128)).toNat = d + 128 := by
    rw [UInt8.toNat_ofNat']
    omega
  have hge : ¬ UInt8.ofNat (d + 128) < 128 := by
    rw [UInt8.lt_iff_toNat_lt, hb]
    exact Nat.not_lt.2 (Nat.le_add_left 128 d)
  rw [getVarint]
  refine (inverts_getByte _).bind ?_
  rw [if_neg hge, hb, Nat.add_sub_cancel]
  exact hm.map (d + 128 * ·)

theorem inverts_getVarint {n : Nat} (htop : top < 128) (hn : n < (top + 1) * 128 ^ more) :
    Inverts (getVarint top (more + 1)) (putVarint n) n := by
  induction more generalizing n with
  | zero =>
    rw [putVarint, if_pos (by omega)]
    exact inverts_last (by omega) fun _ => by omega
  | succ more ih =>
    rw [putVarint]
    split
    · next hlt => exact inverts_last hlt (by simp)
    · have hdiv : n / 128 < (top + 1) * 128 ^ more := by
        rw [Nat.div_lt_iff_lt_mul (by omega), Nat.mul_assoc, ← Nat.pow_succ]
        exact hn
      have hmore := inverts_more (Nat.mod_lt n (by omega : 128 > 0)) (ih hdiv)
      rwa [Nat.mod_add_div] at hmore

end

theorem inverts_getWord {n : Nat} (hn : n < 2 ^ 64) : Inverts getWord (putVarint n) n :=
  inverts_getVarint (by decide) (by omega)

theorem inverts_getHalfWord {n : Nat} (hn : n < 2 ^ 32) : Inverts getHalfWord (putVarint n) n :=
  inverts_getVarint (by decide) (by omega)

theorem zigzag_lt (n : Int64) : zigzag n.toInt < 2 ^ 64 := by
  have hlt := n.toInt_lt
  have hle := n.le_toInt
  cases h : n.toInt with
  | ofNat k =>
    rw [h, Int.ofNat_eq_natCast] at hlt
    simp only [zigzag]
    omega
  | negSucc k =>
    rw [h] at hle
    simp only [zigzag]
    omega

theorem inverts_getBytes (bs : Bytes) : Inverts (getBytes bs.length) bs bs := by
  constructor
  · intro s
    simp [getBytes]
  · intro s hs hne
    have hlt : s.length < bs.length := by
      refine Nat.lt_of_le_of_ne hs.length_le fun h => hne (hs.eq_of_length h)
    rw [getBytes, if_neg (Nat.not_le.2 hlt)]

theorem fromUTF8?_toUTF8 (s : String) :
    String.fromUTF8? ⟨s.toUTF8.data.toList.toArray⟩ = some s := by
  rw [Array.toArray_toList, String.fromUTF8?]
  exact dif_pos s.isValidUTF8

theorem inverts_getText {s : String} (hs : s.utf8ByteSize < 2 ^ 64) :
    Inverts getText (putText s) s := by
  rw [getText, putText, ← List.append_nil s.toUTF8.data.toList]
  refine (inverts_getWord hs).bind (.bind (inverts_getBytes s.toUTF8.data.toList) ?_)
  rw [fromUTF8?_toUTF8]
  exact .pure

theorem inverts_getMany {get : Reader α} {put : α → Bytes} {xs : List α}
    (h : ∀ x ∈ xs, Inverts get (put x) x) :
    Inverts (getMany get xs.length) (xs.flatMap put) xs := by
  induction xs with
  | nil => exact .pure
  | cons x xs ih =>
    rw [List.forall_mem_cons] at h
    exact h.1.bind ((ih h.2).map (x :: ·))

theorem inverts_getList {get : Reader α} {put : α → Bytes} {xs : List α}
    (hlength : xs.length < 2 ^ 64) (h : ∀ x ∈ xs, Inverts get (put x) x) :
    Inverts (getList get) (putList put xs) xs :=
  (inverts_getWord hlength).bind (inverts_getMany h)

end Image

def Slot.Sized : Slot → Prop
  | op _ | number _ => True
  | text s | name s => s.utf8ByteSize < 2 ^ 64
  | target a | code a => a < 2 ^ 64

instance : (slot : Slot) → Decidable slot.Sized
  | .op _ | .number _ => inferInstanceAs (Decidable True)
  | .text s | .name s => inferInstanceAs (Decidable (s.utf8ByteSize < 2 ^ 64))
  | .target a | .code a => inferInstanceAs (Decidable (a < 2 ^ 64))

def Program.Sized (p : Program) : Prop :=
  p.code.size < 2 ^ 64 ∧ ∀ slots ∈ p.code, slots.size < 2 ^ 64 ∧ ∀ slot ∈ slots, slot.Sized

instance (p : Program) : Decidable p.Sized := inferInstanceAs (Decidable (_ ∧ _))

namespace Image

theorem inverts_getSlot {slot : Slot} (h : slot.Sized) : Inverts getSlot (putSlot slot) slot := by
  rw [getSlot]
  cases slot with
  | op tag => exact (inverts_getHalfWord (by decide)).bind ((inverts_getByte tag).map Slot.op)
  | number n =>
    refine (inverts_getHalfWord (by decide)).bind ?_
    have hn := (inverts_getWord (zigzag_lt n)).map fun k => Slot.number (Int64.ofInt (unzigzag k))
    rwa [unzigzag_zigzag, Int64.ofInt_toInt] at hn
  | text s => exact (inverts_getHalfWord (by decide)).bind ((inverts_getText h).map Slot.text)
  | name s => exact (inverts_getHalfWord (by decide)).bind ((inverts_getText h).map Slot.name)
  | target a => exact (inverts_getHalfWord (by decide)).bind ((inverts_getWord h).map Slot.target)
  | code i => exact (inverts_getHalfWord (by decide)).bind ((inverts_getWord h).map Slot.code)

theorem inverts_getProgram {p : Program} (h : p.Sized) : Inverts getProgram (encode p) p := by
  have hcode : Inverts (getList (getList getSlot)) (encode p) (p.code.toList.map Array.toList) := by
    have hput : encode p = putList (putList putSlot) (p.code.toList.map Array.toList) := by
      simp [encode, putList, List.flatMap_map]
    rw [hput]
    refine inverts_getList (by simpa using h.1) ?_
    simp only [List.forall_mem_map, Array.mem_toList_iff]
    intro slots hslots
    obtain ⟨hsize, hsized⟩ := h.2 slots hslots
    refine inverts_getList hsize fun slot hslot => inverts_getSlot (hsized slot ?_)
    exact Array.mem_toList_iff.1 hslot
  have hp : (⟨((p.code.toList.map Array.toList).map List.toArray).toArray⟩ : Program) = p := by
    simp [Function.comp_def]
  have hprogram : Inverts getProgram (encode p)
      ⟨((p.code.toList.map Array.toList).map List.toArray).toArray⟩ := hcode.map _
  rwa [hp] at hprogram

theorem decode_encode (p : Program) (hp : p.Sized) :
    (∀ s, decode (encode p ++ s) = .ok p) ∧
      ∀ s, s <+: encode p → s ≠ encode p → decode s = .error .unexpectedEnd := by
  have h := inverts_getProgram hp
  constructor
  · intro s
    simp only [decode, StateT.run, h.whole]
    rfl
  · intro s hs hne
    simp only [decode, StateT.run, h.short s hs hne]
    rfl

def extremes : Program :=
  ⟨#[#[.op 200, .number Int64.minValue, .number Int64.maxValue, .text "é日😀", .name "",
    .target 0xffffffffffffffff, .code 0], #[]]⟩

theorem decode_encode_extremes :
    extremes.Sized ∧ decode (encode extremes ++ [0xff]) = .ok extremes ∧
      ∀ n < (encode extremes).length,
        decode ((encode extremes).take n) = .error .unexpectedEnd := by
  have hsized : extremes.Sized := by decide
  obtain ⟨hwhole, hshort⟩ := decode_encode extremes hsized
  refine ⟨hsized, hwhole [0xff], fun n hn => hshort _ (List.take_prefix n _) fun h => ?_⟩
  have hlength := congrArg List.length h
  rw [List.length_take] at hlength
  omega

end Image

end Scriptlet
