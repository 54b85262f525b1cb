import Scriptlet.Proofs.ImageRoundTrip

/-! All bytes that are read as a program.  Numbers may take more bytes than they need, so a
program has many images; but the bytes that a reader takes settle its answer, and of all images
the one that is written is the shortest.  Both are shown of each reader by following how it is
put together. -/

namespace Scriptlet

namespace Image

def Shortest (least c : Bytes) : Prop :=
  least.length ≤ c.length ∧ (least.length = c.length → c = least)

namespace Shortest

variable {least least' c c' : Bytes}

theorem refl (c : Bytes) : Shortest c c := ⟨Nat.le_refl _, fun _ => rfl⟩

theorem append (h : Shortest least c) (h' : Shortest least' c') :
    Shortest (least ++ least') (c ++ c') := by
  obtain ⟨hle, heq⟩ := h
  obtain ⟨hle', heq'⟩ := h'
  rw [Shortest, List.length_append, List.length_append]
  refine ⟨Nat.add_le_add hle hle', fun hlength => ?_⟩
  rw [heq (by omega), heq' (by omega)]

end Shortest

/-- The bytes that the reader takes settle its answer: it takes them for the same value whatever
follows, asks for more of them if they stop short, and they are in the given form.  A fault in
the bytes is not mended by more of them. -/
structure Settled (get : Reader α) (form : α → Bytes → Prop) : Prop where
  accepts : ∀ bs a rest, get bs = .ok (a, rest) → ∃ c, bs = c ++ rest ∧ Inverts get c a ∧ form a c
  refuses : ∀ bs e, get bs = .error e → e ≠ .unexpectedEnd → ∀ s, get (bs ++ s) = .error e

namespace Settled

variable {α β : Type} {get : Reader α} {f : α → Reader β} {form : α → Bytes → Prop}
  {form' : β → Bytes → Prop}

protected theorem pure {a : α} (h : form a []) : Settled (pure a) form := by
  constructor
  · intro bs b rest hb
    cases hb
    exact ⟨[], rfl, .pure, h⟩
  · intro bs e he
    cases he

protected theorem throw (e : Error) : Settled (throw e : Reader α) form := by
  constructor
  · intro bs a rest h
    cases h
  · intro bs e' h _ s
    cases h
    rfl

theorem bind (h : Settled get form)
    (k : ∀ a, Settled (f a) fun b c' => ∀ c, form a c → form' b (c ++ c')) :
    Settled (get >>= f) form' := by
  constructor
  · intro bs b rest hb
    simp only [Bind.bind, StateT.bind, Except.bind] at hb
    split at hb
    · cases hb
    · next r hr =>
      obtain ⟨c, rfl, hc, hform⟩ := h.accepts bs r.1 r.2 hr
      obtain ⟨c', hrest, hc', hform'⟩ := (k r.1).accepts r.2 b rest hb
      refine ⟨c ++ c', ?_, hc.bind hc', hform' c hform⟩
      rw [hrest, List.append_assoc]
  · intro bs e he hne s
    simp only [Bind.bind, StateT.bind, Except.bind] at he ⊢
    split at he
    · next e' hr =>
      cases he
      rw [h.refuses bs e hr hne s]
    · next r hr =>
      obtain ⟨c, rfl, hc, -⟩ := h.accepts bs r.1 r.2 hr
      rw [List.append_assoc, hc.whole]
      exact (k r.1).refuses r.2 e he hne s

theorem map {g : α → β} (h : Settled get form) (hform : ∀ a c, form a c → form' (g a) c) :
    Settled (do return g (← get)) form' := by
  refine h.bind fun a => .pure fun c hc => ?_
  rw [List.append_nil]
  exact hform a c hc

end Settled

theorem settled_getByte : Settled getByte fun b c => c = [b] := by
  constructor
  · intro bs b rest h
    cases bs with
    | nil => cases h
    | cons b' bs =>
      cases h
      exact ⟨[b], rfl, inverts_getByte b, rfl⟩
  · intro bs e h hne
    cases bs with
    | nil =>
      cases h
      exact absurd rfl hne
    | cons b bs => cases h

theorem settled_getBytes (n : Nat) : Settled (getBytes n) fun bs c => c = bs ∧ bs.length = n := by
  constructor
  · intro bs a rest h
    rw [getBytes] at h
    split at h
    · next hle =>
      rw [List.splitAt_eq] at h
      cases h
      have hlength : (bs.take n).length = n := List.length_take_of_le hle
      refine ⟨bs.take n, (List.take_append_drop n bs).symm, ?_, rfl, hlength⟩
      have hinverts := inverts_getBytes (bs.take n)
      rwa [hlength] at hinverts
    · cases h
  · intro bs e h hne
    rw [getBytes] at h
    split at h
    · cases h
    · cases h
      exact absurd rfl hne

/-- The number in groups of seven bits, low bits first; zeros may follow at the high end. -/
inductive Numeral : Nat → Bytes → Prop
  | last {b : UInt8} : b.toNat < 128 → Numeral b.toNat [b]
  | more {b : UInt8} {n : Nat} {c : Bytes} : 128 ≤ b.toNat → Numeral n c →
    Numeral (b.toNat - 128 + 128 * n) (b :: c)

theorem Numeral.ne_nil {n : Nat} {c : Bytes} (h : Numeral n c) : c ≠ [] := by
  cases h <;> exact List.cons_ne_nil _ _

theorem Numeral.shortest {n : Nat} {c : Bytes} (h : Numeral n c) : Shortest (putVarint n) c := by
  induction h with
  | @last b hb =>
    rw [putVarint, if_pos hb, UInt8.ofNat_toNat]
    exact .refl _
  | @more b n c hb hc ih =>
    have hlt := b.toNat_lt
    rw [putVarint]
    split
    · -- one byte would do
      have hpos := List.length_pos_iff.2 hc.ne_nil
      rw [Shortest, List.length_singleton, List.length_cons]
      exact ⟨by omega, by omega⟩
    · have hmod : (b.toNat - 128 + 128 * n) % 128 + 128 = b.toNat := by omega
      have hdiv : (b.toNat - 128 + 128 * n) / 128 = n := by omega
      rw [hmod, hdiv, UInt8.ofNat_toNat]
      exact (Shortest.refl [b]).append ih

section

variable {top more : Nat}

theorem settled_getVarint : Settled (getVarint top (more + 1)) fun n c =>
    Numeral n c ∧ c.length ≤ more + 1 ∧ n < (top + 1) * 128 ^ more := by
  have lt_iff (b : UInt8) : b < 128 ↔ b.toNat < 128 := UInt8.lt_iff_toNat_lt
  induction more with
  | zero =>
    rw [getVarint]
    refine settled_getByte.bind fun b => ?_
    split
    · next hb =>
      split
      · exact .throw _
      · refine .pure ?_
        rintro c rfl
        exact ⟨.last ((lt_iff b).1 hb), by simp, by omega⟩
    · -- there may be no byte after the last possible one
      have hnone : Settled (getVarint top 0) fun _ _ => False := .throw _
      exact hnone.bind fun n => .pure fun _ => False.elim
  | succ more ih =>
    rw [getVarint]
    refine settled_getByte.bind fun b => ?_
    have hpow : (top + 1) * 128 ^ (more + 1) = 128 * ((top + 1) * 128 ^ more) := by
      ring
    split
    · next hb =>
      rw [if_neg (by omega)]
      refine .pure ?_
      rintro c rfl
      have hb := (lt_iff b).1 hb
      have hpos : 0 < (top + 1) * 128 ^ more := by positivity
      exact ⟨.last hb, by simp, by omega⟩
    · next hb =>
      refine ih.map ?_
      rintro n c ⟨hn, hlength, hlt⟩ c' rfl
      have hb := mt (lt_iff b).2 hb
      have := b.toNat_lt
      exact ⟨.more (by omega) hn, by simpa using hlength, by omega⟩

theorem Numeral.inverts {n : Nat} {c : Bytes} (h : Numeral n c) (hlength : c.length ≤ more + 1)
    (hn : n < (top + 1) * 128 ^ more) : Inverts (getVarint top (more + 1)) c n := by
  induction h generalizing more with
  | @last b hb =>
    have htop : more = 0 → b.toNat ≤ top := by
      rintro rfl
      omega
    have hlast := inverts_last hb htop
    rwa [UInt8.ofNat_toNat] at hlast
  | @more b n c hb hc ih =>
    have hlt := b.toNat_lt
    have hpos := List.length_pos_iff.2 hc.ne_nil
    rw [List.length_cons] at hlength
    obtain ⟨less, rfl⟩ : ∃ less, more = less + 1 := ⟨more - 1, by omega⟩
    have hlow : n < (top + 1) * 128 ^ less := by
      rw [Nat.pow_succ, ← Nat.mul_assoc] at hn
      omega
    have hdigit : b.toNat - 128 < 128 := by omega
    have hmore := inverts_more hdigit (ih (Nat.le_of_succ_le_succ hlength) hlow)
    rwa [Nat.sub_add_cancel hb, UInt8.ofNat_toNat] at hmore

theorem inverts_getVarint_iff {n : Nat} {c : Bytes} :
    Inverts (getVarint top (more + 1)) c n ↔
      Numeral n c ∧ c.length ≤ more + 1 ∧ n < (top + 1) * 128 ^ more := by
  constructor
  · intro h
    obtain ⟨c', hc', -, hform⟩ := settled_getVarint.accepts (c ++ []) n [] (h.whole [])
    rw [List.append_nil, List.append_nil] at hc'
    exact hc' ▸ hform
  · rintro ⟨hnumeral, hlength, hn⟩
    exact hnumeral.inverts hlength hn

end

theorem settled_getWord : Settled getWord fun n c => Shortest (putVarint n) c ∧ n < 2 ^ 64 := by
  have h := @settled_getVarint 1 9
  refine ⟨fun bs n rest hn => ?_, h.refuses⟩
  obtain ⟨c, hbs, hc, hnumeral, -, hlt⟩ := h.accepts bs n rest hn
  exact ⟨c, hbs, hc, hnumeral.shortest, hlt⟩

theorem settled_getHalfWord : Settled getHalfWord fun n c => Shortest (putVarint n) c := by
  have h := @settled_getVarint 15 4
  refine ⟨fun bs n rest hn => ?_, h.refuses⟩
  obtain ⟨c, hbs, hc, hnumeral, -⟩ := h.accepts bs n rest hn
  exact ⟨c, hbs, hc, hnumeral.shortest⟩

theorem zigzag_unzigzag {k : Nat} (hk : k < 2 ^ 64) :
    zigzag (Int64.ofInt (unzigzag k)).toInt = k := by
  have hrange : -2 ^ 63 ≤ unzigzag k ∧ unzigzag k < 2 ^ 63 := by
    rw [unzigzag]
    split
    · rw [Int.ofNat_eq_natCast]
      omega
    · rw [Int.negSucc_eq]
      omega
  rw [Int64.toInt_ofInt_of_le hrange.1 hrange.2, unzigzag]
  split
  · rw [zigzag]
    omega
  · rw [zigzag]
    omega

theorem toUTF8_of_fromUTF8? {bs : Bytes} {s : String}
    (h : String.fromUTF8? ⟨bs.toArray⟩ = some s) : s.toUTF8.data.toList = bs := by
  rw [String.fromUTF8?] at h
  split at h
  · cases h
    rfl
  · cases h

theorem settled_getText : Settled getText fun s c => Shortest (putText s) c := by
  rw [getText]
  refine settled_getWord.bind fun n => (settled_getBytes n).bind fun bs => ?_
  split
  · next s hs =>
    refine .pure ?_
    rintro c' ⟨hc', rfl⟩ c ⟨hc, -⟩
    have hbytes := toUTF8_of_fromUTF8? hs
    have hsize : s.utf8ByteSize = bs.length := by
      rw [← hbytes, Array.length_toList]
      rfl
    rw [List.append_nil, putText, hbytes, hsize, hc']
    exact hc.append (.refl bs)
  · exact .throw _

section

variable {get : Reader α} {put : α → Bytes}

theorem settled_getMany (h : Settled get fun a c => Shortest (put a) c) (n : Nat) :
    Settled (getMany get n) fun xs c => xs.length = n ∧ Shortest (xs.flatMap put) c := by
  induction n with
  | zero => exact .pure ⟨rfl, .refl []⟩
  | succ n ih =>
    refine h.bind fun x => ih.map ?_
    rintro xs c' ⟨rfl, hxs⟩ c hx
    exact ⟨rfl, hx.append hxs⟩

theorem settled_getList (h : Settled get fun a c => Shortest (put a) c) :
    Settled (getList get) fun xs c => Shortest (putList put xs) c := by
  refine settled_getWord.bind fun n => ?_
  have hmany := settled_getMany h n
  refine ⟨fun bs xs rest hxs => ?_, hmany.refuses⟩
  obtain ⟨c', hbs, hinverts, rfl, hc'⟩ := hmany.accepts bs xs rest hxs
  exact ⟨c', hbs, hinverts, fun c hc => hc.1.append hc'⟩

end

theorem settled_getSlot : Settled getSlot fun slot c => Shortest (putSlot slot) c := by
  rw [getSlot]
  refine settled_getHalfWord.bind fun tag => ?_
  split
  · refine settled_getByte.map ?_
    rintro b c' rfl c hc
    exact hc.append (.refl [b])
  · refine settled_getWord.map ?_
    rintro k c' ⟨hk, hlt⟩ c hc
    rw [putSlot, zigzag_unzigzag hlt]
    exact hc.append hk
  · exact settled_getText.map fun s c' hs c hc => hc.append hs
  · exact settled_getText.map fun s c' hs c hc => hc.append hs
  · exact settled_getWord.map fun a c' ha c hc => hc.append ha.1
  · exact settled_getWord.map fun id c' hid c hc => hc.append hid.1
  · exact .throw _

theorem settled_getProgram : Settled getProgram fun p c => Shortest (encode p) c := by
  rw [getProgram]
  refine (settled_getList (settled_getList settled_getSlot)).map fun code c hc => ?_
  have hput : encode ⟨(code.map List.toArray).toArray⟩ =
      putList (fun slots => putList putSlot slots) code := by
    simp [encode, putList, List.flatMap_map]
  rwa [hput]

theorem decode_eq_ok_iff {bs : Bytes} {p : Program} :
    decode bs = .ok p ↔ ∃ rest, getProgram bs = .ok (p, rest) := by
  simp only [decode, StateT.run]
  cases getProgram bs with
  | error e => simp [bind, Except.bind]
  | ok r => simp [bind, Except.bind, pure, Except.pure, Prod.ext_iff]

theorem decode_eq_error_iff {bs : Bytes} {e : Error} :
    decode bs = .error e ↔ getProgram bs = .error e := by
  simp only [decode, StateT.run]
  cases getProgram bs with
  | error e' => simp [bind, Except.bind]
  | ok r => simp [bind, Except.bind, pure, Except.pure]

/-- A program that is read has been taken from certain bytes at the front, which settle it, and
the image that is written for it is the shortest such bytes; and a fault stays whatever follows.
The bytes may be longer where a number in them is in groups of seven bits, within ten bytes, or
five where it tells the kind of a slot. -/
theorem decode_canonical (bs : Bytes) :
    (∀ p, decode bs = .ok p → ∃ c, c <+: bs ∧ (∀ s, decode (c ++ s) = .ok p) ∧
      (∀ s, s <+: c → s ≠ c → decode s = .error .unexpectedEnd) ∧
      (encode p).length ≤ c.length ∧ ((encode p).length = c.length → c = encode p)) ∧
    (∀ e, decode bs = .error e → e ≠ .unexpectedEnd → ∀ s, decode (bs ++ s) = .error e) ∧
    ∀ n c, (Inverts getWord c n ↔ Numeral n c ∧ c.length ≤ 10 ∧ n < 2 ^ 64) ∧
      (Inverts getHalfWord c n ↔ Numeral n c ∧ c.length ≤ 5 ∧ n < 2 ^ 32) := by
  refine ⟨fun p hp => ?_, fun e he hne s => ?_, fun n c => ⟨?_, ?_⟩⟩
  · obtain ⟨rest, hp⟩ := decode_eq_ok_iff.1 hp
    obtain ⟨c, rfl, hc, hshortest⟩ := settled_getProgram.accepts bs p rest hp
    refine ⟨c, List.prefix_append c rest, fun s => ?_, fun s hs hne => ?_, hshortest⟩
    · exact decode_eq_ok_iff.2 ⟨s, hc.whole s⟩
    · exact decode_eq_error_iff.2 (hc.short s hs hne)
  · rw [decode_eq_error_iff] at he ⊢
    exact settled_getProgram.refuses bs e he hne s
  · exact inverts_getVarint_iff
  · exact inverts_getVarint_iff

/-- One stream with one slot, a number that fits in a byte.  The counts, the kind of the slot and
the number itself take more bytes than they need, and a byte follows. -/
def wordy : Bytes :=
  [0x81, 0x00, 0x81, 0x80, 0x00, 0x81, 0x80, 0x80, 0x80, 0x00, 0x8e, 0x80, 0x80, 0x80, 0x80, 0x80,
    0x80, 0x80, 0x80, 0x00, 0xff]

theorem decode_canonical_wordy :
    decode wordy = .ok ⟨#[#[.number 7]]⟩ ∧
    (∃ c, c <+: wordy ∧ (∀ s, decode (c ++ s) = .ok ⟨#[#[.number 7]]⟩) ∧
      (encode ⟨#[#[.number 7]]⟩).length ≤ c.length) ∧
    decode [1, 1, 6] = .error .unknownVariant ∧
    ∀ s, decode ([1, 1, 6] ++ s) = .error .unknownVariant := by
  have hp : decode wordy = .ok ⟨#[#[.number 7]]⟩ := by decide +kernel
  have he : decode [1, 1, 6] = .error .unknownVariant := by decide +kernel
  obtain ⟨c, hprefix, hwhole, -, hle, -⟩ := (decode_canonical wordy).1 _ hp
  exact ⟨hp, ⟨c, hprefix, hwhole, hle⟩, he, (decode_canonical [1, 1, 6]).2.1 _ he (by decide)⟩

end Image

end Scriptlet
