import Scriptlet.Proofs.Transition
import Scriptlet.Proofs.Border
import Scriptlet.Proofs.ByteOrder

/-! Sorting the sequence part of a table.  Only neighbours are compared before a sort, but values
compare with each other if they are of one kind, numbers or strings, so neighbours tell of the
whole sequence.  Among values of one such kind the order of the sort is total; the values are then
stored under the keys that they came from. -/

namespace Scriptlet

namespace Value

variable {a b c : Value}

def Comparable (a b : Value) : Prop := a.kind = b.kind ∧ (a.kind = .number ∨ a.kind = .string)

theorem compare?_isNone_iff : (a.compare? b).isNone = true ↔ ¬ Comparable a b := by
  cases a <;> cases b <;> simp [compare?, Comparable, kind]

theorem Comparable.of_left (hb : Comparable a b) (hc : Comparable a c) : Comparable b c :=
  ⟨hb.1.symm.trans hc.1, hb.1 ▸ hb.2⟩

/-- Two numbers, or two strings by their bytes, of which the first is not above the second. -/
def Ascends : Value → Value → Prop
  | number a, number b => a.toInt ≤ b.toInt
  | string a, string b => Text.bytes a ≤ Text.bytes b
  | _, _ => False

theorem kind_eq_number_iff : a.kind = .number ↔ ∃ n, number n = a := by
  cases a <;> simp [kind]

theorem kind_eq_string_iff : a.kind = .string ↔ ∃ s, string s = a := by
  cases a <;> simp [kind]

end Value

open Value

namespace Table

variable {t t' : Table} {k : Key} {v : Value}

structure ApartAt (vs : List Value) (i : Nat) (a b : Value) : Prop where
  left : vs[i]? = some a
  right : vs[i + 1]? = some b
  apart : ¬ Comparable a b
  first : ∀ j < i, ∀ a b, vs[j]? = some a → vs[j + 1]? = some b → Comparable a b

theorem uncomparable?_of_comparable {a b : Value} (h : Comparable a b) (vs : List Value) :
    uncomparable? (a :: b :: vs) = uncomparable? (b :: vs) := by
  rw [uncomparable?, if_neg]
  exact fun hnone => compare?_isNone_iff.1 hnone h

theorem uncomparable?_of_not_comparable {a b : Value} (h : ¬ Comparable a b) (vs : List Value) :
    uncomparable? (a :: b :: vs) = some (a.kind, b.kind) := by
  rw [uncomparable?, if_pos (compare?_isNone_iff.2 h)]

theorem uncomparable?_cons_eq_none_iff {a : Value} {vs : List Value} :
    uncomparable? (a :: vs) = none ↔ ∀ b ∈ vs, Comparable a b := by
  induction vs generalizing a with
  | nil => simp [uncomparable?]
  | cons b vs ih =>
    rw [List.forall_mem_cons]
    by_cases hab : Comparable a b
    · rw [uncomparable?_of_comparable hab, ih]
      have hba : Comparable b a := ⟨hab.1.symm, hab.1 ▸ hab.2⟩
      exact ⟨fun h => ⟨hab, fun c hc => hba.of_left (h c hc)⟩,
        fun h c hc => hab.of_left (h.2 c hc)⟩
    · simp [uncomparable?_of_not_comparable hab, hab]

theorem uncomparable?_eq_none_iff {vs : List Value} :
    uncomparable? vs = none ↔
      vs.length ≤ 1 ∨ (∀ v ∈ vs, v.kind = .number) ∨ ∀ v ∈ vs, v.kind = .string := by
  match vs with
  | [] => simp [uncomparable?]
  | [a] => simp [uncomparable?]
  | a :: b :: vs =>
    rw [uncomparable?_cons_eq_none_iff]
    constructor
    · intro h
      have hkind (c : Value) (hc : c ∈ a :: b :: vs) : c.kind = a.kind := by
        rcases List.mem_cons.1 hc with rfl | hc
        · rfl
        · exact (h c hc).1.symm
      refine .inr ((h b List.mem_cons_self).2.imp ?_ ?_)
      · exact fun ha c hc => (hkind c hc).trans ha
      · exact fun ha c hc => (hkind c hc).trans ha
    · rintro (h | h | h) c hc
      · simp at h
      all_goals
        have ha := h a List.mem_cons_self
        have hc := h c (List.mem_cons_of_mem a hc)
        simp [Comparable, ha, hc]

theorem uncomparable?_eq_some_iff {vs : List Value} {l r : ValueKind} :
    uncomparable? vs = some (l, r) ↔ ∃ i a b, ApartAt vs i a b ∧ l = a.kind ∧ r = b.kind := by
  induction vs with
  | nil =>
    simp only [uncomparable?, reduceCtorEq, false_iff]
    rintro ⟨i, a, b, h, -⟩
    simpa using h.left
  | cons a vs ih =>
    cases vs with
    | nil =>
      simp only [uncomparable?, reduceCtorEq, false_iff]
      rintro ⟨i, a, b, h, -⟩
      simpa using h.right
    | cons b vs =>
      -- The neighbours are those in front, or else they are in the rest, one place further on.
      by_cases hab : Comparable a b
      · rw [uncomparable?_of_comparable hab, ih]
        constructor
        · rintro ⟨i, a', b', h, hkinds⟩
          refine ⟨i + 1, a', b', ⟨h.left, h.right, h.apart, fun j hj c d hc hd => ?_⟩, hkinds⟩
          cases j with
          | zero =>
            cases hc
            cases hd
            exact hab
          | succ j => exact h.first j (Nat.lt_of_succ_lt_succ hj) c d hc hd
        · rintro ⟨i, a', b', h, hkinds⟩
          cases i with
          | zero =>
            cases h.left
            cases h.right
            exact absurd hab h.apart
          | succ i =>
            refine ⟨i, a', b', ⟨h.left, h.right, h.apart, fun j hj c d hc hd => ?_⟩, hkinds⟩
            exact h.first (j + 1) (Nat.succ_lt_succ hj) c d hc hd
      · rw [uncomparable?_of_not_comparable hab]
        constructor
        · intro h
          cases h
          exact ⟨0, a, b, ⟨rfl, rfl, hab, fun j hj => absurd hj j.not_lt_zero⟩, rfl, rfl⟩
        · rintro ⟨i, a', b', h, rfl, rfl⟩
          cases i with
          | zero =>
            cases h.left
            cases h.right
            rfl
          | succ i => exact absurd (h.first 0 i.succ_pos a b rfl rfl) hab

theorem exists_map_eq {α β : Type} {f : α → β} {bs : List β} (h : ∀ b ∈ bs, ∃ a, f a = b) :
    ∃ as : List α, as.map f = bs := by
  induction bs with
  | nil => exact ⟨[], rfl⟩
  | cons b bs ih =>
    obtain ⟨⟨a, ha⟩, hbs⟩ := List.forall_mem_cons.1 h
    obtain ⟨as, has⟩ := ih hbs
    exact ⟨a :: as, by rw [List.map_cons, ha, has]⟩

theorem pairwise_mergeSort_map {α : Type} [LE α] [DecidableLE α] {f : α → Value}
    (htrans : ∀ a b c : α, a ≤ b → b ≤ c → a ≤ c) (htotal : ∀ a b : α, a ≤ b ∨ b ≤ a)
    (hnotAbove : ∀ a b, notAbove (f a) (f b) = true ↔ a ≤ b)
    (hascends : ∀ a b, Ascends (f a) (f b) ↔ a ≤ b) (as : List α) :
    ((as.map f).mergeSort notAbove).Pairwise Ascends := by
  have hmap := List.map_mergeSort (r := fun a b => decide (a ≤ b)) (s := notAbove) (f := f)
    (l := as) fun a _ b _ => by rw [Bool.eq_iff_iff, hnotAbove, decide_eq_true_iff]
  rw [← hmap, List.pairwise_map]
  exact (pairwise_mergeSort_le htrans htotal as).imp (hascends _ _).2

theorem notAbove_number (a b : Int64) : notAbove (.number a) (.number b) = true ↔ a ≤ b := by
  rw [← Std.isLE_compare, Ordering.isLE_iff_ne_gt]
  simp [notAbove, compare?]

theorem notAbove_string (a b : String) : notAbove (.string a) (.string b) = true ↔ a ≤ b := by
  have hle : (compareOfLessAndEq a b).isLE = true ↔ a ≤ b :=
    isLE_compareOfLessAndEq String.le_antisymm String.not_le String.le_total
  rw [← hle, Ordering.isLE_iff_ne_gt]
  simp [notAbove, compare?, compare, String.compare]

theorem pairwise_mergeSort_notAbove {vs : List Value} (h : uncomparable? vs = none) :
    (vs.mergeSort notAbove).Pairwise Ascends := by
  rcases uncomparable?_eq_none_iff.1 h with h | h | h
  · match vs with
    | [] => simp
    | [a] => simp
  · obtain ⟨ns, rfl⟩ := exists_map_eq fun v hv => kind_eq_number_iff.1 (h v hv)
    exact pairwise_mergeSort_map (fun a b c => Int64.le_trans) Int64.le_total notAbove_number
      (fun a b => Int64.le_iff_toInt_le.symm) ns
  · obtain ⟨ss, rfl⟩ := exists_map_eq fun v hv => kind_eq_string_iff.1 (h v hv)
    exact pairwise_mergeSort_map (fun a b c => String.le_trans) String.le_total notAbove_string
      (fun a b => Text.bytes_le_iff) ss

theorem get_store_of_not_mem {es : List (Key × Value)} (h : k ∉ es.map (·.1)) :
    (t.store es).get k = t.get k := by
  induction es generalizing t with
  | nil => rfl
  | cons e es ih =>
    obtain ⟨hk, hks⟩ := not_or.1 (mt List.mem_cons.2 h)
    exact (ih hks).trans (get_set_of_ne t hk e.2)

theorem map_get_store {es : List (Key × Value)} (h : (es.map (·.1)).Nodup) :
    (es.map (·.1)).map (t.store es).get = es.map (·.2) := by
  induction es generalizing t with
  | nil => rfl
  | cons e es ih =>
    obtain ⟨he, hes⟩ := List.nodup_cons.1 h
    simp only [List.map_cons, List.cons.injEq]
    exact ⟨(get_store_of_not_mem he).trans (get_set_self t e.1 e.2), ih hes⟩

theorem mem_keys_store {es : List (Key × Value)} (h : ∀ e ∈ es, e.1 ∈ t.keys ∧ e.2 ≠ .nil) :
    k ∈ (t.store es).keys ↔ k ∈ t.keys := by
  induction es generalizing t with
  | nil => exact .rfl
  | cons e es ih =>
    obtain ⟨⟨hk, hv⟩, hes⟩ := List.forall_mem_cons.1 h
    have hset (k : Key) : k ∈ (t.set e.1 e.2).keys ↔ k ∈ t.keys := by
      by_cases heq : k = e.1
      · rw [heq, mem_keys_set_self]
        exact ⟨fun _ => hk, fun _ => hv⟩
      · exact mem_keys_set_of_ne heq
    exact (ih fun e he => ⟨(hset e.1).2 (hes e he).1, (hes e he).2⟩).trans (hset k)

def sequence (t : Table) : List Value := t.sequenceKeys.map t.get

def InSequence (t : Table) (k : Key) : Prop :=
  ∃ n : Int64, k = .number n ∧ 1 ≤ n.toInt ∧ n.toInt ≤ t.border.toInt

theorem toInt_ofNat_of_le {i : Nat} {n : Int64} (h : (i : Int) ≤ n.toInt) :
    (Int64.ofNat i).toInt = i := by
  have := n.toInt_lt
  exact Int64.toInt_ofNat_of_lt (by omega)

theorem mem_sequenceKeys : k ∈ t.sequenceKeys ↔ t.InSequence k := by
  rw [sequenceKeys, List.mem_map]
  constructor
  · rintro ⟨i, hi, rfl⟩
    have hi := List.mem_range.1 hi
    have hle : ((i + 1 : Nat) : Int) ≤ t.border.toInt := by omega
    have heq := toInt_ofNat_of_le hle
    exact ⟨_, rfl, by omega, by omega⟩
  · rintro ⟨n, rfl, hpos, hle⟩
    refine ⟨n.toInt.toNat - 1, List.mem_range.2 (by omega), ?_⟩
    have hn : ((n.toInt.toNat - 1 + 1 : Nat) : Int) = n.toInt := by omega
    rw [Key.number.injEq, ← Int64.toInt_inj, toInt_ofNat_of_le (n := n) (by omega), hn]

theorem nodup_sequenceKeys (t : Table) : t.sequenceKeys.Nodup := by
  refine List.pairwise_map.2 (List.nodup_range.imp_of_mem fun {i j} hi hj hne heq => hne ?_)
  have hi := List.mem_range.1 hi
  have hj := List.mem_range.1 hj
  have heq := congrArg Int64.toInt (Key.number.inj heq)
  rw [toInt_ofNat_of_le (n := t.border) (by omega), toInt_ofNat_of_le (n := t.border) (by omega)]
    at heq
  omega

theorem length_sequence (t : Table) : t.sequence.length = t.border.toInt.toNat := by
  simp [sequence, sequenceKeys]

theorem mem_keys_of_mem_sequenceKeys (h : t.Proper) (hk : k ∈ t.sequenceKeys) : k ∈ t.keys := by
  obtain ⟨n, rfl, hpos, hle⟩ := mem_sequenceKeys.1 hk
  obtain ⟨m, hm, hkey⟩ := h.isBorder.within n.toInt hpos hle
  rwa [Int64.toInt_inj.1 hm] at hkey

theorem sequence_ne_nil (h : t.Proper) (hv : v ∈ t.sequence) : v ≠ .nil := by
  obtain ⟨k, hk, rfl⟩ := List.mem_map.1 hv
  exact h.get_ne_nil_iff.2 (mem_keys_of_mem_sequenceKeys h hk)

theorem sort_eq_error_iff {kinds : ValueKind × ValueKind} :
    t.sort = .error kinds t' ↔ t' = t ∧ uncomparable? t.sequence = some kinds := by
  rw [sort, sequence]
  cases uncomparable? (t.sequenceKeys.map t.get) <;> simp [eq_comm, and_comm]

theorem sort_eq_ok_iff :
    t.sort = .ok () t' ↔ uncomparable? t.sequence = none ∧
      t.store (t.sequenceKeys.zip (t.sequence.mergeSort notAbove)) = t' := by
  rw [sort, sequence]
  cases uncomparable? (t.sequenceKeys.map t.get) <;> simp

structure SortedFrom (t t' : Table) : Prop where
  rearranged : t'.sequence.Perm t.sequence
  ascending : t'.sequence.Pairwise Ascends
  others : ∀ k, ¬ t.InSequence k → t'.get k = t.get k
  keys : ∀ k, k ∈ t'.keys ↔ k ∈ t.keys
  border : t'.border = t.border

theorem Proper.sortedFrom (h : t.Proper) (hs : t.sort = .ok () t') : t.SortedFrom t' := by
  obtain ⟨hnone, hstore⟩ := sort_eq_ok_iff.1 hs
  have hperm := List.mergeSort_perm t.sequence notAbove
  have hlength : t.sequenceKeys.length = (t.sequence.mergeSort notAbove).length := by
    rw [hperm.length_eq, sequence, List.length_map]
  have hfst := List.map_fst_zip (Nat.le_of_eq hlength)
  have hsnd := List.map_snd_zip (Nat.le_of_eq hlength.symm)
  have hkeys (k : Key) : k ∈ t'.keys ↔ k ∈ t.keys := by
    rw [← hstore]
    refine mem_keys_store fun e he => ⟨?_, ?_⟩
    · exact mem_keys_of_mem_sequenceKeys h (hfst ▸ List.mem_map_of_mem he)
    · exact sequence_ne_nil h (hperm.mem_iff.1 (hsnd ▸ List.mem_map_of_mem he))
  have hborder : t'.border = t.border :=
    h.border_eq (h.sort hs) fun i _ _ => by simp only [PresentAt, hkeys]
  have hsequence : t'.sequence = t.sequence.mergeSort notAbove := by
    have hget := map_get_store (t := t) (hfst.symm ▸ t.nodup_sequenceKeys)
    rw [hfst, hsnd, hstore] at hget
    rw [sequence, sequenceKeys, hborder]
    exact hget
  rw [← hsequence] at hperm
  exact {
    rearranged := hperm
    ascending := hsequence ▸ pairwise_mergeSort_notAbove hnone
    others := fun k hk => hstore ▸ get_store_of_not_mem (hfst.symm ▸ mt mem_sequenceKeys.1 hk)
    keys := hkeys
    border := hborder }

end Table

namespace Machine

theorem callBuiltin_tableSort_of_error {host : Host} {m : Machine} {id : Nat} {vs : List Value}
    {l r : ValueKind} {t : Table} (hm : m.stack = .table id :: vs)
    (hs : (m.table id).sort = .error (l, r) t) :
    callBuiltin host .tableSort m = .error (.uncomparable l r) { m with stack := vs } := by
  let popped : Machine := { m with stack := vs }
  have hpop : popTable m = .ok id popped := by
    rw [popTable, bind_of_ok (pop_of_cons hm)]
    rfl
  cases Table.eq_of_sort_eq_error hs
  have hs : (popped.table id).sort = .error (l, r) (popped.table id) := hs
  rw [callBuiltin, bind_of_ok hpop, bind_of_ok (get_machine popped), hs]
  dsimp only
  rw [bind_of_ok (setTable_table popped id)]
  rfl

end Machine

namespace Table

variable {t t' : Table}

/-- A table can be sorted exactly if its sequence has no two values, or numbers only, or strings
only.  A sort rearranges the sequence in ascending order and does nothing else; one that fails
names the first neighbours that do not compare, and leaves this and all other tables as they
are. -/
theorem sort_exact (h : t.Reached) :
    ((∃ t', t.sort = .ok () t') ↔ t.border.toInt ≤ 1 ∨
      (∀ v ∈ t.sequence, v.kind = .number) ∨ ∀ v ∈ t.sequence, v.kind = .string) ∧
    (∀ t', t.sort = .ok () t' → t.SortedFrom t') ∧
    (∀ l r t', t.sort = .error (l, r) t' ↔
      t' = t ∧ ∃ i a b, ApartAt t.sequence i a b ∧ l = a.kind ∧ r = b.kind) ∧
    ∀ (host : Host) (m : Machine) id vs l r t', m.stack = .table id :: vs → m.table id = t →
      t.sort = .error (l, r) t' →
      m.callBuiltin host .tableSort = .error (.uncomparable l r) { m with stack := vs } := by
  refine ⟨?_, fun t' hs => h.proper.sortedFrom hs, fun l r t' => ?_, ?_⟩
  · have hlength : t.sequence.length ≤ 1 ↔ t.border.toInt ≤ 1 := by
      rw [length_sequence]
      omega
    rw [← hlength, ← uncomparable?_eq_none_iff]
    simp [sort_eq_ok_iff]
  · rw [sort_eq_error_iff, uncomparable?_eq_some_iff]
  · rintro host m id vs l r t' hm rfl hs
    exact Machine.callBuiltin_tableSort_of_error hm hs

theorem sort_exact_instances :
    let words := ofList [(.number 3, .string "a"), (.number 1, .string "é"),
      (.number 2, .string "Z"), (.number 5, .boolean true), (.string "n", .number 1)]
    let mixed := ofList [(.number 1, .number 7), (.number 2, .number 7), (.number 3, .string "x"),
      (.number 4, .boolean true)]
    (∃ t', words.sort = .ok () t' ∧ t'.sequence.Pairwise Ascends ∧
      t'.sequence.Perm [.string "a", .string "é", .string "Z"] ∧
      t'.get (.number 5) = .boolean true ∧ t'.border = 3) ∧
    mixed.sort = .error (.number, .string) mixed := by
  intro words mixed
  have hwords : words.sequence = [.string "é", .string "Z", .string "a"] := by cbv
  have hmixed : mixed.sequence = [.number 7, .number 7, .string "x", .boolean true] := by cbv
  have hborder : words.border = 3 := by cbv
  obtain ⟨hok, hsorted, -⟩ := sort_exact (reached_ofList _ : words.Reached)
  obtain ⟨-, -, herror, -⟩ := sort_exact (reached_ofList _ : mixed.Reached)
  rw [hwords] at hok
  rw [hmixed] at herror
  obtain ⟨t', ht'⟩ := hok.2 (by simp [kind])
  have h := hsorted t' ht'
  refine ⟨⟨t', ht', h.ascending, ?_, ?_, h.border.trans hborder⟩, ?_⟩
  · refine h.rearranged.trans ?_
    rw [hwords]
    decide
  · rw [h.others (.number 5)]
    · rfl
    · rintro ⟨n, hn, -, hle⟩
      cases hn
      rw [hborder] at hle
      exact absurd hle (by decide)
  · refine (herror .number .string mixed).2
      ⟨rfl, 1, .number 7, .string "x", ⟨rfl, rfl, ?_, ?_⟩, rfl, rfl⟩
    · simp [Comparable, kind]
    · intro j hj a b ha hb
      cases Nat.lt_one_iff.1 hj
      cases ha
      cases hb
      simp [Comparable, kind]

end Table

end Scriptlet
