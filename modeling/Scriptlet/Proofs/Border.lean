import Mathlib
import Scriptlet.Table

/-! The sequence part of a table.  A table that comes of an empty one by storing and sorting has
no key twice and no nil, in whatever order its entries are listed.  So the keys above zero can be
put in strictly ascending order, and the scan that counts them stops at the first gap, before
its numbers run out. -/

namespace Scriptlet

namespace Table

variable {t t' : Table} {k k' : Key} {v : Value}

def keys (t : Table) : List Key := t.entries.map (·.1)

theorem lookup_filter (es : List (Key × Value)) (k k' : Key) :
    (es.filter (·.1 ≠ k)).lookup k' = if k' = k then none else es.lookup k' := by
  induction es with
  | nil => simp
  | cons e es ih =>
    obtain ⟨x, w⟩ := e
    by_cases hx : x = k
    · subst hx
      rw [List.filter_cons_of_neg (by simp), ih, List.lookup_cons]
      by_cases hk : k' = x
      · simp [hk]
      · simp [hk, beq_eq_false_iff_ne.2 hk]
    · rw [List.filter_cons_of_pos (by simpa using hx), List.lookup_cons, List.lookup_cons, ih]
      by_cases hk : k' = k
      · subst hk
        simp [beq_eq_false_iff_ne.2 (Ne.symm hx)]
      · simp [hk]

theorem get_set_self (t : Table) (k : Key) (v : Value) : (t.set k v).get k = v := by
  simp only [set, get]
  cases v with
  | nil => simp only [Value.isNil, if_true, lookup_filter, Option.getD_none]
  | _ => simp [Value.isNil]

theorem get_set_of_ne (t : Table) (h : k' ≠ k) (v : Value) : (t.set k v).get k' = t.get k' := by
  have hothers : (t.entries.filter (·.1 ≠ k)).lookup k' = t.entries.lookup k' := by
    rw [lookup_filter, if_neg h]
  simp only [set, get]
  cases v with
  | nil => simp only [Value.isNil, if_true, hothers]
  | _ =>
    simp only [Value.isNil, Bool.false_eq_true, if_false, List.lookup_cons,
      beq_eq_false_iff_ne.2 h, hothers]

theorem mem_keys_iff : k ∈ t.keys ↔ ∃ v, (k, v) ∈ t.entries := by
  simp [keys]

theorem mem_keys_set_self : k ∈ (t.set k v).keys ↔ v ≠ .nil := by
  cases v <;> simp [mem_keys_iff, set, Value.isNil]

theorem mem_keys_set_of_ne (h : k' ≠ k) : k' ∈ (t.set k v).keys ↔ k' ∈ t.keys := by
  cases v <;> simp [mem_keys_iff, set, Value.isNil, h]

structure Proper (t : Table) : Prop where
  distinct : t.keys.Nodup
  valued : ∀ e ∈ t.entries, e.2 ≠ .nil

theorem proper_empty : empty.Proper := ⟨List.nodup_nil, by simp [empty]⟩

namespace Proper

theorem set (h : t.Proper) (k : Key) (v : Value) : (t.set k v).Proper := by
  have hothers : ((t.entries.filter (·.1 ≠ k)).map (·.1)).Nodup :=
    h.distinct.sublist (List.filter_sublist.map _)
  have hvalued : ∀ e ∈ t.entries.filter (·.1 ≠ k), e.2 ≠ .nil :=
    fun e he => h.valued e (List.mem_filter.1 he).1
  unfold Table.set
  by_cases hv : v.isNil
  · simp only [hv, if_true]
    exact ⟨hothers, hvalued⟩
  · simp only [hv]
    refine ⟨List.nodup_cons.2 ⟨?_, hothers⟩, List.forall_mem_cons.2 ⟨?_, hvalued⟩⟩
    · simp
    · rintro rfl
      exact hv rfl

theorem store (h : t.Proper) (entries : List (Key × Value)) : (t.store entries).Proper := by
  induction entries generalizing t with
  | nil => exact h
  | cons e entries ih => exact ih (h.set e.1 e.2)

theorem sort (h : t.Proper) (hs : t.sort = .ok () t') : t'.Proper := by
  simp only [Table.sort] at hs
  split at hs
  · cases hs
  · cases hs
    exact h.store _

theorem perm (h : t.Proper) {es : List (Key × Value)} (hes : es.Perm t.entries) :
    Proper ⟨es⟩ :=
  ⟨(hes.map Prod.fst).nodup_iff.2 h.distinct, fun e he => h.valued e (hes.mem_iff.1 he)⟩

theorem get_ne_nil_iff (h : t.Proper) : t.get k ≠ .nil ↔ k ∈ t.keys := by
  rw [get, mem_keys_iff]
  cases hl : t.entries.lookup k with
  | none =>
    rw [List.lookup_eq_none_iff] at hl
    simp only [Option.getD_none, ne_eq, not_true_eq_false, false_iff]
    rintro ⟨v, hv⟩
    simpa using hl _ hv
  | some v =>
    have hv : (k, v) ∈ t.entries := by
      obtain ⟨l₁, l₂, he, -⟩ := List.lookup_eq_some_iff.1 hl
      simp [he]
    exact ⟨fun _ => ⟨v, hv⟩, fun _ => h.valued _ hv⟩

end Proper

/-- The tables that come of an empty one by storing and by sorting; a sort that fails leaves its
table as it is.  The entries of a table may be listed in another order at any time. -/
inductive Reached : Table → Prop
  | empty : Reached empty
  | set {t : Table} (k : Key) (v : Value) : Reached t → Reached (t.set k v)
  | sorted {t t' : Table} : Reached t → t.sort = .ok () t' → Reached t'
  | listed {t : Table} {es : List (Key × Value)} : Reached t → es.Perm t.entries → Reached ⟨es⟩

theorem Reached.proper (h : t.Reached) : t.Proper := by
  induction h with
  | empty => exact proper_empty
  | set k v _ ih => exact ih.set k v
  | sorted _ hs ih => exact ih.sort hs
  | listed _ hes ih => exact ih.perm hes

theorem Reached.store (h : t.Reached) (es : List (Key × Value)) : (t.store es).Reached := by
  induction es generalizing t with
  | nil => exact h
  | cons e es ih => exact ih (h.set e.1 e.2)

theorem reached_ofList (es : List (Key × Value)) : (ofList es).Reached := Reached.empty.store es

theorem toInt_add_one {n : Int64} (h : n ≠ Int64.maxValue) : (n + 1).toInt = n.toInt + 1 := by
  have hlow := n.le_toInt
  have hhigh := n.toInt_le
  have hne := mt Int64.toInt_inj.1 h
  rw [Int64.toInt_maxValue] at hhigh hne
  rw [Int64.toInt_add, Int64.toInt_one]
  exact Int.bmod_eq_of_le (by omega) (by omega)

theorem ne_maxValue_of_lt {n k : Int64} (h : n < k) : n ≠ Int64.maxValue := by
  rintro rfl
  exact absurd k.toInt_le (Int.not_le.2 (Int64.lt_iff_toInt_lt.1 h))

theorem runFrom_spec {n : Int64} {ks : List Int64} (h : (n :: ks).Pairwise (· < ·)) :
    n.toInt ≤ (runFrom n ks).toInt ∧
    (∀ k : Int64, n.toInt < k.toInt → k.toInt ≤ (runFrom n ks).toInt → k ∈ ks) ∧
    ∀ k ∈ ks, k.toInt ≠ (runFrom n ks).toInt + 1 := by
  induction ks generalizing n with
  | nil =>
    refine ⟨Int.le_refl _, fun k hk hle => ?_, by simp⟩
    exact absurd hle (Int.not_le.2 hk)
  | cons k ks ih =>
    obtain ⟨hn, hks⟩ := List.pairwise_cons.1 h
    have hnk := hn k List.mem_cons_self
    have hsucc := toInt_add_one (ne_maxValue_of_lt hnk)
    rw [runFrom]
    split
    · next heq =>
      rw [← heq] at hsucc
      obtain ⟨hle, hin, hout⟩ := ih hks
      refine ⟨by omega, fun j hj hjle => ?_, List.forall_mem_cons.2 ⟨by omega, hout⟩⟩
      by_cases hjk : j.toInt = k.toInt
      · rw [Int64.toInt_inj.1 hjk]
        exact List.mem_cons_self
      · exact List.mem_cons_of_mem k (hin j (by omega) hjle)
    · next hne =>
      have hnk := Int64.lt_iff_toInt_lt.1 hnk
      have hgap : k.toInt ≠ n.toInt + 1 := fun heq => hne (Int64.toInt_inj.1 (heq.trans hsucc.symm))
      refine ⟨Int.le_refl _, fun j hj hjle => absurd hjle (Int.not_le.2 hj), ?_⟩
      refine List.forall_mem_cons.2 ⟨hgap, fun j hj => ?_⟩
      have := Int64.lt_iff_toInt_lt.1 ((List.pairwise_cons.1 hks).1 j hj)
      omega

def runFrom? (n : Int64) : List Int64 → Option Int64
  | [] => some n
  | k :: ks =>
    if n = Int64.maxValue then none else if k = n + 1 then runFrom? k ks else some n

theorem runFrom?_eq_some {n : Int64} {ks : List Int64} (h : (n :: ks).Pairwise (· < ·)) :
    runFrom? n ks = some (runFrom n ks) := by
  induction ks generalizing n with
  | nil => rfl
  | cons k ks ih =>
    obtain ⟨hn, hks⟩ := List.pairwise_cons.1 h
    rw [runFrom?, runFrom, if_neg (ne_maxValue_of_lt (hn k List.mem_cons_self))]
    split
    · exact ih hks
    · rfl

def PresentAt (t : Table) (i : Int) : Prop := ∃ n : Int64, n.toInt = i ∧ .number n ∈ t.keys

theorem mem_positive_iff {n : Int64} :
    n ∈ t.entries.filterMap positiveKey? ↔ 0 < n ∧ .number n ∈ t.keys := by
  rw [List.mem_filterMap, mem_keys_iff]
  constructor
  · rintro ⟨⟨k, v⟩, he, hn⟩
    cases k with
    | number m =>
      simp only [positiveKey?, Option.ite_none_right_eq_some, Option.some.injEq] at hn
      obtain ⟨hm, rfl⟩ := hn
      exact ⟨hm, v, he⟩
    | string s => cases hn
  · rintro ⟨hn, v, he⟩
    exact ⟨_, he, by simp [positiveKey?, hn]⟩

structure IsBorder (t : Table) (n : Int) : Prop where
  nonneg : 0 ≤ n
  within : ∀ i, 1 ≤ i → i ≤ n → t.PresentAt i
  gap : ¬ t.PresentAt (n + 1)

theorem IsBorder.le {n m : Int} (h : t.IsBorder n) (h' : t.IsBorder m) : n ≤ m := by
  apply Int.not_lt.1
  intro hlt
  have := h'.nonneg
  exact h'.gap (h.within (m + 1) (by omega) (by omega))

theorem positiveKey?_eq_some {e : Key × Value} {n : Int64} (h : positiveKey? e = some n) :
    e.1 = .number n := by
  obtain ⟨k, v⟩ := e
  cases k with
  | number m =>
    simp only [positiveKey?, Option.ite_none_right_eq_some, Option.some.injEq] at h
    rw [h.2]
  | string s => cases h

theorem pairwise_mergeSort_le {α : Type} [LE α] [DecidableLE α]
    (htrans : ∀ a b c : α, a ≤ b → b ≤ c → a ≤ c) (htotal : ∀ a b : α, a ≤ b ∨ b ≤ a)
    (as : List α) : (as.mergeSort (· ≤ ·)).Pairwise (· ≤ ·) := by
  have hsorted : (as.mergeSort (· ≤ ·)).Pairwise fun a b => decide (a ≤ b) = true := by
    refine List.pairwise_mergeSort (fun a b c hab hbc => ?_) (fun a b => ?_) as
    · simp only [decide_eq_true_eq] at *
      exact htrans a b c hab hbc
    · simpa using htotal a b
  exact hsorted.imp of_decide_eq_true

namespace Proper

theorem nodup_positive (h : t.Proper) : (t.entries.filterMap positiveKey?).Nodup := by
  have hkeys : t.entries.Pairwise fun a b => a.1 ≠ b.1 := List.pairwise_map.1 h.distinct
  refine List.Pairwise.filterMap _ (fun a b hab n hn m hm => ?_) hkeys
  rintro rfl
  exact hab ((positiveKey?_eq_some hn).trans (positiveKey?_eq_some hm).symm)

theorem pairwise_positive (h : t.Proper) :
    (0 :: (t.entries.filterMap positiveKey?).mergeSort (· ≤ ·)).Pairwise (· < ·) := by
  refine List.pairwise_cons.2 ⟨fun n hn => ?_, ?_⟩
  · exact (mem_positive_iff.1 (List.mem_mergeSort.1 hn)).1
  · have hle := pairwise_mergeSort_le (fun a b c => Int64.le_trans) Int64.le_total
      (t.entries.filterMap positiveKey?)
    have hne := (List.mergeSort_perm (t.entries.filterMap positiveKey?)
      (fun a b => decide (a ≤ b))).nodup_iff.2 h.nodup_positive
    refine (hle.and hne).imp fun hab => ?_
    exact Int64.lt_of_le_of_ne hab.1 hab.2

theorem isBorder (h : t.Proper) : t.IsBorder t.border.toInt := by
  obtain ⟨hle, hin, hout⟩ := runFrom_spec h.pairwise_positive
  rw [Int64.toInt_zero] at hle hin
  have hmax := t.border.toInt_lt
  refine ⟨hle, fun i hi hib => ?_, ?_⟩
  · have hi' : (Int64.ofInt i).toInt = i := Int64.toInt_ofInt_of_le (by omega) (by omega)
    have hmem := hin (Int64.ofInt i) (by omega) (by rwa [hi'])
    exact ⟨_, hi', (mem_positive_iff.1 (List.mem_mergeSort.1 hmem)).2⟩
  · rintro ⟨n, hn, hk⟩
    have hpos : 0 < n := by
      rw [Int64.lt_iff_toInt_lt, Int64.toInt_zero, hn]
      exact Int.lt_add_one_of_le hle
    exact hout n (List.mem_mergeSort.2 (mem_positive_iff.2 ⟨hpos, hk⟩)) hn

theorem isBorder_iff (h : t.Proper) {n : Int} : t.IsBorder n ↔ n = t.border.toInt := by
  constructor
  · intro hn
    exact Int.le_antisymm (hn.le h.isBorder) (h.isBorder.le hn)
  · rintro rfl
    exact h.isBorder

theorem border_eq (h : t.Proper) (h' : t'.Proper)
    (hk : ∀ i, 1 ≤ i → i ≤ t.border.toInt + 1 → (t'.PresentAt i ↔ t.PresentAt i)) :
    t'.border = t.border := by
  have hb := h.isBorder
  have hb' : t'.IsBorder t.border.toInt := by
    have := hb.nonneg
    refine ⟨hb.nonneg, fun i hi hle => (hk i hi (by omega)).2 (hb.within i hi hle), ?_⟩
    rw [hk _ (by omega) (Int.le_refl _)]
    exact hb.gap
  exact Int64.toInt_inj.1 (h'.isBorder_iff.1 hb').symm

end Proper

def border? (t : Table) : Option Int64 :=
  runFrom? 0 ((t.entries.filterMap positiveKey?).mergeSort (· ≤ ·))

def Outside (t : Table) (k : Key) : Prop :=
  ∀ n, k = .number n → n.toInt < 1 ∨ t.border.toInt + 1 < n.toInt

theorem presentAt_set_iff (hk : t.Outside k) (v : Value) {i : Int} (hi : 1 ≤ i)
    (hle : i ≤ t.border.toInt + 1) : (t.set k v).PresentAt i ↔ t.PresentAt i := by
  have hne {n : Int64} (hn : n.toInt = i) : Key.number n ≠ k := by
    rintro rfl
    have := hk n rfl
    omega
  constructor
  · rintro ⟨n, hn, hmem⟩
    exact ⟨n, hn, (mem_keys_set_of_ne (hne hn)).1 hmem⟩
  · rintro ⟨n, hn, hmem⟩
    exact ⟨n, hn, (mem_keys_set_of_ne (hne hn)).2 hmem⟩

/-- Whatever is done to a table, and in whatever order its entries are listed: it holds no nil;
its border is the only number up to which all keys are there and the next is not, and is found
without leaving the range; and only the keys up to the one behind it can change it. -/
theorem border_exact (h : t.Reached) :
    (∀ e ∈ t.entries, e.2 ≠ .nil) ∧
    (∀ n, t.IsBorder n ↔ n = t.border.toInt) ∧
    (∀ es, es.Perm t.entries → border ⟨es⟩ = t.border ∧ border? ⟨es⟩ = some t.border) ∧
    ∀ k v, t.Outside k → (t.set k v).border = t.border := by
  have hp := h.proper
  refine ⟨hp.valued, fun n => hp.isBorder_iff, fun es hes => ?_, fun k v hk => ?_⟩
  · have hes' := hp.perm hes
    have heq : border ⟨es⟩ = t.border := by
      refine hp.border_eq hes' fun i _ _ => ?_
      simp only [PresentAt, keys, (hes.map Prod.fst).mem_iff]
    exact ⟨heq, by rw [border?, runFrom?_eq_some hes'.pairwise_positive, ← heq, border]⟩
  · exact hp.border_eq (hp.set k v) fun i => presentAt_set_iff hk v

theorem border_exact_ends :
    let before := ofList [(.number 3, .boolean true), (.number Int64.maxValue, .number 7),
      (.string "n", .number 1), (.number 2, .number 4), (.number 3, .nil),
      (.number Int64.minValue, .number 0), (.number 1, .number 9)]
    ∃ t, before.sort = .ok () t ∧ t.Reached ∧ .number Int64.maxValue ∈ t.keys ∧
      t.IsBorder 2 ∧ border? ⟨t.entries.reverse⟩ = some 2 ∧
      (t.set (.number Int64.maxValue) .nil).border = 2 ∧ (t.set (.string "n") .nil).border = 2 := by
  intro before
  have hsorted : before.sort = .ok ()
      ⟨[(.number 2, .number 9), (.number 1, .number 4), (.number Int64.minValue, .number 0),
        (.string "n", .number 1), (.number Int64.maxValue, .number 7)]⟩ := by
    cbv
  have h := (reached_ofList _).sorted hsorted
  have htwo : border ⟨[(.number 2, .number 9), (.number 1, .number 4),
      (.number Int64.minValue, .number 0), (.string "n", .number 1),
      (.number Int64.maxValue, .number 7)]⟩ = 2 := by
    cbv
  obtain ⟨-, hborder, hlisted, houtside⟩ := border_exact h
  rw [htwo] at hborder hlisted houtside
  refine ⟨_, hsorted, h, by decide, (hborder 2).2 (by decide), ?_, ?_, ?_⟩
  · exact (hlisted _ (List.reverse_perm _)).2
  · refine houtside _ _ fun n hn => ?_
    cases hn
    rw [htwo]
    decide
  · refine houtside _ _ fun n hn => ?_
    cases hn

end Table

end Scriptlet
