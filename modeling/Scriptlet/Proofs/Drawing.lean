import Mathlib
import Scriptlet.Node.Graph
import Scriptlet.Proofs.Acceptance

/-! The graph of a script is its tree.  Whatever is drawn belongs to one node: its label, the
edges to its operands, and what links the statements of its body.  The lines of a graph are, up
to their order, what the nodes have of their own, taken in pre-order, and the chain of the
script's statements. -/

namespace Scriptlet

namespace Node

def operands : Node → List Node
  | .value _ | .function _ _ _ => []
  | .notEqual lhs rhs => [lhs, rhs]
  | .call _ _ args => args
  | .index _ key => [key]
  | .assign _ target v => [target, v]
  | .ifThen condition _ => [condition]
  | .forLoop initial bound _ => [initial, bound]
  | .ret v => [v]

def body : Node → List Node
  | .ifThen _ body | .forLoop _ _ body | .function _ _ body => body
  | _ => []

theorem operands_append_body (n : Node) : n.operands ++ n.body = n.children := by
  cases n with
  | call r f args => exact List.append_nil args
  | _ => rfl

theorem size_eq (n : Node) : n.size = sizeAll n.children + 1 := by
  cases n <;> simp [size, sizeAll, children] <;> omega

theorem length_preorderAll_of {ns : List Node} (h : ∀ n ∈ ns, n.preorder.length = n.size) :
    (preorderAll ns).length = sizeAll ns := by
  induction ns with
  | nil => rfl
  | cons n ns ih =>
    obtain ⟨hn, hns⟩ := List.forall_mem_cons.1 h
    rw [preorderAll, List.length_append, sizeAll, hn, ih hns]

@[simp] theorem length_preorder (n : Node) : n.preorder.length = n.size := by
  induction n using induction_children with
  | h n ih => rw [preorder_eq, List.length_cons, length_preorderAll_of ih, size_eq]

@[simp] theorem length_preorderAll (ns : List Node) : (preorderAll ns).length = sizeAll ns :=
  length_preorderAll_of fun n _ => length_preorder n

end Node

namespace Graph

open Node

theorem numbers_append (k : Nat) (ms ns : List Node) :
    numbers k (ms ++ ns) = numbers k ms ++ numbers (k + sizeAll ms) ns := by
  induction ms generalizing k with
  | nil => rfl
  | cons m ms ih =>
    rw [List.cons_append, numbers, numbers, ih, sizeAll, Nat.add_assoc, List.cons_append]

def operandNumbers (k : Nat) (n : Node) : List Nat := numbers (k + 1) n.operands

def bodyNumbers (k : Nat) (n : Node) : List Nat :=
  numbers (k + 1 + sizeAll n.operands) n.body

theorem operandNumbers_append (k : Nat) (n : Node) :
    operandNumbers k n ++ bodyNumbers k n = numbers (k + 1) n.children := by
  rw [operandNumbers, bodyNumbers, ← numbers_append, operands_append_body]

def numbered (ns : List Node) : List (Node × Nat) := (preorderAll ns).zipIdx 1

theorem zip_numbers_subset (k : Nat) (ns : List Node) :
    ns.zip (numbers k ns) ⊆ (preorderAll ns).zipIdx k := by
  induction ns generalizing k with
  | nil => exact List.Subset.refl _
  | cons n ns ih =>
    rw [preorderAll, List.zipIdx_append, length_preorder, numbers, List.zip_cons_cons]
    apply List.cons_subset.2
    constructor
    · rw [preorder_eq]
      exact List.mem_append_left _ List.mem_cons_self
    · exact List.subset_append_of_subset_right _ (ih _)

theorem le_of_mem_numbers {k j : Nat} {ns : List Node} (h : j ∈ numbers k ns) : k ≤ j := by
  induction ns generalizing k with
  | nil => cases h
  | cons n ns ih =>
    rcases List.mem_cons.1 h with rfl | h
    · exact Nat.le_refl j
    · exact Nat.le_trans (Nat.le_add_right k n.size) (ih h)

/-- The lines of the node with the number `k` that are about no node below its parts. -/
def own (k : Nat) (n : Node) : List Line :=
  .label k (labelText n) :: ((operandNumbers k n).map (.edge k) ++
    linkBody k (k + 1 + sizeAll n.operands) n.body)

theorem draw_perm (k : Nat) (n : Node) :
    (draw k n).Perm (own k n ++ drawAll (k + 1) n.children) := by
  apply List.perm_iff_count.2
  intro l
  cases n <;>
    simp [draw, own, operandNumbers, operands, body, children, drawAll, numbers, linkBody,
      chain, neighbours, sizeAll, List.count_cons, Nat.add_assoc] <;> omega

theorem drawAll_perm_of {ns : List Node}
    (h : ∀ n ∈ ns, ∀ k, (draw k n).Perm ((n.preorder.zipIdx k).flatMap fun q => own q.2 q.1))
    (k : Nat) :
    (drawAll k ns).Perm (((preorderAll ns).zipIdx k).flatMap fun q => own q.2 q.1) := by
  induction ns generalizing k with
  | nil => exact .refl _
  | cons n ns ih =>
    obtain ⟨hn, hns⟩ := List.forall_mem_cons.1 h
    rw [drawAll, preorderAll, List.zipIdx_append, List.flatMap_append, length_preorder]
    exact (hn k).append (ih hns _)

theorem draw_perm_own (n : Node) (k : Nat) :
    (draw k n).Perm ((n.preorder.zipIdx k).flatMap fun q => own q.2 q.1) := by
  induction n using induction_children generalizing k with
  | h n ih =>
    rw [preorder_eq, List.zipIdx_cons, List.flatMap_cons]
    exact (draw_perm k n).trans (.append_left _ (drawAll_perm_of (fun m hm => ih m hm) _))

theorem ofNodes_perm (ns : List Node) :
    (ofNodes ns).Perm
      ((numbered ns).flatMap (fun q => own q.2 q.1) ++ chain (numbers 1 ns)) := by
  exact (drawAll_perm_of (fun n _ => draw_perm_own n) 1).append_right _

def Line.label? : Line → Option (Nat × String)
  | label k s => some (k, s)
  | edge _ _ | sameRank _ => none

def Line.edge? : Line → Option (Nat × Nat)
  | edge a b => some (a, b)
  | label _ _ | sameRank _ => none

def Line.rank? : Line → Option (List Nat)
  | sameRank ks => some ks
  | label _ _ | edge _ _ => none

theorem Line.edge?_eq_some {l : Line} {a b : Nat} : l.edge? = some (a, b) ↔ l = .edge a b := by
  cases l <;> simp [edge?]

def ifMany (ks : List Nat) : List (List Nat) := if 1 < ks.length then [ks] else []

theorem labels_chain (ks : List Nat) : (chain ks).filterMap Line.label? = [] := by
  unfold chain
  split <;> simp [List.filterMap_cons, Line.label?, Function.comp_def]

theorem edges_chain (ks : List Nat) : (chain ks).filterMap Line.edge? = neighbours ks := by
  unfold chain
  split <;> simp [List.filterMap_cons, Line.edge?, Function.comp_def]

theorem ranks_chain (ks : List Nat) : (chain ks).filterMap Line.rank? = ifMany ks := by
  unfold chain ifMany
  split <;> simp [Line.rank?, Function.comp_def]

theorem labels_own (k : Nat) (n : Node) :
    (own k n).filterMap Line.label? = [(k, labelText n)] := by
  simp [own, linkBody, labels_chain, Line.label?, Function.comp_def]

theorem edges_own (k : Nat) (n : Node) :
    (own k n).filterMap Line.edge? = (operandNumbers k n).map (k, ·) ++
      (neighbours (bodyNumbers k n) ++ ((bodyNumbers k n).head?.map (k, ·)).toList) := by
  have hedge : Line.edge? ∘ Line.edge k = some ∘ (k, ·) := rfl
  simp only [own, linkBody, bodyNumbers, List.filterMap_cons, Line.edge?, List.filterMap_append,
    List.filterMap_map, edges_chain, hedge, List.filterMap_eq_map]
  cases (numbers (k + 1 + sizeAll n.operands) n.body).head? <;> rfl

theorem ranks_own (k : Nat) (n : Node) :
    (own k n).filterMap Line.rank? = ifMany (bodyNumbers k n) := by
  simp [own, linkBody, bodyNumbers, ranks_chain, List.filterMap_cons, Line.rank?,
    Function.comp_def]

theorem map_snd_neighbours (ks : List Nat) : (neighbours ks).map Prod.snd = ks.tail := by
  rw [neighbours, List.map_snd_zip]
  simp

def targets (k : Nat) (n : Node) : List Nat := ((own k n).filterMap Line.edge?).map Prod.snd

theorem targets_perm (k : Nat) (n : Node) : (targets k n).Perm (numbers (k + 1) n.children) := by
  have hsnd : Prod.snd ∘ (k, ·) = (id : Nat → Nat) := rfl
  rw [targets, edges_own, ← operandNumbers_append]
  simp only [List.map_append, List.map_map, map_snd_neighbours, hsnd, List.map_id]
  apply List.Perm.append_left
  cases bodyNumbers k n with
  | nil => exact .refl _
  | cons j js => exact List.perm_append_comm

theorem targetsAll_perm_of {ns : List Node}
    (h : ∀ n ∈ ns, ∀ k, ((n.preorder.zipIdx k).flatMap fun q => targets q.2 q.1).Perm
      (List.range' (k + 1) (sizeAll n.children))) (k : Nat) :
    ((((preorderAll ns).zipIdx k).flatMap fun q => targets q.2 q.1) ++ numbers k ns).Perm
      (List.range' k (sizeAll ns)) := by
  induction ns generalizing k with
  | nil => exact .refl _
  | cons n ns ih =>
    obtain ⟨hn, hns⟩ := List.forall_mem_cons.1 h
    rw [preorderAll, List.zipIdx_append, List.flatMap_append, length_preorder, numbers, sizeAll,
      ← List.range'_append_1, size_eq, List.range'_succ, ← size_eq, List.append_assoc]
    apply (List.perm_middle.append_left _).trans
    apply List.perm_middle.trans
    exact ((hn k).append (ih hns _)).cons k

theorem targets_preorder_perm (n : Node) (k : Nat) :
    ((n.preorder.zipIdx k).flatMap fun q => targets q.2 q.1).Perm
      (List.range' (k + 1) (sizeAll n.children)) := by
  induction n using induction_children generalizing k with
  | h n ih =>
    rw [preorder_eq, List.zipIdx_cons, List.flatMap_cons]
    calc targets k n ++ _
      _ |>.Perm (numbers (k + 1) n.children ++ _) := (targets_perm k n).append_right _
      _ |>.Perm _ := List.perm_append_comm
      _ |>.Perm _ := targetsAll_perm_of (fun m hm => ih m hm) (k + 1)

/-- The node with the number `b` is reached from the one with the number `a`: from the node that
it is an operand of, from the one whose body it begins, or from the statement before it. -/
inductive Origin (ns : List Node) : (a b : Nat) → Prop
  | operand {a b : Nat} {n : Node} : (n, a) ∈ numbered ns → b ∈ operandNumbers a n → Origin ns a b
  | first {a b : Nat} {n : Node} : (n, a) ∈ numbered ns → (bodyNumbers a n).head? = some b →
    Origin ns a b
  | next {a b k : Nat} {n : Node} : (n, k) ∈ numbered ns →
    (a, b) ∈ neighbours (bodyNumbers k n) → Origin ns a b
  | script {a b : Nat} : (a, b) ∈ neighbours (numbers 1 ns) → Origin ns a b

theorem edge_mem_ofNodes_iff {ns : List Node} {a b : Nat} :
    .edge a b ∈ ofNodes ns ↔ Origin ns a b := by
  have hmem : ∀ ls : List Line, .edge a b ∈ ls ↔ (a, b) ∈ ls.filterMap Line.edge? := by
    simp [Line.edge?_eq_some]
  rw [(ofNodes_perm ns).mem_iff, List.mem_append, List.mem_flatMap, hmem (chain _), edges_chain]
  simp only [hmem (own _ _), edges_own, List.mem_append, List.mem_map, Option.mem_toList,
    Option.map_eq_some_iff, Prod.mk.injEq, Prod.exists, exists_eq_right_right]
  constructor
  · rintro (⟨n, k, hn, ⟨hb, rfl⟩ | hb | ⟨hb, rfl⟩⟩ | hb)
    · exact .operand hn hb
    · exact .next hn hb
    · exact .first hn hb
    · exact .script hb
  · rintro (⟨hn, hb⟩ | ⟨hn, hb⟩ | ⟨hn, hb⟩ | hb)
    · exact .inl ⟨_, _, hn, .inl ⟨hb, rfl⟩⟩
    · exact .inl ⟨_, _, hn, .inr (.inr ⟨hb, rfl⟩)⟩
    · exact .inl ⟨_, _, hn, .inr (.inl hb)⟩
    · exact .inr hb

theorem lt_of_mem_neighbours {k a b : Nat} {ns : List Node}
    (h : (a, b) ∈ neighbours (numbers k ns)) : k ≤ a ∧ a < b := by
  induction ns generalizing k with
  | nil => cases h
  | cons n ns ih =>
    cases ns with
    | nil => cases h
    | cons m ns =>
      rcases List.mem_cons.1 h with h | h
      · obtain ⟨rfl, rfl⟩ := Prod.mk.inj h
        rw [size_eq]
        omega
      · obtain ⟨hk, hab⟩ := ih h
        exact ⟨Nat.le_trans (Nat.le_add_right _ _) hk, hab⟩

theorem Origin.lt {ns : List Node} {a b : Nat} (h : Origin ns a b) : 1 ≤ a ∧ a < b := by
  have hpos {n : Node} {k : Nat} (hn : (n, k) ∈ numbered ns) : 1 ≤ k := (List.mem_zipIdx hn).1
  cases h with
  | operand hn hb => exact ⟨hpos hn, le_of_mem_numbers hb⟩
  | first hn hb =>
    have := le_of_mem_numbers (List.mem_of_head? hb)
    have := hpos hn
    omega
  | next hn hb =>
    obtain ⟨hk, hab⟩ := lt_of_mem_neighbours hb
    have := hpos hn
    omega
  | script hb => exact lt_of_mem_neighbours hb

theorem zipIdx_subset_of {ms : List Node} {n : Node} {i : Nat}
    (h : ∀ m ∈ ms, ∀ k, (n, i) ∈ m.preorder.zipIdx k →
      (preorderAll n.children).zipIdx (i + 1) ⊆ m.preorder.zipIdx k) {k : Nat}
    (hn : (n, i) ∈ (preorderAll ms).zipIdx k) :
    (preorderAll n.children).zipIdx (i + 1) ⊆ (preorderAll ms).zipIdx k := by
  induction ms generalizing k with
  | nil => cases hn
  | cons m ms ih =>
    obtain ⟨hm, hms⟩ := List.forall_mem_cons.1 h
    rw [preorderAll, List.zipIdx_append] at hn ⊢
    rcases List.mem_append.1 hn with hn | hn
    · exact List.subset_append_of_subset_left _ (hm k hn)
    · exact List.subset_append_of_subset_right _ (ih hms hn)

theorem zipIdx_children_subset {m n : Node} {i k : Nat} (h : (n, i) ∈ m.preorder.zipIdx k) :
    (preorderAll n.children).zipIdx (i + 1) ⊆ m.preorder.zipIdx k := by
  induction m using induction_children generalizing k with
  | h m ih =>
    rw [preorder_eq, List.zipIdx_cons] at h ⊢
    apply List.subset_cons_of_subset
    rcases List.mem_cons.1 h with h | h
    · obtain ⟨rfl, rfl⟩ := Prod.mk.inj h
      exact List.Subset.refl _
    · exact zipIdx_subset_of (fun m hm k => ih m hm) h

theorem children_numbered {ns : List Node} {n : Node} {k : Nat} (h : (n, k) ∈ numbered ns) :
    n.children.zip (numbers (k + 1) n.children) ⊆ numbered ns :=
  List.Subset.trans (zip_numbers_subset _ _)
    (zipIdx_subset_of (fun _ _ _ => zipIdx_children_subset) h)

/-- The lines draw the tree of the script `ns`, whose nodes are numbered from one in pre-order:
one label for each node; one edge to every node but the first, from where it is reached; and a
rank for every list of two statements or more. -/
structure Draws (ns : List Node) (ls : List Line) : Prop where
  numbering : ns.zip (numbers 1 ns) ⊆ numbered ns ∧ ∀ n k, (n, k) ∈ numbered ns →
    (n.operands ++ n.body).zip (operandNumbers k n ++ bodyNumbers k n) ⊆ numbered ns
  labels : (ls.filterMap Line.label?).Perm ((numbered ns).map fun q => (q.2, labelText q.1))
  ascending : ∀ a b, .edge a b ∈ ls → 1 ≤ a ∧ a < b ∧ b ≤ sizeAll ns
  targets : ((ls.filterMap Line.edge?).map Prod.snd).Perm (List.range' 2 (sizeAll ns - 1))
  origins : ∀ a b, .edge a b ∈ ls ↔ Origin ns a b
  ranks : (ls.filterMap Line.rank?).Perm
    (((numbered ns).map fun q => bodyNumbers q.2 q.1).flatMap ifMany ++ ifMany (numbers 1 ns))

theorem targets_ofNodes_perm (ns : List Node) :
    (((ofNodes ns).filterMap Line.edge?).map Prod.snd).Perm (List.range' 2 (sizeAll ns - 1)) := by
  apply (((ofNodes_perm ns).filterMap Line.edge?).map Prod.snd).trans
  rw [List.filterMap_append, List.map_append, edges_chain, map_snd_neighbours,
    List.filterMap_flatMap, List.map_flatMap]
  have hall := targetsAll_perm_of (fun n (_ : n ∈ ns) => targets_preorder_perm n) 1
  cases ns with
  | nil => exact .refl _
  | cons n ns =>
    -- the first statement is the one node without an edge
    have hsize : sizeAll (n :: ns) = sizeAll n.children + sizeAll ns + 1 := by
      rw [sizeAll, size_eq, Nat.add_right_comm]
    rw [hsize, List.range'_succ] at hall
    rw [hsize, Nat.add_sub_cancel]
    exact (List.perm_middle.symm.trans hall).cons_inv

theorem ranks_ofNodes_perm (ns : List Node) :
    ((ofNodes ns).filterMap Line.rank?).Perm
      (((numbered ns).map fun q => bodyNumbers q.2 q.1).flatMap ifMany ++
        ifMany (numbers 1 ns)) := by
  apply ((ofNodes_perm ns).filterMap Line.rank?).trans
  rw [List.filterMap_append, List.filterMap_flatMap, ranks_chain, List.flatMap_map]
  simp only [ranks_own]
  exact .refl _

theorem one_lt_length_of_sameRank {ns : List Node} {ks : List Nat}
    (h : .sameRank ks ∈ ofNodes ns) : 1 < ks.length := by
  have hmany {js : List Nat} (hks : ks ∈ ifMany js) : 1 < ks.length := by
    unfold ifMany at hks
    split at hks
    · cases List.mem_singleton.1 hks
      assumption
    · cases hks
  have hks : ks ∈ (ofNodes ns).filterMap Line.rank? := List.mem_filterMap.2 ⟨_, h, rfl⟩
  rw [(ranks_ofNodes_perm ns).mem_iff, List.mem_append, List.mem_flatMap] at hks
  obtain ⟨js, -, hks⟩ | hks := hks
  · exact hmany hks
  · exact hmany hks

theorem draws_ofNodes (ns : List Node) : Draws ns (ofNodes ns) := by
  have htargets := targets_ofNodes_perm ns
  refine ⟨⟨zip_numbers_subset 1 ns, fun n k hn => ?_⟩, ?_, fun a b hab => ?_, htargets,
    fun a b => edge_mem_ofNodes_iff, ranks_ofNodes_perm ns⟩
  · rw [operands_append_body, operandNumbers_append]
    exact children_numbered hn
  · apply ((ofNodes_perm ns).filterMap Line.label?).trans
    rw [List.filterMap_append, List.filterMap_flatMap, labels_chain, List.append_nil]
    simp only [labels_own, ← List.map_eq_flatMap]
    exact .refl _
  · obtain ⟨ha, hlt⟩ := (edge_mem_ofNodes_iff.1 hab).lt
    have hb : b ∈ ((ofNodes ns).filterMap Line.edge?).map Prod.snd :=
      List.mem_map.2 ⟨(a, b), List.mem_filterMap.2 ⟨_, hab, rfl⟩, rfl⟩
    have := List.mem_range'_1.1 (htargets.mem_iff.1 hb)
    omega

end Graph

end Scriptlet
