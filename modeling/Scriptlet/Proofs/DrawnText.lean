import Scriptlet.Proofs.Drawing
import Scriptlet.Proofs.Lexemes

/-! The text of a graph.  A label may hold any characters, newlines and quotes too, so the lines
of the text are told apart only by a reader that keeps to its quotes.  Such a reader finds the
lines that were drawn, with the labels as they were before they were escaped. -/

namespace Scriptlet

namespace Graph

open Node

/-- Where a reader is: outside of quotes, inside of them, or behind a backslash in them. -/
inductive Mode
  | outside | inside | escaped
  deriving DecidableEq

def Mode.next : Mode → Char → Mode
  | outside, c => if c = '"' then inside else outside
  | inside, c => if c = '"' then outside else if c = '\\' then escaped else inside
  | escaped, _ => inside

def cut (q : Mode) : List Char → List (List Char)
  | [] => [[]]
  | c :: cs =>
    if q = .outside ∧ c = '\n' then [] :: cut .outside cs
    else (cut (q.next c) cs).modifyHead (c :: ·)

/-- Reads a quoted text to its end, the first quote without a backslash, and gives what is
written there and what follows. -/
def unquote : List Char → Option (List Char × List Char)
  | [] | ['\\'] => none
  | '"' :: cs => some ([], cs)
  | '\\' :: c :: cs =>
    if c = '\\' ∨ c = '"' then (unquote cs).map fun q => (c :: q.1, q.2) else none
  | c :: cs => (unquote cs).map fun q => (c :: q.1, q.2)

def readName (cs : List Char) : Option (Nat × List Char) := do
  let rest ← cs.dropPrefix? "node".toList
  let digits := rest.takeWhile Char.isDigit
  if digits = [] then none else return (Text.ofDigits digits, rest.drop digits.length)

def readWhole (cs : List Char) : Option Nat := do
  let (k, rest) ← readName cs
  if rest = [] then return k else none

def Line.ofText? (cs : List Char) : Option Line :=
  match cs.dropPrefix? "\x7b rank=same; ".toList with
  | some rest => do
    let names ← rest.dropSuffix? " \x7d".toList
    return .sameRank (← (names.splitOn ';').mapM readWhole)
  | none => do
    let (k, rest) ← readName cs
    match rest.dropPrefix? "[label=\"".toList with
    | some rest =>
      let (s, rest) ← unquote rest
      if rest = "]".toList then return .label k (String.ofList s) else none
    | none =>
      let rest ← rest.dropPrefix? " -> ".toList
      return .edge k (← readWhole rest)

def read (s : String) : Option (List Line) := do
  let ls ← (cut .outside s.toList).dropPrefix? ["digraph Ast \x7b".toList]
  let ls ← ls.dropSuffix? ["\x7d".toList, []]
  ls.mapM Line.ofText?

theorem mapM_eq_some {f : α → Option β} {g : β → α} {ys : List β} (h : ∀ y ∈ ys, f (g y) = some y) :
    (ys.map g).mapM f = some ys := by
  induction ys with
  | nil => rfl
  | cons y ys ih =>
    obtain ⟨hy, hys⟩ := List.forall_mem_cons.1 h
    simp [List.mapM_cons, hy, ih hys]

theorem dropPrefix?_append [BEq α] [LawfulBEq α] (u v : List α) :
    (u ++ v).dropPrefix? u = some v :=
  List.dropPrefix?_append_of_beq v (beq_self_eq_true u)

theorem dropSuffix?_append [BEq α] [LawfulBEq α] (u v : List α) :
    (u ++ v).dropSuffix? v = some u :=
  List.dropSuffix?_eq_some_iff.2 ⟨v, rfl, beq_self_eq_true v⟩

def escapeChar : Char → List Char
  | '\\' => ['\\', '\\']
  | '"' => ['\\', '"']
  | c => [c]

theorem escapeChar_of_ne {c : Char} (hb : c ≠ '\\') (hq : c ≠ '"') : escapeChar c = [c] := by
  unfold escapeChar
  split
  · exact absurd rfl hb
  · exact absurd rfl hq
  · rfl

theorem toList_escapeLabel (s : String) : (escapeLabel s).toList = s.toList.flatMap escapeChar := by
  rw [escapeLabel, String.toList_join, List.flatMap_map]
  congr 1
  funext c
  by_cases hb : c = '\\'
  · subst hb
    rfl
  by_cases hq : c = '"'
  · subst hq
    rfl
  · rw [escapeChar_of_ne hb hq]
    simp

theorem unquote_cons {c : Char} (hb : c ≠ '\\') (hq : c ≠ '"') (cs : List Char) :
    unquote (c :: cs) = (unquote cs).map fun q => (c :: q.1, q.2) := by
  rw [unquote.eq_def]
  split <;> simp_all

theorem unquote_escaped (cs rest : List Char) :
    unquote (cs.flatMap escapeChar ++ '"' :: rest) = some (cs, rest) := by
  induction cs with
  | nil => rfl
  | cons c cs ih =>
    rw [List.flatMap_cons, List.append_assoc]
    by_cases hb : c = '\\'
    · subst hb
      simp [escapeChar, unquote, ih]
    by_cases hq : c = '"'
    · subst hq
      simp [escapeChar, unquote, ih]
    · rw [escapeChar_of_ne hb hq, List.singleton_append, unquote_cons hb hq, ih, Option.map_some]

theorem toList_nodeName (k : Nat) : (nodeName k).toList = "node".toList ++ Nat.toDigits 10 k := by
  rw [nodeName, String.toList_append, Nat.toList_repr]

theorem isDigit_of_mem_toDigits {k : Nat} : ∀ c ∈ Nat.toDigits 10 k, c.isDigit :=
  fun _ => Nat.isDigit_of_mem_toDigits (by decide) (by decide)

theorem readName_append (k : Nat) {rest : List Char} (h : ∀ c ∈ rest.head?, c.isDigit = false) :
    readName ((nodeName k).toList ++ rest) = some (k, rest) := by
  have hvalue : Text.ofDigits (Nat.toDigits 10 k) = k :=
    Nat.ofDigitChars_toDigits (by decide) (by decide)
  rw [readName, toList_nodeName, List.append_assoc, dropPrefix?_append]
  simp only [Option.bind_eq_bind, Option.bind_some, Nat.toDigits_ne_nil, if_false, hvalue,
    Lexer.takeWhile_exact isDigit_of_mem_toDigits h, List.drop_left]
  rfl

theorem readWhole_nodeName (k : Nat) : readWhole (nodeName k).toList = some k := by
  have hname : readName ((nodeName k).toList ++ []) = some (k, []) :=
    readName_append k (by simp)
  rw [List.append_nil] at hname
  simp [readWhole, hname]

theorem dropPrefix?_rank_nodeName (k : Nat) (rest : List Char) :
    ((nodeName k).toList ++ rest).dropPrefix? "\x7b rank=same; ".toList = none := by
  rw [toList_nodeName]
  rfl

theorem ofText?_label (k : Nat) (s : String) :
    Line.ofText? (Line.label k s).text.toList = some (.label k s) := by
  have htext : (Line.label k s).text.toList = (nodeName k).toList ++ ("[label=\"".toList ++
      (s.toList.flatMap escapeChar ++ '"' :: "]".toList)) := by
    simp [Line.text, String.toList_append, toList_escapeLabel]
  have hhead : ∀ c ∈ ("[label=\"".toList ++
      (s.toList.flatMap escapeChar ++ '"' :: "]".toList)).head?, c.isDigit = false := by
    simp
  rw [htext, Line.ofText?, dropPrefix?_rank_nodeName]
  simp only [Option.bind_eq_bind]
  rw [readName_append k hhead, Option.bind_some, dropPrefix?_append]
  simp [unquote_escaped]

theorem ofText?_edge (a b : Nat) :
    Line.ofText? (Line.edge a b).text.toList = some (.edge a b) := by
  have htext : (Line.edge a b).text.toList =
      (nodeName a).toList ++ (" -> ".toList ++ (nodeName b).toList) := by
    simp [Line.text, String.toList_append]
  have hlabel : (" -> ".toList ++ (nodeName b).toList).dropPrefix? "[label=\"".toList = none := rfl
  rw [htext, Line.ofText?, dropPrefix?_rank_nodeName]
  simp only [Option.bind_eq_bind]
  rw [readName_append a (by simp), Option.bind_some, hlabel]
  simp only [dropPrefix?_append, Option.bind_some, readWhole_nodeName]
  rfl

theorem semicolon_notMem_nodeName (k : Nat) : ';' ∉ (nodeName k).toList := by
  rw [toList_nodeName]
  intro h
  rcases List.mem_append.1 h with h | h
  · exact absurd h (by decide)
  · exact absurd (isDigit_of_mem_toDigits _ h) (by decide)

theorem ofText?_sameRank {ks : List Nat} (h : ks ≠ []) :
    Line.ofText? (Line.sameRank ks).text.toList = some (.sameRank ks) := by
  have htext : (Line.sameRank ks).text.toList = "\x7b rank=same; ".toList ++
      ([';'].intercalate (ks.map fun k => (nodeName k).toList) ++ " \x7d".toList) := by
    simp [Line.text, String.toList_append, String.toList_intercalate, Function.comp_def]
  have hsplit : ([';'].intercalate (ks.map fun k => (nodeName k).toList)).splitOn ';' =
      ks.map fun k => (nodeName k).toList := by
    apply List.splitOn_intercalate
    · simp [semicolon_notMem_nodeName]
    · simpa using h
  rw [htext, Line.ofText?, dropPrefix?_append]
  simp only [Option.bind_eq_bind, dropSuffix?_append, Option.bind_some, hsplit]
  rw [mapM_eq_some fun k _ => readWhole_nodeName k]
  rfl

def Line.IsProper : Line → Prop
  | .sameRank ks => ks ≠ []
  | _ => True

theorem ofText?_text {l : Line} (h : l.IsProper) : Line.ofText? l.text.toList = some l := by
  cases l with
  | label k s => exact ofText?_label k s
  | edge a b => exact ofText?_edge a b
  | sameRank ks => exact ofText?_sameRank h

/-- A reader gets from the one mode to the other over `u`, and `u` stays in one line. -/
def Passes (q : Mode) (u : List Char) (r : Mode) : Prop :=
  ∀ rest, cut q (u ++ rest) = (cut r rest).modifyHead (u ++ ·)

namespace Passes

variable {q r t : Mode} {u v : List Char} {c : Char}

theorem nil (q : Mode) : Passes q [] q := by
  intro rest
  cases h : cut q rest <;> simp [h]

theorem append (h : Passes q u r) (h' : Passes r v t) : Passes q (u ++ v) t := by
  intro rest
  rw [List.append_assoc, h, h', List.modifyHead_modifyHead]
  simp [Function.comp_def]

theorem char (h : q ≠ .outside ∨ c ≠ '\n') : Passes q [c] (q.next c) := by
  intro rest
  have hcut : ¬ (q = .outside ∧ c = '\n') := by
    rintro ⟨rfl, rfl⟩
    simp at h
  rw [List.singleton_append, cut, if_neg hcut]
  rfl

theorem plain (h : u.all fun c => c ≠ '"' ∧ c ≠ '\n') : Passes .outside u .outside := by
  induction u with
  | nil => exact nil _
  | cons c u ih =>
    obtain ⟨hc, hu⟩ := (Bool.and_eq_true_iff.1 h)
    obtain ⟨hq, hn⟩ := of_decide_eq_true hc
    have hc : Passes .outside [c] .outside := by
      simpa [Mode.next, hq] using char (q := .outside) (.inr hn)
    exact hc.append (ih hu)

theorem escapedChar (c : Char) : Passes .inside (escapeChar c) .inside := by
  have hin (c : Char) : Passes .inside [c] (Mode.next .inside c) := char (.inl nofun)
  have hback (c : Char) : Passes .escaped [c] .inside := char (.inl nofun)
  by_cases hb : c = '\\'
  · subst hb
    exact (hin '\\').append (hback '\\')
  by_cases hq : c = '"'
  · subst hq
    exact (hin '\\').append (hback '"')
  · rw [escapeChar_of_ne hb hq]
    simpa [Mode.next, hq, hb] using hin c

theorem escaped (cs : List Char) : Passes .inside (cs.flatMap escapeChar) .inside := by
  induction cs with
  | nil => exact nil _
  | cons c cs ih =>
    rw [List.flatMap_cons]
    exact (escapedChar c).append ih

end Passes

theorem passes_nodeName (k : Nat) : Passes .outside (nodeName k).toList .outside := by
  have hdigits : Passes .outside (Nat.toDigits 10 k) .outside := by
    apply Passes.plain
    rw [List.all_eq_true]
    intro c hc
    have hdigit := isDigit_of_mem_toDigits c hc
    apply decide_eq_true
    constructor <;> rintro rfl <;> cases hdigit
  rw [toList_nodeName]
  exact (Passes.plain rfl).append hdigits

theorem passes_intercalate {us : List (List Char)} (h : ∀ u ∈ us, Passes .outside u .outside) :
    Passes .outside ([';'].intercalate us) .outside := by
  induction us with
  | nil => exact .nil _
  | cons u us ih =>
    obtain ⟨hu, hus⟩ := List.forall_mem_cons.1 h
    cases us with
    | nil => simpa using hu
    | cons v us =>
      rw [List.intercalate_cons_cons]
      exact (hu.append (.plain rfl)).append (ih hus)

theorem passes_text (l : Line) : Passes .outside l.text.toList .outside := by
  cases l with
  | label k s =>
    have hopen : Passes .outside "[label=\"".toList .inside :=
      (Passes.plain (u := "[label=".toList) rfl).append (.char (.inr (by decide)))
    have hclose : Passes .inside "\"]".toList .outside :=
      (Passes.char (q := .inside) (c := '"') (.inl nofun)).append (.plain (u := "]".toList) rfl)
    rw [Line.text, String.toList_append, String.toList_append, String.toList_append,
      toList_escapeLabel]
    exact (((passes_nodeName k).append hopen).append (.escaped s.toList)).append hclose
  | edge a b =>
    rw [Line.text, String.toList_append, String.toList_append]
    exact ((passes_nodeName a).append (.plain rfl)).append (passes_nodeName b)
  | sameRank ks =>
    rw [Line.text, String.toList_append, String.toList_append, String.toList_intercalate,
      List.map_map]
    refine ((Passes.plain rfl).append (passes_intercalate ?_)).append (.plain rfl)
    intro u hu
    obtain ⟨k, -, rfl⟩ := List.mem_map.1 hu
    exact passes_nodeName k

theorem cut_join {ls : List String} (h : ∀ l ∈ ls, Passes .outside l.toList .outside) :
    cut .outside (String.join (ls.map (· ++ "\n"))).toList = ls.map String.toList ++ [[]] := by
  induction ls with
  | nil => rfl
  | cons l ls ih =>
    obtain ⟨hl, hls⟩ := List.forall_mem_cons.1 h
    have htext : (String.join ((l :: ls).map (· ++ "\n"))).toList =
        l.toList ++ '\n' :: (String.join (ls.map (· ++ "\n"))).toList := by
      simp [String.toList_join, String.toList_append]
    rw [htext, hl, cut, if_pos ⟨rfl, rfl⟩, ih hls]
    simp

theorem read_text (ns : List Node) : read (text ns) = some (ofNodes ns) := by
  have hproper : ∀ l ∈ ofNodes ns, l.IsProper := by
    intro l hl
    cases l with
    | sameRank ks =>
      have := one_lt_length_of_sameRank hl
      exact List.ne_nil_of_length_pos (Nat.zero_lt_of_lt this)
    | _ => trivial
  have hcut : cut .outside (text ns).toList = ["digraph Ast \x7b".toList] ++
      ((ofNodes ns).map (fun l => l.text.toList) ++ ["\x7d".toList, []]) := by
    rw [text, cut_join]
    · simp
    · intro l hl
      simp only [List.mem_append, List.mem_singleton, List.mem_map] at hl
      obtain (rfl | ⟨l, -, rfl⟩) | rfl := hl
      · exact .plain rfl
      · exact passes_text l
      · exact .plain rfl
  rw [read, hcut, dropPrefix?_append]
  simp only [Option.bind_eq_bind, Option.bind_some, dropSuffix?_append]
  exact mapM_eq_some fun l hl => ofText?_text (hproper l hl)

/-- The text of a graph, read with regard to its quotes, has lines that draw the tree of the
script.  What stands between the quotes of a label has no quote that would end it, and unescaped
it is the label. -/
theorem text_draws_tree (ns : List Node) :
    ∃ ls, read (text ns) = some ls ∧ Draws ns ls ∧
      ∀ k s, .label k s ∈ ls → ∃ inner : String,
        (Line.label k s).text = nodeName k ++ "[label=\"" ++ inner ++ "\"]" ∧
        ∀ rest, unquote (inner.toList ++ '"' :: rest) = some (s.toList, rest) := by
  refine ⟨ofNodes ns, read_text ns, draws_ofNodes ns, fun k s _ => ⟨escapeLabel s, rfl, ?_⟩⟩
  intro rest
  rw [toList_escapeLabel]
  exact unquote_escaped s.toList rest

/-- The script `x = 1`. -/
example : text [.assign false (.value (.variable "x")) (.value (.number 1))] =
    "digraph Ast \x7b\n" ++ "node2[label=\"x\"]\n" ++ "node3[label=\"1\"]\n" ++
      "node1[label=\"=\"]\n" ++ "node1 -> node2\n" ++ "node1 -> node3\n" ++ "\x7d\n" := by
  decide +kernel

/-- The labels of the script `function f(a,b) for i = 1, 2 do if string.len(a) ~= 7 then
t[b] = {} end end return print("\"") end`, which has every kind of node. -/
example : (ofNodes [.function "f" ["a", "b"]
    [.forLoop (.assign true (.value (.variable "i")) (.value (.number 1))) (.value (.number 2))
      [.ifThen (.notEqual (.call (some "string") "len" [.value (.variable "a")])
          (.value (.number 7)))
        [.assign false (.index "t" (.value (.variable "b"))) (.value .table)]],
      .ret (.call none "print" [.value (.string "\"")])]]).filterMap
      (fun | l@(.label _ _) => some l.text | _ => none) =
    ["node1[label=\"function f(a,b)\"]", "node4[label=\"i\"]", "node5[label=\"1\"]",
      "node3[label=\"=\"]", "node6[label=\"2\"]", "node2[label=\"for\"]", "node10[label=\"a\"]",
      "node9[label=\"string.len()\"]", "node11[label=\"7\"]", "node8[label=\"~=\"]",
      "node7[label=\"if\"]", "node14[label=\"b\"]", "node13[label=\"t[]\"]",
      "node15[label=\"\x7b\x7d\"]", "node12[label=\"=\"]", "node18[label=\"\\\"\"]",
      "node17[label=\"print()\"]", "node16[label=\"return\"]"] := by
  decide +kernel

end Graph

end Scriptlet
