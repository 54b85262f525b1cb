import Scriptlet.Proofs.Coverage
import Scriptlet.Proofs.Disassembly
import Scriptlet.Proofs.Recognition

/-! What a listing tells.  The names of a script are identifiers, so each line of the listing ends
where it should, and an empty line ends each stream.  In a line, the operand stands behind its
mnemonic in a form of its own.  Thus no two programs of scripts are listed alike. -/

namespace Scriptlet

open Code Node

namespace Grammar

variable {G : Grammar α} {as : List α} {a : α} {u : List Token}

theorem Listed.exists_of_mem (h : Listed G as u) (ha : a ∈ as) : ∃ v, G a v ∧ v ⊆ u := by
  induction h with
  | nil => cases ha
  | @one _ u hu =>
    cases List.mem_singleton.1 ha
    exact ⟨u, hu, fun _ h => h⟩
  | @cons _ _ _ u v hu _ ih =>
    rcases List.mem_cons.1 ha with rfl | ha
    · exact ⟨u, hu, List.subset_append_left _ _⟩
    · obtain ⟨w, hw, hsub⟩ := ih ha
      exact ⟨w, hw, fun t ht => List.mem_append_right u (List.mem_cons_of_mem _ (hsub ht))⟩

theorem Joined.exists_of_mem (h : Joined G as u) (ha : a ∈ as) : ∃ v, G a v ∧ v ⊆ u := by
  induction h with
  | nil => cases ha
  | @cons _ _ u v hu _ ih =>
    rcases List.mem_cons.1 ha with rfl | ha
    · exact ⟨u, hu, List.subset_append_left _ _⟩
    · obtain ⟨w, hw, hsub⟩ := ih ha
      exact ⟨w, hw, fun t ht => List.mem_append_right u (hsub ht)⟩

end Grammar

namespace Node

def NamesWithin (v u : List Token) : Prop := ∀ x, .ident x ∈ v → Token.ident x ∈ u

theorem Spelling.children {n m : Node} {u : List Token} (h : Spelling n u) (hm : m ∈ n.children) :
    ∃ v, Spelling m v ∧ NamesWithin v u := by
  cases h with
  | value => cases hm
  | @notEqual lhs rhs v w hl hr =>
    rcases List.mem_pair.1 hm with rfl | rfl
    · exact ⟨v, hl, fun x hx => by simp [hx]⟩
    · exact ⟨w, hr, fun x hx => by simp [hx]⟩
  | call f hargs =>
    obtain ⟨v, hv, hsub⟩ := hargs.exists_of_mem hm
    exact ⟨v, hv, fun x hx => by simp [hsub hx]⟩
  | method x f _ hargs =>
    obtain ⟨v, hv, hsub⟩ := hargs.exists_of_mem hm
    exact ⟨v, hv, fun x hx => by simp [hsub hx]⟩
  | index b hkey =>
    cases List.mem_singleton.1 hm
    exact ⟨_, hkey, fun x hx => by simp [hx]⟩
  | assign ht he | assignLocal ht he =>
    rcases List.mem_pair.1 hm with rfl | rfl
    · exact ⟨_, ht, fun x hx => by simp [hx]⟩
    · exact ⟨_, he, fun x hx => by simp [hx]⟩
  | ifThen hc hb =>
    rcases List.mem_cons.1 hm with rfl | hm
    · exact ⟨_, hc, fun x hx => by simp [hx]⟩
    · obtain ⟨v, hv, hsub⟩ := hb.exists_of_mem hm
      exact ⟨v, hv, fun x hx => by simp [hsub hx]⟩
  | forLoop hi he hb =>
    rcases List.mem_cons.1 hm with rfl | hm
    · refine ⟨_, hi, fun x hx => ?_⟩
      rcases List.mem_cons.1 hx with hx | hx
      · cases hx
      · simp [hx]
    · rcases List.mem_cons.1 hm with rfl | hm
      · exact ⟨_, he, fun x hx => by simp [hx]⟩
      · obtain ⟨v, hv, hsub⟩ := hb.exists_of_mem hm
        exact ⟨v, hv, fun x hx => by simp [hsub hx]⟩
  | function f _ hb =>
    obtain ⟨v, hv, hsub⟩ := hb.exists_of_mem hm
    exact ⟨v, hv, fun x hx => by simp [hsub hx]⟩
  | ret he =>
    cases List.mem_singleton.1 hm
    exact ⟨_, he, fun x hx => by simp [hx]⟩

theorem Spelling.ownNames {n : Node} {u : List Token} (h : Spelling n u) :
    ∀ x ∈ n.ownNames, Token.ident x ∈ u := by
  cases h with
  | value l => cases l <;> simp [Node.ownNames, Literal.words]
  | function f hparams =>
    intro x hx
    rcases List.mem_cons.1 hx with rfl | hx
    · simp
    · obtain ⟨v, rfl, hsub⟩ := hparams.exists_of_mem hx
      simp [hsub (List.mem_singleton_self _)]
  | _ => simp [Node.ownNames]

theorem Occurs.ident_mem {n : Node} {ns : List Node} {u : List Token} (h : Occurs n ns)
    (hns : ∀ m ∈ ns, ∃ v, Spelling m v ∧ NamesWithin v u) :
    ∀ x ∈ n.ownNames, Token.ident x ∈ u := by
  induction h with
  | here hn =>
    obtain ⟨v, hv, hvu⟩ := hns n hn
    exact fun x hx => hvu x (hv.ownNames x hx)
  | under hp _ ih =>
    obtain ⟨v, hv, hvu⟩ := hns _ hp
    refine ih fun m hm => ?_
    obtain ⟨w, hw, hwv⟩ := hv.children hm
    exact ⟨w, hw, fun x hx => hvu x (hwv x hx)⟩

end Node

theorem Covers.isName {before rest : List Char} {ls : List Located} (h : Covers before rest ls)
    {l : Located} (hl : l ∈ ls) {x : String} (hx : l.token = .ident x) : Token.IsName x := by
  induction h with
  | eof =>
    cases List.mem_singleton.1 hl
    cases hx
  | cons _ hlongest _ ih =>
    rcases List.mem_cons.1 hl with rfl | hl
    · cases hx
      cases hlongest.occupies with
      | lexeme _ hname => exact hname
    · exact ih hl

theorem Token.IsName.inLine {x : String} (h : IsName x) : Text.InLine x := by
  obtain ⟨⟨c, cs, hx, hc, hcs⟩, -⟩ := h
  rw [Text.InLine, hx]
  intro hmem
  rcases List.mem_cons.1 hmem with rfl | hmem
  · revert hc
    decide
  · have := hcs _ hmem
    revert this
    decide

namespace Script

theorem exists_of_parse {source : String} {journal journal' : Array Event} {ns : List Node}
    (h : parse source journal = .ok ns journal') :
    ∃ ts stop s, (Cursor.ofString source).tokens = .ok ts stop ∧
      (TokenStream.ofTokens ts).parse = .ok ns s := by
  rw [parse, tokens] at h
  cases ht : (Cursor.ofString source).tokens with
  | error e stop =>
    rw [ht] at h
    cases h
  | ok ts stop =>
    rw [ht] at h
    dsimp only at h
    obtain ⟨-, j, -, h⟩ := exists_of_bind_eq_ok h
    cases hp : (TokenStream.ofTokens ts).parse with
    | error e s =>
      rw [hp] at h
      cases h
    | ok ms s =>
      rw [hp] at h
      cases h
      exact ⟨ts, stop, s, rfl, hp⟩

theorem inLine_of_parse {source : String} {journal journal' : Array Event} {ns : List Node}
    (h : parse source journal = .ok ns journal') {n : Node} (hn : Occurs n ns) :
    ∀ x ∈ n.ownNames, Text.InLine x := by
  obtain ⟨ts, stop, s, hts, hs⟩ := exists_of_parse h
  obtain ⟨-, hspelling⟩ := TokenStream.exists_parse_ofTokens_iff.1 ⟨s, hs⟩
  have hmembers (m : Node) (hm : m ∈ ns) :
      ∃ v, Spelling m v ∧ NamesWithin v (Located.content ts) := by
    obtain ⟨v, hv, hsub⟩ := hspelling.exists_of_mem hm
    exact ⟨v, hv, fun x hx => hsub hx⟩
  intro x hx
  have hident := hn.ident_mem hmembers x hx
  obtain ⟨l, hl, hlx⟩ := List.mem_map.1 hident
  have hmem : l ∈ ts := (List.takeWhile_sublist _).subset (List.mem_of_mem_filter hl)
  exact (((Cursor.stands_ofString source).covers hts).isName hmem hlx).inLine

theorem ofNodes_of_compileNodes {ns : List Node} {journal journal' : Array Event} {p : Program}
    (h : compileNodes ns journal = .ok p journal') : ∃ c, Program.ofNodes ns = .ok p c := by
  rw [compileNodes] at h
  cases hp : Program.ofNodes ns with
  | error e c =>
    rw [hp] at h
    cases h
  | ok q c =>
    rw [hp] at h
    cases h
    exact ⟨c, rfl⟩

theorem exists_of_compile {source : String} {p : Program} (h : (compile source).result = .ok p) :
    ∃ ns c, Program.ofNodes ns = .ok p c ∧
      ∀ n, Occurs n ns → ∀ x ∈ n.ownNames, Text.InLine x := by
  have hok : ∃ journal, compile source #[] = .ok p journal := by
    rw [Stages.result, EStateM.run] at h
    cases hc : compile source #[] with
    | error e journal =>
      rw [hc] at h
      cases h
    | ok q journal =>
      rw [hc] at h
      cases h
      exact ⟨journal, rfl⟩
  obtain ⟨journal, hok⟩ := hok
  obtain ⟨ns, j, hp, hnodes⟩ := exists_of_bind_eq_ok hok
  obtain ⟨c, hc⟩ := ofNodes_of_compileNodes hnodes
  exact ⟨ns, c, hc, fun n hn => inLine_of_parse hp hn⟩

end Script

namespace Opcode

theorem mem_all (op : Opcode) : op ∈ all := by
  cases op <;> decide

theorem mnemonic_inj {op op' : Opcode} (h : op.mnemonic = op'.mnemonic) : op = op' := by
  have hall : ∀ a ∈ all, ∀ b ∈ all, a.mnemonic = b.mnemonic → a = b := by decide
  exact hall op (mem_all op) op' (mem_all op') h

theorem head_mnemonic (op : Opcode) : op.mnemonic.toList.head?.any Char.isUpper = true := by
  cases op <;> decide

theorem space_notMem_mnemonic (op : Opcode) : ' ' ∉ op.mnemonic.toList := by
  cases op <;> decide

end Opcode

namespace Instruction

variable {i j : Instruction} {isBack isBack' : Bool} {s t : String}

theorem toList_text (isBack : Bool) (i : Instruction) :
    ∃ tail, (i.text isBack).toList = i.opcode.mnemonic.toList ++ tail ∧
      ∀ c ∈ tail.head?, c = ' ' := by
  rw [text]
  cases i.remark? isBack with
  | none => exact ⟨[], by simp, by simp⟩
  | some s =>
    refine ⟨List.replicate (14 - i.opcode.mnemonic.length) ' ' ++ ' ' :: s.toList, ?_, ?_⟩
    · simp [Text.padRight]
    · cases 14 - i.opcode.mnemonic.length <;> simp [List.replicate_succ]

theorem opcode_eq_of_text (h : i.text isBack = j.text isBack') : i.opcode = j.opcode := by
  have hword (b : Bool) (k : Instruction) :
      (k.text b).toList.takeWhile (· ≠ ' ') = k.opcode.mnemonic.toList := by
    obtain ⟨tail, htext, htail⟩ := toList_text b k
    rw [htext]
    apply Lexer.takeWhile_exact
    · intro c hc
      have hne : c ≠ ' ' := fun h => k.opcode.space_notMem_mnemonic (h ▸ hc)
      simpa using hne
    · intro c hc
      simpa using htail c hc
  apply Opcode.mnemonic_inj
  rw [← String.toList_inj, ← hword isBack i, h, hword isBack' j]

theorem remark_eq_of_text (h : i.text isBack = j.text isBack') (hi : i.remark? isBack = some s)
    (hj : j.remark? isBack' = some t) : s = t := by
  have hop := opcode_eq_of_text h
  rw [text, hi, text, hj, hop] at h
  exact (String.append_right_inj _).1 h

theorem target_eq_of_arrow {b b' : Bool} {t t' : Nat}
    (h : (if b then "↑" else "↓") ++ " (→ " ++ Text.zeroPad 4 t ++ ")" =
      (if b' then "↑" else "↓") ++ " (→ " ++ Text.zeroPad 4 t' ++ ")") : t = t' := by
  have harrow (c : Bool) : (if c then "↑" else "↓").toList.length = 1 := by cases c <;> rfl
  have h := congrArg String.toList ((String.append_left_inj _).1 h)
  simp only [String.toList_append, List.append_assoc] at h
  obtain ⟨-, h⟩ := List.append_inj h ((harrow b).trans (harrow b').symm)
  exact Text.zeroPad_inj (String.toList_inj.1 (List.append_cancel_left h))

theorem slots_eq_of_text (h : i.text isBack = j.text isBack') : i.slots = j.slots := by
  have hop := opcode_eq_of_text h
  cases ho : i.operand? with
  | none =>
    have ho' : j.operand? = none := by
      rw [← Option.not_isSome_iff_eq_none, ← j.hasOperand_opcode, ← hop, i.hasOperand_opcode, ho]
      simp
    rw [slots, slots, hop, ho, ho']
  | some operand =>
    cases i with
    | pushNumber n =>
      cases j <;> cases hop
      have := Int64.toInt_inj.1 (Text.decimal_inj (remark_eq_of_text h rfl rfl))
      rw [this]
    | pushString s =>
      cases j <;> cases hop
      rw [Text.quote_inj (remark_eq_of_text h rfl rfl)]
    | pushId x =>
      cases j <;> cases hop
      rw [remark_eq_of_text h rfl rfl]
    | pushFunction id =>
      cases j <;> cases hop
      have h := remark_eq_of_text h rfl rfl
      rw [Nat.repr_injective ((String.append_right_inj _).1 ((String.append_left_inj _).1 h))]
    | jump t | jumpIfFalse t =>
      cases j <;> cases hop
      rw [target_eq_of_arrow (remark_eq_of_text h rfl rfl)]
    | _ => cases ho

end Instruction

namespace CodeListing

def shownText? (l : String) : Option (List Char) :=
  let text := (l.toList.dropWhile Char.isDigit).drop 3
  if text.head?.any Char.isUpper then some text else none

theorem shownText?_of_address (isMarked : Bool) (a : Nat) (text : String) :
    shownText? (Text.zeroPad 4 a ++ " " ++ (if isMarked then "► " else "  ") ++ text) =
      if text.toList.head?.any Char.isUpper then some text.toList else none := by
  have hline : (Text.zeroPad 4 a ++ " " ++ (if isMarked then "► " else "  ") ++ text).toList =
      (Text.zeroPad 4 a).toList ++ ' ' :: ((if isMarked then "► " else "  ").toList ++ text.toList) := by
    simp
  have hmark : (if isMarked then "► " else "  ").toList.length = 2 := by cases isMarked <;> rfl
  have hdrop : ((Text.zeroPad 4 a ++ " " ++ (if isMarked then "► " else "  ") ++
      text).toList.dropWhile Char.isDigit).drop 3 = text.toList := by
    rw [hline, Lexer.dropWhile_exact (fun c hc => Text.isDigit_of_mem_zeroPad hc) (by simp),
      List.drop_succ_cons, List.drop_left' hmark]
  rw [shownText?, hdrop]

theorem filterMap_markedLines (isMarked : Bool) (a : Nat) (text : String) :
    (markedLines isMarked a text).filterMap shownText? =
      if text.toList.head?.any Char.isUpper then [text.toList] else [] := by
  have hrule : shownText? ruleLine = none := by simp [shownText?, ruleLine]
  have hlines : (if isMarked then [ruleLine] else []).filterMap shownText? = [] := by
    cases isMarked <;> simp [hrule]
  rw [markedLines, List.filterMap_append, hlines, List.nil_append, List.filterMap_cons,
    shownText?_of_address]
  cases text.toList.head?.any Char.isUpper <;> rfl

theorem filterMap_rowLines (ls : List Loop) (is : List Instruction) :
    (rowLines ls is).filterMap shownText? =
      (located 0 is).map fun q => (q.2.text (isWayBack ls q)).toList := by
  have htext (q : Nat × Instruction) :
      (q.2.text (isWayBack ls q)).toList.head?.any Char.isUpper = true := by
    obtain ⟨tail, htext, -⟩ := q.2.toList_text (isWayBack ls q)
    have hhead := q.2.opcode.head_mnemonic
    rw [htext]
    cases hm : q.2.opcode.mnemonic.toList with
    | nil => simp [hm] at hhead
    | cons c cs => simpa [hm] using hhead
  have hend (b : Bool) :
      (if b then markedLines true (extent is) "<end>" else []).filterMap shownText? = [] := by
    cases b
    · rfl
    · exact filterMap_markedLines true (extent is) "<end>"
  rw [rowLines, List.filterMap_append, hend, List.append_nil, List.filterMap_flatMap,
    List.map_eq_flatMap]
  apply List.flatMap_congr
  intro q _
  rw [filterMap_markedLines, htext, if_pos rfl]

theorem map_snd_located (base : Nat) (is : List Instruction) :
    (located base is).map Prod.snd = is := by
  induction is generalizing base with
  | nil => rfl
  | cons i is ih => rw [located, List.map_cons, ih]

theorem slots_eq_of_rowLines {ls ls' : List Loop} {is is' : List Instruction}
    (h : rowLines ls is = rowLines ls' is') : Code.slots is = Code.slots is' := by
  have hslots (js : List Instruction) :
      Code.slots js = ((located 0 js).map fun q => q.2.slots).flatten := by
    rw [← List.flatMap, ← List.flatMap_map, map_snd_located]
    rfl
  -- addresses, marks, rules and the end line go; the texts of the instructions remain
  have htexts := congrArg (List.filterMap shownText?) h
  rw [filterMap_rowLines, filterMap_rowLines] at htexts
  rw [hslots, hslots]
  apply congrArg List.flatten
  rw [← List.forall₂_eq_eq_eq, List.forall₂_map_left_iff, List.forall₂_map_right_iff] at htexts ⊢
  refine htexts.imp fun q q' hq => ?_
  exact Instruction.slots_eq_of_text (String.toList_inj.1 hq)

def bannerLine : String := "════════════════════════════════════════"

def block (id : Nat) (ls : List Loop) (is : List Instruction) : List String :=
  [bannerLine, " " ++ title id, " " ++ Nat.repr (extent is) ++ " slots", bannerLine] ++ rowLines ls is

theorem ofCode_slots {ls : List Loop} {is : List Instruction} (h : GoesBack 0 is ls) (id : Nat) :
    ofCode id (Code.slots is) = String.join ((block id ls is ++ [""]).map (· ++ "\n")) := by
  have hbanner : banner = bannerLine ++ "\n" := by simp [banner, bannerLine]
  rw [ofCode, ofStream_slots h, hbanner]
  simp [← String.toList_inj, block]

theorem ne_empty_of_mem_markedLines {isMarked : Bool} {a : Nat} {text l : String}
    (h : l ∈ markedLines isMarked a text) : l ≠ "" := by
  rcases List.mem_append.1 h with h | h
  · split at h
    · rw [List.mem_singleton.1 h]
      decide
    · cases h
  · rw [List.mem_singleton.1 h, ← String.toList_inj.ne]
    simp

theorem ne_empty_of_mem_rowLines {ls : List Loop} {is : List Instruction} {l : String}
    (h : l ∈ rowLines ls is) : l ≠ "" := by
  rcases List.mem_append.1 h with h | h
  · obtain ⟨q, -, h⟩ := List.mem_flatMap.1 h
    exact ne_empty_of_mem_markedLines h
  · split at h
    · exact ne_empty_of_mem_markedLines h
    · cases h

theorem inLine_title (id : Nat) : Text.InLine (title id) := by
  rw [title]
  split
  · decide
  · exact (Text.InLine.append (by decide) (Text.inLine_repr id)).append (by decide)

theorem inLine_of_mem_block {id : Nat} {ls : List Loop} {is : List Instruction}
    (hnames : PushesOnly Text.InLine is) {l : String} (hl : l ∈ block id ls is) :
    Text.InLine l ∧ l ≠ "" := by
  have hbanner : Text.InLine bannerLine ∧ bannerLine ≠ "" := by simp [Text.InLine, bannerLine]
  rcases List.mem_append.1 hl with hl | hl
  · simp only [List.mem_cons, List.not_mem_nil, or_false] at hl
    rcases hl with rfl | rfl | rfl | rfl
    · exact hbanner
    · exact ⟨Text.InLine.append (by decide) (inLine_title id), by simp [← String.toList_inj]⟩
    · refine ⟨(Text.InLine.append (by decide) (Text.inLine_repr _)).append (by decide), ?_⟩
      simp [← String.toList_inj]
    · exact hbanner
  · exact ⟨inLine_of_mem_rowLines hnames hl, ne_empty_of_mem_rowLines hl⟩

def Tells (slots : Array Slot) (lines : List String) : Prop :=
  ∃ id ls is, slots.toList = Code.slots is ∧ lines = block id ls is

theorem leftUnique_tells : Relator.LeftUnique Tells := by
  rintro slots lines slots' ⟨id, ls, is, hslots, rfl⟩ ⟨id', ls', is', hslots', hblock⟩
  obtain ⟨-, hrows⟩ := List.append_inj hblock rfl
  rw [← Array.toList_inj, hslots, hslots', slots_eq_of_rowLines hrows]

def IsListed (slots : Array Slot) : Prop :=
  ∃ ls is, slots.toList = Code.slots is ∧ GoesBack 0 is ls ∧ PushesOnly Text.InLine is

theorem exists_blocks {streams : List (Array Slot)} (h : ∀ slots ∈ streams, IsListed slots)
    (first : Nat) : ∃ blocks, List.Forall₂ Tells streams blocks ∧
      (∀ b ∈ blocks, ∀ l ∈ b, Text.InLine l ∧ l ≠ "") ∧
      String.join (streams.mapIdx fun k slots => ofCode (first + k) slots.toList) =
        String.join ((blocks.flatMap (· ++ [""])).map (· ++ "\n")) := by
  induction streams generalizing first with
  | nil => exact ⟨[], .nil, by simp, rfl⟩
  | cons slots streams ih =>
    obtain ⟨⟨ls, is, hslots, hgoes, hnames⟩, hstreams⟩ := List.forall_mem_cons.1 h
    obtain ⟨blocks, htells, hlines, htext⟩ := ih hstreams (first + 1)
    refine ⟨block first ls is :: blocks, .cons ⟨first, ls, is, hslots, rfl⟩ htells, ?_, ?_⟩
    · exact List.forall_mem_cons.2 ⟨fun l hl => inLine_of_mem_block hnames hl, hlines⟩
    · have hnext : (fun k (slots : Array Slot) => ofCode (first + (k + 1)) slots.toList) =
          fun k slots => ofCode (first + 1 + k) slots.toList := by
        funext k slots
        rw [Nat.add_right_comm, Nat.add_assoc]
      rw [List.mapIdx_cons, hnext, List.flatMap_cons, List.map_append, String.join_append, ← htext,
        hslots, Nat.add_zero, ofCode_slots hgoes, String.join_cons]

def heading : String := "=== BYTECODE PROGRAM ==="

theorem exists_blocks_ofProgram {p : Program} (h : ∀ slots ∈ p.code, IsListed slots) :
    ∃ blocks, List.Forall₂ Tells p.code.toList blocks ∧
      (Text.lines (ofProgram p)).splitOn "" = [heading] :: blocks ++ [[], []] := by
  obtain ⟨blocks, htells, hlines, htext⟩ :=
    exists_blocks (fun slots hslots => h slots (Array.mem_toList_iff.1 hslots)) 0
  refine ⟨blocks, htells, ?_⟩
  have hall : ∀ b ∈ [heading] :: blocks, ∀ l ∈ b, Text.InLine l ∧ l ≠ "" := by
    refine List.forall_mem_cons.2 ⟨?_, hlines⟩
    simp only [List.forall_mem_singleton]
    decide
  have hprogram : ofProgram p =
      String.join ((([heading] :: blocks).flatMap (· ++ [""])).map (· ++ "\n")) := by
    have hheading : "=== BYTECODE PROGRAM ===\n\n" =
        String.join (([heading] ++ [""]).map (· ++ "\n")) := by simp [heading]
    have hunfold : ofProgram p = "=== BYTECODE PROGRAM ===\n\n" ++
        String.join (p.code.toList.mapIdx fun id slots => ofCode id slots.toList) := rfl
    simp only [Nat.zero_add] at htext
    rw [hunfold, htext, List.flatMap_cons, List.map_append, String.join_append, ← hheading]
  have hinLine : ∀ l ∈ ([heading] :: blocks).flatMap (· ++ [""]), Text.InLine l := by
    intro l hl
    obtain ⟨b, hb, hl⟩ := List.mem_flatMap.1 hl
    rcases List.mem_append.1 hl with hl | hl
    · exact (hall b hb l hl).1
    · rw [List.mem_singleton.1 hl]
      decide
  rw [hprogram, Text.lines_join hinLine, Text.splitOn_flatMap_concat]
  · rfl
  · exact fun b hb hmem => (hall b hb "" hmem).2 rfl

end CodeListing

namespace Script

theorem isListed_of_compile {source : String} {p : Program} (h : (compile source).result = .ok p) :
    ∀ slots ∈ p.code, CodeListing.IsListed slots := by
  obtain ⟨ns, c, hp, hnames⟩ := exists_of_compile h
  obtain ⟨hns, rfl⟩ := Program.ofNodes_eq_ok_iff.1 ⟨c, hp⟩
  intro slots hslots
  obtain ⟨id, hid⟩ := Array.getElem?_of_mem hslots
  obtain ⟨is, his, rfl⟩ := exists_of_code_assemble hid
  obtain ⟨ls, -, hgoes⟩ := exists_goesBack hns his
  exact ⟨ls, is, rfl, hgoes, pushesOnly_streams hns hnames his⟩

theorem eq_of_listing {source source' : String} {p p' : Program}
    (h : (compile source).result = .ok p) (h' : (compile source').result = .ok p')
    (hlisting : CodeListing.ofProgram p = CodeListing.ofProgram p') : p = p' := by
  obtain ⟨blocks, htells, hcut⟩ := CodeListing.exists_blocks_ofProgram (isListed_of_compile h)
  obtain ⟨blocks', htells', hcut'⟩ := CodeListing.exists_blocks_ofProgram (isListed_of_compile h')
  have hblocks : blocks = blocks' := by
    rw [hlisting, hcut'] at hcut
    exact (List.cons.inj (List.append_cancel_right hcut)).2.symm
  subst hblocks
  have hcode := List.left_unique_forall₂' CodeListing.leftUnique_tells htells htells'
  obtain ⟨code⟩ := p
  obtain ⟨code'⟩ := p'
  rw [Program.mk.injEq, ← Array.toList_inj]
  exact hcode

/-- A program with a string that looks like lines of its listing. -/
def imitation : Program :=
  ⟨#[#[.ofOpcode .pushId, .name "s", .ofOpcode .pushString, .text "\n0005   POP\n",
    .ofOpcode .setEnvGlobal]]⟩

theorem eq_of_listing_imitation :
    ∃ p p', (compile "s = \"\n0005   POP\n\"").result = .ok p ∧
      (compile "s=\"\\n0005   POP\\n\" -- s").result = .ok p' ∧
      CodeListing.ofProgram p = CodeListing.ofProgram p' ∧ p = p' := by
  have h : (compile "s = \"\n0005   POP\n\"").result = .ok imitation := by cbv
  have h' : (compile "s=\"\\n0005   POP\\n\" -- s").result = .ok imitation := by cbv
  exact ⟨imitation, imitation, h, h', rfl, eq_of_listing h h' rfl⟩

end Script

end Scriptlet
