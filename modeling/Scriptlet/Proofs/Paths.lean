import Mathlib
import Scriptlet.Path
import Scriptlet.Disk

/-! Paths to files, on a disk.  A path that can be read is a directory's path and the name of a
file in it; `Path.LeadsTo` takes it apart so.  What its extension is, and where it leads, depends
on the two parts alone, so that a file under another name can be found next to it. -/

namespace Scriptlet

namespace Path

variable {path ext : String} {dir name stem old : List Char}

def IsDirectory (dir : List Char) : Prop := dir = [] ∨ ∃ ds, dir = ds ++ ['/']

/-- The path ends in `name`, which can be that of a file, in the directory `dir`. -/
structure LeadsTo (path : String) (dir name : List Char) : Prop where
  eq : path.toList = dir ++ name
  isDirectory : IsDirectory dir
  noSlash : '/' ∉ name
  ne_nil : name ≠ []
  ne_dot : name ≠ ['.']
  ne_dots : name ≠ ['.', '.']

theorem stripEnd_append {r ds : List Char} (hslash : '/' ∉ r) (hne : r ≠ []) (hdot : r ≠ ['.']) :
    stripEnd (r ++ ds) = r ++ ds := by
  rw [stripEnd.eq_def]
  split
  · next cs h =>
    cases r with
    | nil => exact absurd rfl hne
    | cons c r => simp_all
  · next cs h =>
    cases r with
    | nil => exact absurd rfl hne
    | cons c r => cases r <;> simp_all
  · rfl

theorem takeWhile_ne_append {c : Char} {r ds : List Char} (hr : c ∉ r)
    (hds : ds = [] ∨ ∃ ds', ds = c :: ds') : (r ++ ds).takeWhile (· ≠ c) = r := by
  have hpos : ∀ a ∈ r, decide (a ≠ c) = true := by
    intro a ha
    exact decide_eq_true fun hac => hr (hac ▸ ha)
  rw [List.takeWhile_append_of_pos hpos]
  obtain rfl | ⟨ds', rfl⟩ := hds <;> simp

theorem fileName?_append (heq : path.toList = dir ++ name) (hdir : IsDirectory dir)
    (hslash : '/' ∉ name) (hne : name ≠ []) (hdot : name ≠ ['.']) :
    reversed path = name.reverse ++ dir.reverse ∧
      fileName? path = if name = ['.', '.'] then none else some name := by
  have hreversed : reversed path = name.reverse ++ dir.reverse := by
    rw [reversed, heq, List.reverse_append]
    exact stripEnd_append (by simpa using hslash) (by simpa using hne) (by simpa using hdot)
  refine ⟨hreversed, ?_⟩
  have hds : dir.reverse = [] ∨ ∃ ds, dir.reverse = '/' :: ds := by
    obtain rfl | ⟨ds, rfl⟩ := hdir
    · exact .inl rfl
    · exact .inr ⟨ds.reverse, by simp⟩
  have hname : ((reversed path).takeWhile (· ≠ '/')).reverse = name := by
    rw [hreversed, takeWhile_ne_append (by simpa using hslash) hds, List.reverse_reverse]
  simp only [fileName?, hname, hne, hdot, false_or]

theorem extensionOf_append (hstem : stem ≠ []) (hold : '.' ∉ old) :
    extensionOf (stem ++ '.' :: old) = some old := by
  have hafter : ((stem ++ '.' :: old).reverse.takeWhile (· ≠ '.')).reverse = old := by
    have hreverse : (stem ++ '.' :: old).reverse = old.reverse ++ '.' :: stem.reverse := by simp
    rw [hreverse, takeWhile_ne_append (by simpa using hold) (.inr ⟨_, rfl⟩), List.reverse_reverse]
  have hlength : 0 < stem.length := List.length_pos_iff.2 hstem
  simp only [extensionOf, hafter]
  rw [if_neg]
  simp
  omega

theorem exists_cut_of_mem {c : Char} {cs : List Char} (h : c ∈ cs) :
    ∃ front back, cs = front ++ c :: back ∧ c ∉ back := by
  obtain ⟨back, front, hcs, hback⟩ := List.eq_append_cons_of_mem (List.mem_reverse.2 h)
  refine ⟨front.reverse, back.reverse, ?_, by simpa using hback⟩
  rw [← List.reverse_reverse cs, hcs]
  simp

theorem cases_of_extensionOf (name : List Char) :
    extensionOf name = none ∨
      ∃ stem old, name = stem ++ '.' :: old ∧ stem ≠ [] ∧ '.' ∉ old := by
  by_cases hdot : '.' ∈ name
  · obtain ⟨stem, old, rfl, hold⟩ := exists_cut_of_mem hdot
    by_cases hstem : stem = []
    · subst hstem
      refine .inl ?_
      have hafter : (('.' :: old).reverse.takeWhile (· ≠ '.')).reverse = old := by
        rw [List.reverse_cons, takeWhile_ne_append (by simpa using hold) (.inr ⟨[], rfl⟩),
          List.reverse_reverse]
      simp only [extensionOf, List.nil_append, hafter]
      exact if_pos (Nat.le_refl _)
    · exact .inr ⟨stem, old, rfl, hstem, hold⟩
  · refine .inl ?_
    have hafter : (name.reverse.takeWhile (· ≠ '.')).reverse = name := by
      have h := takeWhile_ne_append (by simpa using hdot : '.' ∉ name.reverse) (.inl rfl)
      rw [List.append_nil] at h
      rw [h, List.reverse_reverse]
    simp only [extensionOf, hafter]
    exact if_pos (Nat.le_succ _)

namespace LeadsTo

theorem fileName? (h : LeadsTo path dir name) : Path.fileName? path = some name := by
  rw [(fileName?_append h.eq h.isDirectory h.noSlash h.ne_nil h.ne_dot).2, if_neg h.ne_dots]

theorem reversed (h : LeadsTo path dir name) :
    Path.reversed path = name.reverse ++ dir.reverse :=
  (fileName?_append h.eq h.isDirectory h.noSlash h.ne_nil h.ne_dot).1

theorem extension? (h : LeadsTo path dir name) :
    Path.extension? path = (extensionOf name).map String.ofList := by
  rw [Path.extension?, h.fileName?, Option.bind_some]

theorem withExtension_of_none (h : LeadsTo path dir name) (hname : extensionOf name = none) :
    withExtension path ext = String.ofList (dir ++ name) ++ "." ++ ext := by
  simp only [withExtension, h.fileName?, hname, h.reversed]
  simp

theorem withExtension_of_some (h : LeadsTo path dir (stem ++ '.' :: old)) (hstem : stem ≠ [])
    (hold : '.' ∉ old) :
    withExtension path ext =
      if stem = ['.'] then String.ofList (dir ++ ['.', '.'])
      else String.ofList (dir ++ stem) ++ "." ++ ext := by
  let upToDot := String.ofList (dir ++ (stem ++ ['.']))
  have hdrop : String.ofList ((Path.reversed path).drop old.length).reverse = upToDot := by
    rw [h.reversed]
    simp [upToDot]
  have hname : Path.fileName? upToDot =
      if stem ++ ['.'] = ['.', '.'] then none else some (stem ++ ['.']) := by
    refine (fileName?_append (String.toList_ofList) h.isDirectory ?_ (by simp) ?_).2
    · have := h.noSlash
      simp_all
    · simpa using hstem
  have hdots : stem ++ ['.'] = ['.', '.'] ↔ stem = ['.'] := by
    rw [show ['.', '.'] = ['.'] ++ ['.'] from rfl, List.append_cancel_right_eq]
  simp only [withExtension, h.fileName?, extensionOf_append hstem hold, hdrop, hname, hdots]
  by_cases hs : stem = ['.']
  · simp [hs, upToDot]
  · simp [hs, upToDot, String.ofList_append, String.append_assoc]

end LeadsTo

def Replaces (path ext target : String) : Prop :=
  match extension? path with
  | none => target = path ++ "." ++ ext
  | some old => ∃ stem, path = stem ++ "." ++ old ∧ target = stem ++ "." ++ ext

def IsDotted (path : String) : Prop := ∃ old, fileName? path = some ('.' :: '.' :: old) ∧ '.' ∉ old

theorem LeadsTo.withExtension_of_dotted (h : LeadsTo path dir name) (hdotted : IsDotted path) :
    withExtension path ext = String.ofList (dir ++ ['.', '.']) := by
  obtain ⟨old, hname, hold⟩ := hdotted
  rw [h.fileName?, Option.some.injEq] at hname
  subst hname
  have h : LeadsTo path dir (['.'] ++ '.' :: old) := h
  rw [h.withExtension_of_some (List.cons_ne_nil _ _) hold, if_pos rfl]

theorem LeadsTo.replaces (h : LeadsTo path dir name) (hdotted : ¬ IsDotted path) (ext : String) :
    Replaces path ext (withExtension path ext) ∧
      ∃ front, front ≠ [] ∧ front <+: name ∧
        withExtension path ext = String.ofList (dir ++ front) ++ "." ++ ext := by
  have hpath : path = String.ofList (dir ++ name) := by rw [← h.eq, String.ofList_toList]
  rw [Replaces, h.extension?]
  obtain hnone | ⟨stem, old, rfl, hstem, hold⟩ := cases_of_extensionOf name
  · rw [hnone, h.withExtension_of_none hnone]
    exact ⟨by rw [← hpath]; rfl, name, h.ne_nil, List.prefix_rfl, rfl⟩
  · have hdot : stem ≠ ['.'] := by
      rintro rfl
      exact hdotted ⟨old, h.fileName?, hold⟩
    rw [extensionOf_append hstem hold, h.withExtension_of_some hstem hold, if_neg hdot]
    refine ⟨⟨String.ofList (dir ++ stem), ?_, rfl⟩, stem, hstem, List.prefix_append _ _, rfl⟩
    rw [hpath]
    simp [String.ofList_append, String.append_assoc]

theorem leadsTo_append (hdir : IsDirectory dir) {front : List Char} (hfront : front ≠ [])
    (hslash : '/' ∉ front) (ext : String) (hext : ext ≠ "") (hextSlash : '/' ∉ ext.toList) :
    LeadsTo (String.ofList (dir ++ front) ++ "." ++ ext) dir (front ++ '.' :: ext.toList) where
  eq := by simp
  isDirectory := hdir
  noSlash := by simp [hslash, hextSlash]
  ne_nil := by simp
  ne_dot := by
    cases front with
    | nil => exact absurd rfl hfront
    | cons c cs => simp
  ne_dots := by
    intro h
    have hlength := congrArg List.length h
    have hfront := List.length_pos_iff.2 hfront
    have hext := List.length_pos_iff.2 fun h => hext (String.toList_eq_nil_iff.1 h)
    simp only [List.length_append, List.length_cons, List.length_nil] at hlength
    omega

end Path

namespace Disk

variable {d d' : Disk} {here spot names : List String} {path : String} {content : ByteArray}

theorem walk_append (d : Disk) (here : List String) (ps qs : List String) :
    d.walk here (ps ++ qs) = d.walk here ps >>= fun spot => d.walk spot qs := by
  induction ps generalizing here with
  | nil => rfl
  | cons p ps ih =>
    simp only [List.cons_append, walk]
    split
    · rfl
    · rfl
    · exact ih _

theorem walk_concat_eq_ok_iff {ps : List String} {q : String} :
    d.walk here (ps ++ [q]) = .ok spot ↔
      ∃ above, d.walk here ps = .ok above ∧ d.item? above = some .directory ∧
        next above q = spot := by
  rw [walk_append]
  cases d.walk here ps with
  | error e => simp [Bind.bind, Except.bind]
  | ok above =>
    simp only [Bind.bind, Except.bind, walk, Except.ok.injEq, exists_eq_left']
    split <;> simp_all

def Anchored (d : Disk) (names : List String) : Prop :=
  ∀ k < names.length, d.item? (names.take k) = some .directory

theorem anchored_start (d : Disk) (path : String) : d.Anchored (d.start path) := by
  rw [start]
  split
  · exact fun k hk => absurd hk (Nat.not_lt_zero k)
  · exact fun k _ => if_pos (List.take_prefix k d.home)

theorem Anchored.up (h : d.Anchored here) : d.Anchored here.dropLast := by
  intro k hk
  rw [List.length_dropLast] at hk
  rw [List.dropLast_eq_take, List.take_take, Nat.min_eq_left (by omega)]
  exact h k (by omega)

theorem Anchored.item?_up (h : d.Anchored here) : d.item? here.dropLast = some .directory := by
  cases here with
  | nil => exact if_pos List.nil_prefix
  | cons x xs =>
    rw [List.dropLast_eq_take]
    exact h _ (Nat.sub_lt (Nat.succ_pos _) Nat.one_pos)

theorem Anchored.next {q : String} (h : d.Anchored here)
    (hdir : d.item? here = some .directory) : d.Anchored (Disk.next here q) := by
  unfold Disk.next
  split
  · exact h
  · split
    · exact h.up
    · intro k hk
      rw [List.length_append, List.length_singleton] at hk
      by_cases hlt : k < here.length
      · rw [List.take_append_of_le_length (Nat.le_of_lt hlt)]
        exact h k hlt
      · rw [List.take_append_of_le_length (by omega), List.take_of_length_le (by omega)]
        exact hdir

theorem Anchored.walk {ps : List String} (h : d.Anchored here) (hw : d.walk here ps = .ok spot) :
    d.Anchored spot := by
  induction ps generalizing here with
  | nil =>
    cases hw
    exact h
  | cons p ps ih =>
    rw [Disk.walk] at hw
    split at hw
    · cases hw
    · cases hw
    · next hdir => exact ih (h.next hdir) hw

theorem next_eq_of_dots {q : String} (h : q = "" ∨ q = "." ∨ q = "..") (here : List String) :
    next here q = here ∨ next here q = here.dropLast := by
  rcases h with rfl | rfl | rfl
  · exact .inl (if_pos (.inl rfl))
  · exact .inl (if_pos (.inr rfl))
  · exact .inr (by simp [next])

theorem item?_of_dots {ps : List String} {q : String} (hq : q = "" ∨ q = "." ∨ q = "..")
    (h : d.Anchored here) (hw : d.walk here (ps ++ [q]) = .ok spot) :
    d.item? spot = some .directory := by
  obtain ⟨above, habove, hdir, rfl⟩ := walk_concat_eq_ok_iff.1 hw
  obtain hstay | hup := next_eq_of_dots hq above
  · rw [hstay]
    exact hdir
  · rw [hup]
    exact (h.walk habove).item?_up

theorem exists_resolve {dir : List Char} (hdir : Path.IsDirectory dir) (d : Disk) :
    ∃ start rest, d.Anchored start ∧
      ∀ (path : String) (name : List Char), '/' ∉ name → (name ≠ [] ∨ dir ≠ []) →
        path.toList = dir ++ name →
          d.resolve path = d.walk start (rest ++ [String.ofList name]) := by
  refine ⟨d.start (String.ofList dir), (dir.splitOn '/').dropLast.map String.ofList,
    d.anchored_start _, fun path name hslash hne heq => ?_⟩
  have hpath : path ≠ "" := by
    rintro rfl
    have hempty : dir ++ name = [] := heq.symm
    obtain ⟨rfl, rfl⟩ := List.append_eq_nil_iff.1 hempty
    simp at hne
  have hparts : parts path = (dir.splitOn '/').dropLast.map String.ofList ++ [String.ofList name] ∧
      d.start path = d.start (String.ofList dir) := by
    rw [parts, start, start, heq, String.toList_ofList]
    obtain rfl | ⟨ds, rfl⟩ := hdir
    · have hhead : name.head? ≠ some '/' := fun h => hslash (List.mem_of_head? h)
      simp [List.splitOn_eq_singleton hslash, hhead]
    · rw [List.append_assoc, List.singleton_append, List.splitOn_append_cons_self,
        List.splitOn_append_cons_self, List.splitOn_eq_singleton hslash]
      simp [List.head?_append]
  rw [resolve, if_neg hpath, hparts.1, hparts.2]

theorem read_eq_ok_iff : d.read path = .ok content ↔
    ∃ names, d.resolve path = .ok names ∧ d.item? names = some (.file content) := by
  rw [read]
  cases d.resolve path with
  | error e => simp [Bind.bind, Except.bind]
  | ok names =>
    simp only [Bind.bind, Except.bind, Except.ok.injEq, exists_eq_left']
    split <;> simp_all [pure, Except.pure, throw, throwThe, MonadExceptOf.throw]

theorem exists_leadsTo (h : d.read path = .ok content) :
    ∃ dir name, Path.LeadsTo path dir name := by
  obtain ⟨names, hnames, hitem⟩ := read_eq_ok_iff.1 h
  obtain ⟨dir, name, heq, hdir, hslash⟩ : ∃ dir name, path.toList = dir ++ name ∧
      Path.IsDirectory dir ∧ '/' ∉ name := by
    by_cases hmem : '/' ∈ path.toList
    · obtain ⟨ds, name, heq, hname⟩ := Path.exists_cut_of_mem hmem
      exact ⟨ds ++ ['/'], name, by simp [heq], .inr ⟨ds, rfl⟩, hname⟩
    · exact ⟨[], path.toList, rfl, .inl rfl, hmem⟩
  have hpath : name ≠ [] ∨ dir ≠ [] := by
    by_contra hempty
    simp only [not_or, not_not] at hempty
    have hpath : path = "" := by rw [← String.toList_eq_nil_iff, heq, hempty.1, hempty.2]; rfl
    rw [resolve, if_pos hpath] at hnames
    cases hnames
  obtain ⟨start, rest, hanchored, hresolve⟩ := exists_resolve hdir d
  have hdots (hq : String.ofList name = "" ∨ String.ofList name = "." ∨ String.ofList name = "..") :
      False := by
    rw [hresolve path name hslash hpath heq] at hnames
    rw [item?_of_dots hq hanchored hnames] at hitem
    cases hitem
  refine ⟨dir, name, heq, hdir, hslash, ?_, ?_, ?_⟩
  · rintro rfl
    exact hdots (.inl rfl)
  · rintro rfl
    exact hdots (.inr (.inl rfl))
  · rintro rfl
    exact hdots (.inr (.inr rfl))

theorem write_eq_ok_iff : d.write path content = .ok d' ↔
    ∃ names, d.resolve path = .ok names ∧ d.item? names ≠ some .directory ∧
      d' = d.put names (.file content) := by
  rw [write]
  cases d.resolve path with
  | error e => simp [Bind.bind, Except.bind]
  | ok names =>
    simp only [Bind.bind, Except.bind, Except.ok.injEq, exists_eq_left']
    split <;> simp_all [pure, Except.pure, throw, throwThe, MonadExceptOf.throw, eq_comm]

theorem item?_put_self (h : d.item? names ≠ some .directory) (item : DiskItem) :
    (d.put names item).item? names = some item := by
  have hhome : ¬ names <+: d.home := fun hhome => h (if_pos hhome)
  rw [item?, put, if_neg hhome, List.lookup_cons_self]

theorem item?_put_of_ne {others : List String} (h : others ≠ names) (d : Disk) (item : DiskItem) :
    (d.put names item).item? others = d.item? others := by
  have hlookup : (d.items.filter (·.1 ≠ names)).lookup others = d.items.lookup others := by
    induction d.items with
    | nil => rfl
    | cons x xs ih =>
      obtain ⟨names', item'⟩ := x
      by_cases hx : names' = names
      · have hother : (others == names') = false := by
          rw [hx]
          exact beq_eq_false_iff_ne.2 h
        rw [List.filter_cons_of_neg (by simpa using hx), ih, List.lookup_cons, hother]
      · rw [List.filter_cons_of_pos (by simpa using hx), List.lookup_cons, List.lookup_cons, ih]
  simp only [item?, put, List.lookup_cons, beq_eq_false_iff_ne.2 h, hlookup]

theorem walk_put {ps : List String} (h : d.item? names ≠ some .directory) :
    (d.put names (.file content)).walk here ps = .ok spot ↔ d.walk here ps = .ok spot := by
  induction ps generalizing here with
  | nil => exact Iff.rfl
  | cons p ps ih =>
    rw [walk, walk]
    by_cases hhere : here = names
    · subst hhere
      rw [item?_put_self h]
      cases hitem : d.item? here with
      | none => simp
      | some item =>
        cases item with
        | file old => simp
        | directory => exact absurd hitem h
    · rw [item?_put_of_ne hhere]
      split
      · rfl
      · rfl
      · exact ih

theorem resolve_put (h : d.item? names ≠ some .directory) :
    (d.put names (.file content)).resolve path = .ok spot ↔ d.resolve path = .ok spot := by
  rw [resolve, resolve]
  split
  · rfl
  · exact walk_put h

end Disk

/-- What a system says of its files, when nobody else writes them.  `Same` holds of paths that lead
to one file. -/
class LawfulFiles (σ : Type) [Files σ] where
  Same : σ → String → String → Prop
  -- No path, a separator at the end and dots in the place of a name stand for no file.
  leadsTo_of_read {d : σ} {path : String} {content : ByteArray} :
    Files.read d path = .ok content → ∃ dir name, Path.LeadsTo path dir name
  read_of_same {d : σ} {path other : String} {content : ByteArray} :
    Same d other path → Files.read d path = .ok content → Files.read d other = .ok content
  -- A write that succeeds replaces the whole content of the file, and of no other.
  read_of_write {d d' : σ} {path : String} {content : ByteArray} :
    Files.write path content d = .ok () d' → Files.read d' path = .ok content
  read_of_write_of_not_same {d d' : σ} {path other : String} {content content' : ByteArray} :
    Files.write path content d = .ok () d' → ¬ Same d' other path →
      (Files.read d' other = .ok content' ↔ Files.read d other = .ok content')
  -- The directory of a file is there, so two dots behind it lead to one, which is not written.
  write_dots {d : σ} {path : String} {dir name : List Char} {content : ByteArray} :
    Path.LeadsTo path dir name → Files.read d path = .ok content → ∀ content',
      Files.write (String.ofList (dir ++ ['.', '.'])) content' d =
        .error DiskError.isDirectory.message d

namespace Disk

variable {d d' : Disk} {path : String} {content : ByteArray}

theorem files_read_eq_ok_iff : Files.read d path = .ok content ↔ d.read path = .ok content := by
  simp only [Files.read]
  cases d.read path <;> simp [Except.mapError]

theorem files_write_eq_ok_iff :
    Files.write path content d = .ok () d' ↔ d.write path content = .ok d' := by
  simp only [Files.write]
  cases d.write path content <;> simp

theorem write_dots {dir name : List Char} (hpath : Path.LeadsTo path dir name)
    (h : d.read path = .ok content) (content' : ByteArray) :
    d.write (String.ofList (dir ++ ['.', '.'])) content' = .error .isDirectory := by
  obtain ⟨start, rest, hanchored, hresolve⟩ := exists_resolve hpath.isDirectory d
  obtain ⟨names, hnames, -⟩ := read_eq_ok_iff.1 h
  rw [hresolve path name hpath.noSlash (.inl hpath.ne_nil) hpath.eq] at hnames
  obtain ⟨above, habove, hdir, -⟩ := walk_concat_eq_ok_iff.1 hnames
  have hup : d.walk start (rest ++ [".."]) = .ok above.dropLast :=
    walk_concat_eq_ok_iff.2 ⟨above, habove, hdir, by simp [next]⟩
  have hdots : d.resolve (String.ofList (dir ++ ['.', '.'])) = .ok above.dropLast := by
    rw [hresolve _ ['.', '.'] (by simp) (by simp) String.toList_ofList]
    exact hup
  rw [write, hdots]
  simp only [Bind.bind, Except.bind, item?_of_dots (.inr (.inr rfl)) hanchored hup]
  rfl

instance : LawfulFiles Disk where
  Same d p q := ∃ names, d.resolve p = .ok names ∧ d.resolve q = .ok names
  leadsTo_of_read h := exists_leadsTo (files_read_eq_ok_iff.1 h)
  read_of_same := by
    rintro d path other content ⟨names, hother, hpath⟩ hread
    rw [files_read_eq_ok_iff, read_eq_ok_iff] at hread ⊢
    obtain ⟨names', hnames', hitem⟩ := hread
    cases hpath.symm.trans hnames'
    exact ⟨names, hother, hitem⟩
  read_of_write h := by
    obtain ⟨names, hresolve, hitem, rfl⟩ := write_eq_ok_iff.1 (files_write_eq_ok_iff.1 h)
    rw [files_read_eq_ok_iff, read_eq_ok_iff]
    exact ⟨names, (resolve_put hitem).2 hresolve, item?_put_self hitem _⟩
  read_of_write_of_not_same {d d'} {path other} {_ content'} h hother := by
    obtain ⟨names, hresolve, hitem, rfl⟩ := write_eq_ok_iff.1 (files_write_eq_ok_iff.1 h)
    rw [files_read_eq_ok_iff, files_read_eq_ok_iff, read_eq_ok_iff, read_eq_ok_iff]
    apply exists_congr
    intro others
    rw [resolve_put hitem]
    apply and_congr_right
    intro hothers
    have hne : others ≠ names := by
      rintro rfl
      exact hother ⟨others, (resolve_put hitem).2 hothers, (resolve_put hitem).2 hresolve⟩
    rw [item?_put_of_ne hne]
  write_dots hpath hread content' := by
    simp only [Files.write, write_dots hpath (files_read_eq_ok_iff.1 hread) content']

end Disk

end Scriptlet
