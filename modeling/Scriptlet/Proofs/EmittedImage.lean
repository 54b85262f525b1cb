import Scriptlet.Command
import Scriptlet.Proofs.ImageRoundTrip
import Scriptlet.Proofs.Paths
import Scriptlet.Proofs.Transcript

/-! Emitting an image and running it, on the files of any system.  The image of a script is written
next to the script, and a run of the one is a run of the other, but for the addresses of tables. -/

namespace Scriptlet

namespace Command

variable {σ : Type} [Files σ] {address : Nat → Nat} {fuel : Nat} {d d' : σ} {args : List String}
  {file source : String} {bytes : ByteArray} {p : Program}

theorem ne_of_isFlag {s : String} (h : isFlag file = false) (hs : isFlag s = true) : file ≠ s := by
  rintro rfl
  rw [hs] at h
  cases h

theorem contains_concat {s : String} (h : isFlag file = false) (hs : isFlag s = true)
    (flags : List String) : (flags ++ [file]).contains s = flags.contains s := by
  simp [(ne_of_isFlag h hs).symm]

theorem viewOf_concat (h : isFlag file = false) (flags : List String) :
    viewOf (flags ++ [file]) = viewOf flags := by
  simp only [viewOf]
  rw [contains_concat h rfl, contains_concat h rfl, contains_concat h rfl, contains_concat h rfl,
    contains_concat h rfl, contains_concat h rfl, contains_concat h rfl, contains_concat h rfl]

theorem ofArgs_concat (h : isFlag file = false) {flags : List String}
    (hflags : flags.all isFlag) (hhelp : flags.contains "--help" = false)
    (hshort : flags.contains "-h" = false) :
    Task.ofArgs (flags ++ [file]) =
      if isImage file then .runImage file else .script (viewOf flags) file := by
  have hfind : (flags ++ [file]).find? (!isFlag ·) = some file := by
    rw [List.find?_append, List.find?_eq_none.2]
    · simp [h]
    · simpa using hflags
  rw [Task.ofArgs, contains_concat h rfl, contains_concat h rfl, hhelp, hshort, hfind,
    viewOf_concat h]
  rfl

def image (p : Program) : ByteArray := ⟨(Image.encode p).toArray⟩

theorem exec_of_read (hfile : (Task.ofArgs args).file? = some file)
    (hread : Files.read d file = .ok bytes) :
    exec address fuel d args = ((Task.ofArgs args).effect (.ok bytes)).carryOut address fuel d := by
  simp only [exec, hfile, Option.map_some, Option.getD_some, hread]

theorem effect_script (hsource : String.fromUTF8? bytes = some source) (view : View) :
    (Task.script view file).effect (.ok bytes) = .ofResult (view.effect file source) := by
  simp only [Task.effect, hsource]

theorem effect_image (hp : p.Sized) : (Task.runImage file).effect (.ok (image p)) = .run p := by
  have hdecode := (Image.decode_encode p hp).1 []
  rw [List.append_nil] at hdecode
  have hread : Script.readImage (image p).data.toList = .ok p := by
    simp [Script.readImage, image, hdecode]
  simp only [Task.effect, hread]
  rfl

section

variable (hflag : isFlag file = false) (hfile : isImage file = false)
  (hread : Files.read d file = .ok bytes) (hsource : String.fromUTF8? bytes = some source)

include hflag hfile hread hsource

theorem exec_emit :
    exec address fuel d ["--emit", file] =
      (Effect.ofResult (View.image.effect file source)).carryOut address fuel d := by
  have hargs : Task.ofArgs ["--emit", file] = .script .image file := by
    rw [show ["--emit", file] = ["--emit"] ++ [file] from rfl, ofArgs_concat hflag rfl rfl rfl,
      hfile]
    rfl
  rw [exec_of_read (by rw [hargs]; rfl) hread, hargs, effect_script hsource]

theorem exec_source :
    exec address fuel d [file] =
      (Effect.ofResult (View.run.effect file source)).carryOut address fuel d := by
  have hargs : Task.ofArgs [file] = .script .run file := by
    rw [show [file] = [] ++ [file] from rfl, ofArgs_concat hflag rfl rfl rfl, hfile]
    rfl
  rw [exec_of_read (by rw [hargs]; rfl) hread, hargs, effect_script hsource]

end

theorem exec_image (hflag : isFlag file = false) (hfile : isImage file = true)
    (hread : Files.read d file = .ok (image p)) (hp : p.Sized) :
    exec address fuel d [file] = (Effect.run p).carryOut address fuel d := by
  have hargs : Task.ofArgs [file] = .runImage file := by
    rw [show [file] = [] ++ [file] from rfl, ofArgs_concat hflag rfl rfl rfl, hfile]
    rfl
  rw [exec_of_read (by rw [hargs]; rfl) hread, hargs, effect_image hp]

/-- Two runs, with no change to any file, that print the same values with addresses of their own and
come to the same end, or both go on. -/
inductive SameRun (a a' : Nat → Nat) (d d' : σ) :
    Option (Response × σ) → Option (Response × σ) → Prop
  | running : SameRun a a' d d' none none
  | ended {exit : Nat} {stderr : String} (printed : List Value) :
    SameRun a a' d d' (some (⟨exit, Machine.transcript a printed, stderr⟩, d))
      (some (⟨exit, Machine.transcript a' printed, stderr⟩, d'))

theorem sameRun_carryOut (a a' : Nat → Nat) (fuel : Nat) (d d' : σ) (p : Program) :
    SameRun a a' d d' ((Effect.run p).carryOut a fuel d) ((Effect.run p).carryOut a' fuel d') := by
  have hrun := (Machine.twins_ofProgram a a' p).run fuel
  simp only [Effect.carryOut]
  generalize Machine.run { address := a } fuel (.ofProgram p) = r at hrun
  generalize Machine.run { address := a' } fuel (.ofProgram p) = r' at hrun
  cases hrun with
  | @ok b m m' htwins =>
    obtain ⟨printed, hwritten, rfl⟩ := htwins
    cases b with
    | false => exact .running
    | true =>
      simp only [Response.ofRun, hwritten]
      exact .ended printed
  | @error f m m' htwins =>
    obtain ⟨printed, hwritten, rfl⟩ := htwins
    simp only [Response.ofRun, hwritten]
    exact .ended printed

theorem isFlag_of_prefix {target : String} (cs : List Char) (hcs : cs ≠ [])
    (hfile : cs <+: file.toList) (htarget : cs <+: target.toList) :
    isFlag target = isFlag file := by
  obtain ⟨c, cs, rfl⟩ := List.exists_cons_of_ne_nil hcs
  obtain ⟨rest, hfile⟩ := hfile
  obtain ⟨rest', htarget⟩ := htarget
  simp [isFlag, ← hfile, ← htarget]

theorem isImage_imagePath {dir name : List Char} (h : Path.LeadsTo file dir name)
    (hflag : isFlag file = false) (hdotted : ¬ Path.IsDotted file) :
    isFlag (imagePath file) = false ∧ isImage (imagePath file) = true := by
  obtain ⟨-, front, hfront, hname, hpath⟩ := h.replaces hdotted "mbc"
  have hslash : '/' ∉ front := fun hmem => h.noSlash (hname.subset hmem)
  have hleads := Path.leadsTo_append h.isDirectory hfront hslash "mbc" (by decide) (by decide)
  rw [imagePath, hpath]
  constructor
  · rw [← hflag]
    refine isFlag_of_prefix (dir ++ front) (by simp [hfront]) ?_ (by simp)
    rw [h.eq]
    exact (List.prefix_append_right_inj dir).2 hname
  · rw [isImage, hleads.extension?, Path.extensionOf_append hfront (by decide)]
    rfl

theorem effect_of_error {e : ScriptError} (h : (Script.compile source).result = .error e)
    (file : String) :
    View.image.effect file source = .error e ∧ View.run.effect file source = .error e := by
  simp only [View.effect, h]
  exact ⟨rfl, rfl⟩

theorem effect_of_ok (h : (Script.compile source).result = .ok p) (file : String) :
    View.image.effect file source = .ok (.store (imagePath file) (image p)) ∧
      View.run.effect file source = .ok (.run p) := by
  simp only [View.effect, h]
  exact ⟨rfl, rfl⟩

/-- On the files of any system, for every script that can be read: if it does not compile, emitting
it fails as running it does, and writes nothing.  If it compiles and its name is an extension after
two dots, the path for its image is that of a directory, so that emitting it always fails.  Under
any other name, the path for the image is that of the script with its extension replaced, and is an
image's.  If this can be written, emitting does just that: no other file changes, and a run of the
image is a run of the script. -/
theorem emit_then_run [LawfulFiles σ] (hflag : isFlag file = false) (hfile : isImage file = false)
    (hread : Files.read d file = .ok bytes) (hsource : String.fromUTF8? bytes = some source) :
    (∀ e, (Script.compile source).result = .error e → ∀ address fuel,
      exec address fuel d ["--emit", file] = some (.ofError e, d) ∧
      exec address fuel d [file] = some (.ofError e, d)) ∧
    ∀ p, (Script.compile source).result = .ok p → p.Sized →
      (Path.IsDotted file → ∀ address fuel, exec address fuel d ["--emit", file] =
        some (.ofError (.file DiskError.isDirectory.message), d)) ∧
      (¬ Path.IsDotted file →
        Path.Replaces file "mbc" (imagePath file) ∧ isImage (imagePath file) = true ∧
        ∀ d', Files.write (imagePath file) (image p) d = .ok () d' →
          (∀ address fuel, exec address fuel d ["--emit", file] = some ({}, d')) ∧
          (∀ other content, ¬ LawfulFiles.Same d' other (imagePath file) →
            (Files.read d' other = .ok content ↔ Files.read d other = .ok content)) ∧
          (∀ other, LawfulFiles.Same d' other (imagePath file) →
            Files.read d' other = .ok (image p)) ∧
          Files.read d' (imagePath file) = .ok (image p) ∧
          ∀ a a' fuel, SameRun a a' d d' (exec a fuel d [file])
            (exec a' fuel d' [imagePath file])) := by
  obtain ⟨dir, name, hleads⟩ := LawfulFiles.leadsTo_of_read hread
  refine ⟨fun e he address fuel => ?_, fun p hp hsized => ⟨fun hdotted address fuel => ?_, ?_⟩⟩
  · obtain ⟨himage, hrun⟩ := effect_of_error he file
    rw [exec_emit hflag hfile hread hsource, exec_source hflag hfile hread hsource, himage, hrun]
    exact ⟨rfl, rfl⟩
  · rw [exec_emit hflag hfile hread hsource, (effect_of_ok hp file).1, Effect.ofResult,
      Effect.carryOut, imagePath, hleads.withExtension_of_dotted hdotted,
      LawfulFiles.write_dots hleads hread]
  · intro hdotted
    obtain ⟨htargetFlag, htargetImage⟩ := isImage_imagePath hleads hflag hdotted
    refine ⟨(hleads.replaces hdotted "mbc").1, htargetImage, fun d' hwrite => ?_⟩
    have himage := LawfulFiles.read_of_write hwrite
    refine ⟨fun address fuel => ?_, fun other content hother => ?_, fun other hother => ?_, himage,
      fun a a' fuel => ?_⟩
    · rw [exec_emit hflag hfile hread hsource, (effect_of_ok hp file).1, Effect.ofResult,
        Effect.carryOut, hwrite]
    · exact LawfulFiles.read_of_write_of_not_same hwrite hother
    · exact LawfulFiles.read_of_same hother himage
    · rw [exec_source hflag hfile hread hsource, (effect_of_ok hp file).2, Effect.ofResult,
        exec_image htargetFlag htargetImage himage hsized]
      exact sameRun_carryOut a a' fuel d d' p

theorem fromUTF8?_text (s : String) : String.fromUTF8? s.toUTF8 = some s := dif_pos s.isValidUTF8

def tableDisk : Disk := ({} : Disk).add "/tmp/b/../a.lua" (.file "print(string)".toUTF8)

def tableProgram : Program :=
  ⟨#[#[.ofOpcode .pushId, .name "string", .ofOpcode .getEnv, .ofOpcode .pushId, .name "print",
    .ofOpcode .getEnv, .ofOpcode .call, .ofOpcode .pop]]⟩

/-- The script is named by its path from the root, and its image is then found from the working
directory. -/
theorem emit_then_run_table :
    ∃ d', Files.write "/tmp/a.mbc" (image tableProgram) tableDisk = .ok () d' ∧
      exec (fun _ => 1) 9 tableDisk ["--emit", "/tmp/a.lua"] = some ({}, d') ∧
      Files.read d' "../tmp/a.mbc" = .ok (image tableProgram) ∧
      Files.read d' "../tmp/a.lua" = .ok "print(string)".toUTF8 ∧
      SameRun (fun _ => 1) (fun _ => 2) tableDisk d'
        (exec (fun _ => 1) 9 tableDisk ["/tmp/a.lua"]) (exec (fun _ => 2) 9 d' ["/tmp/a.mbc"]) := by
  have hcompile : (Script.compile "print(string)").result = .ok tableProgram := by cbv
  have hread : Files.read tableDisk "/tmp/a.lua" = .ok "print(string)".toUTF8 := rfl
  have hname : ¬ Path.IsDotted "/tmp/a.lua" := by
    rintro ⟨old, hold, -⟩
    have hfile : Path.fileName? "/tmp/a.lua" = some ['a', '.', 'l', 'u', 'a'] := by decide
    rw [hfile] at hold
    cases hold
  have hpath : imagePath "/tmp/a.lua" = "/tmp/a.mbc" := by decide
  obtain ⟨-, hrun⟩ := emit_then_run (by decide) (by decide) hread (fromUTF8?_text _)
  obtain ⟨-, -, hwrite⟩ := (hrun tableProgram hcompile (by decide)).2 hname
  rw [hpath] at hwrite
  obtain ⟨hemit, hothers, hlinks, -, hsame⟩ := hwrite _ rfl
  refine ⟨_, rfl, hemit _ _, hlinks _ ⟨["tmp", "a.mbc"], by decide, by decide⟩, ?_, hsame _ _ _⟩
  refine (hothers _ _ ?_).2 rfl
  rintro ⟨names, hother, himage⟩
  have hother : names = ["tmp", "a.lua"] := Except.ok.inj (hother.symm.trans rfl)
  have himage : names = ["tmp", "a.mbc"] := Except.ok.inj (himage.symm.trans rfl)
  exact absurd (hother.symm.trans himage) (by decide)

def dottedDisk : Disk := ({} : Disk).add "..lua" (.file "x = 1 print(x)".toUTF8)

theorem emit_dotted :
    isFlag "..lua" = false ∧ isImage "..lua" = false ∧
      Files.read dottedDisk "..lua" = .ok "x = 1 print(x)".toUTF8 ∧
      (∃ p, (Script.compile "x = 1 print(x)").result = .ok p) ∧
      Path.Replaces "..lua" "mbc" "..mbc" ∧ isImage "..mbc" = true ∧
      (∀ content, ∃ d', Files.write "..mbc" content dottedDisk = .ok () d') ∧
      dottedDisk.read "..mbc" = .error .notFound ∧
      ∀ address fuel, exec address fuel dottedDisk ["--emit", "..lua"] =
        some ({ exit := 1, stderr := "io error: Is a directory (os error 21)\n" }, dottedDisk) := by
  have hread : Files.read dottedDisk "..lua" = .ok "x = 1 print(x)".toUTF8 := rfl
  have hcompile : ∃ p, (Script.compile "x = 1 print(x)").result = .ok p := by
    cases h : (Script.compile "x = 1 print(x)").result with
    | ok p => exact ⟨p, rfl⟩
    | error e =>
      have hok : (Script.compile "x = 1 print(x)").result.toBool = true := by cbv
      rw [h] at hok
      cases hok
  refine ⟨by decide, by decide, hread, hcompile, ?_, by decide, fun _ => ⟨_, rfl⟩, rfl, ?_⟩
  · have hext : Path.extension? "..lua" = some "lua" := by decide
    rw [Path.Replaces, hext]
    exact ⟨".", by decide, by decide⟩
  · intro address fuel
    obtain ⟨p, hp⟩ := hcompile
    rw [exec_emit (by decide) (by decide) hread (fromUTF8?_text _), (effect_of_ok hp _).1]
    rfl

end Command

end Scriptlet
