import Mathlib
import Specimen.Command.Run
import Specimen.Proofs.Files.Change

/-!
# Which files a run changes

The steps of a run only look at files, all but the last one of a generation, which writes the output
(`writes_writeOutput`). That one makes directories, collects the text in a file beside the target,
under a name of its own, and moves it to the target. So a run with a target changes no file but the
target and the one beside it, and the target only if it succeeds (`run_generate_written`). The file
beside the target is no exception that could be left out: one that was there before is gone
(`run_generate_draft_gone`).
-/

namespace Specimen

namespace FileSystem

/-- Where the text of a file is collected before it is put at its place. -/
def draftPlace (target : Place) : Place :=
  match target.getLast? with
  | none => []
  | some name => target.dropLast ++ [Files.draftName name]

theorem draftPlace_append (outer : Place) (name : String) :
    draftPlace (outer ++ [name]) = outer ++ [Files.draftName name] := by
  simp [draftPlace]

/-- What a run may do to files: it changes the target and the file beside it at most, the target
only if it succeeds. Then there is a text at the target, and the file beside it is gone. -/
structure Written (target : Path) (files : FileSystem) (succeeded : Bool) (files' : FileSystem) :
    Prop where
  changesOnly :
    ChangesOnly [files.placeOf target, draftPlace (files.placeOf target)] files files'
  target_of_failed : succeeded = false →
    files'.text? (files.placeOf target) = files.text? (files.placeOf target)
  target_of_succeeded : succeeded = true →
    (files'.text? (files.placeOf target)).isSome = true
      ∧ files'.text? (draftPlace (files.placeOf target)) = none

variable {target : Path} {files files' files'' : FileSystem}

/-- A failure that changes no file at all. -/
theorem Written.of_failed (h : ChangesOnly [] files files') :
    Written target files false files' where
  changesOnly := h.mono (List.nil_subset _)
  target_of_failed _ := h.text_eq _ List.not_mem_nil
  target_of_succeeded := nofun

/-- What happens before without changing a file does not matter. -/
theorem Written.of_changesOnly {succeeded : Bool} (hbefore : ChangesOnly [] files files')
    (h : Written target files' succeeded files'') : Written target files succeeded files'' := by
  have hplace := hbefore.placeOf_eq target
  refine ⟨?_, fun hfailed => ?_, fun hdone => ?_⟩
  · rw [← hplace]
    exact (hbefore.mono (List.nil_subset _)).trans h.changesOnly
  · rw [← hplace, h.target_of_failed hfailed, hbefore.text_eq _ List.not_mem_nil]
  · rw [← hplace]
    exact h.target_of_succeeded hdone

/-- An action is done, or it fails and the files are as they were. -/
theorem change_spec (action : FileSystem → Except FileFault FileSystem) (files : FileSystem) :
    (∃ files', action files = .ok files' ∧ change action files = (.ok (), files'))
      ∨ ∃ fault, change action files = (.error fault, files) := by
  unfold change
  cases action files with
  | ok files' => exact .inl ⟨files', rfl, rfl⟩
  | error fault => exact .inr ⟨fault, rfl⟩

/-! ## Steps that change no file -/

/-- Whatever comes of a step, all files are as they were. -/
def KeepsFiles {α : Type} (step : StateM FileSystem α) : Prop :=
  ∀ files, ChangesOnly [] files (step files).2

namespace KeepsFiles

variable {α β : Type}

theorem pure (value : α) : KeepsFiles (Pure.pure value) :=
  fun files => .refl [] files

theorem bind {step : StateM FileSystem α} {next : α → StateM FileSystem β} (h : KeepsFiles step)
    (hnext : ∀ value, KeepsFiles (next value)) : KeepsFiles (step >>= next) :=
  fun files => (h files).trans (hnext _ _)

theorem read (path : Path) : KeepsFiles (Files.read path) :=
  fun files => .refl [] files

theorem isPresent (path : Path) : KeepsFiles (Files.isPresent path) :=
  fun files => .refl [] files

theorem isDirectory (path : Path) : KeepsFiles (Files.isDirectory path) :=
  fun files => .refl [] files

theorem createDirectory (path : Path) : KeepsFiles (Files.createDirectory path) := by
  intro files
  show ChangesOnly [] files (change (·.createDirectory path) files).2
  obtain ⟨files', hmade, hrun⟩ | ⟨fault, hrun⟩ := change_spec (·.createDirectory path) files
  · rw [hrun]
    exact createDirectory_changesOnly hmade
  · rw [hrun]
    exact .refl [] files

theorem orPresent (path : Path) (attempt : Except FileFault Unit) :
    KeepsFiles (Files.createDirectories.orPresent path attempt) := by
  cases attempt with
  | ok made => exact pure _
  | error fault => exact (isDirectory path).bind fun _ => pure _

/-- The directories around a path are made from the outermost one on. -/
theorem createDirectories (path : Path) : KeepsFiles (Files.createDirectories path) := by
  rw [Files.createDirectories]
  split
  · exact pure _
  refine (createDirectory path).bind fun attempt => ?_
  match attempt with
  | .ok () => exact pure _
  | .error .missing =>
      dsimp only
      split
      · exact pure _
      · rename_i outer houter
        have := Path.length_names_lt_of_parent? houter
        refine (createDirectories outer).bind fun around => ?_
        cases around with
        | error fault => exact pure _
        | ok made => exact (createDirectory path).bind fun again => orPresent path again
  | .error .alreadyExists | .error .notDirectory | .error .isDirectory | .error .busy
  | .error .nameTooLong | .error .invalidName | .error (.other _) => exact orPresent path _
termination_by path.names.length

end KeepsFiles

end FileSystem

namespace Command

open FileSystem

variable {α β : Type}

/-- A step of a run on files changes none of them. -/
def Looks (step : ExceptT CommandError (StateM FileSystem) α) : Prop :=
  KeepsFiles step.run

namespace Looks

theorem ofExcept (result : Except CommandError α) : Looks (liftM result) :=
  KeepsFiles.pure result

theorem pure (value : α) : Looks (Pure.pure value) :=
  fun files => .refl [] files

theorem throw (error : CommandError) : Looks (α := α) (MonadExcept.throw error) :=
  fun files => .refl [] files

theorem bind {step : ExceptT CommandError (StateM FileSystem) α}
    {next : α → ExceptT CommandError (StateM FileSystem) β} (h : Looks step)
    (hnext : ∀ value, Looks (next value)) : Looks (step >>= next) := by
  show KeepsFiles (step.run >>= ExceptT.bindCont next)
  refine KeepsFiles.bind h fun result => ?_
  cases result with
  | error error => exact KeepsFiles.pure _
  | ok value => exact hnext value

theorem lift {action : StateM FileSystem α} (h : KeepsFiles action) : Looks (liftM action) :=
  fun files => h files

theorem onFiles {action : StateM FileSystem (Except FileFault α)} (h : KeepsFiles action) :
    Looks (Command.onFiles action) := by
  refine (lift h).bind fun result => ?_
  cases result with
  | error fault => exact throw _
  | ok value => exact pure _

theorem readText (path : String) : Looks (Command.readText path) :=
  onFiles (.read _)

theorem loadSettings (named : Option String) : Looks (Command.loadSettings named) := by
  cases named with
  | some path => exact (readText path).bind fun text => ofExcept _
  | none =>
      refine (lift (.isPresent _)).bind fun present => ?_
      cases present with
      | true => exact (readText _).bind fun text => ofExcept _
      | false => exact pure _

theorem loadIndex (source : String) : Looks (Command.loadIndex source) := by
  refine (readText source).bind fun text => ?_
  cases Source.declarationsOfText text with
  | error error => exact throw _
  | ok declarations => exact pure _

theorem loadOptions (path : Option String) : Looks (Command.loadOptions path) := by
  cases path with
  | none => exact pure _
  | some path => exact (readText path).bind fun text => ofExcept _

end Looks

/-! ## Writing the output -/

/-- A step after another one is done if that one succeeds, on the files that it leaves. -/
theorem run_bind (step : ExceptT CommandError (StateM FileSystem) α)
    (next : α → ExceptT CommandError (StateM FileSystem) β) (files : FileSystem) :
    (step >>= next).run files
      = match step.run files with
        | (.error error, files') => (.error error, files')
        | (.ok value, files') => (next value).run files' := by
  show ExceptT.bindCont next (step.run files).1 (step.run files).2 = _
  obtain ⟨_ | value, files'⟩ := step.run files <;> rfl

/-- A step of a run writes to a target: see `FileSystem.Written`. -/
def Writes (target : Path) (step : ExceptT CommandError (StateM FileSystem) α) : Prop :=
  ∀ files, Written target files (step.run files).1.isOk (step.run files).2

namespace Writes

variable {target : Path}

theorem throw (error : CommandError) :
    Writes target (MonadExcept.throw error : ExceptT CommandError (StateM FileSystem) α) :=
  fun files => .of_failed (.refl [] files)

theorem bind_of_looks {step : ExceptT CommandError (StateM FileSystem) α}
    {next : α → ExceptT CommandError (StateM FileSystem) β} (h : Looks step)
    (hnext : ∀ value, Writes target (next value)) : Writes target (step >>= next) := by
  intro files
  have hstep := h files
  rw [run_bind]
  generalize step.run files = result at hstep ⊢
  obtain ⟨_ | value, files'⟩ := result
  · exact .of_failed hstep
  · exact .of_changesOnly hstep (hnext value files')

theorem bind_pure {step : ExceptT CommandError (StateM FileSystem) α} (h : Writes target step)
    (value : β) : Writes target (step >>= fun _ => Pure.pure value) := by
  intro files
  have hstep := h files
  rw [run_bind]
  generalize step.run files = result at hstep ⊢
  obtain ⟨_ | done, files'⟩ := result
  · exact hstep
  · exact hstep

theorem onFiles {action : StateM FileSystem (Except FileFault α)}
    (h : ∀ files, Written target files (action files).1.isOk (action files).2) :
    Writes target (Command.onFiles action) := by
  intro files
  have haction := h files
  have hlift :
      (liftM action : ExceptT CommandError (StateM FileSystem) (Except FileFault α)).run files
      = (.ok (action files).1, (action files).2) := rfl
  rw [Command.onFiles, run_bind, hlift]
  generalize action files = result at haction ⊢
  obtain ⟨_ | value, files'⟩ := result
  · exact haction
  · exact haction

end Writes

theorem length_draftName (name : String) :
    (Files.draftName name).length = name.length + 4 := by
  rw [Files.draftName, String.length_append]
  rfl

theorem draftName_ne (name : String) : Files.draftName name ≠ name := by
  intro h
  have := congrArg String.length h
  rw [length_draftName] at this
  omega

/-- The name of a draft is one that leads somewhere. -/
theorem draftName_leads (name : String) :
    Path.isIdle (Files.draftName name) = false ∧ Files.draftName name ≠ ".." := by
  have hshort : ∀ other : String, other.length < 4 → Files.draftName name ≠ other := by
    rintro other hlength rfl
    rw [length_draftName] at hlength
    omega
  exact ⟨Path.isIdle_eq_false_iff.mpr ⟨hshort "" (by decide), hshort "." (by decide)⟩,
    hshort ".." (by decide)⟩

section Replace

variable {target : Path} {name text : String} {files files' : FileSystem}

/-- If the draft cannot be written, nothing else is done. -/
theorem replace_of_unwritten {fault : FileFault}
    (h : change (·.write (target.withFileName (Files.draftName name)) text) files
      = (.error fault, files')) :
    Files.replace (m := StateM FileSystem) target name text files = (.error fault, files') := by
  have hwrite :
      Files.write (m := StateM FileSystem) (target.withFileName (Files.draftName name)) text
      files = (.error fault, files') := h
  simp only [Files.replace, bind, StateT.bind, hwrite]
  rfl

/-- The draft is moved to the target once it is written. -/
theorem replace_of_written
    (h :
      change (·.write (target.withFileName (Files.draftName name)) text) files = (.ok (), files')) :
    Files.replace (m := StateM FileSystem) target name text files
      = change (·.move (target.withFileName (Files.draftName name)) target) files' := by
  have hwrite :
      Files.write (m := StateM FileSystem) (target.withFileName (Files.draftName name)) text
      files = (.ok (), files') := h
  simp only [Files.replace, bind, StateT.bind, hwrite]
  rfl

end Replace

/-- The text is collected beside the target and then moved to it. -/
theorem replace_written {target : Path} {name : String} (hname : target.fileName? = some name)
    (text : String) (files : FileSystem) :
    Written target files (Files.replace (m := StateM FileSystem) target name text files).1.isOk
      (Files.replace (m := StateM FileSystem) target name text files).2 := by
  obtain ⟨hbusy, hup⟩ := draftName_leads name
  obtain ⟨outer, htarget, hdraft⟩ := placeOf_withFileName hname hbusy hup files
  have hplaces : draftPlace (files.placeOf target)
      = files.placeOf (target.withFileName (Files.draftName name)) := by
    rw [htarget, draftPlace_append, hdraft]
  have hne : files.placeOf (target.withFileName (Files.draftName name)) ≠ files.placeOf target := by
    rw [htarget, hdraft]
    simpa using draftName_ne name
  obtain ⟨files', hwrite, hrun⟩ | ⟨fault, hrun⟩ :=
    change_spec (·.write (target.withFileName (Files.draftName name)) text) files
  · obtain ⟨hchanges, htext⟩ := write_spec hwrite
    rw [replace_of_written hrun]
    generalize target.withFileName (Files.draftName name) = draft at *
    obtain ⟨files'', hmove, hrun⟩ | ⟨fault, hrun⟩ := change_spec (·.move draft target) files'
    · obtain ⟨hmoves, hnew, hgone⟩ :=
        move_spec hmove (by simpa only [hchanges.placeOf_eq] using hne)
      simp only [hchanges.placeOf_eq] at hmoves hnew hgone
      rw [hrun]
      refine ⟨?_, nofun, fun _ => ⟨?_, ?_⟩⟩
      · rw [hplaces]
        exact (hchanges.mono (by simp)).trans (hmoves.mono (by simp))
      · rw [hnew, htext]
        rfl
      · rw [hplaces, hgone]
    · rw [hrun]
      refine ⟨?_, fun _ => ?_, nofun⟩
      · rw [hplaces]
        exact hchanges.mono (by simp)
      · exact hchanges.text_eq _ (by simpa using hne.symm)
  · rw [replace_of_unwritten hrun]
    exact .of_failed (.refl [] files)

theorem writes_replace {target : Path} {name : String} (hname : target.fileName? = some name)
    (text : String) : Writes target (onFiles (Files.replace target name text)) :=
  .onFiles (replace_written hname text)

theorem writes_writeOutput (path text : String) :
    Writes (Path.ofText path) (writeOutput path text) := by
  have hreplace : Writes (Path.ofText path) (match (Path.ofText path).fileName? with
      | none => throw (.invalidOutput path)
      | some name => onFiles (Files.replace (Path.ofText path) name text)) := by
    split
    · exact Writes.throw _
    · exact writes_replace ‹_› text
  unfold writeOutput
  dsimp only
  split
  · exact .bind_of_looks (Looks.onFiles (.createDirectories _)) fun _ => hreplace
  · exact hreplace

/-- A generation with a target: all steps but the last one only look at files. -/
theorem writes_generateTask {order : GenerateOrder} {path : String} (hout : order.out = some path)
    (settings : Settings) (entropy : UInt64) :
    Writes (Path.ofText path) (generateTask settings entropy order) := by
  unfold generateTask
  refine .bind_of_looks (.loadIndex _) fun index => ?_
  refine .bind_of_looks (.ofExcept _) fun _ => ?_
  refine .bind_of_looks (.loadOptions _) fun options => ?_
  dsimp only
  split
  · exact .throw _
  refine .bind_of_looks (.ofExcept _) fun _ => ?_
  split
  · exact .throw _
  · rw [hout]
    exact (writes_writeOutput path _).bind_pure _

theorem writes_runTask {order : GenerateOrder} {path : String} (hout : order.out = some path)
    (named : Option String) (entropy : UInt64) :
    Writes (Path.ofText path) (runTask named entropy (.generate order)) :=
  .bind_of_looks (.loadSettings named) fun settings =>
    .bind_of_looks (.ofExcept _) fun _ => writes_generateTask hout settings entropy

theorem isNone_error_ofResult (result : Except CommandError (Option String)) :
    (Outcome.ofResult result).error.isNone = result.isOk := by
  match result with
  | .ok text => rfl
  | .error (.generation fault) => rfl
  | .error .usage | .error (.file _) | .error .json | .error (.settings _) | .error .zeroCount
  | .error (.invalidOutput _) | .error (.logFilter _) | .error (.document _)
  | .error (.endless _ _) | .error (.breakdown _) => rfl

/-- A run that is asked to generate with a target, from any files: whether it succeeds or fails,
it leaves every file as it was, the target and the file beside it in which the text is collected
excepted. If it fails, the target is as it was too; if it succeeds, there is a text at the target,
and nothing is beside it. -/
theorem run_generate_written {words : List String} {named : Option String} {order : GenerateOrder}
    {path : String} (hwords : Invocation.ofWords? words = some (.run named (.generate order)))
    (hout : order.out = some path) (entropy : UInt64) (files : FileSystem) :
    Written (Path.ofText path) files
      (run (m := StateM FileSystem) entropy words files).1.error.isNone
      (run (m := StateM FileSystem) entropy words files).2 := by
  have htask := writes_runTask hout named entropy files
  have hrun : run (m := StateM FileSystem) entropy words files
      = (.ofResult ((runTask (m := StateM FileSystem) named entropy (.generate order)).run files).1,
          ((runTask (m := StateM FileSystem) named entropy (.generate order)).run files).2) := by
    rw [run, hwords]
    rfl
  rw [hrun, isNone_error_ofResult]
  exact htask

/-- Where a directory stands in the way of the target. -/
theorem run_generate_written_blocked :
    Invocation.ofWords? ["generate", "d.ts", "--type", "A", "--out", "out/../a.json"]
        = some (.run none (.generate
          { source := "d.ts", typeName := "A", options := none, seed := none, count := none,
            pretty := false, out := some "out/../a.json" }))
      ∧ Written (Path.ofText "out/../a.json")
        ⟨.directory [("d.ts", .file "interface A { }"), ("a.json", .directory [])], []⟩
        (run (m := StateM FileSystem) 7
          ["generate", "d.ts", "--type", "A", "--out", "out/../a.json"]
          ⟨.directory [("d.ts", .file "interface A { }"),
            ("a.json", .directory [])], []⟩).1.error.isNone
        (run (m := StateM FileSystem) 7
          ["generate", "d.ts", "--type", "A", "--out", "out/../a.json"]
          ⟨.directory [("d.ts", .file "interface A { }"), ("a.json", .directory [])], []⟩).2 := by
  have hwords : Invocation.ofWords? ["generate", "d.ts", "--type", "A", "--out", "out/../a.json"]
      = some (.run none (.generate
        { source := "d.ts", typeName := "A", options := none, seed := none, count := none,
          pretty := false, out := some "out/../a.json" })) := by
    decide +kernel
  exact ⟨hwords, run_generate_written hwords rfl 7 _⟩

/-- A file that has the name of the one beside the target is lost. -/
theorem run_generate_draft_gone :
    let files : FileSystem :=
      ⟨.directory [("d.ts", .file "interface A { }"), ("out.json.tmp", .file "keep")], []⟩
    let files' := (run (m := StateM FileSystem) 0
      ["generate", "d.ts", "--type", "A", "--seed", "1", "--out", "out.json"] files).2
    files.placeOf (Path.ofText "out.json") = ["out.json"]
      ∧ files.text? ["out.json.tmp"] = some "keep"
      ∧ files'.text? ["out.json.tmp"] = none := by
  intro files files'
  let order : GenerateOrder :=
    { source := "d.ts", typeName := "A", options := none, seed := some 1, count := none,
      pretty := false, out := some "out.json" }
  have hwords : Invocation.ofWords?
      ["generate", "d.ts", "--type", "A", "--seed", "1", "--out", "out.json"]
        = some (.run none (.generate order)) := by
    decide +kernel
  have hfilter : checkLogFilter .standard = .ok () := by
    have hinfo : (checkLogFilter .standard).isOk = true := by decide +kernel
    cases hcheck : checkLogFilter .standard with
    | ok checked => rfl
    | error fault =>
        rw [hcheck] at hinfo
        cases hinfo
  have htask : (generateTask (m := StateM FileSystem) .standard 0 order).run files
      = (.ok none,
        ⟨.directory [("d.ts", .file "interface A { }"), ("out.json", .file "{}")], []⟩) := by
    cbv
  have hrun : files'
      = ⟨.directory [("d.ts", .file "interface A { }"), ("out.json", .file "{}")], []⟩ := by
    have hsettings : (loadSettings (m := StateM FileSystem) none).run files
        = (.ok .standard, files) := by
      cbv
    show (run (m := StateM FileSystem) 0 _ files).2 = _
    rw [run, hwords]
    show ((runTask (m := StateM FileSystem) none 0 (.generate order)).run files).2 = _
    rw [runTask, run_bind, hsettings]
    dsimp only
    rw [hfilter]
    exact congrArg Prod.snd htask
  rw [hrun]
  refine ⟨by cbv, by cbv, by cbv⟩

end Command

end Specimen
