import BoundedRegex.Cli.Program
import BoundedRegex.Proofs.Files

/-!
# Runs of the program

The program is the same on the files of the system and on those of a `Directory`
(`Files.perform`).  What is told here of a run is told of one in a directory.

* `Invocation.execute_congr` — what an invocation comes to depends on the files that it names, and
  on the settings of the user.
* `Directory.run_eq` — a run comes to what executing the invocation in the directory comes to, and
  then writes what that asks for.
* `Directory.run_changes` — a run changes nothing, or it has exported a compiled pattern to a file,
  and changes that file alone.
-/

namespace BoundedRegex.Cli

/-! ### What an invocation reads -/

theorem Outcome.scanned_congr {read read' : String → Except FileError (List UInt8)}
    {paths : List String} (h : ∀ path ∈ paths, read path = read' path) (anchored : Bool)
    (m : Matcher) : scanned read anchored m paths = scanned read' anchored m paths := by
  induction paths generalizing m with
  | nil => rfl
  | cons path paths ih =>
    have hlater (m : Matcher) := ih (fun p hp => h p (List.mem_cons_of_mem _ hp)) m
    simp only [scanned, h path List.mem_cons_self, hlater]

theorem Command.execute_congr {read read' : String → Except FileError (List UInt8)} {s : Settings}
    {command : Command}
    (h : ∀ pattern paths anchored slots, command = .scan pattern paths anchored slots →
      ∀ path ∈ paths, read path = read' path) :
    command.execute read s = command.execute read' s := by
  cases command with
  | check | disassemble | compile => rfl
  | scan pattern paths anchored slots =>
    have hscanned := Outcome.scanned_congr (h pattern paths anchored slots rfl)
    simp only [execute, hscanned]

/-- **An invocation reads the files that it names**, and the settings of the user: in surroundings
where these are the same it comes to the same. -/
theorem Invocation.execute_congr {i : Invocation} {w w' : Surroundings}
    (hread : ∀ path ∈ i.reads, w.read path = w'.read path)
    (hhome : w.homeSettings = w'.homeSettings) : i.execute w = i.execute w' := by
  have hsettings : ∀ path ∈ i.settingsPath, w.read path = w'.read path := fun path hpath =>
    hread path (by unfold reads; split <;> simp_all)
  -- Of the settings file it matters whether it is there, and what it holds.
  have hhas : i.settingsPath.any (!w.has ·) = i.settingsPath.any (!w'.has ·) := by
    cases hpath : i.settingsPath with
    | none => rfl
    | some path =>
      simp only [Option.any_some, Surroundings.has, hsettings path (hpath ▸ rfl)]
  have hmade : w.settings i.settingsPath = w'.settings i.settingsPath := by
    cases hpath : i.settingsPath with
    | none => simp only [Surroundings.settings, hhome]
    | some path => simp only [Surroundings.settings, hsettings path (hpath ▸ rfl)]
  unfold execute
  rw [hhas, hmade]
  split
  · rfl
  · split
    · rfl
    · next maxDepth command hrequest =>
      have hcommand (s : Settings) : command.execute w.read s = command.execute w'.read s := by
        refine Command.execute_congr ?_
        rintro pattern paths anchored slots rfl path hpath
        refine hread path ?_
        simp [reads, hrequest, hpath]
      simp only [hcommand]

/-! ### Runs in a directory -/

namespace Directory

variable {d d' : Directory}

/-- Reading files one after another leaves the directory as it is. -/
theorem run_mapM_read (d : Directory) (paths : List String) :
    (paths.mapM fun path => do return (path, ← Files.ofDirectory.read path) :
      StateM Directory (List (String × Except FileError (List UInt8)))).run d =
        (paths.map fun path => (path, d.read path), d) := by
  induction paths with
  | nil => rfl
  | cons path paths ih =>
    rw [List.mapM_cons, List.map_cons]
    -- A single read is a value: it does not change what is there for the others.
    show (do
      let x ← pure (path, d.read path)
      let xs ← (paths.mapM fun path => do return (path, ← Files.ofDirectory.read path))
      pure (x :: xs) : StateM Directory _).run d = _
    rw [pure_bind, StateT.run_bind, ih]
    rfl

/-- What is found under a path is what has been read from there. -/
theorem lookup_map_read {paths : List String} {path : String} (h : path ∈ paths) :
    (paths.map fun path => (path, d.read path)).lookup path = some (d.read path) := by
  induction paths with
  | nil => cases h
  | cons first paths ih =>
    rw [List.map_cons, List.lookup_cons]
    cases heq : path == first with
    | true => rw [eq_of_beq heq]
    | false =>
      rcases List.mem_cons.1 h with rfl | h
      · simp at heq
      · exact ih h

/-- The surroundings of a run in a directory. -/
def surroundings (d : Directory) : Surroundings :=
  { read := d.read, homeSettings := (d.read settingsFile).toOption }

/-- What is read of them for an invocation. -/
def gathered (d : Directory) (i : Invocation) : Surroundings :=
  { read := fun path =>
      ((i.reads.map fun path => (path, d.read path)).lookup path).getD (.error .notFound)
    homeSettings := d.surroundings.homeSettings }

theorem run_surroundings (d : Directory) (i : Invocation) :
    (Files.ofDirectory.surroundings i).run d = (d.gathered i, d) := by
  rw [Files.surroundings, StateT.run_bind, run_mapM_read]
  rfl

theorem execute_gathered (d : Directory) (i : Invocation) :
    i.execute (d.gathered i) = i.execute d.surroundings := by
  refine Invocation.execute_congr (fun path hpath => ?_) rfl
  show Option.getD _ _ = _
  rw [lookup_map_read hpath]
  rfl

theorem run_write (d : Directory) (w : Write) :
    (Files.ofDirectory.write w).run d =
      match d.write w with
      | .ok d' => (.ok (), d')
      | .error e => (.error e, d) := by
  show StateT.run (match d.write w with | .ok d' => _ | .error e => _) d = _
  cases d.write w with
  | ok | error => rfl

/-- What is left of a directory when an invocation has come to a result there, and the report. -/
def conclude (d : Directory) : Except Notice Outcome → Directory × Report
  | .error n => (d, n.report)
  | .ok o =>
    match o.write with
    | none => (d, o.report)
    | some w =>
      match d.write w with
      | .ok d' => (d', o.report)
      | .error e => (d, (Outcome.unwritten w e).report)

theorem run_conclude (d : Directory) (result : Except Notice Outcome) :
    ((Files.ofDirectory.conclude result).run d).swap = d.conclude result := by
  cases result with
  | error n => rfl
  | ok o =>
    rw [Files.conclude, conclude]
    cases o.write with
    | none => rfl
    | some w =>
      dsimp only
      rw [StateT.run_bind, run_write]
      cases d.write w with
      | ok | error => rfl

/-- The directory changes only where a file is written. -/
theorem eq_or_write_of_conclude {result : Except Notice Outcome} {report : Report}
    (h : d.conclude result = (d', report)) :
    d' = d ∨ ∃ o w, result = .ok o ∧ o.write = some w ∧ d.write w = .ok d' ∧ report = o.report := by
  unfold conclude at h
  split at h
  · exact Or.inl (congrArg Prod.fst h).symm
  · next o =>
    split at h
    · exact Or.inl (congrArg Prod.fst h).symm
    · next w hw =>
      split at h
      · next hwrite =>
        cases h
        exact Or.inr ⟨o, w, rfl, hw, hwrite, rfl⟩
      · exact Or.inl (congrArg Prod.fst h).symm

/-- **A run in a directory** comes to what executing the invocation there comes to, and then writes
what that asks for. -/
theorem run_eq (d : Directory) (arguments : List String) :
    d.run arguments = d.conclude ((Invocation.ofArguments arguments).execute d.surroundings) := by
  rw [run, Files.perform, StateT.run_bind, run_surroundings]
  show ((Files.ofDirectory.conclude _).run d).swap = _
  rw [execute_gathered, run_conclude]

end Directory

/-! ### What a run changes -/

theorem Outcome.write_scanned (read : String → Except FileError (List UInt8)) (anchored : Bool)
    (m : Matcher) (paths : List String) : (scanned read anchored m paths).write = none := by
  induction paths generalizing m with
  | nil => rfl
  | cons path paths ih =>
    rw [scanned]
    split
    · rfl
    · dsimp only
      split
      · rfl
      · exact ih _

/-- What is written, if anything is, is the declaration of a compiled pattern; nothing is printed
then, and nothing has gone wrong. -/
theorem Command.exists_of_write {read : String → Except FileError (List UInt8)} {s : Settings}
    {command : Command} {w : Write} (h : (command.execute read s).write = some w) :
    ∃ pattern name append r text, command = .compile pattern name (some w.path) append ∧
      compilePattern s pattern = .ok r ∧
      Snippet.render r (name.getD s.exportName) (some pattern.toUTF8.toList) = .ok text ∧
      w = { w with append, text := if append then "\n" ++ text else text } ∧
      command.execute read s = { write := some w } := by
  cases command with
  | check pattern | disassemble pattern =>
    rw [execute, withPattern] at h
    split at h <;> cases h
  | scan pattern paths anchored slots =>
    rw [execute, withPattern] at h
    split at h
    · rw [Outcome.write_scanned] at h
      cases h
    · cases h
  | compile pattern name output append =>
    rw [execute, withPattern] at h ⊢
    cases hcompile : compilePattern s pattern with
    | error message => rw [hcompile] at h; cases h
    | ok r =>
      rw [hcompile] at h
      dsimp only [Outcome.compiled] at h ⊢
      cases hrender : Snippet.render r (name.getD s.exportName) (some pattern.toUTF8.toList) with
      | error e => rw [hrender] at h; cases h
      | ok text =>
        rw [hrender] at h
        cases output with
        | none => cases h
        | some path =>
          cases h
          exact ⟨pattern, name, append, r, text, rfl, hcompile, hrender, rfl, rfl⟩

/-- What is written is what a command comes to, with the settings for the invocation. -/
theorem Invocation.exists_of_execute {i : Invocation} {surroundings : Surroundings} {o : Outcome}
    {w : Write} (h : i.execute surroundings = .ok o) (hw : o.write = some w) :
    ∃ maxDepth command s, i.request = .run maxDepth command ∧
      surroundings.settings i.settingsPath = .ok s ∧
      o = command.execute surroundings.read
        { s with maxNesting := maxDepth.getD s.maxNesting } := by
  unfold execute at h
  split at h
  · cases h
  · split at h
    · cases h
    · next maxDepth command hrequest =>
      split at h
      · cases h
        cases hw
      · next s hsettings =>
        exact ⟨maxDepth, command, s, hrequest, hsettings, (Except.ok.inj h).symm⟩

/-- **A run changes nothing, or it has exported a compiled pattern to a file.**  The run has then
succeeded and prints nothing; the file holds the declaration, behind what it held and an empty line
if that is to be kept; and nothing else can be read from any other file than before. -/
theorem Directory.run_changes {d d' : Directory} {arguments : List String} {report : Report}
    (h : d.run arguments = (d', report)) :
    d' = d ∨ report = ⟨0, "", ""⟩ ∧
      ∃ maxDepth pattern name path append s r text,
        (Invocation.ofArguments arguments).request =
          .run maxDepth (.compile pattern name (some path) append) ∧
        d.surroundings.settings (Invocation.ofArguments arguments).settingsPath = .ok s ∧
        compilePattern { s with maxNesting := maxDepth.getD s.maxNesting } pattern = .ok r ∧
        Snippet.render r (name.getD s.exportName) (some pattern.toUTF8.toList) = .ok text ∧
        (d'.read path).toOption =
          some (if append then (d.read path).toOption.getD [] ++ ("\n" ++ text).toUTF8.toList
            else text.toUTF8.toList) ∧
        ∀ other, d.place? other ≠ d.place? path →
          (d'.read other).toOption = (d.read other).toOption := by
  rw [run_eq] at h
  refine (eq_or_write_of_conclude h).imp_right ?_
  rintro ⟨o, w, hexecute, hw, hwrite, rfl⟩
  obtain ⟨maxDepth, command, s, hrequest, hsettings, rfl⟩ :=
    Invocation.exists_of_execute hexecute hw
  obtain ⟨pattern, name, append, r, text, rfl, hcompile, hrender, hw', ho⟩ :=
    Command.exists_of_write hw
  refine ⟨by rw [ho]; rfl, maxDepth, pattern, name, w.path, append, s, r, text, hrequest, hsettings,
    hcompile, hrender, ?_, fun other hne => toOption_read_write_of_ne hwrite hne⟩
  rw [toOption_read_write hwrite, hw']
  cases append <;> rfl

end BoundedRegex.Cli
