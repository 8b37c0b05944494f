import OpenQasm.Include.Expand
import OpenQasm.Proofs.Faults

/-!
# What includes are replaced by

Loading a program replaces every include directive by the statements of the included file, depth
first, and fails if a file is about to be expanded inside itself.

* `Include.Expands` is the run of the expansion, step by step and with nothing that bounds its
  depth. It has one outcome, which is the one of `Include.expandAll`: `Include.expands_iff`. So
  every run ends.
* `Include.Splice` is what the outcome must be when there is one, without any mention of the files
  that are being expanded: `Include.Expands.splice`.
* `Include.Meets` says which directives are met, and which files are being expanded at that moment.
  An expansion that succeeds meets no directive for one of these
  (`Include.Expands.not_mem_of_meets`); an expansion that fails for files that include each other
  does (`Include.Expands.blames`).
* **`Entry.load_splices`**: all of it for programs that are loaded from a file or given as a text.
-/

namespace OpenQasm

namespace Include

variable {fs : FileSystem} {stack ancestors : List FileKey} {directory inner : Option String}
  {i j : Include} {rest includes : List Include} {before statements later : List Statement}
  {content : String} {included library : Program} {outcome : Except LoadError (List Statement)}

/-! ## Runs -/

/-- The run of an expansion, directive after directive: `stack` holds the files that are being
expanded, the innermost first. -/
inductive Expands (fs : FileSystem) : List FileKey → Option String → List Include →
    Except LoadError (List Statement) → Prop where
  | nil {stack : List FileKey} {directory : Option String} : Expands fs stack directory [] (.ok [])
  | library {stack : List FileKey} {directory : Option String} {i : Include} {rest : List Include}
      {library : Program} {outcome : Except LoadError (List Statement)}
      (hname : i.path = StandardGates.fileName) (hlibrary : StandardGates.program = .ok library)
      (hrest : Expands fs stack directory rest outcome) :
      Expands fs stack directory (i :: rest) (outcome.map (library.statements ++ ·))
  | file {stack : List FileKey} {directory : Option String} {i : Include} {rest : List Include}
      {content : String} {included : Program} {before : List Statement}
      {outcome : Except LoadError (List Statement)}
      (hname : i.path ≠ StandardGates.fileName) (hnew : fs.key (i.target directory) ∉ stack)
      (hread : fs.read (i.target directory) = .ok content)
      (hincluded : Program.fragmentOfText (i.target directory) content = .ok included)
      (hinner : Expands fs (fs.key (i.target directory) :: stack)
        (Path.parent? (i.target directory)) included.includes (.ok before))
      (hrest : Expands fs stack directory rest outcome) :
      Expands fs stack directory (i :: rest)
        (outcome.map (before ++ included.statements ++ ·))
  | libraryMalformed {stack : List FileKey} {directory : Option String} {i : Include}
      {rest : List Include} {e : SyntaxError} (hname : i.path = StandardGates.fileName)
      (hlibrary : StandardGates.program = .error e) :
      Expands fs stack directory (i :: rest) (.error (.malformed e))
  | includesItself {stack : List FileKey} {directory : Option String} {i : Include}
      {rest : List Include} (hname : i.path ≠ StandardGates.fileName)
      (hinnermost : stack.head? = some (fs.key (i.target directory))) :
      Expands fs stack directory (i :: rest) (.error (.malformed ⟨.includesItself i.path, i.pos⟩))
  | includeCycle {stack : List FileKey} {directory : Option String} {i : Include}
      {rest : List Include} (hname : i.path ≠ StandardGates.fileName)
      (hinnermost : stack.head? ≠ some (fs.key (i.target directory)))
      (hactive : fs.key (i.target directory) ∈ stack) :
      Expands fs stack directory (i :: rest) (.error (.malformed ⟨.includeCycle i.path, i.pos⟩))
  | unreadable {stack : List FileKey} {directory : Option String} {i : Include}
      {rest : List Include} {fault : FileFault} (hname : i.path ≠ StandardGates.fileName)
      (hnew : fs.key (i.target directory) ∉ stack)
      (hread : fs.read (i.target directory) = .error fault) :
      Expands fs stack directory (i :: rest) (.error (.unreadable (i.target directory) fault))
  | malformed {stack : List FileKey} {directory : Option String} {i : Include}
      {rest : List Include} {content : String} {e : SyntaxError}
      (hname : i.path ≠ StandardGates.fileName) (hnew : fs.key (i.target directory) ∉ stack)
      (hread : fs.read (i.target directory) = .ok content)
      (hincluded : Program.fragmentOfText (i.target directory) content = .error e) :
      Expands fs stack directory (i :: rest) (.error (.malformed e))
  | inner {stack : List FileKey} {directory : Option String} {i : Include} {rest : List Include}
      {content : String} {included : Program} {e : LoadError}
      (hname : i.path ≠ StandardGates.fileName) (hnew : fs.key (i.target directory) ∉ stack)
      (hread : fs.read (i.target directory) = .ok content)
      (hincluded : Program.fragmentOfText (i.target directory) content = .ok included)
      (hinner : Expands fs (fs.key (i.target directory) :: stack)
        (Path.parent? (i.target directory)) included.includes (.error e)) :
      Expands fs stack directory (i :: rest) (.error e)

/-- What the text of an included file stands for. -/
def expandText (fs : FileSystem) (stack : List FileKey) (path content : String) :
    Except LoadError (List Statement) := do
  let included ← (Program.fragmentOfText path content).mapError .malformed
  let before ← expandAll fs (fs.key path :: stack) (Path.parent? path) included.includes
  return before ++ included.statements

/-- What one directive stands for. -/
def expandOne (fs : FileSystem) (stack : List FileKey) (directory : Option String) (i : Include) :
    Except LoadError (List Statement) :=
  if i.path = StandardGates.fileName then do
    let library ← StandardGates.program.mapError .malformed
    return library.statements
  else if stack.head? = some (fs.key (i.target directory)) then
    .error (.malformed ⟨.includesItself i.path, i.pos⟩)
  else if fs.key (i.target directory) ∈ stack then
    .error (.malformed ⟨.includeCycle i.path, i.pos⟩)
  else do
    let content ← (fs.read (i.target directory)).mapError (.unreadable (i.target directory))
    expandText fs stack (i.target directory) content

theorem expandAll_eq (fs : FileSystem) (stack : List FileKey) (directory : Option String)
    (includes : List Include) : expandAll fs stack directory includes = do
      let parts ← includes.mapM (expandOne fs stack directory)
      return parts.flatten := by
  rw [expandAll]
  congr 2
  funext i
  unfold expandOne
  congr 1
  dsimp only
  congr 1
  by_cases hactive : fs.key (i.target directory) ∈ stack
  · rw [dif_pos hactive, if_pos hactive]
  · rw [dif_neg hactive, if_neg hactive]
    split <;> rename_i hread <;> rw [hread] <;> rfl

theorem expandAll_nil (fs : FileSystem) (stack : List FileKey) (directory : Option String) :
    expandAll fs stack directory [] = .ok [] := by
  rw [expandAll_eq]
  rfl

theorem expandAll_cons (fs : FileSystem) (stack : List FileKey) (directory : Option String)
    (i : Include) (rest : List Include) : expandAll fs stack directory (i :: rest) = do
      let here ← expandOne fs stack directory i
      let later ← expandAll fs stack directory rest
      return here ++ later := by
  rw [expandAll_eq, expandAll_eq, List.mapM_cons]
  cases expandOne fs stack directory i with
  | error e => rfl
  | ok here =>
    cases rest.mapM (expandOne fs stack directory) with
    | error e => rfl
    | ok parts => rfl

/-- A directive for a file that is not being expanded. -/
theorem expandOne_of_new (hname : i.path ≠ StandardGates.fileName)
    (hnew : fs.key (i.target directory) ∉ stack) : expandOne fs stack directory i =
      ((fs.read (i.target directory)).mapError (.unreadable (i.target directory)) >>=
        expandText fs stack (i.target directory)) := by
  rw [expandOne, if_neg hname, if_neg fun hhead => hnew (List.mem_of_head? hhead), if_neg hnew]

theorem expandOne_of_read (hname : i.path ≠ StandardGates.fileName)
    (hnew : fs.key (i.target directory) ∉ stack)
    (hread : fs.read (i.target directory) = .ok content) :
    expandOne fs stack directory i = expandText fs stack (i.target directory) content := by
  rw [expandOne_of_new hname hnew, hread]
  rfl

theorem expandOne_of_included (hname : i.path ≠ StandardGates.fileName)
    (hnew : fs.key (i.target directory) ∉ stack)
    (hread : fs.read (i.target directory) = .ok content)
    (hincluded : Program.fragmentOfText (i.target directory) content = .ok included) :
    expandOne fs stack directory i = (expandAll fs (fs.key (i.target directory) :: stack)
      (Path.parent? (i.target directory)) included.includes).map (· ++ included.statements) := by
  rw [expandOne_of_read hname hnew hread, expandText, hincluded]
  rfl

/-- **Every run ends**, as the expansion does. -/
theorem expands_expandAll (fs : FileSystem) : ∀ (stack : List FileKey) (directory : Option String)
    (includes : List Include),
    Expands fs stack directory includes (expandAll fs stack directory includes)
  | stack, directory, [] => expandAll_nil fs stack directory ▸ .nil
  | stack, directory, i :: rest => by
    have hrest := expands_expandAll fs stack directory rest
    rw [expandAll_cons]
    by_cases hname : i.path = StandardGates.fileName
    · rw [expandOne, if_pos hname]
      cases hlibrary : StandardGates.program with
      | error e => exact .libraryMalformed hname hlibrary
      | ok library => exact .library hname hlibrary hrest
    by_cases hnew : fs.key (i.target directory) ∈ stack
    · rw [expandOne, if_neg hname]
      by_cases hinnermost : stack.head? = some (fs.key (i.target directory))
      · rw [if_pos hinnermost]
        exact .includesItself hname hinnermost
      · rw [if_neg hinnermost, if_pos hnew]
        exact .includeCycle hname hinnermost hnew
    cases hread : fs.read (i.target directory) with
    | error fault =>
      rw [expandOne_of_new hname hnew, hread]
      exact .unreadable hname hnew hread
    | ok content =>
      cases hincluded : Program.fragmentOfText (i.target directory) content with
      | error e =>
        rw [expandOne_of_read hname hnew hread, expandText, hincluded]
        exact .malformed hname hnew hread hincluded
      | ok included =>
        have hpending := pending_cons_lt (FileSystem.key_mem_keys hread) hnew
        have hinner := expands_expandAll fs (fs.key (i.target directory) :: stack)
          (Path.parent? (i.target directory)) included.includes
        rw [expandOne_of_included hname hnew hread hincluded]
        cases hbefore : expandAll fs (fs.key (i.target directory) :: stack)
            (Path.parent? (i.target directory)) included.includes with
        | error e =>
          rw [hbefore] at hinner
          exact .inner hname hnew hread hincluded hinner
        | ok before =>
          rw [hbefore] at hinner
          exact .file hname hnew hread hincluded hinner hrest
termination_by stack _ includes => (pending fs.keys stack, includes.length)

/-- **A run has one outcome**, the one of the expansion. -/
theorem Expands.eq_expandAll (h : Expands fs stack directory includes outcome) :
    outcome = expandAll fs stack directory includes := by
  induction h with
  | nil => exact (expandAll_nil fs _ _).symm
  | library hname hlibrary _ ih =>
    rw [expandAll_cons, expandOne, if_pos hname, hlibrary, ← ih]
    rfl
  | file hname hnew hread hincluded _ _ ihinner ih =>
    rw [expandAll_cons, expandOne_of_included hname hnew hread hincluded, ← ihinner, ← ih]
    rfl
  | libraryMalformed hname hlibrary =>
    rw [expandAll_cons, expandOne, if_pos hname, hlibrary]
    rfl
  | includesItself hname hinnermost =>
    rw [expandAll_cons, expandOne, if_neg hname, if_pos hinnermost]
    rfl
  | includeCycle hname hinnermost hactive =>
    rw [expandAll_cons, expandOne, if_neg hname, if_neg hinnermost, if_pos hactive]
    rfl
  | unreadable hname hnew hread =>
    rw [expandAll_cons, expandOne_of_new hname hnew, hread]
    rfl
  | malformed hname hnew hread hincluded =>
    rw [expandAll_cons, expandOne_of_read hname hnew hread, expandText, hincluded]
    rfl
  | inner hname hnew hread hincluded _ ihinner =>
    rw [expandAll_cons, expandOne_of_included hname hnew hread hincluded, ← ihinner]
    rfl

theorem expands_iff : Expands fs stack directory includes outcome ↔
    outcome = expandAll fs stack directory includes :=
  ⟨Expands.eq_expandAll, fun h => h ▸ expands_expandAll fs stack directory includes⟩

/-! ## What there is when a run succeeds -/

/-- The statements that include directives stand for, directive after directive: those of the
bundled library for its name; for every other path those of the file found from the directory, the
statements that its own directives stand for in front. -/
inductive Splice (fs : FileSystem) : Option String → List Include → List Statement → Prop where
  | nil {directory : Option String} : Splice fs directory [] []
  | library {directory : Option String} {i : Include} {rest : List Include} {library : Program}
      {later : List Statement} (hname : i.path = StandardGates.fileName)
      (hlibrary : StandardGates.program = .ok library) (hrest : Splice fs directory rest later) :
      Splice fs directory (i :: rest) (library.statements ++ later)
  | file {directory : Option String} {i : Include} {rest : List Include} {content : String}
      {included : Program} {before later : List Statement}
      (hname : i.path ≠ StandardGates.fileName)
      (hread : fs.read (i.target directory) = .ok content)
      (hincluded : Program.fragmentOfText (i.target directory) content = .ok included)
      (hinner : Splice fs (Path.parent? (i.target directory)) included.includes before)
      (hrest : Splice fs directory rest later) :
      Splice fs directory (i :: rest) (before ++ included.statements ++ later)

/-- **A run that succeeds** splices. -/
theorem Expands.splice (h : Expands fs stack directory includes outcome)
    (hok : outcome = .ok statements) : Splice fs directory includes statements := by
  induction h generalizing statements with
  | nil =>
    cases hok
    exact .nil
  | @library _ _ _ _ _ outcome hname hlibrary _ ih =>
    cases outcome with
    | error e => cases hok
    | ok later =>
      cases hok
      exact .library hname hlibrary (ih rfl)
  | @file _ _ _ _ _ _ _ outcome hname _ hread hincluded _ _ ihinner ih =>
    cases outcome with
    | error e => cases hok
    | ok later =>
      cases hok
      exact .file hname hread hincluded (ihinner rfl) (ih rfl)
  | _ => cases hok

/-! ## Directives that are met -/

/-- The directive `i` is met, in a file of the directory `inner`, while the files `ancestors` are
being expanded, the innermost first. -/
inductive Meets (fs : FileSystem) : List FileKey → Option String → List Include → List FileKey →
    Option String → Include → Prop where
  | here {stack : List FileKey} {directory : Option String} {includes : List Include} {i : Include}
      (hi : i ∈ includes) : Meets fs stack directory includes stack directory i
  | inside {stack ancestors : List FileKey} {directory inner : Option String}
      {includes : List Include} {i j : Include} {content : String} {included : Program}
      (hj : j ∈ includes) (hname : j.path ≠ StandardGates.fileName)
      (hread : fs.read (j.target directory) = .ok content)
      (hincluded : Program.fragmentOfText (j.target directory) content = .ok included)
      (hinner : Meets fs (fs.key (j.target directory) :: stack) (Path.parent? (j.target directory))
        included.includes ancestors inner i) :
      Meets fs stack directory includes ancestors inner i

theorem Meets.mono (h : Meets fs stack directory rest ancestors inner i)
    (hsub : ∀ j ∈ rest, j ∈ includes) : Meets fs stack directory includes ancestors inner i := by
  cases h with
  | here hi => exact .here (hsub i hi)
  | inside hj hname hread hincluded hinner =>
    exact .inside (hsub _ hj) hname hread hincluded hinner

/-- A run that succeeds expands no file that is being expanded, and every other one that is
included. -/
theorem Expands.ok_of_mem (h : Expands fs stack directory includes outcome)
    (hok : outcome = .ok statements) (hi : i ∈ includes)
    (hname : i.path ≠ StandardGates.fileName) :
    fs.key (i.target directory) ∉ stack ∧ ∀ {content : String} {included : Program},
      fs.read (i.target directory) = .ok content →
      Program.fragmentOfText (i.target directory) content = .ok included →
      ∃ before, Expands fs (fs.key (i.target directory) :: stack)
        (Path.parent? (i.target directory)) included.includes (.ok before) := by
  induction h generalizing statements with
  | nil => exact absurd hi List.not_mem_nil
  | @library _ _ _ _ _ outcome hbundled _ _ ih =>
    rcases List.mem_cons.mp hi with rfl | hi
    · exact absurd hbundled hname
    · cases outcome with
      | error e => cases hok
      | ok later => exact ih rfl hi
  | @file _ _ _ _ _ _ _ outcome _ hnew hread hincluded hinner _ _ ih =>
    rcases List.mem_cons.mp hi with rfl | hi
    · refine ⟨hnew, fun hread' hincluded' => ?_⟩
      obtain rfl := Except.ok.inj (hread.symm.trans hread')
      obtain rfl := Except.ok.inj (hincluded.symm.trans hincluded')
      exact ⟨_, hinner⟩
    · cases outcome with
      | error e => cases hok
      | ok later => exact ih rfl hi
  | _ => cases hok

/-- **A run that succeeds** meets no directive for a file that is being expanded. -/
theorem Expands.not_mem_of_meets (h : Expands fs stack directory includes (.ok statements))
    (hmeets : Meets fs stack directory includes ancestors inner i)
    (hname : i.path ≠ StandardGates.fileName) : fs.key (i.target inner) ∉ ancestors := by
  induction hmeets generalizing statements with
  | here hi => exact (h.ok_of_mem rfl hi hname).1
  | inside hj hother hread hincluded _ ih =>
    obtain ⟨before, hbefore⟩ := (h.ok_of_mem rfl hj hother).2 hread hincluded
    exact ih hbefore hname

/-- The error is that of a directive that is met for a file that is being expanded: for the
innermost of these, or for another one. No file is being expanded twice. -/
def Blames (fs : FileSystem) (stack : List FileKey) (directory : Option String)
    (includes : List Include) (e : SyntaxError) : Prop :=
  ∃ ancestors inner i, Meets fs stack directory includes ancestors inner i ∧ ancestors.Nodup ∧
    i.path ≠ StandardGates.fileName ∧ e.pos = i.pos ∧
    ((e.fault = .includesItself i.path ∧ ancestors.head? = some (fs.key (i.target inner))) ∨
      (e.fault = .includeCycle i.path ∧ ancestors.head? ≠ some (fs.key (i.target inner)) ∧
        fs.key (i.target inner) ∈ ancestors))

theorem Blames.mono {e : SyntaxError} (h : Blames fs stack directory rest e)
    (hsub : ∀ j ∈ rest, j ∈ includes) : Blames fs stack directory includes e := by
  obtain ⟨ancestors, inner, i, hmeets, hblame⟩ := h
  exact ⟨ancestors, inner, i, hmeets.mono hsub, hblame⟩

/-- **A run that fails for files that include each other** meets a directive for a file that is
being expanded. -/
theorem Expands.blames (h : Expands fs stack directory includes outcome) (hstack : stack.Nodup)
    {e : SyntaxError} (herror : outcome = .error (.malformed e)) (he : e.fault.IsInclude) :
    Blames fs stack directory includes e := by
  induction h with
  | nil => cases herror
  | @library _ _ _ _ _ outcome _ _ _ ih =>
    cases outcome with
    | ok later => cases herror
    | error other =>
      cases herror
      exact (ih hstack rfl).mono fun j => List.mem_cons_of_mem _
  | @file _ _ _ _ _ _ _ outcome _ _ _ _ _ _ _ ih =>
    cases outcome with
    | ok later => cases herror
    | error other =>
      cases herror
      exact (ih hstack rfl).mono fun j => List.mem_cons_of_mem _
  | libraryMalformed _ hlibrary =>
    cases herror
    exact absurd he ((Program.textual_fragmentOfText _ _).error_of_eq hlibrary)
  | @includesItself stack directory i _ hname hinnermost =>
    cases herror
    exact ⟨stack, directory, i, .here List.mem_cons_self, hstack, hname, rfl,
      Or.inl ⟨rfl, hinnermost⟩⟩
  | @includeCycle stack directory i _ hname hinnermost hactive =>
    cases herror
    exact ⟨stack, directory, i, .here List.mem_cons_self, hstack, hname, rfl,
      Or.inr ⟨rfl, hinnermost, hactive⟩⟩
  | unreadable => cases herror
  | malformed _ _ _ hincluded =>
    cases herror
    exact absurd he ((Program.textual_fragmentOfText _ _).error_of_eq hincluded)
  | inner hname hnew hread hincluded _ ih =>
    obtain ⟨ancestors, inner, i, hmeets, hblame⟩ := ih (List.nodup_cons.mpr ⟨hnew, hstack⟩) herror
    exact ⟨ancestors, inner, i, .inside List.mem_cons_self hname hread hincluded hmeets, hblame⟩

end Include

/-! ## Loading -/

/-- Where a program is loaded from: a file, or a text that stands for one. -/
inductive Entry where
  | file (path : String)
  | text (name source : String)
deriving DecidableEq, Repr

namespace Entry

variable {fs : FileSystem} {e : Entry}

/-- Load the program. -/
def load (fs : FileSystem) : Entry → Except LoadError Program
  | .file path => Program.load fs path
  | .text name source => Program.loadText fs name source

/-- The program as it is written, its directives not resolved. -/
def written (fs : FileSystem) : Entry → Except LoadError Program
  | .file path => do
    let content ← (fs.read path).mapError (.unreadable path)
    (Program.ofText path content).mapError .malformed
  | .text name source => (Program.ofText name source).mapError .malformed

/-- The file that is expanded first. -/
def key (fs : FileSystem) : Entry → FileKey
  | .file path | .text path _ => fs.key path

/-- The directory from which the directives of the program are resolved. -/
def directory : Entry → Option String
  | .file path => Path.parent? path
  | .text .. => none

theorem load_eq_bind (fs : FileSystem) (e : Entry) :
    e.load fs = (e.written fs >>= Program.expand fs [e.key fs] e.directory) := by
  cases e with
  | text name source => rfl
  | file path =>
    rw [load, Program.load, Entry.written]
    cases fs.read path with
    | error fault => rfl
    | ok content => rfl

/-- What is loaded, in terms of the expansion. -/
theorem load_eq {p : Program} (h : e.written fs = .ok p) : e.load fs =
    (Include.expandAll fs [e.key fs] e.directory p.includes).map fun before =>
      { p with statements := before ++ p.statements } := by
  rw [load_eq_bind, h]
  rfl

/-- A text that cannot be read is not at fault for files that include each other. -/
theorem not_isInclude_of_written {error : SyntaxError}
    (h : e.written fs = .error (.malformed error)) : ¬error.fault.IsInclude := by
  have htext : ∀ {name source : String},
      (Program.ofText name source).mapError LoadError.malformed = .error (.malformed error) →
        ¬error.fault.IsInclude := by
    intro name source h
    cases hread : Program.ofText name source with
    | ok p =>
      rw [hread] at h
      cases h
    | error other =>
      rw [hread] at h
      cases h
      exact (Program.textual_ofText name source).error_of_eq hread
  cases e with
  | text name source => exact htext h
  | file path =>
    rw [Entry.written] at h
    cases hread : fs.read path with
    | error fault =>
      rw [hread] at h
      cases h
    | ok content =>
      rw [hread] at h
      exact htext h

/-- **Loading ends, and splices included files depth first.** The run of the expansion has one
outcome, which loading answers. When loading succeeds, the statements are what the directives stand
for, file by file and at every depth, and then the program's own; and no directive that can be met
is for a file that is being expanded there. When it fails for a file that includes itself or for a
cycle, a directive is met for a file that is being expanded there. -/
theorem load_splices (fs : FileSystem) (e : Entry) :
    (∀ p, e.written fs = .ok p → ∃ outcome,
      (∀ other, Include.Expands fs [e.key fs] e.directory p.includes other ↔ other = outcome) ∧
      e.load fs = outcome.map fun before => { p with statements := before ++ p.statements }) ∧
    (∀ loaded, e.load fs = .ok loaded → ∃ p before, e.written fs = .ok p ∧
      Include.Splice fs e.directory p.includes before ∧
      loaded = { p with statements := before ++ p.statements } ∧
      ∀ ancestors inner i,
        Include.Meets fs [e.key fs] e.directory p.includes ancestors inner i →
        i.path ≠ StandardGates.fileName → fs.key (i.target inner) ∉ ancestors) ∧
    ∀ error, e.load fs = .error (.malformed error) → error.fault.IsInclude →
      ∃ p, e.written fs = .ok p ∧ Include.Blames fs [e.key fs] e.directory p.includes error := by
  refine ⟨fun p hp => ⟨_, fun _ => Include.expands_iff, load_eq hp⟩, fun loaded hloaded => ?_,
    fun error herror hinclude => ?_⟩
  · obtain ⟨p, hp, -⟩ := bind_eq_ok.mp ((load_eq_bind fs e).symm.trans hloaded)
    rw [load_eq hp] at hloaded
    have hexpands := Include.expands_expandAll fs [e.key fs] e.directory p.includes
    cases hbefore : Include.expandAll fs [e.key fs] e.directory p.includes with
    | error other =>
      rw [hbefore] at hloaded
      cases hloaded
    | ok before =>
      rw [hbefore] at hloaded hexpands
      cases hloaded
      exact ⟨p, before, hp, hexpands.splice rfl, rfl,
        fun _ _ _ hmeets hname => hexpands.not_mem_of_meets hmeets hname⟩
  · cases hp : e.written fs with
    | error other =>
      rw [load_eq_bind, hp] at herror
      cases herror
      exact absurd hinclude (not_isInclude_of_written hp)
    | ok p =>
      rw [load_eq hp] at herror
      have hexpands := Include.expands_expandAll fs [e.key fs] e.directory p.includes
      cases hbefore : Include.expandAll fs [e.key fs] e.directory p.includes with
      | ok before =>
        rw [hbefore] at herror
        cases herror
      | error other =>
        rw [hbefore] at herror hexpands
        cases herror
        exact ⟨p, rfl, hexpands.blames (by simp) rfl hinclude⟩

/-- A file that two others include is expanded in front of each. -/
def diamond : FileSystem where
  files :=
    [("m", "OPENQASM 2.0;include \"a\";include \"b\";reset q;"),
      ("a", "include \"c\";reset q;"), ("b", "include \"c\";reset q;"), ("c", "reset q;")]
  locate := .ok

example : ((Entry.file "m").load diamond).map (·.statements.map (·.pos.file)) =
    .ok ["c", "a", "c", "b", "m"] := by decide +kernel

end Entry

end OpenQasm
