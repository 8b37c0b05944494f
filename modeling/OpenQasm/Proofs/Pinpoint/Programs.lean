import OpenQasm.Proofs.Pinpoint.Statements
import OpenQasm.Proofs.Programs

/-!
# Where reading a program fails

An error about a program is about the first lexeme that no program goes on with. The lexemes before
it are the start of a program, so another text that starts with them is read. No text that starts
with them and that lexeme is read, and the error is the same for all of these.

The reader of statements goes on to the end of the file, which no nonterminal derives. It leaves
nothing, whatever stands behind that end.

* `pinpoints_statements`, `pinpoints_program`: the last two readers.
* **`Program.error_at_first_offender`**: the lexeme that an error is about.
-/

namespace OpenQasm.Parse

open Grammar

variable {α β : Type} {n : Nat} {ts : List Lexeme} {p : SourcePos} {required : Bool} {file : String}

/-! ## The header -/

theorem plain_header : plain header ts =
    (do plain (exactly (.keyword .header))
        semicolonAfter (plain versionNumber) : Reader Decimal) ts :=
  bare_bind rfl fun _ => (bare_pass _ _).trans (bare_terminated rfl)

theorem pinpoints_header (ts : List Lexeme) : Pinpoints (plain header) (Viable IsHeader) ts := by
  have hheader (p q r : SourcePos) : IsHeader [⟨.keyword .header, p⟩, ⟨.integer 2, q⟩,
    ⟨.mark .semicolon, r⟩] ⟨2, 0⟩ := .integer
  refine .congr (fun _ _ => plain_header) ?_
  refine .exactly (.of_start (hheader default default default) List.nil_prefix)
    fun p rest _ => ?_
  refine .nextStep (.of_start (hheader p p p) ⟨_, rfl⟩) fun ⟨token, q⟩ version _ hversion _ => ?_
  refine .mark ?_ fun _ _ _ => .pure _
  cases token <;> cases hversion
  · exact .of_start (.real (p := p) (q := q) (r := q)) ⟨_, rfl⟩
  · exact .of_start (.integer (p := p) (q := q) (r := q)) ⟨_, rfl⟩

/-- What a program may start with. -/
def IsOptionalHeader (required : Bool) (xs : List Lexeme) (version : Decimal) : Prop :=
  IsHeader xs version ∨ required = false ∧ xs = [] ∧ version = ⟨2, 0⟩

theorem plain_header?_some (h : required ∨ peek ts = .keyword .header) :
    plain (header? required) ts = plain header ts := by
  show bare (header? required ts) = _
  rw [header?, if_pos h]
  exact bare_pass _ _

theorem plain_header?_none (h : ¬(required ∨ peek ts = .keyword .header)) :
    plain (header? required) ts = (pure defaultVersion : Reader Decimal) ts := by
  show bare (header? required ts) = _
  rw [header?, if_neg h]
  rfl

theorem pinpoints_header? (required : Bool) (ts : List Lexeme) :
    Pinpoints (plain (header? required)) (Viable (IsOptionalHeader required)) ts := by
  by_cases hheader : required ∨ peek ts = .keyword .header
  · refine .congr (fun _ h => plain_header?_some (by rwa [peek_of_head h])) ?_
    exact (pinpoints_header ts).mono fun ys h => h.within fun h =>
      ⟨_, _, Or.inl h, List.prefix_append ..⟩
  · exact .congr (fun _ h => plain_header?_none (by rwa [peek_of_head h])) (.pure _)

/-! ## Include directives -/

theorem plain_includeDirective (h : here ts = p) : plain includeDirective ts =
    (do plain (exactly (.keyword .includeFile))
        let path ← plain (next .fileName fun | .string text => some text | _ => none)
        plain (mark .semicolon)
        pure ⟨path, p⟩ : Reader Include) ts := by
  subst h
  have hread : plain includeDirective ts =
      (do plain (exactly (.keyword .includeFile))
          let path ← semicolonAfter
            (plain (next .fileName fun | .string text => some text | _ => none))
          pure ⟨path, here ts⟩ : Reader Include) ts :=
    bare_bind rfl fun _ => bare_bind (bare_terminated rfl) fun _ => rfl
  exact hread.trans (by simp only [semicolonAfter, bind_assoc, pure_bind])

theorem pinpoints_includeDirective (ts : List Lexeme) :
    Pinpoints (plain includeDirective) (Viable IsInclude) ts := by
  have hinclude (x : String) (p q r : SourcePos) : IsInclude [⟨.keyword .includeFile, p⟩,
    ⟨.string x, q⟩, ⟨.mark .semicolon, r⟩] ⟨x, p⟩ := .directive
  refine .congr (fun _ h => plain_includeDirective (here_of_head h)) ?_
  refine .exactly (.of_start (hinclude "" default default default) List.nil_prefix)
    fun p rest _ => ?_
  refine .nextStep (.of_start (hinclude "" p p p) ⟨_, rfl⟩) fun ⟨token, q⟩ x rest hx _ => ?_
  cases token <;> cases hx
  exact .mark (.of_start (hinclude x p q p) ⟨_, rfl⟩) fun _ _ _ => .pure _

theorem plain_includes_some (h : peek ts = .keyword .includeFile) : plain includes ts =
    (do let first ← plain includeDirective
        let others ← plain includes
        pure (first :: others) : Reader (List Include)) ts := by
  show bare (includes ts) = _
  rw [includes, if_pos h]
  exact bare_bind rfl fun _ => bare_bind rfl fun _ => rfl

theorem plain_includes_none (h : peek ts ≠ .keyword .includeFile) :
    plain includes ts = (pure [] : Reader (List Include)) ts := by
  show bare (includes ts) = _
  rw [includes, if_neg h]
  rfl

theorem pinpoints_includes (ts : List Lexeme) :
    Pinpoints (plain includes) (Viable (IsMany IsInclude)) ts := by
  by_cases hinclude : peek ts = .keyword .includeFile
  · refine .congr (fun _ h => plain_includes_some ((peek_of_head h).trans hinclude)) ?_
    refine .step (pinpoints_includeDirective ts) recognizes_includeDirective.sound (fun ys h => ?_)
      fun xs a rest ha hshorter => ?_
    · exact h.within fun h => ⟨_, _, .cons h .nil, by simp⟩
    refine ((pinpoints_includes rest).mono fun ys h => ?_).bind_pure _
    exact h.within fun h => ⟨_, _, .cons ha h, by simp⟩
  · exact .congr (fun _ h => plain_includes_none ((peek_of_head h).trans_ne hinclude)) (.pure _)
termination_by ts.length

/-! ## Statements -/

/-- What was read up to the end of the file, behind which nothing is left. -/
def ended (reading : Except SyntaxError α) : Except SyntaxError (α × List Lexeme) :=
  reading.map (·, [])

theorem ended_bind {reading : Except SyntaxError (Parsed α n)}
    {next : Parsed α n → Except SyntaxError β} {f : Reader α} {g : α → Reader β}
    (hf : bare reading = f ts) (hg : ∀ p, ended (next p) = g p.value p.rest) :
    ended (reading >>= next) = (f >>= g) ts := by
  show _ = f ts >>= fun r => g r.1 r.2
  rw [← hf]
  cases reading with
  | error e => rfl
  | ok p => exact hg p

theorem ended_bind_pure {reading : Except SyntaxError α} {f : Reader α} {change : α → β}
    (hf : ended reading = f ts) :
    ended (reading >>= fun a => pure (change a)) = (f >>= fun a => pure (change a)) ts := by
  show _ = f ts >>= fun r => _
  rw [← hf]
  cases reading <;> rfl

/-- The statements up to the end of the file. -/
def allStatements : Reader (List Statement) := fun ts => ended (statements ts)

theorem allStatements_end (h : peek ts = .endOfFile) : allStatements ts = .ok ([], []) := by
  rw [allStatements, statements, if_pos h]
  rfl

theorem allStatements_late (h : peek ts = .keyword .includeFile) :
    allStatements ts = .error ⟨.lateInclude, here ts⟩ := by
  rw [allStatements, statements, if_neg (h.trans_ne (by decide)), if_pos h]
  rfl

theorem allStatements_cons (hend : peek ts ≠ .endOfFile) (hlate : peek ts ≠ .keyword .includeFile) :
    allStatements ts =
      (do let first ← plain statement
          let others ← allStatements
          pure (first :: others) : Reader (List Statement)) ts := by
  rw [allStatements, statements, if_neg hend, if_neg hlate]
  exact ended_bind rfl fun _ => ended_bind_pure rfl

theorem pinpoints_statements (ts : List Lexeme) :
    Pinpoints allStatements (Viable (IsMany IsStatement)) ts := by
  by_cases hend : peek ts = .endOfFile
  · -- everything is taken, so that nothing else can stand behind it
    refine ⟨fun h => ?_, fun h => ?_⟩
    · obtain ⟨rfl, rfl⟩ := Prod.mk.inj (Except.ok.inj ((allStatements_end hend).symm.trans h))
      refine ⟨ts, (List.append_nil ts).symm, fun other hother => ?_⟩
      obtain rfl := List.head?_eq_none_iff.mp hother
      rw [List.append_nil]
      exact allStatements_end hend
    · exact nomatch (allStatements_end hend).symm.trans h
  by_cases hlate : peek ts = .keyword .includeFile
  · -- no statement starts so, but the statements before it were whole
    refine .fault (.of_start .nil List.nil_prefix) (e := ⟨.lateInclude, here ts⟩) rfl
      fun other h => ?_
    rw [← here_of_head h]
    exact allStatements_late ((peek_of_head h).trans hlate)
  · refine .congr (fun _ h => allStatements_cons ((peek_of_head h).trans_ne hend)
      ((peek_of_head h).trans_ne hlate)) ?_
    refine .step (pinpoints_statement ts) recognizes_statement.sound (fun ys h => ?_)
      fun xs s rest hs hshorter => ?_
    · exact h.within fun h => ⟨_, _, .cons h .nil, by simp⟩
    refine ((pinpoints_statements rest).mono fun ys h => ?_).bind_pure _
    exact h.within fun h => ⟨_, _, .cons hs h, by simp⟩
termination_by ts.length

/-! ## Programs -/

/-- The whole program. -/
def wholeProgram (required : Bool) (file : String) : Reader Program := fun ts =>
  ended (Program.ofLexemes required file ts)

theorem wholeProgram_eq : wholeProgram required file ts =
    (do let version ← plain (header? required)
        let includes ← plain includes
        let statements ← allStatements
        pure ⟨file, version, includes, statements⟩ : Reader Program) ts :=
  ended_bind rfl fun _ => ended_bind rfl fun _ => ended_bind_pure rfl

theorem isProgram_of_parts {xs ys zs : List Lexeme} {version : Decimal} {includes : List Include}
    {statements : List Statement} (hxs : IsOptionalHeader required xs version)
    (hys : IsMany IsInclude ys includes) (hzs : IsMany IsStatement zs statements) :
    IsProgram required file (xs ++ (ys ++ zs)) ⟨file, version, includes, statements⟩ :=
  isProgram_iff.mpr ⟨rfl, xs, ys, zs, rfl, hxs, hys, hzs⟩

/-- **Programs pinpoint their errors.** -/
theorem pinpoints_program (ts : List Lexeme) :
    Pinpoints (wholeProgram required file) (Viable (IsProgram required file)) ts := by
  refine .congr (fun _ _ => wholeProgram_eq) ?_
  refine .step (pinpoints_header? required ts) (recognizes_optionalHeader required).sound
    (fun ys h => ?_) fun xs version rest hxs _ => ?_
  · exact h.within fun h => ⟨_, _, isProgram_of_parts h .nil .nil, by simp⟩
  refine .step (pinpoints_includes rest) recognizes_includes.sound (fun ys h => ?_)
    fun ys includes rest hys _ => ?_
  · exact h.within fun h => ⟨_, _, isProgram_of_parts hxs h .nil, by simp⟩
  refine ((pinpoints_statements rest).mono fun zs h => ?_).bind_pure _
  exact h.within fun h => ⟨_, _, isProgram_of_parts hxs hys h, by simp⟩

end OpenQasm.Parse

namespace OpenQasm.Program

open Grammar Parse

variable {required : Bool} {file : String} {ts : List Lexeme} {err : SyntaxError}

theorem wholeProgram_eq_error :
    wholeProgram required file ts = .error err ↔ ofLexemes required file ts = .error err := by
  rw [wholeProgram]
  cases ofLexemes required file ts <;> simp [ended, Except.map]

/-- The lexemes start a text that is read. -/
def Starts (required : Bool) (file : String) (xs : List Lexeme) : Prop :=
  ∃ more e p, Endless (xs ++ more) ∧ e.token = .endOfFile ∧
    ofLexemes required file (xs ++ more ++ [e]) = .ok p

/-- **An error is about the first lexeme that cannot follow.** The lexemes before it start a text
that is read, and whatever starts with them and that lexeme has the same error. This is so of a main
program as of a fragment, where the header may be missing. -/
theorem error_at_first_offender (required : Bool) (file : String) (ts : List Lexeme) (e : Lexeme)
    (hend : e.token = .endOfFile) (err : SyntaxError)
    (h : ofLexemes required file (ts ++ [e]) = .error err) :
    ∃ before l after, ts ++ [e] = before ++ l :: after ∧ err.pos = l.pos ∧
      Starts required file before ∧
      ∀ more, ofLexemes required file (before ++ l :: more) = .error err := by
  obtain ⟨before, rest, heq, hpos, ⟨more, p, hp⟩, hsame⟩ :=
    (pinpoints_program (ts ++ [e])).fails (wholeProgram_eq_error.mpr h)
  have hendless := endless_of_isProgram hp
  cases rest with
  | nil =>
    -- otherwise the end of the file would stand in what is viable
    rw [List.append_nil] at heq
    have hmem : e ∈ before ++ more := List.mem_append_left _ (heq ▸ List.mem_concat_self)
    exact absurd hend (hendless e hmem)
  | cons l after =>
    exact ⟨before, l, after, heq, hpos, ⟨more, e, p, hendless, hend, complete_ofLexemes hp hend⟩,
      fun more => wholeProgram_eq_error.mp (hsame (l :: more) rfl)⟩

/-- The columns of `misplaced`. -/
def misplacedAt (column : Nat) : SourcePos := ⟨"misplaced", 1, column⟩

/-- `OPENQASM 2; gate g a { reset a; }` -/
def misplaced : List Lexeme :=
  [⟨.keyword .header, misplacedAt 1⟩, ⟨.integer 2, misplacedAt 10⟩,
    ⟨.mark .semicolon, misplacedAt 11⟩, ⟨.keyword .gate, misplacedAt 13⟩,
    ⟨.identifier "g", misplacedAt 18⟩, ⟨.identifier "a", misplacedAt 20⟩,
    ⟨.mark .openBrace, misplacedAt 22⟩, ⟨.keyword .reset, misplacedAt 24⟩,
    ⟨.identifier "a", misplacedAt 30⟩, ⟨.mark .semicolon, misplacedAt 31⟩,
    ⟨.mark .closeBrace, misplacedAt 33⟩]

/-- The body is left open before the word that starts no statement of a body. -/
theorem error_at_first_offender_misplaced :
    ∃ before l after, misplaced ++ [⟨.endOfFile, misplacedAt 34⟩] = before ++ l :: after ∧
      misplacedAt 24 = l.pos ∧ Starts true "misplaced" before ∧
      ∀ more, ofLexemes true "misplaced" (before ++ l :: more) =
        .error ⟨.notInGateBody (.keyword .reset), misplacedAt 24⟩ :=
  error_at_first_offender true "misplaced" misplaced _ rfl _ (by cbv)

end OpenQasm.Program
