import OpenQasm.Proofs.Statements
import OpenQasm.Syntax.Parse.Program

/-!
# Programs are read as they are derived

The reader of programs accepts what the grammar of programs derives, with the end of the file behind
it, and answers the program that is derived. The grammar knows no end of the file, so what is left
unread has to be shown to be that end and nothing more: every header, directive and statement ends
with a mark (`Closed`), so none of them can have taken it.

* `recognizes_optionalHeader`, `recognizes_includes`: what stands before the statements.
* `sound_statements`, `complete_statements`: statements up to the end of the file.
* **`Program.ofLexemes_eq_ok_iff`**: reading succeeds exactly for what is derived.
* `Program.isProgram_unique`: the grammar is unambiguous.
-/

namespace OpenQasm.Parse

open Grammar

variable {ts rest xs : List Lexeme}

/-! ## The header -/

theorem yields_versionNumber {version : Decimal} : Yields (versionNumber ts) version rest ↔
    ∃ p, ts = ⟨.real version, p⟩ :: rest ∨
      ∃ n, ts = ⟨.integer n, p⟩ :: rest ∧ version = ⟨n, 0⟩ := by
  rw [versionNumber, yields_next]
  constructor
  · rintro ⟨⟨token, p⟩, rfl, h⟩
    cases token <;> cases h
    · exact ⟨p, Or.inl rfl⟩
    · exact ⟨p, Or.inr ⟨_, rfl, rfl⟩⟩
  · rintro ⟨p, rfl | ⟨n, rfl, rfl⟩⟩
    · exact ⟨_, rfl, rfl⟩
    · exact ⟨_, rfl, rfl⟩

theorem recognizes_header : Recognizes header IsHeader [] where
  sound h := by
    simp only [header, yields_bind, yields_exactly, yields_terminated, yields_versionNumber,
      yields_pure, Parsed.followedBy, Parsed.widen, exists_prop, exists_const] at h
    obtain ⟨_, ⟨p, rfl⟩, version, _, ⟨r, q, h⟩, rfl, rfl⟩ := h
    rcases h with rfl | ⟨n, rfl, rfl⟩
    · exact ⟨_, rfl, .real⟩
    · exact ⟨_, rfl, .integer⟩
  complete h _ := by
    simp only [header, yields_bind, yields_exactly, yields_terminated, yields_versionNumber,
      yields_pure, Parsed.followedBy, Parsed.widen, exists_prop, exists_const]
    cases h with
    | real => exact ⟨_, ⟨_, rfl⟩, _, _, ⟨_, _, Or.inl rfl⟩, rfl, rfl⟩
    | integer => exact ⟨_, ⟨_, rfl⟩, _, _, ⟨_, _, Or.inr ⟨_, rfl, rfl⟩⟩, rfl, rfl⟩

/-- A header may be missing where it is not required. -/
theorem recognizes_optionalHeader (required : Bool) : Recognizes (header? required)
    (fun xs version => IsHeader xs version ∨ required = false ∧ xs = [] ∧ version = ⟨2, 0⟩)
    [.keyword .header] where
  sound {ts _ _} h := by
    rw [header?] at h
    split at h
    · simp only [yields_bind, yields_pure, Parsed.widen, exists_prop] at h
      obtain ⟨version, _, hversion, rfl, rfl⟩ := h
      obtain ⟨xs, rfl, hxs⟩ := recognizes_header.sound hversion
      exact ⟨xs, rfl, Or.inl hxs⟩
    · rename_i hmissing
      obtain ⟨rfl, rfl⟩ := yields_pure.mp h
      exact ⟨[], rfl, Or.inr ⟨by simpa using fun h => hmissing (Or.inl h), rfl, rfl⟩⟩
  complete {xs version rest} h hrest := by
    rw [header?]
    rcases h with h | ⟨rfl, rfl, rfl⟩
    · have hread := recognizes_header.complete h (List.not_mem_nil : peek rest ∉ [])
      rw [if_pos (Or.inr (by cases h <;> rfl))]
      simp only [yields_bind, yields_pure, Parsed.widen, exists_prop]
      exact ⟨version, rest, hread, rfl, rfl⟩
    · rw [if_neg (by simpa using hrest)]
      exact yields_pure.mpr ⟨rfl, rfl⟩

/-! ## Include directives -/

theorem recognizes_includeDirective : Recognizes includeDirective IsInclude [] where
  sound h := by
    simp only [includeDirective, yields_bind, yields_exactly, yields_terminated, yields_next,
      yields_pure, exists_prop, exists_const] at h
    obtain ⟨_, ⟨p, rfl⟩, path, _, ⟨r, ⟨token, q⟩, rfl, htoken⟩, rfl, rfl⟩ := h
    cases token <;> cases htoken
    exact ⟨_, rfl, .directive⟩
  complete h _ := by
    simp only [includeDirective, yields_bind, yields_exactly, yields_terminated, yields_next,
      yields_pure, exists_prop, exists_const]
    cases h
    exact ⟨_, ⟨_, rfl⟩, _, _, ⟨_, _, rfl, rfl⟩, rfl, rfl⟩

theorem yields_includes {as : List Include} : Yields (includes ts) as rest ↔
    (peek ts ≠ .keyword .includeFile ∧ as = [] ∧ rest = ts) ∨
      ∃ a between others, Yields (includeDirective ts) a between ∧
        Yields (includes between) others rest ∧ as = a :: others := by
  rw [includes]
  split
  · rename_i h
    simp only [yields_bind, yields_pure, exists_prop]
    constructor
    · rintro ⟨a, between, ha, others, _, hothers, rfl, rfl⟩
      exact Or.inr ⟨a, between, others, ha, hothers, rfl⟩
    · rintro (⟨hne, -⟩ | ⟨a, between, others, ha, hothers, rfl⟩)
      · exact absurd h hne
      · exact ⟨a, between, ha, others, rest, hothers, rfl, rfl⟩
  · rename_i h
    rw [yields_pure]
    constructor
    · rintro ⟨rfl, rfl⟩
      exact Or.inl ⟨h, rfl, rfl⟩
    · rintro (⟨-, rfl, rfl⟩ | ⟨a, between, others, ha, -⟩)
      · exact ⟨rfl, rfl⟩
      · obtain ⟨xs, rfl, hxs⟩ := recognizes_includeDirective.sound ha
        cases hxs
        exact absurd rfl h

theorem sound_includes {ts rest : List Lexeme} {as : List Include}
    (h : Yields (includes ts) as rest) : ∃ xs, ts = xs ++ rest ∧ IsMany IsInclude xs as := by
  rcases yields_includes.mp h with ⟨-, rfl, rfl⟩ | ⟨a, between, others, ha, hothers, rfl⟩
  · exact ⟨[], rfl, .nil⟩
  · have hshorter := ha.shorter
    obtain ⟨xs, hts, hxs⟩ := recognizes_includeDirective.sound ha
    obtain ⟨ys, rfl, hys⟩ := sound_includes hothers
    exact ⟨xs ++ ys, by rw [hts, List.append_assoc], .cons hxs hys⟩
termination_by ts.length

theorem recognizes_includes : Recognizes includes (IsMany IsInclude) [.keyword .includeFile] where
  sound := sound_includes
  complete h hrest := by
    rw [List.mem_singleton] at hrest
    induction h with
    | nil => exact yields_includes.mpr (Or.inl ⟨hrest, rfl, rfl⟩)
    | cons hx _ ih =>
      rw [List.append_assoc]
      exact yields_includes.mpr (Or.inr ⟨_, _, _,
        recognizes_includeDirective.complete hx List.not_mem_nil, ih, rfl⟩)

/-- An include directive does not start with the word of a header. -/
theorem peek_of_isIncludes {as : List Include} (h : IsMany IsInclude xs as)
    (hrest : peek rest ≠ .keyword .header) : peek (xs ++ rest) ≠ .keyword .header := by
  cases h with
  | nil => exact hrest
  | cons hx _ => cases hx; exact nofun

/-! ## Statements up to the end -/

/-- An operation starts with none of the tokens that are decided on before a statement is read. -/
theorem peek_ne_of_isOperation {o : Operation} (h : IsOperation xs o) (rest : List Lexeme) :
    peek (xs ++ rest) ≠ .endOfFile ∧ peek (xs ++ rest) ≠ .keyword .includeFile ∧
      peek (xs ++ rest) ≠ .keyword .header := by
  cases h with
  | measure => exact ⟨nofun, nofun, nofun⟩
  | reset => exact ⟨nofun, nofun, nofun⟩
  | call h =>
    rw [List.append_assoc]
    rcases peek_of_isCall h _ with h | h | ⟨name, h⟩ <;> rw [h] <;> exact ⟨nofun, nofun, nofun⟩

theorem peek_ne_of_isAction {a : Action} (h : IsAction xs a) (rest : List Lexeme) :
    peek (xs ++ rest) ≠ .endOfFile ∧ peek (xs ++ rest) ≠ .keyword .includeFile ∧
      peek (xs ++ rest) ≠ .keyword .header := by
  cases h with
  | operation h => exact peek_ne_of_isOperation h rest
  | _ => exact ⟨nofun, nofun, nofun⟩

theorem peek_ne_of_isStatement {s : Statement} (h : IsStatement xs s) (rest : List Lexeme) :
    peek (xs ++ rest) ≠ .endOfFile ∧ peek (xs ++ rest) ≠ .keyword .includeFile ∧
      peek (xs ++ rest) ≠ .keyword .header := by
  cases h with
  | statement h => exact peek_ne_of_isAction h rest

/-- The end of the file, or a statement and after it the others. -/
theorem statements_eq_ok {as : List Statement} : statements ts = .ok as ↔
    (peek ts = .endOfFile ∧ as = []) ∨ ∃ a between others, Yields (statement ts) a between ∧
      statements between = .ok others ∧ as = a :: others := by
  have hhead : ∀ {a between}, Yields (statement ts) a between →
      peek ts ≠ .endOfFile ∧ peek ts ≠ .keyword .includeFile := by
    intro a between h
    obtain ⟨xs, rfl, hxs⟩ := recognizes_statement.sound h
    exact ⟨(peek_ne_of_isStatement hxs between).1, (peek_ne_of_isStatement hxs between).2.1⟩
  rw [statements]
  split
  · rename_i hend
    constructor
    · intro h
      exact Or.inl ⟨hend, (Except.ok.inj h).symm⟩
    · rintro (⟨-, rfl⟩ | ⟨a, between, others, ha, -⟩)
      · rfl
      · exact absurd hend (hhead ha).1
  split
  · rename_i hend hlate
    constructor
    · exact nofun
    · rintro (⟨h, -⟩ | ⟨a, between, others, ha, -⟩)
      · exact absurd h hend
      · exact absurd hlate (hhead ha).2
  · rename_i hend _
    constructor
    · intro h
      obtain ⟨first, hfirst, h⟩ := bind_eq_ok.mp h
      obtain ⟨others, hothers, h⟩ := bind_eq_ok.mp h
      exact Or.inr ⟨first.value, first.rest, others, ⟨first.shorter, hfirst⟩, hothers,
        (Except.ok.inj h).symm⟩
    · rintro (⟨h, -⟩ | ⟨a, between, others, ⟨hshorter, ha⟩, hothers, rfl⟩)
      · exact absurd h hend
      · exact bind_eq_ok.mpr ⟨_, ha, bind_eq_ok.mpr ⟨others, hothers, rfl⟩⟩

theorem sound_statements {ts : List Lexeme} {as : List Statement} (h : statements ts = .ok as) :
    ∃ xs rest, ts = xs ++ rest ∧ peek rest = .endOfFile ∧ IsMany IsStatement xs as := by
  rcases statements_eq_ok.mp h with ⟨hend, rfl⟩ | ⟨a, between, others, ha, hothers, rfl⟩
  · exact ⟨[], ts, rfl, hend, .nil⟩
  · have hshorter := ha.shorter
    obtain ⟨xs, hts, hxs⟩ := recognizes_statement.sound ha
    obtain ⟨ys, rest, rfl, hend, hys⟩ := sound_statements hothers
    exact ⟨xs ++ ys, rest, by rw [hts, List.append_assoc], hend, .cons hxs hys⟩
termination_by ts.length

theorem complete_statements {as : List Statement} (h : IsMany IsStatement xs as)
    (hend : peek rest = .endOfFile) : statements (xs ++ rest) = .ok as := by
  induction h with
  | nil => exact statements_eq_ok.mpr (Or.inl ⟨hend, rfl⟩)
  | cons hx _ ih =>
    rw [List.append_assoc]
    exact statements_eq_ok.mpr (Or.inr ⟨_, _, _,
      recognizes_statement.complete hx List.not_mem_nil, ih, rfl⟩)

/-- Statements up to the end start with no word of what stands before them. -/
theorem peek_of_isStatements {as : List Statement} (h : IsMany IsStatement xs as)
    (hend : peek rest = .endOfFile) :
    peek (xs ++ rest) ≠ .keyword .includeFile ∧ peek (xs ++ rest) ≠ .keyword .header := by
  cases h with
  | nil => rw [List.nil_append, hend]; exact ⟨nofun, nofun⟩
  | cons hx _ => rw [List.append_assoc]; exact (peek_ne_of_isStatement hx _).2

/-! ## What the last lexeme is -/

/-- The last lexeme, if there is one, is a mark. -/
def Closed (xs : List Lexeme) : Prop :=
  ∀ l, xs.getLast? = some l → ∃ m, l.token = .mark m

theorem closed_nil : Closed [] := nofun

theorem closed_concat_mark (xs : List Lexeme) (m : Mark) (p : SourcePos) :
    Closed (xs ++ [⟨.mark m, p⟩]) := by
  intro l hl
  rw [List.getLast?_concat] at hl
  cases hl
  exact ⟨m, rfl⟩

theorem Closed.append {ys : List Lexeme} (hxs : Closed xs) (hys : Closed ys) :
    Closed (xs ++ ys) := by
  intro l hl
  rw [List.getLast?_append, Option.or_eq_some_iff] at hl
  rcases hl with hl | ⟨-, hl⟩
  · exact hys l hl
  · exact hxs l hl

theorem closed_of_isOperation {o : Operation} (h : IsOperation xs o) : Closed xs := by
  cases h <;> exact closed_concat_mark _ _ _

theorem closed_of_isAction {a : Action} (h : IsAction xs a) : Closed xs := by
  cases h with
  | qreg => exact closed_concat_mark [_, _, _, _, _] _ _
  | creg => exact closed_concat_mark [_, _, _, _, _] _ _
  | gate => exact closed_concat_mark _ _ _
  | opaqueGate => exact closed_concat_mark _ _ _
  | barrier => exact closed_concat_mark _ _ _
  | @conditional l xs ys zs v e o p q r s _ _ ho =>
    -- up to the parenthesis that closes the condition, and from there on
    have h := (closed_concat_mark (⟨.keyword .ifEqual, p⟩ :: ⟨.mark .openParen, q⟩ :: xs ++
      ⟨.mark .equal, r⟩ :: ys) .closeParen s).append (closed_of_isOperation ho)
    rwa [List.append_assoc] at h
  | operation ho => exact closed_of_isOperation ho

theorem closed_of_isMany {α : Type} {item : List Lexeme → α → Prop} {as : List α}
    (hitem : ∀ {xs a}, item xs a → Closed xs) (h : IsMany item xs as) : Closed xs := by
  induction h with
  | nil => exact closed_nil
  | cons hx _ ih => exact (hitem hx).append ih

theorem closed_of_isHeader {version : Decimal} (h : IsHeader xs version) : Closed xs := by
  cases h <;> exact closed_concat_mark [_, _] _ _

theorem closed_of_isInclude {a : Include} (h : IsInclude xs a) : Closed xs := by
  cases h
  exact closed_concat_mark [_, _] _ _

theorem closed_of_isStatement {s : Statement} (h : IsStatement xs s) : Closed xs := by
  cases h with
  | statement ha => exact closed_of_isAction ha

/-- The parts of a program, of which the header may be missing. -/
theorem isProgram_iff {required : Bool} {file : String} {p : Program} :
    IsProgram required file ts p ↔ p.file = file ∧ ∃ xs ys zs, ts = xs ++ (ys ++ zs) ∧
      (IsHeader xs p.version ∨ required = false ∧ xs = [] ∧ p.version = ⟨2, 0⟩) ∧
      IsMany IsInclude ys p.includes ∧ IsMany IsStatement zs p.statements := by
  constructor
  · rintro (⟨hxs, hys, hzs⟩ | ⟨hrequired, hys, hzs⟩)
    · exact ⟨rfl, _, _, _, List.append_assoc .., Or.inl hxs, hys, hzs⟩
    · exact ⟨rfl, [], _, _, rfl, Or.inr ⟨hrequired, rfl, rfl⟩, hys, hzs⟩
  · obtain ⟨_, version, includes, statements⟩ := p
    rintro ⟨rfl, xs, ys, zs, rfl, hxs | ⟨hrequired, rfl, rfl⟩, hys, hzs⟩
    · rw [← List.append_assoc]
      exact .headed hxs hys hzs
    · rw [List.nil_append]
      exact .bare hrequired hys hzs

theorem closed_of_isProgram {required : Bool} {file : String} {p : Program}
    (h : IsProgram required file xs p) : Closed xs := by
  obtain ⟨-, xs, ys, zs, rfl, hxs, hys, hzs⟩ := isProgram_iff.mp h
  have hbody := (closed_of_isMany closed_of_isInclude hys).append
    (closed_of_isMany closed_of_isStatement hzs)
  rcases hxs with hxs | ⟨-, rfl, -⟩
  · exact (closed_of_isHeader hxs).append hbody
  · exact hbody

/-- What stands before the end of a file is closed only without that end. -/
theorem eq_of_closed {e : Lexeme} (hend : e.token = .endOfFile)
    (hts : ∀ l ∈ ts, l.token ≠ .endOfFile) (hclosed : Closed xs) (hrest : peek rest = .endOfFile)
    (h : ts ++ [e] = xs ++ rest) : ts = xs ∧ rest = [e] := by
  cases rest with
  | nil =>
    rw [List.append_nil] at h
    obtain ⟨m, hm⟩ := hclosed e (by rw [← h, List.getLast?_concat])
    rw [hend] at hm
    cases hm
  | cons l tail =>
    have hl : l.token = .endOfFile := hrest
    rcases List.eq_nil_or_concat tail with rfl | ⟨tail, last, rfl⟩
    · obtain ⟨rfl, hlast⟩ := List.append_inj' h rfl
      exact ⟨rfl, hlast.symm⟩
    · rw [List.concat_eq_append, ← List.cons_append, ← List.append_assoc] at h
      obtain ⟨rfl, -⟩ := List.append_inj' h rfl
      exact absurd hl (hts l (by simp))

end OpenQasm.Parse

namespace OpenQasm.Program

open Grammar Parse

variable {required : Bool} {file : String} {ts rest xs : List Lexeme} {p : Program}

theorem sound_ofLexemes (h : ofLexemes required file ts = .ok p) :
    ∃ xs rest, ts = xs ++ rest ∧ peek rest = .endOfFile ∧ IsProgram required file xs p := by
  obtain ⟨⟨version, between, hversion⟩, hheader, h⟩ := bind_eq_ok.mp h
  obtain ⟨⟨includes, body, hincludes⟩, hdirectives, h⟩ := bind_eq_ok.mp h
  obtain ⟨statements, hstatements, h⟩ := bind_eq_ok.mp h
  cases h
  obtain ⟨xs, rfl, hxs⟩ := (recognizes_optionalHeader required).sound ⟨hversion, hheader⟩
  obtain ⟨ys, rfl, hys⟩ := recognizes_includes.sound ⟨hincludes, hdirectives⟩
  obtain ⟨zs, rest, rfl, hend, hzs⟩ := sound_statements hstatements
  refine ⟨xs ++ (ys ++ zs), rest, by simp only [List.append_assoc], hend, ?_⟩
  exact isProgram_iff.mpr ⟨rfl, xs, ys, zs, rfl, hxs, hys, hzs⟩

theorem complete_ofLexemes (h : IsProgram required file xs p) (hend : peek rest = .endOfFile) :
    ofLexemes required file (xs ++ rest) = .ok p := by
  obtain ⟨rfl, xs, ys, zs, rfl, hxs, hys, hzs⟩ := isProgram_iff.mp h
  rw [List.append_assoc, List.append_assoc]
  obtain ⟨hinclude, hheader⟩ := peek_of_isStatements hzs hend
  have hheader := peek_of_isIncludes hys hheader
  obtain ⟨_, hversion⟩ := (recognizes_optionalHeader required).complete hxs
    (by rwa [List.mem_singleton])
  obtain ⟨_, hincludes⟩ := recognizes_includes.complete hys (by rwa [List.mem_singleton])
  exact bind_eq_ok.mpr ⟨_, hversion, bind_eq_ok.mpr ⟨_, hincludes,
    bind_eq_ok.mpr ⟨_, complete_statements hzs hend, rfl⟩⟩⟩

/-- **Reading accepts exactly the grammar and answers what is derived**: the lexemes up to the end
of the file are read as a program if they derive it, and not otherwise. -/
theorem ofLexemes_eq_ok_iff (required : Bool) (file : String) (ts : List Lexeme) (e : Lexeme)
    (hend : e.token = .endOfFile) (hts : ∀ l ∈ ts, l.token ≠ .endOfFile) (p : Program) :
    ofLexemes required file (ts ++ [e]) = .ok p ↔ IsProgram required file ts p := by
  constructor
  · intro h
    obtain ⟨xs, rest, heq, hrest, hxs⟩ := sound_ofLexemes h
    obtain ⟨rfl, -⟩ := eq_of_closed hend hts (closed_of_isProgram hxs) hrest heq
    exact hxs
  · intro h
    exact complete_ofLexemes h hend

/-- The place of every lexeme of `grouped`. -/
def groupedAt : SourcePos := .start "grouped"

/-- `OPENQASM 2; U(1 - 2 - 3, -4 ^ 5 ^ 6) q;` -/
def grouped : List Lexeme :=
  [.keyword .header, .integer 2, .mark .semicolon,
    .keyword .rotation, .mark .openParen,
    .integer 1, .mark .minus, .integer 2, .mark .minus, .integer 3, .mark .comma,
    .mark .minus, .integer 4, .mark .caret, .integer 5, .mark .caret, .integer 6,
    .mark .closeParen, .identifier "q", .mark .semicolon].map (⟨·, groupedAt⟩)

/-- The differences group to the left, the powers to the right and under the sign. -/
theorem ofLexemes_grouped : (∀ l ∈ grouped, l.token ≠ .endOfFile) ∧
    ofLexemes true "grouped" (grouped ++ [⟨.endOfFile, groupedAt⟩]) =
      .ok ⟨"grouped", ⟨2, 0⟩, [], [⟨.operation (.call ⟨.rotation, some
        [.binary .sub (.binary .sub (.integer 1 groupedAt) (.integer 2 groupedAt))
            (.integer 3 groupedAt),
          .neg (.binary .pow (.integer 4 groupedAt)
            (.binary .pow (.integer 5 groupedAt) (.integer 6 groupedAt))) groupedAt],
        [⟨"q", none, groupedAt⟩]⟩), groupedAt⟩]⟩ := by
  have hatom (n : Nat) : IsExpr .atom [⟨.integer n, groupedAt⟩] (.integer n groupedAt) := .integer
  have hunary (n : Nat) : IsExpr .unary [⟨.integer n, groupedAt⟩] (.integer n groupedAt) :=
    .power (.atom (hatom n))
  have hdifference := IsExpr.sub (p := groupedAt)
    (.sub (p := groupedAt) (.product (.unary (hunary 1))) (.unary (hunary 2))) (.unary (hunary 3))
  have hpower := IsExpr.pow (p := groupedAt) (hatom 4)
    (.power (.pow (p := groupedAt) (hatom 5) (hunary 6)))
  have hnegated := IsExpr.neg (p := groupedAt) (.power hpower)
  have hparameters := IsList.cons (p := groupedAt) hdifference
    (.single (.product (.unary hnegated)))
  have hoperand : IsOperand [⟨.identifier "q", groupedAt⟩] ⟨"q", none, groupedAt⟩ := .whole
  have hcall := IsCall.rotation (p := groupedAt) (q := groupedAt) (r := groupedAt) hparameters
    (.single hoperand)
  have hstatement := IsStatement.statement (.operation (.call (p := groupedAt) hcall))
  have hheader : IsHeader [⟨.keyword .header, groupedAt⟩, ⟨.integer 2, groupedAt⟩,
      ⟨.mark .semicolon, groupedAt⟩] ⟨2, 0⟩ := .integer
  have hprogram : IsProgram true "grouped" _ _ := .headed hheader .nil (.cons hstatement .nil)
  have hts : ∀ l ∈ grouped, l.token ≠ .endOfFile := by decide
  exact ⟨hts, (ofLexemes_eq_ok_iff true "grouped" grouped _ rfl hts _).mpr hprogram⟩

/-- The grammar is unambiguous: lexemes derive one program at most. -/
theorem isProgram_unique {q : Program} (hp : IsProgram required file ts p)
    (hq : IsProgram required file ts q) : p = q := by
  have hp : ofLexemes required file (ts ++ []) = .ok p := complete_ofLexemes hp rfl
  have hq : ofLexemes required file (ts ++ []) = .ok q := complete_ofLexemes hq rfl
  exact Except.ok.inj (hp.symm.trans hq)

end OpenQasm.Program
