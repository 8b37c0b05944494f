import OpenQasm.Proofs.Fallible
import OpenQasm.Syntax.Parse.Program

/-!
# Faults of a text

An error of reading a text is about that text: it never says that files include each other. So the
two faults that do (`SyntaxFault.IsInclude`) come from the expansion of includes alone.

`Textual x` is said of every scanner and reader in turn, down to **`textual_fragmentOfText`** and
**`textual_ofText`**. It is kept by each step that a reader is built from (`Textual.bind`,
`Textual.map`), and a reader that calls itself does so on fewer lexemes.
-/

namespace OpenQasm

/-- The faults of files that include each other. -/
def SyntaxFault.IsInclude : SyntaxFault → Prop
  | .includesItself _ | .includeCycle _ => True
  | _ => False

/-- An error, if there is one, is not about files that include each other. -/
def Textual {α : Type} (x : Except SyntaxError α) : Prop :=
  Ends x (fun _ => True) (¬·.fault.IsInclude)

namespace Textual

variable {α β : Type} {x : Except SyntaxError α}

theorem bind {f : α → Except SyntaxError β} (h : Textual x) (hf : ∀ a, Textual (f a)) :
    Textual (x >>= f) := Ends.bind h fun a _ _ => hf a

theorem map {f : α → β} (h : Textual x) : Textual (x.map f) := Ends.map h fun _ _ => trivial

theorem pure (a : α) : Textual (Except.ok a) := trivial

theorem ite {c : Prop} [Decidable c] {y : Except SyntaxError α} (hx : Textual x)
    (hy : Textual y) : Textual (if c then x else y) := by
  split
  · exact hx
  · exact hy

end Textual

/-! ## Scanning -/

theorem Token.ends_ofNumeral (parts : Numeral.Parts) :
    Ends (ofNumeral parts) (fun _ => True) (¬·.IsInclude) := by
  unfold ofNumeral
  split
  · split
    · trivial
    · exact id
  · dsimp only
    split
    · trivial
    · exact id

theorem Piece.ends_quoted (rest : List Char) :
    Ends (quoted rest) (fun _ => True) (¬·.IsInclude) := by
  unfold quoted
  dsimp only
  split
  · trivial
  · exact id

theorem Piece.ends_ofText (first : Char) (rest : List Char) :
    Ends (ofText first rest) (fun _ => True) (¬·.IsInclude) := by
  unfold ofText
  -- every branch but three answers a piece
  repeat' split
  all_goals first
    | trivial
    | exact ends_quoted rest
    | exact (Token.ends_ofNumeral _).map fun _ _ => trivial
    | exact id

theorem textual_scanFrom (pos : SourcePos) (text : List Char) : Textual (scanFrom pos text) := by
  unfold scanFrom
  cases text with
  | nil => exact .pure _
  | cons first rest =>
    dsimp only
    cases hpiece : Piece.ofText first rest with
    | error fault => exact (Piece.ends_ofText first rest).error_of_eq hpiece
    | ok piece =>
      have hrest := textual_scanFrom (pos.afterAll (first :: rest.take piece.extra))
        (rest.drop piece.extra)
      dsimp only
      split
      · exact .pure _
      · exact hrest
termination_by text.length
decreasing_by rw [List.length_drop, List.length_cons]; omega

theorem textual_scan (file source : String) : Textual (scan file source) :=
  textual_scanFrom _ _

namespace Parse

variable {α : Type} {ts : List Lexeme}

/-! ## Parts of statements -/

theorem textual_unexpected (expected : Expected) (ts : List Lexeme) :
    Textual (.error (unexpected expected ts) : Except SyntaxError α) := id

theorem textual_next (expected : Expected) (accept : Token → Option α) (ts : List Lexeme) :
    Textual (next expected accept ts) := by
  cases ts with
  | nil => exact textual_unexpected expected []
  | cons l rest =>
    rw [next]
    split
    · exact .pure _
    · exact textual_unexpected expected _

theorem textual_exactly (token : Token) (ts : List Lexeme) : Textual (exactly token ts) :=
  textual_next _ _ ts

theorem textual_mark (m : Mark) (ts : List Lexeme) : Textual (mark m ts) := textual_exactly _ ts

theorem textual_identifier (ts : List Lexeme) : Textual (identifier ts) := textual_next _ _ ts

theorem textual_integer (ts : List Lexeme) : Textual (integer ts) := textual_next _ _ ts

theorem textual_commaList {item : (ts : List Lexeme) → Reading α ts}
    (hitem : ∀ ts, Textual (item ts)) (ts : List Lexeme) : Textual (commaList item ts) := by
  rw [commaList]
  refine (hitem ts).bind fun first => ?_
  split
  · rename_i l rest hrest
    have hfewer : rest.length < ts.length := by
      have hshorter := first.shorter
      rw [hrest, List.length_cons] at hshorter
      omega
    exact .ite ((textual_commaList hitem rest).bind fun _ => .pure _) (.pure _)
  · exact .pure _
termination_by ts.length

theorem textual_identifierList (ts : List Lexeme) : Textual (identifierList ts) :=
  textual_commaList textual_identifier ts

theorem textual_index (ts : List Lexeme) : Textual (index? ts) := by
  refine .ite ((textual_mark _ ts).bind fun opened => ?_) (.pure _)
  exact (textual_integer _).bind fun _ => (textual_mark _ _).bind fun _ => .pure _

theorem textual_operand (ts : List Lexeme) : Textual (operand ts) :=
  (textual_identifier ts).bind fun _ => (textual_index _).bind fun _ => .pure _

theorem textual_operandList (ts : List Lexeme) : Textual (operandList ts) :=
  textual_commaList textual_operand ts

/-! ## Expressions -/

mutual

theorem textual_expression (ts : List Lexeme) : Textual (expression ts) := by
  rw [expression]
  refine (textual_term ts).bind fun left => ?_
  have hshorter := left.shorter
  exact (textual_moreTerms left.value left.rest).bind fun _ => .pure _
termination_by 6 * ts.length + 5

theorem textual_moreTerms (left : Expr) (ts : List Lexeme) : Textual (moreTerms left ts) := by
  cases ts with
  | nil =>
    rw [moreTerms]
    exact .pure _
  | cons l rest =>
    rw [moreTerms]
    split
    · exact .pure _
    · refine (textual_term rest).bind fun right => ?_
      have hshorter := right.shorter
      exact (textual_moreTerms _ right.rest).bind fun _ => .pure _
termination_by 6 * ts.length

theorem textual_term (ts : List Lexeme) : Textual (term ts) := by
  rw [term]
  refine (textual_unary ts).bind fun left => ?_
  have hshorter := left.shorter
  exact (textual_moreFactors left.value left.rest).bind fun _ => .pure _
termination_by 6 * ts.length + 4

theorem textual_moreFactors (left : Expr) (ts : List Lexeme) :
    Textual (moreFactors left ts) := by
  cases ts with
  | nil =>
    rw [moreFactors]
    exact .pure _
  | cons l rest =>
    rw [moreFactors]
    split
    · exact .pure _
    · refine (textual_unary rest).bind fun right => ?_
      have hshorter := right.shorter
      exact (textual_moreFactors _ right.rest).bind fun _ => .pure _
termination_by 6 * ts.length

theorem textual_unary (ts : List Lexeme) : Textual (unary ts) := by
  cases ts with
  | nil =>
    rw [unary]
    exact textual_power []
  | cons l rest =>
    rw [unary]
    exact .ite ((textual_unary rest).bind fun _ => .pure _) (textual_power _)
termination_by 6 * ts.length + 3

theorem textual_power (ts : List Lexeme) : Textual (power ts) := by
  rw [power]
  refine (textual_atom ts).bind fun base => ?_
  split
  · exact .pure _
  · rename_i l rest hrest
    have hfewer : rest.length < ts.length := by
      have hshorter := base.shorter
      rw [hrest, List.length_cons] at hshorter
      omega
    exact .ite ((textual_unary rest).bind fun _ => .pure _) (.pure _)
termination_by 6 * ts.length + 2

theorem textual_atom (ts : List Lexeme) : Textual (atom ts) := by
  cases ts with
  | nil =>
    rw [atom]
    exact textual_unexpected _ _
  | cons l rest =>
    rw [atom]
    split
    · refine (textual_mark _ rest).bind fun opened => ?_
      have hshorter := opened.shorter
      exact (textual_expression opened.rest).bind fun _ => (textual_mark _ _).bind fun _ => .pure _
    · exact (textual_expression rest).bind fun _ => (textual_mark _ _).bind fun _ => .pure _
    · exact (textual_operand _).bind fun _ => .pure _
    · split
      · exact .pure _
      · exact textual_unexpected _ _
termination_by 6 * ts.length + 1

end

theorem textual_expressionList (ts : List Lexeme) : Textual (expressionList ts) :=
  textual_commaList textual_expression ts

/-! ## Statements -/

theorem textual_parenthesized {list : (ts : List Lexeme) → Reading (List α) ts}
    (hlist : ∀ ts, Textual (list ts)) (ts : List Lexeme) : Textual (parenthesized? list ts) := by
  refine .ite ((textual_mark _ ts).bind fun opened => .ite ?_ ?_) (.pure _)
  · exact (textual_mark _ _).bind fun _ => .pure _
  · exact (hlist _).bind fun _ => (textual_mark _ _).bind fun _ => .pure _

theorem textual_rotationCall (ts : List Lexeme) : Textual (rotationCall ts) :=
  (textual_exactly _ ts).bind fun _ => (textual_mark _ _).bind fun _ =>
    (textual_expressionList _).bind fun _ => (textual_mark _ _).bind fun _ =>
      (textual_operandList _).bind fun _ => .pure _

theorem textual_callOf (gate : GateName) (ts : List Lexeme) : Textual (callOf gate ts) :=
  (textual_parenthesized textual_expressionList ts).bind fun _ =>
    (textual_operandList _).bind fun _ => .pure _

theorem textual_call (ts : List Lexeme) : Textual (call ts) :=
  .ite (textual_rotationCall ts) ((textual_next _ _ ts).bind fun _ =>
    (textual_callOf _ _).bind fun _ => .pure _)

theorem textual_measurement (ts : List Lexeme) : Textual (measurement ts) :=
  (textual_exactly _ ts).bind fun _ => (textual_operand _).bind fun _ =>
    (textual_mark _ _).bind fun _ => (textual_operand _).bind fun _ => .pure _

theorem textual_resetting (ts : List Lexeme) : Textual (resetting ts) :=
  (textual_exactly _ ts).bind fun _ => (textual_operand _).bind fun _ => .pure _

theorem textual_terminated {reading : Reading α ts} (h : Textual reading) :
    Textual (terminated reading) := h.bind fun _ => (textual_mark _ _).bind fun _ => .pure _

theorem textual_operation (ts : List Lexeme) : Textual (operation ts) :=
  textual_terminated (.ite (textual_measurement ts) (.ite (textual_resetting ts)
    (textual_call ts).map))

theorem textual_barrier (ts : List Lexeme) : Textual (barrier ts) :=
  (textual_exactly _ ts).bind fun _ =>
    (textual_terminated (textual_operandList _)).bind fun _ => .pure _

theorem textual_register (kind : RegisterKind) (ts : List Lexeme) :
    Textual (register kind ts) :=
  (textual_identifier ts).bind fun _ => (textual_mark _ _).bind fun _ =>
    (textual_integer _).bind fun _ => (textual_terminated (textual_mark _ _)).bind fun _ => .pure _

theorem textual_signature (ts : List Lexeme) : Textual (signature ts) :=
  (textual_identifier ts).bind fun _ =>
    (textual_parenthesized textual_identifierList _).bind fun _ =>
      (textual_identifierList _).bind fun _ => .pure _

theorem textual_bodyStatement (ts : List Lexeme) : Textual (bodyStatement ts) := by
  unfold bodyStatement
  split
  · exact (textual_barrier ts).map
  · exact (textual_terminated (textual_call ts)).map
  · exact (textual_terminated (textual_call ts)).map
  · exact (textual_terminated (textual_call ts)).map
  · exact textual_unexpected _ ts
  · exact id

theorem textual_body (ts : List Lexeme) : Textual (body ts) := by
  rw [body]
  refine .ite ((textual_mark _ ts).bind fun _ => .pure _) ?_
  refine (textual_bodyStatement ts).bind fun first => ?_
  have hshorter := first.shorter
  exact (textual_body first.rest).bind fun _ => .pure _
termination_by ts.length

theorem textual_gateDefinition (ts : List Lexeme) : Textual (gateDefinition ts) :=
  (textual_signature ts).bind fun _ => (textual_mark _ _).bind fun _ =>
    (textual_body _).bind fun _ => .pure _

theorem textual_conditional (ts : List Lexeme) : Textual (conditional ts) :=
  (textual_mark _ ts).bind fun _ => (textual_operand _).bind fun _ =>
    (textual_mark _ _).bind fun _ => (textual_expression _).bind fun _ =>
      (textual_mark _ _).bind fun _ => (textual_operation _).bind fun _ => .pure _

theorem textual_of_introduced {token : Token} {read : (ts : List Lexeme) → Reading Action ts}
    (h : introduced? token = some read) (ts : List Lexeme) : Textual (read ts) := by
  unfold introduced? at h
  split at h
  · cases h
    exact textual_register _ ts
  · cases h
    exact textual_register _ ts
  · cases h
    exact textual_gateDefinition ts
  · cases h
    exact (textual_terminated (textual_signature ts)).map
  · cases h
    exact (textual_terminated (textual_operandList ts)).map
  · cases h
    exact textual_conditional ts
  · cases h

theorem textual_statement (ts : List Lexeme) : Textual (statement ts) := by
  unfold statement
  split
  · exact textual_unexpected _ _
  · split
    · rename_i l rest _ read hread
      exact (textual_of_introduced hread rest).bind fun _ => .pure _
    · exact (textual_operation _).map

/-! ## Programs -/

theorem textual_header (required : Bool) (ts : List Lexeme) : Textual (header? required ts) := by
  refine .ite (.bind ?_ fun _ => .pure _) (.pure _)
  exact (textual_exactly _ ts).bind fun _ =>
    (textual_terminated (textual_next _ _ _)).bind fun _ => .pure _

theorem textual_includeDirective (ts : List Lexeme) : Textual (includeDirective ts) :=
  (textual_exactly _ ts).bind fun _ =>
    (textual_terminated (textual_next _ _ _)).bind fun _ => .pure _

theorem textual_includes (ts : List Lexeme) : Textual (includes ts) := by
  rw [includes]
  refine .ite ((textual_includeDirective ts).bind fun first => ?_) (.pure _)
  have hshorter := first.shorter
  exact (textual_includes first.rest).bind fun _ => .pure _
termination_by ts.length

theorem textual_statements (ts : List Lexeme) : Textual (statements ts) := by
  rw [statements]
  refine .ite (.pure _) (.ite id ((textual_statement ts).bind fun first => ?_))
  have hshorter := first.shorter
  exact (textual_statements first.rest).bind fun _ => .pure _
termination_by ts.length

end Parse

namespace Program

theorem textual_ofLexemes (headerRequired : Bool) (file : String) (ts : List Lexeme) :
    Textual (ofLexemes headerRequired file ts) :=
  (Parse.textual_header headerRequired ts).bind fun _ => (Parse.textual_includes _).bind fun _ =>
    (Parse.textual_statements _).bind fun _ => .pure _

/-- **A main program** that cannot be read is not at fault for files that include each other. -/
theorem textual_ofText (file source : String) : Textual (ofText file source) :=
  (textual_scan file source).bind fun ts => textual_ofLexemes true file ts

/-- **An included text** that cannot be read is not at fault for files that include each other. -/
theorem textual_fragmentOfText (file source : String) : Textual (fragmentOfText file source) :=
  (textual_scan file source).bind fun ts => textual_ofLexemes false file ts

end Program

end OpenQasm
