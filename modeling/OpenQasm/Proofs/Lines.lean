import OpenQasm.Proofs.Munch

/-!
# Scanning line by line

Nothing that is scanned reaches over the end of a line: what stands at the head of a text is the
same whether the text ends there or another line follows. So a text of several lines is scanned line
by line, and the lines above one only count for the positions in it.

* `Piece.ofText_line`: the head of a text, with another line behind it; a half-finished lexeme at
  the end of the line stays half-finished.
* `scanFrom_line`, `scanFrom_below`: two texts with a line break between them, and one text at two
  places.
* **`scan_line_by_line`**: both together.
-/

namespace OpenQasm

/-! ## A line break behind a text -/

section Breaks

variable {kind : Char → Bool} {text : List Char} (more : List Char)

theorem stops_line (hkind : kind '\n' = false) (h : Stops kind text) :
    Stops kind (text ++ '\n' :: more) := by
  cases text with
  | nil => exact stops_cons.mpr hkind
  | cons c rest => exact stops_cons.mpr (stops_cons.mp h)

/-- A run of characters that are no line break ends with the line. -/
theorem takeWhile_line (hkind : kind '\n' = false) (text : List Char) :
    (text ++ '\n' :: more).takeWhile kind = text.takeWhile kind := by
  obtain ⟨run, rest, rfl, hrun, hrest⟩ := exists_run kind text
  rw [List.append_assoc, takeWhile_append_of_stops hrun (stops_line more hkind hrest),
    takeWhile_append_of_stops hrun hrest]

/-- The line break is not the character that is looked ahead for. -/
theorem head?_line {c : Char} (hc : c ≠ '\n') (text : List Char) :
    (text ++ '\n' :: more).head? = some c ↔ text.head? = some c := by
  cases text with
  | nil => simpa using hc.symm
  | cons d text => rfl

namespace Numeral

theorem takeExponent_line (text : List Char) :
    takeExponent (text ++ '\n' :: more) = takeExponent text := by
  by_cases hstop : Stops isExponentLetter text
  · rw [takeExponent_of_stops hstop, takeExponent_of_stops (stops_line more (by decide) hstop)]
  obtain ⟨letter, rest, rfl, hletter⟩ := exists_cons_of_not_stops hstop
  by_cases hsign : Stops isSign rest
  · rw [List.cons_append, takeExponent_unsigned hletter hsign,
      takeExponent_unsigned hletter (stops_line more (by decide) hsign),
      takeWhile_line more (by decide)]
  · obtain ⟨s, digits, rfl, hs⟩ := exists_cons_of_not_stops hsign
    rw [List.cons_append, List.cons_append, takeExponent_signed hletter hs,
      takeExponent_signed hletter hs, takeWhile_line more (by decide)]

theorem takeNumeral_line (text : List Char) :
    takeNumeral (text ++ '\n' :: more) = takeNumeral text := by
  obtain ⟨whole, rest, rfl, hwhole, hrest⟩ := exists_run isDigit text
  rw [List.append_assoc]
  by_cases hpoint : Stops (· == '.') rest
  · rw [takeNumeral_of_no_point hwhole hrest hpoint,
      takeNumeral_of_no_point hwhole (stops_line more (by decide) hrest)
        (stops_line more (by decide) hpoint), takeExponent_line]
  · obtain ⟨c, rest, rfl, hc⟩ := exists_cons_of_not_stops hpoint
    obtain rfl : c = '.' := beq_iff_eq.mp hc
    obtain ⟨fraction, rest, rfl, hfraction, hrest⟩ := exists_run isDigit rest
    rw [List.cons_append, List.append_assoc, takeNumeral_of_point hwhole hfraction hrest,
      takeNumeral_of_point hwhole hfraction (stops_line more (by decide) hrest),
      takeExponent_line]

end Numeral

namespace Piece

theorem comment_line (rest : List Char) : comment (rest ++ '\n' :: more) = comment rest := by
  unfold comment restOfLine
  rw [takeWhile_line more (by decide)]

theorem word_line (first : Char) (rest : List Char) :
    word first (rest ++ '\n' :: more) = word first rest := by
  unfold word
  rw [takeWhile_line more (by decide)]

theorem numeral_line (first : Char) (rest : List Char) :
    numeral first (rest ++ '\n' :: more) = numeral first rest := by
  rw [numeral_eq, numeral_eq, ← List.cons_append, Numeral.takeNumeral_line]

/-- A string that is not closed where its text stops. -/
theorem quoted_of_open {body rest : List Char} (hbody : ∀ c ∈ body, (c != '"' && c != '\n') = true)
    (hrest : Stops (fun c => c != '"' && c != '\n') rest) (hopen : rest.head? ≠ some '"') :
    quoted (body ++ rest) = .error .unterminatedString := by
  unfold quoted
  simp only [takeWhile_append_of_stops hbody hrest, List.drop_left]
  split
  · exact absurd rfl hopen
  · rfl

/-- A string is closed on its line or not at all. -/
theorem quoted_line (rest : List Char) : quoted (rest ++ '\n' :: more) = quoted rest := by
  obtain ⟨body, rest, rfl, hbody, hrest⟩ := exists_run (fun c => c != '"' && c != '\n') rest
  rw [List.append_assoc]
  by_cases hclosed : rest.head? = some '"'
  · obtain ⟨rest, rfl⟩ := List.head?_eq_some_iff.mp hclosed
    have hplain : ∀ c ∈ body, c ≠ '"' ∧ c ≠ '\n' := fun c hc => by simpa using hbody c hc
    rw [List.cons_append, quoted_of_quote hplain, quoted_of_quote hplain]
  · have hclosed' := (head?_line more (by decide) rest).not.mpr hclosed
    rw [quoted_of_open hbody hrest hclosed,
      quoted_of_open hbody (stops_line more (by decide) hrest) hclosed']

/-- **The head of a text with another line behind it** is the head of the text, errors included. -/
theorem ofText_line (first : Char) (rest : List Char) :
    ofText first (rest ++ '\n' :: more) = ofText first rest := by
  have hdigit : (rest ++ '\n' :: more).head?.any Numeral.isDigit =
      rest.head?.any Numeral.isDigit := by
    cases rest <;> rfl
  unfold ofText
  simp only [comment_line, head?_line more (show '>' ≠ '\n' by decide),
    head?_line more (show '=' ≠ '\n' by decide), head?_line more (show '/' ≠ '\n' by decide),
    quoted_line, hdigit, numeral_line, word_line]

end Piece

end Breaks

/-! ## Places further down -/

/-- The place some lines further down. -/
def SourcePos.below (pos : SourcePos) (lines : Nat) : SourcePos :=
  ⟨pos.file, pos.line + lines, pos.column⟩

/-- The lexeme some lines further down. -/
def Lexeme.below (l : Lexeme) (lines : Nat) : Lexeme := ⟨l.token, l.pos.below lines⟩

/-- The error some lines further down. -/
def SyntaxError.below (e : SyntaxError) (lines : Nat) : SyntaxError := ⟨e.fault, e.pos.below lines⟩

/-- What is scanned of a text that starts some lines further down. -/
def scannedBelow (lines : Nat) :
    Except SyntaxError (List Lexeme) → Except SyntaxError (List Lexeme)
  | .ok lexemes => .ok (lexemes.map (·.below lines))
  | .error e => .error (e.below lines)

@[simp] theorem scannedBelow_map_cons (lines : Nat) (l : Lexeme)
    (scanned : Except SyntaxError (List Lexeme)) :
    scannedBelow lines (scanned.map (l :: ·)) =
      (scannedBelow lines scanned).map (l.below lines :: ·) := by
  cases scanned <;> rfl

theorem SourcePos.afterAll_below (pos : SourcePos) (lines : Nat) (read : List Char) :
    (pos.below lines).afterAll read = (pos.afterAll read).below lines := by
  induction read generalizing pos with
  | nil => rfl
  | cons c read ih =>
    have hafter : (pos.below lines).after c = (pos.after c).below lines := by
      unfold after below
      split
      · simp only [Nat.add_right_comm]
      · rfl
    show ((pos.below lines).after c).afterAll read = _
    rw [hafter, ih]
    rfl

/-- The place behind a line break is the start of the text, further down. -/
theorem SourcePos.afterAll_line (file : String) (read : List Char) :
    (start file).afterAll (read ++ ['\n']) = (start file).below (1 + read.count '\n') := by
  rw [afterAll_start]
  unfold reached start below
  simp [Nat.add_comm]

/-! ## Scanning -/

/-- Induction on the pieces of a text, each of them shorter than what it is taken off. -/
theorem pieces_induction {motive : SourcePos → List Char → Prop}
    (nil : ∀ pos, motive pos [])
    (fault : ∀ pos first rest fault, Piece.ofText first rest = .error fault →
      motive pos (first :: rest))
    (token : ∀ pos first tail more token,
      Piece.ofText first (tail ++ more) = .ok ⟨some token, tail.length⟩ →
      motive (pos.afterAll (first :: tail)) more → motive pos (first :: (tail ++ more)))
    (gap : ∀ pos first tail more, Piece.ofText first (tail ++ more) = .ok ⟨none, tail.length⟩ →
      motive (pos.afterAll (first :: tail)) more → motive pos (first :: (tail ++ more)))
    (pos : SourcePos) (text : List Char) : motive pos text := by
  induction hlength : text.length using Nat.strong_induction_on generalizing pos text with
  | _ length ih =>
  subst hlength
  cases text with
  | nil => exact nil pos
  | cons first rest =>
    have hshorter (tail more : List Char) : more.length < (first :: (tail ++ more)).length := by
      rw [List.length_cons, List.length_append]
      omega
    cases hpiece : Piece.ofText first rest with
    | error e => exact fault pos first rest e hpiece
    | ok piece =>
      obtain ⟨token?, extra⟩ := piece
      cases token? with
      | some found =>
        obtain ⟨tail, more, rfl, rfl, -⟩ := Piece.spells_of_ofText hpiece
        exact token pos first tail more found hpiece (ih _ (hshorter tail more) _ more rfl)
      | none =>
        obtain ⟨tail, more, rfl, rfl, -⟩ := Piece.gap_of_ofText hpiece
        exact gap pos first tail more hpiece (ih _ (hshorter tail more) _ more rfl)

/-- **One text at two places**: only the lines differ, in the lexemes and in the error. -/
theorem scanFrom_below (lines : Nat) (pos : SourcePos) (text : List Char) :
    scanFrom (pos.below lines) text = scannedBelow lines (scanFrom pos text) := by
  induction pos, text using pieces_induction with
  | nil pos => rw [scanFrom_nil, scanFrom_nil]; rfl
  | fault pos first rest fault hpiece => rw [scanFrom_error hpiece, scanFrom_error hpiece]; rfl
  | token pos first tail more token hpiece ih =>
    rw [scanFrom_token hpiece, scanFrom_token hpiece, SourcePos.afterAll_below, ih,
      scannedBelow_map_cons]
    rfl
  | gap pos first tail more hpiece ih =>
    rw [scanFrom_gap hpiece, scanFrom_gap hpiece, SourcePos.afterAll_below, ih]

/-- What is scanned of a text ends with the end of the source, which stands nowhere else. -/
theorem exists_of_scanFrom {pos : SourcePos} {text : List Char} {lexemes : List Lexeme}
    (h : scanFrom pos text = .ok lexemes) :
    ∃ before, lexemes = before ++ [⟨.endOfFile, pos.afterAll text⟩] ∧
      ∀ l ∈ before, l.token ≠ .endOfFile := by
  obtain ⟨parts, last, -, hsplits, rfl⟩ := splits_of_scanFrom pos text h
  refine ⟨_, rfl, fun l hl => ?_⟩
  obtain ⟨spelled, hspells⟩ := hsplits.spells_of_mem hl
  exact hspells.ne_endOfFile

/-- **Two texts with a line break between them**: the second one is scanned on its own, and only
where nothing is wrong with the first. -/
theorem scanFrom_line (pos : SourcePos) (text more : List Char) :
    scanFrom pos (text ++ '\n' :: more) = (scanFrom pos text).bind fun before =>
      (scanFrom (pos.afterAll (text ++ ['\n'])) more).map (before.dropLast ++ ·) := by
  have hplace (pos : SourcePos) (first : Char) (tail behind : List Char) :
      pos.afterAll (first :: (tail ++ behind) ++ ['\n']) =
        (pos.afterAll (first :: tail)).afterAll (behind ++ ['\n']) := by
    rw [← SourcePos.afterAll_append, ← List.append_assoc]
    rfl
  induction pos, text using pieces_induction with
  | nil pos =>
    have hbreak : Piece.ofText '\n' ([] ++ more) = .ok ⟨none, 0⟩ := rfl
    have hgap : scanFrom pos ('\n' :: more) = scanFrom (pos.afterAll ['\n']) more :=
      scanFrom_gap hbreak
    rw [scanFrom_nil, List.nil_append, List.nil_append, hgap]
    show _ = Except.map id _
    cases scanFrom (pos.afterAll ['\n']) more <;> rfl
  | fault pos first rest fault hpiece =>
    rw [scanFrom_error hpiece, List.cons_append,
      scanFrom_error ((Piece.ofText_line more first rest).trans hpiece)]
    rfl
  | token pos first tail behind token hpiece ih =>
    have hline := (Piece.ofText_line more first (tail ++ behind)).trans hpiece
    rw [List.append_assoc] at hline
    have hpos := hplace pos first tail behind
    rw [scanFrom_token hpiece, List.cons_append, List.append_assoc, scanFrom_token hline, ih, hpos]
    cases hbehind : scanFrom (pos.afterAll (first :: tail)) behind with
    | error e => rfl
    | ok before =>
      obtain ⟨before, rfl, -⟩ := exists_of_scanFrom hbehind
      have hlast (eof : Lexeme) : (⟨token, pos⟩ :: (before ++ [eof])).dropLast =
          ⟨token, pos⟩ :: before := by rw [← List.cons_append, List.dropLast_concat]
      show Except.map _ (Except.map _ _) = Except.map _ _
      simp only [List.dropLast_concat, hlast]
      cases scanFrom ((pos.afterAll (first :: tail)).afterAll (behind ++ ['\n'])) more <;> rfl
  | gap pos first tail behind hpiece ih =>
    have hline := (Piece.ofText_line more first (tail ++ behind)).trans hpiece
    rw [List.append_assoc] at hline
    have hpos := hplace pos first tail behind
    rw [scanFrom_gap hpiece, List.cons_append, List.append_assoc, scanFrom_gap hline, ih, hpos]

/-- **A source text is scanned line by line.** What is scanned of two texts with a line break
between them is the error of the first, if there is one; else the error of the second, further down
by the lines of the first; else the lexemes of both, those of the second further down by as many
lines and in the same columns. The end of the first text is left out: it is the last of the lexemes
there, and no other lexeme is the end of a source. -/
theorem scan_line_by_line (file before after : String) :
    scan file (before ++ "\n" ++ after) =
      (scan file before).bind (fun lexemes =>
        (scannedBelow (1 + before.toList.count '\n') (scan file after)).map
          (lexemes.dropLast ++ ·)) ∧
    ∀ lexemes, scan file before = .ok lexemes →
      ∃ pos, lexemes = lexemes.dropLast ++ [⟨.endOfFile, pos⟩] ∧
        ∀ l ∈ lexemes.dropLast, l.token ≠ .endOfFile := by
  have htext : (before ++ "\n" ++ after).toList = before.toList ++ '\n' :: after.toList := by
    rw [String.toList_append, String.toList_append, List.append_assoc]
    rfl
  constructor
  · unfold scan
    rw [htext, scanFrom_line, SourcePos.afterAll_line, scanFrom_below]
  · intro lexemes h
    obtain ⟨tokens, rfl, htokens⟩ := exists_of_scanFrom h
    rw [List.dropLast_concat]
    exact ⟨_, rfl, htokens⟩

/-- The lexemes of a line that ends with the first half of an arrow. -/
def halfArrow : List Lexeme :=
  [⟨.mark .minus, ⟨"line.qasm", 1, 1⟩⟩, ⟨.endOfFile, ⟨"line.qasm", 1, 2⟩⟩]

theorem scan_halfArrow : scan "line.qasm" "-" = .ok halfArrow := scanFrom_cons rfl scanFrom_nil

/-- The other half on the next line does not close it: it is read on its own, and nothing starts
with it. -/
theorem scan_line_by_line_halfArrow :
    scan "line.qasm" ("-" ++ "\n" ++ ">") =
      .error ⟨.unexpectedCharacter '>', ⟨"line.qasm", 2, 1⟩⟩ ∧
    ∃ pos, halfArrow = halfArrow.dropLast ++ [⟨.endOfFile, pos⟩] ∧
      ∀ l ∈ halfArrow.dropLast, l.token ≠ .endOfFile := by
  obtain ⟨hscan, hend⟩ := scan_line_by_line "line.qasm" "-" ">"
  have hsecond : scan "line.qasm" ">" = .error ⟨.unexpectedCharacter '>', .start "line.qasm"⟩ :=
    scanFrom_error rfl
  rw [scan_halfArrow, hsecond] at hscan
  exact ⟨hscan, hend halfArrow scan_halfArrow⟩

end OpenQasm
