import OpenQasm.Proofs.Numerals
import OpenQasm.Syntax.Scan

/-!
# How tokens are spelled

A lexeme is a word, a numeral, a quoted string or a mark; `Spells` says which texts these are and
which tokens they are the texts of, without reading them (`Spells.token_cases`). Between lexemes
stand white space and comments. Reading the head of a text finds the longest lexeme there:

* `Piece.atHead_of_ofText`: what can stand there, by the first character.
* **`Piece.spells_of_ofText`**, **`Piece.gap_of_ofText`**: a token is that of the text that is taken;
  anything else is white space, or a comment up to the end of its line.
* **`Piece.length_le_of_spells`**: no longer lexeme stands there.
* **`Piece.ofText_append`**: a lexeme is read as it is where nothing goes on with it.
* `spells_iff`: lexemes are the texts that are read as one token.
-/

namespace OpenQasm

open Numeral

/-- A text that a token is read from, with nothing around it. -/
inductive Spells : List Char → Token → Prop
  | word {first : Char} {tail : List Char} (hfirst : isNameStart first = true)
      (htail : ∀ c ∈ tail, isNameChar c = true) :
      Spells (first :: tail) (.ofWord (String.ofList (first :: tail)))
  | numeral {parts : Parts} {text : List Char} {token : Token} (hparts : parts.Writes text)
      (htoken : Token.ofNumeral parts = .ok token) : Spells text token
  | quoted {body : List Char} (hbody : ∀ c ∈ body, c ≠ '"' ∧ c ≠ '\n') :
      Spells ('"' :: (body ++ ['"'])) (.string (String.ofList body))
  | mark (m : Mark) : Spells m.text.toList (.mark m)

/-! ## Kinds of characters -/

theorem isDigit_iff {c : Char} : isDigit c = true ↔ 48 ≤ c.toNat ∧ c.toNat ≤ 57 := by
  simp only [isDigit, Bool.and_eq_true, decide_eq_true_eq, Char.le_def, UInt32.le_iff_toNat_le]
  exact Iff.rfl

theorem toNat_of_isNameStart {c : Char} (h : isNameStart c = true) :
    65 ≤ c.toNat ∧ c.toNat ≤ 122 := by
  simp only [isNameStart, Bool.or_eq_true, Bool.and_eq_true, decide_eq_true_eq, Char.le_def,
    UInt32.le_iff_toNat_le, beq_iff_eq, or_assoc] at h
  rcases h with h | h | rfl
  · exact ⟨Nat.le_trans (by decide) h.1, h.2⟩
  · exact ⟨h.1, Nat.le_trans h.2 (by decide)⟩
  · decide

/-- No blank is among the visible characters of seven bits. -/
theorem isBlank_eq_false {c : Char} (h : 0x20 < c.toNat) (h' : c.toNat < 0x80) :
    isBlank c = false := by
  simp only [isBlank, Bool.or_eq_false_iff, Bool.and_eq_false_iff, decide_eq_false_iff_not,
    beq_eq_false_iff_ne]
  omega

theorem isBlank_of_isNameStart {c : Char} (h : isNameStart c = true) : isBlank c = false := by
  have hrange := toNat_of_isNameStart h
  exact isBlank_eq_false (by omega) (by omega)

theorem isBlank_of_isDigit {c : Char} (h : isDigit c = true) : isBlank c = false := by
  have hrange := isDigit_iff.mp h
  exact isBlank_eq_false (by omega) (by omega)

theorem not_isDigit_of_isNameStart {c : Char} (h : isNameStart c = true) : isDigit c = false := by
  rw [Bool.eq_false_iff]
  intro hdigit
  have hdigit := isDigit_iff.mp hdigit
  have hname := toNat_of_isNameStart h
  omega

namespace Piece

variable {first : Char} {rest : List Char}

/-! ## What the first character says -/

/-- A character that neither stands between lexemes nor starts a mark or a string. -/
theorem ofText_ordinary (hblank : isBlank first = false) (hsingle : Mark.single? first = none)
    (hother : first ∉ ['#', '-', '=', '/', '"']) :
    ofText first rest =
      if isDigit first ∨ (first = '.' ∧ rest.head?.any isDigit) then numeral first rest
      else if isNameStart first then .ok (word first rest)
      else .error (.unexpectedCharacter first) := by
  simp only [List.mem_cons, List.not_mem_nil, or_false, not_or] at hother
  obtain ⟨hcomment, hminus, hequal, hslash, hquote⟩ := hother
  unfold ofText
  rw [if_neg (by rw [hblank]; exact Bool.false_ne_true), if_neg hcomment, hsingle]
  simp only [if_neg hminus, hequal, false_and, if_false, if_neg hslash, if_neg hquote]

/-- A text that starts as a word does. -/
theorem ofText_word (h : isNameStart first = true) : ofText first rest = .ok (word first rest) := by
  rw [ofText_ordinary (isBlank_of_isNameStart h)]
  · rw [if_neg, if_pos h]
    rintro (hdigit | ⟨rfl, -⟩)
    · rw [not_isDigit_of_isNameStart h] at hdigit
      cases hdigit
    · exact absurd h (by decide)
  · unfold Mark.single?
    split <;> first | rfl | exact absurd h (by decide)
  · intro hother
    simp only [List.mem_cons, List.not_mem_nil, or_false] at hother
    rcases hother with rfl | rfl | rfl | rfl | rfl <;> exact absurd h (by decide)

/-- A text that starts as a numeral does. -/
theorem ofText_numeral (h : Starts (first :: rest)) : ofText first rest = numeral first rest := by
  obtain ⟨c, more, htext, hfirst⟩ := h
  obtain ⟨rfl, rfl⟩ := List.cons.inj htext
  rcases hfirst with hdigit | ⟨rfl, hdigit⟩
  · rw [ofText_ordinary (isBlank_of_isDigit hdigit), if_pos (Or.inl hdigit)]
    · unfold Mark.single?
      split <;> first | rfl | exact absurd hdigit (by decide)
    · intro hother
      simp only [List.mem_cons, List.not_mem_nil, or_false] at hother
      rcases hother with rfl | rfl | rfl | rfl | rfl <;> exact absurd hdigit (by decide)
  · rw [ofText_ordinary (by decide) (by decide) (by decide), if_pos (Or.inr ⟨rfl, hdigit⟩)]

/-- A mark of one character with which no longer lexeme starts. -/
theorem ofText_single {mark : Mark} (h : Mark.single? first = some mark) :
    ofText first rest = .ok (of (.mark mark) 0) := by
  have hblank : isBlank first = false ∧ first ≠ '#' := by
    unfold Mark.single? at h
    split at h <;> first | decide | cases h
  unfold ofText
  rw [if_neg (by rw [hblank.1]; exact Bool.false_ne_true), if_neg hblank.2, h]

theorem ofText_equal : ofText '=' rest =
    if rest.head? = some '=' then .ok (of (.mark .equal) 1)
    else .error (.unexpectedCharacter '=') := by
  show (if '=' = '=' ∧ rest.head? = some '=' then Except.ok (of (.mark .equal) 1)
    else Except.error (SyntaxFault.unexpectedCharacter '=')) = _
  simp only [true_and]

theorem ofText_quote : ofText '"' rest = quoted rest := rfl

/-- What can stand at the head of the text `first :: rest`. -/
inductive AtHead (first : Char) (rest : List Char) : Piece → Prop
  | blank (hblank : isBlank first = true) : AtHead first rest ⟨none, 0⟩
  | comment (hopening : first = '#' ∨ (first = '/' ∧ rest.head? = some '/')) :
      AtHead first rest (comment rest)
  | mark (m : Mark) (tail : List Char) {more : List Char} (hrest : rest = tail ++ more)
      (htext : first :: tail = m.text.toList) : AtHead first rest (of (.mark m) tail.length)
  | quoted {piece : Piece} (hfirst : first = '"') (hquoted : quoted rest = .ok piece) :
      AtHead first rest piece
  | numeral {piece : Piece} (hstarts : Starts (first :: rest))
      (hnumeral : numeral first rest = .ok piece) : AtHead first rest piece
  | word (hfirst : isNameStart first = true) : AtHead first rest (word first rest)

theorem atHead_of_ofText {piece : Piece} (h : ofText first rest = .ok piece) :
    AtHead first rest piece := by
  unfold ofText at h
  split at h
  · rename_i hblank
    obtain rfl := Except.ok.inj h
    exact .blank hblank
  split at h
  · rename_i hcomment
    obtain rfl := Except.ok.inj h
    exact .comment (Or.inl hcomment)
  split at h
  · rename_i m hsingle
    obtain rfl := Except.ok.inj h
    refine .mark m [] rfl ?_
    unfold Mark.single? at hsingle
    split at hsingle <;> cases hsingle <;> rfl
  split at h
  · rename_i hminus
    subst hminus
    split at h
    · rename_i hhead
      obtain ⟨more, rfl⟩ := List.head?_eq_some_iff.mp hhead
      obtain rfl := Except.ok.inj h
      exact .mark .arrow ['>'] rfl rfl
    · obtain rfl := Except.ok.inj h
      exact .mark .minus [] rfl rfl
  split at h
  · rename_i hequal
    obtain ⟨rfl, hhead⟩ := hequal
    obtain ⟨more, rfl⟩ := List.head?_eq_some_iff.mp hhead
    obtain rfl := Except.ok.inj h
    exact .mark .equal ['='] rfl rfl
  split at h
  · rename_i hslash
    subst hslash
    split at h
    · rename_i hhead
      obtain rfl := Except.ok.inj h
      exact .comment (Or.inr ⟨rfl, hhead⟩)
    · obtain rfl := Except.ok.inj h
      exact .mark .divide [] rfl rfl
  split at h
  · rename_i hquote
    exact .quoted hquote h
  split at h
  · rename_i hnumeral
    exact .numeral ⟨first, rest, rfl, hnumeral⟩ h
  split at h
  · rename_i hname
    obtain rfl := Except.ok.inj h
    exact .word hname
  · cases h

/-! ## Reading a lexeme -/

theorem numeral_eq : numeral first rest = (Token.ofNumeral (takeNumeral (first :: rest)).1).map
    fun token => of token ((takeNumeral (first :: rest)).2 - 1) := rfl

theorem word_eq {tail more : List Char} (htail : ∀ c ∈ tail, isNameChar c = true)
    (hmore : Stops isNameChar more) : word first (tail ++ more) =
      of (.ofWord (String.ofList (first :: tail))) tail.length := by
  unfold word
  rw [takeWhile_append_of_stops htail hmore]

theorem quoted_of_quote {body more : List Char} (hbody : ∀ c ∈ body, c ≠ '"' ∧ c ≠ '\n') :
    quoted (body ++ '"' :: more) = .ok (of (.string (String.ofList body)) (body.length + 1)) := by
  have htake : (body ++ '"' :: more).takeWhile (fun c => c != '"' && c != '\n') = body :=
    takeWhile_append_of_stops (fun c hc => by simpa using hbody c hc) (stops_cons.mpr (by decide))
  unfold quoted
  simp only [htake, List.drop_left]

theorem quoted_eq_ok {piece : Piece} (h : quoted rest = .ok piece) :
    ∃ body more, rest = body ++ '"' :: more ∧ (∀ c ∈ body, c ≠ '"' ∧ c ≠ '\n') ∧
      piece = of (.string (String.ofList body)) (body.length + 1) := by
  obtain ⟨body, more, rfl, hbody, hmore⟩ := exists_run (fun c => c != '"' && c != '\n') rest
  have hplain : ∀ c ∈ body, c ≠ '"' ∧ c ≠ '\n' := fun c hc => by simpa using hbody c hc
  unfold quoted at h
  simp only [takeWhile_append_of_stops hbody hmore, List.drop_left] at h
  split at h
  · rename_i more
    exact ⟨body, more, rfl, hplain, (Except.ok.inj h).symm⟩
  · cases h

end Piece

/-- A lexeme has a character at least. -/
theorem Spells.ne_nil {text : List Char} {token : Token} (h : Spells text token) : text ≠ [] := by
  cases h with
  | word => exact List.cons_ne_nil _ _
  | numeral hparts _ => exact hparts.ne_nil
  | quoted => exact List.cons_ne_nil _ _
  | mark m => cases m <;> decide

/-- The token of a numeral is a literal. -/
theorem Token.of_ofNumeral {parts : Parts} {token : Token} (h : ofNumeral parts = .ok token) :
    (∃ value, token = .real value) ∨ ∃ n < integerLimit, token = .integer n := by
  unfold ofNumeral at h
  dsimp only at h
  split at h
  · split at h
    · exact Or.inl ⟨_, (Except.ok.inj h).symm⟩
    · cases h
  · split at h
    · rename_i hlimit
      exact Or.inr ⟨_, hlimit, (Except.ok.inj h).symm⟩
    · cases h

/-- The tokens that texts spell: an identifier is its text, and an integer fits a literal. -/
theorem Spells.token_cases {text : List Char} {token : Token} (h : Spells text token) :
    (∃ name, token = .identifier name ∧ name.toList = text) ∨ (∃ k, token = .keyword k) ∨
      (∃ value, token = .real value) ∨ (∃ n < Token.integerLimit, token = .integer n) ∨
      (∃ body, token = .string body) ∨ ∃ m, token = .mark m := by
  cases h with
  | word =>
    unfold Token.ofWord
    split
    · exact Or.inr (Or.inl ⟨_, rfl⟩)
    · exact Or.inl ⟨_, rfl, String.toList_ofList⟩
  | numeral _ htoken =>
    exact Or.inr (Or.inr ((Token.of_ofNumeral htoken).imp_right Or.inl))
  | quoted => exact Or.inr (Or.inr (Or.inr (Or.inr (Or.inl ⟨_, rfl⟩))))
  | mark m => exact Or.inr (Or.inr (Or.inr (Or.inr (Or.inr ⟨m, rfl⟩))))

/-- No text is the end of the source. -/
theorem Spells.ne_endOfFile {text : List Char} {token : Token} (h : Spells text token) :
    token ≠ .endOfFile := by
  rintro rfl
  rcases h.token_cases with ⟨_, h, -⟩ | ⟨_, h⟩ | ⟨_, h⟩ | ⟨_, -, h⟩ | ⟨_, h⟩ | ⟨_, h⟩ <;> cases h

/-- An identifier is spelled by its name. -/
theorem Spells.of_identifier {text : List Char} {name : String}
    (hspells : Spells text (.identifier name)) : Spells name.toList (.identifier name) := by
  rcases hspells.token_cases with
    ⟨_, h, rfl⟩ | ⟨_, h⟩ | ⟨_, h⟩ | ⟨_, -, h⟩ | ⟨_, h⟩ | ⟨_, h⟩ <;> cases h
  exact hspells

/-- An integer that is spelled fits a literal. -/
theorem Spells.lt_integerLimit {text : List Char} {n : Nat} (h : Spells text (.integer n)) :
    n < Token.integerLimit := by
  rcases h.token_cases with
    ⟨_, h, -⟩ | ⟨_, h⟩ | ⟨_, h⟩ | ⟨_, hlimit, h⟩ | ⟨_, h⟩ | ⟨_, h⟩ <;> cases h
  exact hlimit

namespace Piece

/-- What is read of a numeral spells it. -/
theorem numeral_eq_ok {piece : Piece} (hstarts : Starts (first :: rest))
    (h : numeral first rest = .ok piece) :
    ∃ token tail more, rest = tail ++ more ∧ piece = of token tail.length ∧
      Spells (first :: tail) token := by
  obtain ⟨taken, more, htext, hlength, hwrites⟩ := writes_of_takeNumeral hstarts
  obtain ⟨c, tail, rfl⟩ := List.exists_cons_of_ne_nil hwrites.ne_nil
  obtain ⟨hfirst, hrest⟩ : first = c ∧ rest = tail ++ more := List.cons.inj htext
  subst hfirst
  rw [numeral_eq, hlength] at h
  cases htoken : Token.ofNumeral (takeNumeral (first :: rest)).1 with
  | error fault =>
    rw [htoken] at h
    cases h
  | ok token =>
    rw [htoken] at h
    exact ⟨token, tail, more, hrest, (Except.ok.inj h).symm, .numeral hwrites htoken⟩

/-- **What is read is a lexeme**: a token is that of the text that is taken. -/
theorem spells_of_ofText {token : Token} {extra : Nat}
    (h : ofText first rest = .ok ⟨some token, extra⟩) :
    ∃ tail more, rest = tail ++ more ∧ extra = tail.length ∧ Spells (first :: tail) token := by
  generalize hpiece : (⟨some token, extra⟩ : Piece) = piece at h
  cases atHead_of_ofText h with
  | blank => cases hpiece
  | comment => cases hpiece
  | mark m tail hrest htext =>
    obtain ⟨htoken, rfl⟩ := Piece.mk.inj hpiece
    obtain rfl := Option.some.inj htoken
    exact ⟨tail, _, hrest, rfl, htext ▸ .mark m⟩
  | quoted hfirst hquoted =>
    obtain ⟨body, more, rfl, hbody, rfl⟩ := quoted_eq_ok hquoted
    obtain ⟨htoken, rfl⟩ := Piece.mk.inj hpiece
    obtain rfl := Option.some.inj htoken
    subst hfirst
    exact ⟨body ++ ['"'], more, by rw [List.append_assoc]; rfl, by rw [List.length_append]; rfl,
      .quoted hbody⟩
  | numeral hstarts hnumeral =>
    obtain ⟨found, tail, more, rfl, rfl, hspells⟩ := numeral_eq_ok hstarts hnumeral
    obtain ⟨htoken, rfl⟩ := Piece.mk.inj hpiece
    obtain rfl := Option.some.inj htoken
    exact ⟨tail, more, rfl, rfl, hspells⟩
  | word hfirst =>
    obtain ⟨tail, more, rfl, htail, hmore⟩ := exists_run isNameChar rest
    rw [word_eq htail hmore] at hpiece
    obtain ⟨htoken, rfl⟩ := Piece.mk.inj hpiece
    obtain rfl := Option.some.inj htoken
    exact ⟨tail, more, rfl, rfl, .word hfirst htail⟩

/-- **What is read that is no token** stands between lexemes: it is white space, or a comment that
ends where the line does. -/
theorem gap_of_ofText {extra : Nat} (h : ofText first rest = .ok ⟨none, extra⟩) :
    ∃ tail more, rest = tail ++ more ∧ extra = tail.length ∧
      ((isBlank first = true ∧ tail = []) ∨
        ((first = '#' ∨ (first = '/' ∧ tail.head? = some '/')) ∧ (∀ c ∈ tail, c ≠ '\n') ∧
          Stops (· != '\n') more)) := by
  generalize hpiece : (⟨none, extra⟩ : Piece) = piece at h
  cases atHead_of_ofText h with
  | blank hblank =>
    obtain ⟨-, rfl⟩ := Piece.mk.inj hpiece
    exact ⟨[], rest, rfl, rfl, Or.inl ⟨hblank, rfl⟩⟩
  | comment hopening =>
    obtain ⟨tail, more, rfl, htail, hmore⟩ := exists_run (· != '\n') rest
    obtain ⟨-, rfl⟩ := Piece.mk.inj hpiece
    refine ⟨tail, more, rfl, ?_, Or.inr ⟨?_, fun c hc => by simpa using htail c hc, hmore⟩⟩
    · rw [restOfLine, takeWhile_append_of_stops htail hmore]
    · refine hopening.imp_right fun hslash => ⟨hslash.1, ?_⟩
      obtain ⟨rfl, hhead⟩ := hslash
      cases tail with
      | cons c tail => exact hhead
      | nil =>
        -- the line goes on with the second slash
        obtain ⟨more, rfl⟩ := List.head?_eq_some_iff.mp hhead
        exact absurd (stops_cons.mp hmore) (by decide)
  | mark => cases hpiece
  | quoted _ hquoted =>
    obtain ⟨body, more, rfl, hbody, rfl⟩ := quoted_eq_ok hquoted
    cases hpiece
  | numeral hstarts hnumeral =>
    obtain ⟨token, tail, more, rfl, rfl, -⟩ := numeral_eq_ok hstarts hnumeral
    cases hpiece
  | word => cases hpiece

/-- **The longest lexeme is read**: a text that starts with a lexeme has at least that taken. -/
theorem length_le_of_spells {tail more : List Char} {token found : Token} {extra : Nat}
    (hspells : Spells (first :: tail) token)
    (h : ofText first (tail ++ more) = .ok ⟨some found, extra⟩) : tail.length ≤ extra := by
  generalize htext : first :: tail = text at hspells
  cases hspells with
  | word hfirst htail =>
    obtain ⟨rfl, rfl⟩ := List.cons.inj htext
    rw [ofText_word hfirst] at h
    obtain ⟨-, rfl⟩ := Piece.mk.inj (Except.ok.inj h)
    exact length_le_takeWhile htail more
  | numeral hparts htoken =>
    subst htext
    have hstarts : Starts (first :: (tail ++ more)) := hparts.starts more
    have hlength : (first :: tail).length ≤ (takeNumeral (first :: (tail ++ more))).2 :=
      length_le_takeNumeral hparts more
    rw [ofText_numeral hstarts, numeral_eq] at h
    cases hfound : Token.ofNumeral (takeNumeral (first :: (tail ++ more))).1 with
    | error fault =>
      rw [hfound] at h
      cases h
    | ok token =>
      rw [hfound] at h
      obtain ⟨-, rfl⟩ := Piece.mk.inj (Except.ok.inj h)
      exact Nat.le_sub_one_of_lt hlength
  | quoted hbody =>
    obtain ⟨rfl, rfl⟩ := List.cons.inj htext
    rw [List.append_assoc, ofText_quote, List.singleton_append, quoted_of_quote hbody] at h
    obtain ⟨-, rfl⟩ := Piece.mk.inj (Except.ok.inj h)
    rw [List.length_append]
    exact Nat.le_refl _
  | mark m =>
    cases m with
    | equal =>
      obtain ⟨rfl, rfl⟩ : first = '=' ∧ tail = ['='] := List.cons.inj htext
      rw [ofText_equal] at h
      obtain ⟨-, rfl⟩ := Piece.mk.inj (Except.ok.inj h)
      exact Nat.le_refl 1
    | arrow =>
      obtain ⟨rfl, rfl⟩ : first = '-' ∧ tail = ['>'] := List.cons.inj htext
      obtain ⟨-, rfl⟩ := Piece.mk.inj (Except.ok.inj h)
      exact Nat.le_refl 1
    | _ =>
      obtain ⟨-, rfl⟩ : _ ∧ tail = [] := List.cons.inj htext
      exact Nat.zero_le _

/-- A character with which the lexeme before it would go on. -/
def goesOn (c : Char) : Bool := isNameChar c || Numeral.goesOn c || c == '>' || c == '/'

theorem stops_of_goesOn {more : List Char} (h : Stops goesOn more) :
    Stops isNameChar more ∧ Stops Numeral.goesOn more ∧ more.head? ≠ some '>' ∧
      more.head? ≠ some '/' := by
  have hparts : ∀ c, more.head? = some c → isNameChar c = false ∧ Numeral.goesOn c = false ∧
      (c == '>') = false ∧ (c == '/') = false := fun c hc => by
    simpa only [goesOn, Bool.or_eq_false_iff, and_assoc] using h c hc
  refine ⟨fun c hc => (hparts c hc).1, fun c hc => (hparts c hc).2.1, fun hc => ?_, fun hc => ?_⟩
  · exact absurd (hparts _ hc).2.2.1 (by decide)
  · exact absurd (hparts _ hc).2.2.2 (by decide)

/-- **A lexeme is read as it is** where nothing goes on with it. -/
theorem ofText_append {tail more : List Char} {token : Token}
    (hspells : Spells (first :: tail) token) (hmore : Stops goesOn more) :
    ofText first (tail ++ more) = .ok (of token tail.length) := by
  obtain ⟨hname, hnumeral, harrow, hcomment⟩ := stops_of_goesOn hmore
  generalize htext : first :: tail = text at hspells
  cases hspells with
  | word hfirst htail =>
    obtain ⟨rfl, rfl⟩ := List.cons.inj htext
    rw [ofText_word hfirst, word_eq htail hname]
  | numeral hparts htoken =>
    subst htext
    have hstarts : Starts (first :: (tail ++ more)) := hparts.starts more
    have htake : takeNumeral (first :: (tail ++ more)) = _ := takeNumeral_append hparts hnumeral
    rw [ofText_numeral hstarts, numeral_eq, htake, htoken]
    rfl
  | quoted hbody =>
    obtain ⟨rfl, rfl⟩ := List.cons.inj htext
    rw [List.append_assoc, ofText_quote, List.singleton_append, quoted_of_quote hbody,
      List.length_append]
    rfl
  | mark m =>
    cases m with
    | equal =>
      obtain ⟨rfl, rfl⟩ : first = '=' ∧ tail = ['='] := List.cons.inj htext
      rw [ofText_equal]
      rfl
    | arrow =>
      obtain ⟨rfl, rfl⟩ : first = '-' ∧ tail = ['>'] := List.cons.inj htext
      rfl
    | minus =>
      obtain ⟨rfl, rfl⟩ : first = '-' ∧ tail = [] := List.cons.inj htext
      exact if_neg harrow
    | divide =>
      obtain ⟨rfl, rfl⟩ : first = '/' ∧ tail = [] := List.cons.inj htext
      exact if_neg hcomment
    | _ =>
      obtain ⟨hfirst, rfl⟩ : _ ∧ tail = [] := List.cons.inj htext
      subst hfirst
      rfl

end Piece

/-- **The texts that are read as one token**, none of them left over. -/
theorem spells_iff {text : List Char} {token : Token} : Spells text token ↔
    ∃ first tail, text = first :: tail ∧
      Piece.ofText first tail = .ok (.of token tail.length) := by
  constructor
  · intro h
    obtain ⟨first, tail, rfl⟩ := List.exists_cons_of_ne_nil h.ne_nil
    have hread := Piece.ofText_append h stops_nil
    rw [List.append_nil] at hread
    exact ⟨first, tail, rfl, hread⟩
  · rintro ⟨first, tail, rfl, hread⟩
    obtain ⟨taken, more, htext, hlength, hspells⟩ := Piece.spells_of_ofText hread
    have hall : more = [] := by
      rw [← List.length_eq_zero_iff]
      have := congrArg List.length htext
      rw [List.length_append] at this
      omega
    subst hall
    rw [List.append_nil] at htext
    rwa [htext]

end OpenQasm
