import Mathlib.Data.List.Induction
import OpenQasm.Proofs.Spelling

/-!
# How a source text is split

A source text that is scanned is a sequence of lexemes with gaps between them. Every gap is white
space and comments, every lexeme is the longest at its place, and its token is at the line and the
column that are counted from the characters before it (`SourcePos.reached`).

* `scanFrom_token`, `scanFrom_gap`: what one piece adds to the lexemes.
* `splits_of_scanFrom`: the parts of a text, by induction on its pieces.
* **`scan_maximal_munch`**: the split, seen from each lexeme.
-/

namespace OpenQasm

/-- What may stand between lexemes, in front of the text `after`: white space, and comments that end
before a line break or where the text does. -/
inductive IsGap : List Char → List Char → Prop
  | nil {after : List Char} : IsGap [] after
  | blank {c : Char} {gap after : List Char} (hblank : isBlank c = true) (hgap : IsGap gap after) :
      IsGap (c :: gap) after
  | comment {opening body gap after : List Char} (hopening : opening = ['#'] ∨ opening = ['/', '/'])
      (hbody : ∀ c ∈ body, c ≠ '\n') (hend : ∀ c, (gap ++ after).head? = some c → c = '\n')
      (hgap : IsGap gap after) : IsGap (opening ++ (body ++ gap)) after

/-- A lexeme with the gap in front of it. -/
structure Part where
  gap : List Char
  text : List Char
  token : Token

namespace Part

/-- The characters of a part. -/
def written (p : Part) : List Char := p.gap ++ p.text

/-- The part that the text `p.text ++ after` starts with, behind its gap: a lexeme, and no longer one
stands there. -/
structure Longest (p : Part) (after : List Char) : Prop where
  gap : IsGap p.gap (p.text ++ after)
  spells : Spells p.text p.token
  longest : ∀ text token, Spells text token → text <+: p.text ++ after →
    text.length ≤ p.text.length

/-- Parts, and a gap behind them, each in front of the text that the others write. -/
def Splits : List Part → List Char → Prop
  | [], last => IsGap last []
  | p :: rest, last => p.Longest (rest.flatMap written ++ last) ∧ Splits rest last

/-- The lexemes of parts that start at `pos`. -/
def lexemes (pos : SourcePos) : List Part → List Lexeme
  | [] => []
  | p :: rest => ⟨p.token, pos.afterAll p.gap⟩ :: lexemes (pos.afterAll p.written) rest

end Part

/-! ## Positions -/

namespace SourcePos

/-- The place behind some characters of a file: one line for each line break, and one column for
each character since the last. -/
def reached (file : String) (read : List Char) : SourcePos :=
  ⟨file, 1 + read.count '\n', 1 + (read.reverse.takeWhile (· != '\n')).length⟩

theorem afterAll_append (pos : SourcePos) (xs ys : List Char) :
    pos.afterAll (xs ++ ys) = (pos.afterAll xs).afterAll ys := List.foldl_append

/-- **Positions count lines and columns.** -/
theorem afterAll_start (file : String) (read : List Char) :
    (start file).afterAll read = reached file read := by
  induction read using List.reverseRecOn with
  | nil => rfl
  | append_singleton read c ih =>
    rw [afterAll_append, ih]
    show (reached file read).after c = _
    unfold after reached
    split
    · rename_i hbreak
      subst hbreak
      simp [Nat.add_assoc]
    · rename_i hplain
      simp [hplain, Nat.add_assoc]

end SourcePos

/-! ## One piece -/

variable {pos : SourcePos} {first : Char} {tail more : List Char}

theorem scanFrom_nil : scanFrom pos [] = .ok [⟨.endOfFile, pos⟩] := by
  rw [scanFrom.eq_def]

/-- What starts no piece is an error. -/
theorem scanFrom_error {fault : SyntaxFault} (h : Piece.ofText first tail = .error fault) :
    scanFrom pos (first :: tail) = .error ⟨fault, pos⟩ := by
  rw [scanFrom.eq_def]
  simp only [h]

/-- A piece that is a token adds its lexeme. -/
theorem scanFrom_token {token : Token}
    (h : Piece.ofText first (tail ++ more) = .ok ⟨some token, tail.length⟩) :
    scanFrom pos (first :: (tail ++ more)) =
      (scanFrom (pos.afterAll (first :: tail)) more).map (⟨token, pos⟩ :: ·) := by
  rw [scanFrom.eq_def]
  simp only [h, List.take_left, List.drop_left]
  cases scanFrom (pos.afterAll (first :: tail)) more <;> rfl

/-- A piece that is no token adds nothing. -/
theorem scanFrom_gap (h : Piece.ofText first (tail ++ more) = .ok ⟨none, tail.length⟩) :
    scanFrom pos (first :: (tail ++ more)) = scanFrom (pos.afterAll (first :: tail)) more := by
  rw [scanFrom.eq_def]
  simp only [h, List.take_left, List.drop_left]
  cases scanFrom (pos.afterAll (first :: tail)) more <;> rfl

/-- A token of one character in front of a text that is scanned. -/
theorem scanFrom_cons {token : Token} {lexemes : List Lexeme}
    (h : Piece.ofText first more = .ok (.of token 0))
    (hmore : scanFrom (pos.after first) more = .ok lexemes) :
    scanFrom pos (first :: more) = .ok (⟨token, pos⟩ :: lexemes) := by
  have hscan : scanFrom pos (first :: ([] ++ more)) =
      (scanFrom (pos.after first) more).map (⟨token, pos⟩ :: ·) := scanFrom_token h
  rw [List.nil_append, hmore] at hscan
  exact hscan

/-- What stands at the head of a text and is no token belongs to the gap there. -/
theorem isGap_of_ofText (h : Piece.ofText first (tail ++ more) = .ok ⟨none, tail.length⟩)
    {gap after : List Char} (hmore : gap ++ after = more) (hgap : IsGap gap after) :
    IsGap (first :: tail ++ gap) after := by
  obtain ⟨taken, rest, htext, hlength, hkind⟩ := Piece.gap_of_ofText h
  obtain ⟨rfl, rfl⟩ := List.append_inj htext hlength
  rcases hkind with ⟨hblank, rfl⟩ | ⟨hopening, hbody, hend⟩
  · exact .blank hblank hgap
  · have hend : ∀ c, (gap ++ after).head? = some c → c = '\n' := fun c hc => by
      rw [hmore] at hc
      simpa using hend c hc
    rcases hopening with rfl | ⟨rfl, hslash⟩
    · exact .comment (Or.inl rfl) hbody hend hgap
    · obtain ⟨body, rfl⟩ := List.head?_eq_some_iff.mp hslash
      exact .comment (Or.inr rfl) (fun c hc => hbody c (List.mem_cons_of_mem _ hc)) hend hgap

/-- A token at the head of a text is that of the longest lexeme there. -/
theorem longest_of_ofText {token : Token}
    (h : Piece.ofText first (tail ++ more) = .ok ⟨some token, tail.length⟩) :
    (⟨[], first :: tail, token⟩ : Part).Longest more where
  gap := .nil
  spells := by
    obtain ⟨taken, rest, htext, hlength, hspells⟩ := Piece.spells_of_ofText h
    obtain ⟨rfl, -⟩ := List.append_inj htext hlength
    exact hspells
  longest text other hspells hprefix := by
    obtain ⟨c, candidate, rfl⟩ := List.exists_cons_of_ne_nil hspells.ne_nil
    obtain ⟨rest, htext⟩ := hprefix
    obtain ⟨rfl, hrest⟩ : c = first ∧ candidate ++ rest = tail ++ more := List.cons.inj htext
    rw [← hrest] at h
    exact Nat.succ_le_succ (Piece.length_le_of_spells hspells h)

/-! ## All pieces -/

/-- A gap in front of parts belongs to the first of them, or to what is behind them. -/
theorem Part.Splits.prepend {parts : List Part} {last gap : List Char} (h : Splits parts last)
    (hgap : ∀ between after, between ++ after = parts.flatMap written ++ last →
      IsGap between after → IsGap (gap ++ between) after) :
    ∃ parts' last', gap ++ (parts.flatMap written ++ last) = parts'.flatMap written ++ last' ∧
      Splits parts' last' ∧ ∀ pos, lexemes pos parts' = lexemes (pos.afterAll gap) parts := by
  cases parts with
  | nil => exact ⟨[], gap ++ last, rfl, hgap last [] (List.append_nil _) h, fun _ => rfl⟩
  | cons p rest =>
    obtain ⟨⟨hfirst, hspells, hlongest⟩, hrest⟩ := h
    refine ⟨⟨gap ++ p.gap, p.text, p.token⟩ :: rest, last, ?_, ⟨⟨?_, hspells, hlongest⟩, hrest⟩,
      fun pos => ?_⟩
    · simp only [List.flatMap_cons, written, List.append_assoc]
    · exact hgap p.gap _ (by simp only [List.flatMap_cons, written, List.append_assoc]) hfirst
    · simp only [lexemes, written, SourcePos.afterAll_append]

/-- **The parts of a text**, found piece by piece. -/
theorem splits_of_scanFrom (pos : SourcePos) (text : List Char) {lexemes : List Lexeme}
    (h : scanFrom pos text = .ok lexemes) :
    ∃ parts last, text = parts.flatMap Part.written ++ last ∧ Part.Splits parts last ∧
      lexemes = Part.lexemes pos parts ++ [⟨.endOfFile, pos.afterAll text⟩] := by
  induction hlength : text.length using Nat.strong_induction_on generalizing pos text lexemes with
  | _ length ih =>
  subst hlength
  cases text with
  | nil =>
    rw [scanFrom_nil] at h
    obtain rfl := Except.ok.inj h
    exact ⟨[], [], rfl, .nil, rfl⟩
  | cons first rest =>
    have hshorter (tail more : List Char) : more.length < (first :: (tail ++ more)).length := by
      rw [List.length_cons, List.length_append]
      omega
    cases hpiece : Piece.ofText first rest with
    | error fault =>
      rw [scanFrom_error hpiece] at h
      cases h
    | ok piece =>
      obtain ⟨token?, extra⟩ := piece
      cases token? with
      | some token =>
        obtain ⟨tail, more, rfl, rfl, -⟩ := Piece.spells_of_ofText hpiece
        rw [scanFrom_token hpiece] at h
        cases hrest : scanFrom (pos.afterAll (first :: tail)) more with
        | error e =>
          rw [hrest] at h
          cases h
        | ok found =>
          rw [hrest] at h
          obtain rfl := Except.ok.inj h
          obtain ⟨parts, last, rfl, hsplits, rfl⟩ := ih _ (hshorter tail more) _ more hrest rfl
          refine ⟨⟨[], first :: tail, token⟩ :: parts, last, ?_,
            ⟨longest_of_ofText hpiece, hsplits⟩, ?_⟩
          · simp only [List.flatMap_cons, Part.written, List.nil_append, List.cons_append,
              List.append_assoc]
          · rw [← List.cons_append, SourcePos.afterAll_append pos]
            rfl
      | none =>
        obtain ⟨tail, more, rfl, rfl, -⟩ := Piece.gap_of_ofText hpiece
        rw [scanFrom_gap hpiece] at h
        obtain ⟨parts, last, rfl, hsplits, rfl⟩ := ih _ (hshorter tail more) _ more h rfl
        obtain ⟨parts', last', htext, hsplits', hlexemes⟩ := hsplits.prepend
          fun between after hmore hgap => isGap_of_ofText hpiece hmore hgap
        refine ⟨parts', last', htext, hsplits', ?_⟩
        rw [hlexemes, ← SourcePos.afterAll_append]
        rfl

/-- Every lexeme of parts is spelled. -/
theorem Part.Splits.spells_of_mem {pos : SourcePos} {parts : List Part} {last : List Char}
    (h : Splits parts last) {l : Lexeme} (hl : l ∈ lexemes pos parts) :
    ∃ text, Spells text l.token := by
  induction parts generalizing pos with
  | nil => cases hl
  | cons p rest ih =>
    rcases List.mem_cons.mp hl with rfl | hl
    · exact ⟨p.text, h.1.spells⟩
    · exact ih h.2 hl

/-- Every lexeme of a text is spelled, but the end of the source. -/
theorem spells_of_mem_scan {file source : String} {lexemes : List Lexeme} {l : Lexeme}
    (h : scan file source = .ok lexemes) (hl : l ∈ lexemes) (hend : l.token ≠ .endOfFile) :
    ∃ text, Spells text l.token := by
  obtain ⟨parts, last, -, hsplits, rfl⟩ := splits_of_scanFrom _ _ h
  rcases List.mem_append.mp hl with hl | hl
  · exact hsplits.spells_of_mem hl
  · obtain rfl := List.mem_singleton.mp hl
    exact absurd rfl hend

/-! ## The split, seen from a lexeme -/

theorem Part.length_lexemes (pos : SourcePos) (parts : List Part) :
    (lexemes pos parts).length = parts.length := by
  induction parts generalizing pos with
  | nil => rfl
  | cons p rest ih => rw [lexemes, List.length_cons, List.length_cons, ih]

/-- What a split says of one of its parts. -/
theorem Part.Splits.longest {before after : List Part} {p : Part} {last : List Char}
    (h : Splits (before ++ p :: after) last) : p.Longest (after.flatMap written ++ last) := by
  induction before with
  | nil => exact h.1
  | cons q before ih => exact ih h.2

theorem Part.Splits.last {parts : List Part} {last : List Char} (h : Splits parts last) :
    IsGap last [] := by
  induction parts with
  | nil => exact h
  | cons p rest ih => exact ih h.2

theorem Part.getElem?_lexemes (pos : SourcePos) (before after : List Part) (p : Part) :
    (lexemes pos (before ++ p :: after))[before.length]? =
      some ⟨p.token, pos.afterAll (before.flatMap written ++ p.gap)⟩ := by
  induction before generalizing pos with
  | nil => rfl
  | cons q before ih =>
    rw [List.cons_append, lexemes, List.length_cons, List.getElem?_cons_succ, ih,
      List.flatMap_cons, List.append_assoc, SourcePos.afterAll_append pos]

/-- A lexeme alone is scanned to its token. -/
theorem Spells.scan {text : List Char} {token : Token} (h : Spells text token) (file : String) :
    scan file (String.ofList text) =
      .ok [⟨token, .start file⟩, ⟨.endOfFile, .reached file text⟩] := by
  obtain ⟨first, tail, rfl⟩ := List.exists_cons_of_ne_nil h.ne_nil
  have hread := Piece.ofText_append h stops_nil
  rw [OpenQasm.scan, String.toList_ofList, ← List.append_nil tail, scanFrom_token hread, scanFrom_nil,
    List.append_nil, SourcePos.afterAll_start]
  rfl

/-- **Maximal munch.** The texts that are read as one token are those that spell it. Where a source
text is scanned, it is split into lexemes with gaps between and behind them. Each gap is white space
and comments that end before a line break or with the text. Each lexeme spells its token, which is
what is read of the lexeme alone; no longer lexeme stands at its place; and the position is the
number of line breaks before it and of the characters since the last one, both counted from one. The
end of the source comes last, and nowhere else. -/
theorem scan_maximal_munch :
    (∀ text token, Spells text token ↔ ∃ first tail, text = first :: tail ∧
      Piece.ofText first tail = .ok (.of token tail.length)) ∧
    ∀ (file source : String) (lexemes : List Lexeme), scan file source = .ok lexemes →
      ∃ (parts : List Part) (last : List Char),
        source.toList = parts.flatMap Part.written ++ last ∧ IsGap last [] ∧
        lexemes.length = parts.length + 1 ∧
        lexemes[parts.length]? = some ⟨.endOfFile, .reached file source.toList⟩ ∧
        ∀ before p after, parts = before ++ p :: after →
          let behind := after.flatMap Part.written ++ last
          IsGap p.gap (p.text ++ behind) ∧ Spells p.text p.token ∧ p.token ≠ .endOfFile ∧
          (∀ other, scan other (String.ofList p.text) =
            .ok [⟨p.token, .start other⟩, ⟨.endOfFile, .reached other p.text⟩]) ∧
          (∀ text token, Spells text token → text <+: p.text ++ behind →
            text.length ≤ p.text.length) ∧
          lexemes[before.length]? =
            some ⟨p.token, .reached file (before.flatMap Part.written ++ p.gap)⟩ := by
  refine ⟨fun text token => spells_iff, fun file source lexemes h => ?_⟩
  obtain ⟨parts, last, htext, hsplits, rfl⟩ := splits_of_scanFrom _ _ h
  have hlength := Part.length_lexemes (.start file) parts
  refine ⟨parts, last, htext, hsplits.last, ?_, ?_, ?_⟩
  · rw [List.length_append, hlength, List.length_singleton]
  · rw [List.getElem?_append_right hlength.le, hlength, Nat.sub_self, SourcePos.afterAll_start]
    rfl
  · rintro before p after rfl
    obtain ⟨hgap, hspells, hlongest⟩ := hsplits.longest
    refine ⟨hgap, hspells, hspells.ne_endOfFile, hspells.scan, hlongest, ?_⟩
    have hplace := Part.getElem?_lexemes (.start file) before after p
    rw [List.getElem?_append_left (List.getElem?_eq_some_iff.mp hplace).1, hplace,
      SourcePos.afterAll_start]

/-- The lexemes of an arrow, a comment and a numeral on the next line. -/
def munched : List Lexeme :=
  [⟨.mark .arrow, ⟨"munch.qasm", 1, 1⟩⟩, ⟨.integer 2, ⟨"munch.qasm", 2, 1⟩⟩,
    ⟨.endOfFile, ⟨"munch.qasm", 2, 2⟩⟩]

theorem scan_munched : scan "munch.qasm" "->#\n2" = .ok munched := by
  have htwo : scanFrom ⟨"munch.qasm", 2, 1⟩ ['2'] =
      .ok [⟨.integer 2, ⟨"munch.qasm", 2, 1⟩⟩, ⟨.endOfFile, ⟨"munch.qasm", 2, 2⟩⟩] :=
    scanFrom_cons rfl scanFrom_nil
  have hbreak : Piece.ofText '\n' ([] ++ ['2']) = .ok ⟨none, 0⟩ := rfl
  have hcomment : Piece.ofText '#' ([] ++ ['\n', '2']) = .ok ⟨none, 0⟩ := rfl
  have harrow : Piece.ofText '-' (['>'] ++ ['#', '\n', '2']) = .ok ⟨some (.mark .arrow), 1⟩ := rfl
  calc scan "munch.qasm" "->#\n2"
      = (scanFrom ⟨"munch.qasm", 1, 3⟩ ['#', '\n', '2']).map
        (⟨.mark .arrow, ⟨"munch.qasm", 1, 1⟩⟩ :: ·) := scanFrom_token harrow
    _ = (scanFrom ⟨"munch.qasm", 1, 4⟩ ['\n', '2']).map
        (⟨.mark .arrow, ⟨"munch.qasm", 1, 1⟩⟩ :: ·) := congrArg _ (scanFrom_gap hcomment)
    _ = (scanFrom ⟨"munch.qasm", 2, 1⟩ ['2']).map
        (⟨.mark .arrow, ⟨"munch.qasm", 1, 1⟩⟩ :: ·) := congrArg _ (scanFrom_gap hbreak)
    _ = .ok munched := congrArg _ htwo

/-- The arrow is one lexeme, and the numeral is the second. -/
theorem scan_maximal_munch_munched :
    ∃ parts last, "->#\n2".toList = parts.flatMap Part.written ++ last ∧ parts.length = 2 ∧
      ∀ before p after, parts = before ++ p :: after →
        Spells p.text p.token ∧ munched[before.length]? =
          some ⟨p.token, .reached "munch.qasm" (before.flatMap Part.written ++ p.gap)⟩ := by
  obtain ⟨-, hsplit⟩ := scan_maximal_munch
  obtain ⟨parts, last, htext, -, hlength, -, hparts⟩ :=
    hsplit "munch.qasm" "->#\n2" munched scan_munched
  refine ⟨parts, last, htext, (Nat.succ.inj hlength).symm, fun before p after heq => ?_⟩
  obtain ⟨-, hspells, -, -, -, hplace⟩ := hparts before p after heq
  exact ⟨hspells, hplace⟩

end OpenQasm
