import Mathlib.Data.List.TakeWhile
import OpenQasm.Numeral.Decimal

/-!
# The longest numeral

A numeral has whole digits, a fraction and an exponent, each of which a text goes on with or not.
What a text writes is said without reading it (`Parts.Writes`); reading takes the longest text that
writes a numeral, and nothing else:

* **`writes_of_takeNumeral`**: what is taken writes the parts that are found.
* **`length_le_takeNumeral`**: a text that starts with a numeral has at least that taken from it.
* **`takeNumeral_append`**: exactly that is taken where nothing goes on with it.

Exponents are read in the same way (`ExponentPart.Writes`). All of this rests on where a run of
characters of one kind ends: `takeWhile_append_of_stops`.
-/

namespace OpenQasm

/-- A text that does not go on with a character of this kind. -/
def Stops (kind : Char → Bool) (text : List Char) : Prop :=
  ∀ c, text.head? = some c → kind c = false

section Runs

variable {kind : Char → Bool} {run rest : List Char}

theorem stops_nil : Stops kind [] := nofun

theorem stops_cons {c : Char} : Stops kind (c :: rest) ↔ kind c = false :=
  ⟨fun h => h c rfl, fun h _ hc => Option.some.inj hc ▸ h⟩

theorem exists_cons_of_not_stops {text : List Char} (h : ¬Stops kind text) :
    ∃ c rest, text = c :: rest ∧ kind c = true := by
  cases text with
  | nil => exact absurd stops_nil h
  | cons c rest => exact ⟨c, rest, rfl, by simpa [stops_cons] using h⟩

/-- A run of characters of one kind, taken off the front of a text. -/
theorem takeWhile_append_of_stops (hrun : ∀ c ∈ run, kind c = true) (hrest : Stops kind rest) :
    (run ++ rest).takeWhile kind = run := by
  rw [List.takeWhile_append_of_pos hrun]
  cases rest with
  | nil => exact List.append_nil run
  | cons c rest =>
    rw [List.takeWhile_cons_of_neg (by rw [stops_cons.mp hrest]; exact Bool.false_ne_true),
      List.append_nil]

/-- Every text is a run of characters of one kind and a rest that does not go on with it. -/
theorem exists_run (kind : Char → Bool) (text : List Char) :
    ∃ run rest, text = run ++ rest ∧ (∀ c ∈ run, kind c = true) ∧ Stops kind rest := by
  induction text with
  | nil => exact ⟨[], [], rfl, fun c hc => absurd hc List.not_mem_nil, stops_nil⟩
  | cons c text ih =>
    cases hc : kind c with
    | false => exact ⟨[], c :: text, rfl, fun d hd => absurd hd List.not_mem_nil, stops_cons.mpr hc⟩
    | true =>
      obtain ⟨run, rest, rfl, hrun, hrest⟩ := ih
      exact ⟨c :: run, rest, rfl, List.forall_mem_cons.mpr ⟨hc, hrun⟩, hrest⟩

/-- The run at the front of a text is not shorter than another one there. -/
theorem length_le_takeWhile (hrun : ∀ c ∈ run, kind c = true) (rest : List Char) :
    run.length ≤ ((run ++ rest).takeWhile kind).length := by
  rw [List.takeWhile_append_of_pos hrun, List.length_append]
  exact Nat.le_add_right _ _

end Runs

namespace Numeral

/-- The letter of an exponent. -/
def isExponentLetter (c : Char) : Bool := c == 'e' || c == 'E'

/-- The sign of an exponent. -/
def isSign (c : Char) : Bool := c == '+' || c == '-'

/-- A character with which a numeral can go on. -/
def goesOn (c : Char) : Bool := isDigit c || c == '.' || isExponentLetter c || isSign c

variable {text rest : List Char}

/-- Where a numeral does not go on, no part of it does. -/
theorem stops_of_goesOn (h : Stops goesOn rest) :
    Stops isDigit rest ∧ Stops (· == '.') rest ∧ Stops isExponentLetter rest ∧
      Stops isSign rest := by
  have hparts : ∀ c, rest.head? = some c → isDigit c = false ∧ (c == '.') = false ∧
      isExponentLetter c = false ∧ isSign c = false := fun c hc => by
    simpa only [goesOn, Bool.or_eq_false_iff, and_assoc] using h c hc
  exact ⟨fun c hc => (hparts c hc).1, fun c hc => (hparts c hc).2.1,
    fun c hc => (hparts c hc).2.2.1, fun c hc => (hparts c hc).2.2.2⟩

theorem isSign_of_isDigit {c : Char} (h : isDigit c = true) : isSign c = false := by
  rw [Bool.eq_false_iff]
  intro hsign
  simp only [isSign, Bool.or_eq_true, beq_iff_eq] at hsign
  rcases hsign with rfl | rfl <;> exact absurd h (by decide)

theorem not_goesOn_of_isExponentLetter {c : Char} (h : isExponentLetter c = true) :
    isDigit c = false ∧ (c == '.') = false := by
  simp only [isExponentLetter, Bool.or_eq_true, beq_iff_eq] at h
  rcases h with rfl | rfl <;> decide

/-! ## Exponents -/

/-- A text that writes an exponent, or none. -/
inductive ExponentPart.Writes : Option ExponentPart → List Char → Prop
  | absent : Writes none []
  | present {letter : Char} {sign : Option Char} {digits : List Char}
      (hletter : isExponentLetter letter = true) (hsign : ∀ s, sign = some s → isSign s = true)
      (hdigits : ∀ c ∈ digits, isDigit c = true) :
      Writes (some ⟨sign, digits⟩) (letter :: (sign.toList ++ digits))

theorem takeExponent_of_stops (h : Stops isExponentLetter text) : takeExponent text = (none, 0) := by
  cases text with
  | nil => rfl
  | cons c rest =>
    have hc := stops_cons.mp h
    simp only [isExponentLetter, Bool.or_eq_false_iff, beq_eq_false_iff_ne] at hc
    unfold takeExponent
    exact if_neg (not_or.mpr hc)

theorem takeExponent_signed {letter s : Char} (hletter : isExponentLetter letter = true)
    (hs : isSign s = true) (more : List Char) :
    takeExponent (letter :: s :: more) =
      (some ⟨some s, more.takeWhile isDigit⟩, (more.takeWhile isDigit).length + 2) := by
  simp only [isExponentLetter, isSign, Bool.or_eq_true, beq_iff_eq] at hletter hs
  unfold takeExponent
  exact (if_pos hletter).trans (if_pos hs)

theorem takeExponent_unsigned {letter : Char} (hletter : isExponentLetter letter = true)
    (hrest : Stops isSign rest) :
    takeExponent (letter :: rest) =
      (some ⟨none, rest.takeWhile isDigit⟩, (rest.takeWhile isDigit).length + 1) := by
  simp only [isExponentLetter, Bool.or_eq_true, beq_iff_eq] at hletter
  unfold takeExponent
  refine (if_pos hletter).trans ?_
  cases rest with
  | nil => rfl
  | cons s more =>
    have hs := stops_cons.mp hrest
    simp only [isSign, Bool.or_eq_false_iff, beq_eq_false_iff_ne] at hs
    exact if_neg (not_or.mpr hs)

/-- What is taken is an exponent. -/
theorem writes_of_takeExponent (text : List Char) :
    ∃ taken rest, text = taken ++ rest ∧ (takeExponent text).2 = taken.length ∧
      ExponentPart.Writes (takeExponent text).1 taken := by
  cases text with
  | nil => exact ⟨[], [], rfl, rfl, .absent⟩
  | cons letter rest =>
    cases hletter : isExponentLetter letter with
    | false =>
      rw [takeExponent_of_stops (stops_cons.mpr hletter)]
      exact ⟨[], letter :: rest, rfl, rfl, .absent⟩
    | true =>
      by_cases hsign : Stops isSign rest
      · obtain ⟨digits, rest, rfl, hdigits, hstop⟩ := exists_run isDigit rest
        rw [takeExponent_unsigned hletter hsign, takeWhile_append_of_stops hdigits hstop]
        exact ⟨letter :: digits, rest, rfl, rfl, .present hletter nofun hdigits⟩
      · obtain ⟨s, more, rfl, hs⟩ := exists_cons_of_not_stops hsign
        obtain ⟨digits, rest, rfl, hdigits, hstop⟩ := exists_run isDigit more
        rw [takeExponent_signed hletter hs, takeWhile_append_of_stops hdigits hstop]
        exact ⟨letter :: s :: digits, rest, rfl, rfl,
          .present hletter (fun c hc => Option.some.inj hc ▸ hs) hdigits⟩

/-- Digits do not start with a sign. -/
theorem stops_isSign_append {digits : List Char} (hdigits : ∀ c ∈ digits, isDigit c = true)
    (h : digits ≠ [] ∨ Stops isSign rest) : Stops isSign (digits ++ rest) := by
  cases digits with
  | nil => exact h.resolve_left (not_not.mpr rfl)
  | cons d digits => exact stops_cons.mpr (isSign_of_isDigit (hdigits d List.mem_cons_self))

/-- All of an exponent is taken. -/
theorem length_le_takeExponent {e : Option ExponentPart} (h : ExponentPart.Writes e text)
    (rest : List Char) : text.length ≤ (takeExponent (text ++ rest)).2 := by
  cases h with
  | absent => exact Nat.zero_le _
  | @present letter sign digits hletter hsign hdigits =>
    have hlength := length_le_takeWhile hdigits rest
    cases sign with
    | some s =>
      show digits.length + 2 ≤ (takeExponent (letter :: s :: (digits ++ rest))).2
      rw [takeExponent_signed hletter (hsign s rfl)]
      omega
    | none =>
      show digits.length + 1 ≤ (takeExponent (letter :: (digits ++ rest))).2
      by_cases hstop : digits ≠ [] ∨ Stops isSign rest
      · rw [takeExponent_unsigned hletter (stops_isSign_append hdigits hstop)]
        omega
      -- a letter without digits, and a sign after it
      · obtain ⟨hnil, hrest⟩ := not_or.mp hstop
        obtain rfl := not_not.mp hnil
        obtain ⟨s, more, rfl, hs⟩ := exists_cons_of_not_stops hrest
        show 1 ≤ (takeExponent (letter :: s :: more)).2
        rw [takeExponent_signed hletter hs]
        exact Nat.le_add_left 1 _

/-- Nothing but an exponent is taken where it does not go on. -/
theorem takeExponent_append {e : Option ExponentPart} (h : ExponentPart.Writes e text)
    (hrest : Stops goesOn rest) : takeExponent (text ++ rest) = (e, text.length) := by
  obtain ⟨hdigit, -, hletter, hsign⟩ := stops_of_goesOn hrest
  cases h with
  | absent => exact takeExponent_of_stops hletter
  | @present letter sign digits hpresent hsigned hdigits =>
    cases sign with
    | some s =>
      show takeExponent (letter :: s :: (digits ++ rest)) = _
      rw [takeExponent_signed hpresent (hsigned s rfl), takeWhile_append_of_stops hdigits hdigit]
      rfl
    | none =>
      show takeExponent (letter :: (digits ++ rest)) = _
      rw [takeExponent_unsigned hpresent (stops_isSign_append hdigits (Or.inr hsign)),
        takeWhile_append_of_stops hdigits hdigit]
      rfl

/-! ## Numerals -/

/-- A text that writes a numeral of these parts. -/
structure Parts.Writes (p : Parts) (text : List Char) : Prop where
  whole : ∀ c ∈ p.whole, isDigit c = true
  fraction : ∀ f, p.fraction = some f → ∀ c ∈ f, isDigit c = true
  nonempty : p.whole ≠ [] ∨ ∃ c f, p.fraction = some (c :: f)
  spelled : ∃ tail, ExponentPart.Writes p.exponent tail ∧
    text = p.whole ++ ((p.fraction.map ('.' :: ·)).getD [] ++ tail)

theorem takeNumeral_of_point {whole fraction : List Char} (hwhole : ∀ c ∈ whole, isDigit c = true)
    (hfraction : ∀ c ∈ fraction, isDigit c = true) (hrest : Stops isDigit rest) :
    takeNumeral (whole ++ '.' :: (fraction ++ rest)) =
      (⟨whole, some fraction, (takeExponent rest).1⟩,
        whole.length + (fraction.length + 1) + (takeExponent rest).2) := by
  have htake : (whole ++ '.' :: (fraction ++ rest)).takeWhile isDigit = whole :=
    takeWhile_append_of_stops hwhole (stops_cons.mpr (by decide))
  have hdrop : (whole ++ '.' :: (fraction ++ rest)).drop
      (whole.length + (fraction.length + 1)) = rest := by
    rw [← List.cons_append, ← List.append_assoc]
    exact List.drop_left' List.length_append
  unfold takeNumeral
  simp only [htake, List.drop_left, takeWhile_append_of_stops hfraction hrest, hdrop]

theorem takeNumeral_of_no_point {whole : List Char} (hwhole : ∀ c ∈ whole, isDigit c = true)
    (hdigit : Stops isDigit rest) (hpoint : Stops (· == '.') rest) :
    takeNumeral (whole ++ rest) =
      (⟨whole, none, (takeExponent rest).1⟩, whole.length + (takeExponent rest).2) := by
  have htake : (whole ++ rest).takeWhile isDigit = whole :=
    takeWhile_append_of_stops hwhole hdigit
  unfold takeNumeral
  simp only [htake, List.drop_left]
  split
  · exact absurd (stops_cons.mp hpoint) (by decide)
  · simp only [Nat.add_zero, List.drop_left]

/-- A text that starts as a numeral does: with a digit, or with a point that a digit follows. -/
def Starts (text : List Char) : Prop :=
  ∃ first rest, text = first :: rest ∧
    (isDigit first = true ∨ (first = '.' ∧ rest.head?.any isDigit = true))

/-- A text that writes a numeral starts as one does. -/
theorem Parts.Writes.starts {p : Parts} (h : p.Writes text) (rest : List Char) :
    Starts (text ++ rest) := by
  obtain ⟨whole, fraction, exponent⟩ := p
  obtain ⟨hwhole, hfraction, hne, tail, -, rfl⟩ := h
  cases whole with
  | cons d whole => exact ⟨d, _, rfl, Or.inl (hwhole d List.mem_cons_self)⟩
  | nil =>
    obtain ⟨c, f, hf⟩ := hne.resolve_left (not_not.mpr rfl)
    obtain rfl : fraction = some (c :: f) := hf
    exact ⟨'.', _, rfl, Or.inr ⟨rfl, hfraction _ rfl c List.mem_cons_self⟩⟩

theorem Parts.Writes.ne_nil {p : Parts} (h : p.Writes text) : text ≠ [] := by
  rintro rfl
  obtain ⟨first, rest, htext, -⟩ := h.starts []
  cases htext

theorem Starts.whole_ne_nil {whole rest : List Char} (h : Starts (whole ++ rest))
    (hdigit : Stops isDigit rest) (hpoint : Stops (· == '.') rest) : whole ≠ [] := by
  rintro rfl
  obtain ⟨first, more, rfl, hfirst | ⟨rfl, -⟩⟩ := h
  · rw [stops_cons.mp hdigit] at hfirst
    cases hfirst
  · exact absurd (stops_cons.mp hpoint) (by decide)

theorem Starts.fraction_ne_nil {fraction rest : List Char}
    (h : Starts ('.' :: (fraction ++ rest))) (hrest : Stops isDigit rest) : fraction ≠ [] := by
  rintro rfl
  obtain ⟨first, more, htext, hfirst⟩ := h
  obtain ⟨rfl, rfl⟩ := List.cons.inj htext
  rcases hfirst with hpoint | ⟨-, hhead⟩
  · exact absurd hpoint (by decide)
  · cases rest with
    | nil => cases hhead
    | cons c rest =>
      have hdigit : isDigit c = true := hhead
      rw [stops_cons.mp hrest] at hdigit
      cases hdigit

/-- **What is taken writes the parts that are found**, off a text that starts as a numeral does. -/
theorem writes_of_takeNumeral (h : Starts text) :
    ∃ taken rest, text = taken ++ rest ∧ (takeNumeral text).2 = taken.length ∧
      (takeNumeral text).1.Writes taken := by
  obtain ⟨whole, more, rfl, hwhole, hmore⟩ := exists_run isDigit text
  by_cases hpoint : Stops (· == '.') more
  · have hne := h.whole_ne_nil hmore hpoint
    obtain ⟨tail, rest, rfl, hlength, htail⟩ := writes_of_takeExponent more
    rw [takeNumeral_of_no_point hwhole hmore hpoint]
    refine ⟨whole ++ tail, rest, (List.append_assoc ..).symm, ?_, hwhole, nofun, Or.inl hne, tail,
      htail, rfl⟩
    rw [List.length_append, ← hlength]
  · obtain ⟨c, more, rfl, hc⟩ := exists_cons_of_not_stops hpoint
    obtain rfl : c = '.' := beq_iff_eq.mp hc
    obtain ⟨fraction, more, rfl, hfraction, hrest⟩ := exists_run isDigit more
    have hne : whole ≠ [] ∨ ∃ c f, some fraction = some (c :: f) := by
      by_cases hnil : whole = []
      · subst hnil
        obtain ⟨c, f, rfl⟩ := List.exists_cons_of_ne_nil (h.fraction_ne_nil hrest)
        exact Or.inr ⟨c, f, rfl⟩
      · exact Or.inl hnil
    obtain ⟨tail, rest, rfl, hlength, htail⟩ := writes_of_takeExponent more
    rw [takeNumeral_of_point hwhole hfraction hrest]
    refine ⟨whole ++ ('.' :: fraction ++ tail), rest, ?_, ?_, hwhole, ?_, hne, tail, htail, rfl⟩
    · simp only [List.cons_append, List.append_assoc]
    · simp only [List.length_append, List.length_cons, hlength]
      omega
    · rintro f hf
      obtain rfl := Option.some.inj hf
      exact hfraction

/-- An exponent is neither a digit nor a point. -/
theorem ExponentPart.Writes.stops {e : Option ExponentPart} (h : ExponentPart.Writes e text)
    (rest : List Char) (hrest : e = none → Stops isDigit rest ∧ Stops (· == '.') rest) :
    Stops isDigit (text ++ rest) ∧ Stops (· == '.') (text ++ rest) := by
  cases h with
  | absent => exact hrest rfl
  | present hletter _ _ =>
    obtain ⟨hdigit, hpoint⟩ := not_goesOn_of_isExponentLetter hletter
    exact ⟨stops_cons.mpr hdigit, stops_cons.mpr hpoint⟩

/-- Whole digits are taken, with those that follow them. -/
theorem length_whole_le {whole : List Char} (hwhole : ∀ c ∈ whole, isDigit c = true)
    (rest : List Char) : whole.length ≤ (takeNumeral (whole ++ rest)).2 := by
  obtain ⟨more, after, rfl, hmore, hafter⟩ := exists_run isDigit rest
  have hdigits : ∀ c ∈ whole ++ more, isDigit c = true := fun c hc =>
    (List.mem_append.mp hc).elim (hwhole c) (hmore c)
  rw [← List.append_assoc]
  by_cases hpoint : Stops (· == '.') after
  · rw [takeNumeral_of_no_point hdigits hafter hpoint, List.length_append]
    omega
  · obtain ⟨c, rest, rfl, hc⟩ := exists_cons_of_not_stops hpoint
    obtain rfl : c = '.' := beq_iff_eq.mp hc
    obtain ⟨fraction, rest, rfl, hfraction, hrest⟩ := exists_run isDigit rest
    rw [takeNumeral_of_point hdigits hfraction hrest, List.length_append]
    omega

/-- The digits of a fraction are taken, with those that follow them. -/
theorem length_fraction_le {whole fraction : List Char} (hwhole : ∀ c ∈ whole, isDigit c = true)
    (hfraction : ∀ c ∈ fraction, isDigit c = true) (rest : List Char) :
    whole.length + (fraction.length + 1) ≤
      (takeNumeral (whole ++ '.' :: (fraction ++ rest))).2 := by
  obtain ⟨more, after, rfl, hmore, hafter⟩ := exists_run isDigit rest
  have hdigits : ∀ c ∈ fraction ++ more, isDigit c = true := fun c hc =>
    (List.mem_append.mp hc).elim (hfraction c) (hmore c)
  rw [← List.append_assoc, takeNumeral_of_point hwhole hdigits hafter, List.length_append]
  omega

/-- **A text that starts with a numeral** has at least that taken from it. -/
theorem length_le_takeNumeral {p : Parts} (h : p.Writes text) (rest : List Char) :
    text.length ≤ (takeNumeral (text ++ rest)).2 := by
  obtain ⟨whole, fraction, exponent⟩ := p
  obtain ⟨hwhole, hfraction, -, tail, htail, rfl⟩ := h
  have hexponent := length_le_takeExponent htail rest
  cases fraction with
  | none =>
    have htext : whole ++ ([] ++ tail) ++ rest = whole ++ (tail ++ rest) :=
      List.append_assoc whole tail rest
    show (whole ++ ([] ++ tail)).length ≤ (takeNumeral (whole ++ ([] ++ tail) ++ rest)).2
    rw [htext, List.nil_append, List.length_append]
    by_cases hnone : exponent = none
    · subst hnone
      cases htail
      exact length_whole_le hwhole rest
    · obtain ⟨hdigit, hpoint⟩ := htail.stops rest fun h => absurd h hnone
      rw [takeNumeral_of_no_point hwhole hdigit hpoint]
      exact Nat.add_le_add_left hexponent _
  | some f =>
    have htext : whole ++ ('.' :: f ++ tail) ++ rest = whole ++ '.' :: (f ++ (tail ++ rest)) := by
      simp only [List.append_assoc, List.cons_append]
    show (whole ++ ('.' :: f ++ tail)).length ≤
      (takeNumeral (whole ++ ('.' :: f ++ tail) ++ rest)).2
    rw [htext, List.length_append, List.length_append, List.length_cons, ← Nat.add_assoc]
    by_cases hnone : exponent = none
    · subst hnone
      cases htail
      exact length_fraction_le hwhole (hfraction f rfl) rest
    · obtain ⟨hdigit, -⟩ := htail.stops rest fun h => absurd h hnone
      rw [takeNumeral_of_point hwhole (hfraction f rfl) hdigit]
      exact Nat.add_le_add_left hexponent _

/-- **Nothing but the numeral is taken** where it does not go on. -/
theorem takeNumeral_append {p : Parts} (h : p.Writes text) (hrest : Stops goesOn rest) :
    takeNumeral (text ++ rest) = (p, text.length) := by
  obtain ⟨whole, fraction, exponent⟩ := p
  obtain ⟨hwhole, hfraction, -, tail, htail, rfl⟩ := h
  obtain ⟨hdigit, hpoint, -, -⟩ := stops_of_goesOn hrest
  obtain ⟨hdigits, hpoints⟩ := htail.stops rest fun _ => ⟨hdigit, hpoint⟩
  have hexponent := takeExponent_append htail hrest
  cases fraction with
  | none =>
    have htext : whole ++ ([] ++ tail) ++ rest = whole ++ (tail ++ rest) :=
      List.append_assoc whole tail rest
    show takeNumeral (whole ++ ([] ++ tail) ++ rest) = _
    rw [htext, takeNumeral_of_no_point hwhole hdigits hpoints, hexponent]
    exact congrArg _ List.length_append.symm
  | some f =>
    have htext : whole ++ ('.' :: f ++ tail) ++ rest = whole ++ '.' :: (f ++ (tail ++ rest)) := by
      simp only [List.append_assoc, List.cons_append]
    show takeNumeral (whole ++ ('.' :: f ++ tail) ++ rest) = _
    rw [htext, takeNumeral_of_point hwhole (hfraction f rfl) hdigits, hexponent]
    refine congrArg _ ?_
    simp only [Option.map_some, Option.getD_some, List.length_append, List.length_cons]
    omega

end Numeral

end OpenQasm
