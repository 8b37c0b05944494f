import OpenQasm.Proofs.Reading
import OpenQasm.Proofs.Viable

/-!
# Where a reader fails

A reader `Pinpoints` its error when it fails at the first lexeme that cannot follow what it took
before. What it took is viable, and nothing that comes after that lexeme makes a difference: on
every list of lexemes with the same start, that lexeme included, it fails with the same error. A
reader that succeeds does not look further than one lexeme behind what it takes either.

A reader without the proofs that its recursion carries is `plain`, a step on the lexemes that are
left, and each reader has an equation in these terms. So what is to be shown is shown of the ways to
put readers together (`Pinpoints.next`, `Pinpoints.bind`), and then of one reader after the other,
following its recursion.

* `Pinpoints.congr`, `Pinpoints.fault`: what is decided on by the lexeme at the head.
* `Pinpoints.exactly`, `Pinpoints.step`: a lexeme or a part, then the others.
* **`pinpoints_commaList`**, **`pinpoints_parenthesized?`**: lists of what pinpoints its errors.
-/

namespace OpenQasm.Parse

open Grammar

variable {α β : Type} {m n : Nat} {ts rest other : List Lexeme}

/-! ## Readers without proofs -/

/-- A step on the lexemes that are left. -/
abbrev Reader (α : Type) := StateT (List Lexeme) (Except SyntaxError) α

theorem bind_of_ok {f : Reader α} {g : α → Reader β} {a : α} (h : f ts = .ok (a, rest)) :
    (f >>= g) ts = g a rest := by
  show f ts >>= (fun r => g r.1 r.2) = _
  rw [h]
  rfl

theorem bind_of_error {f : Reader α} {g : α → Reader β} {e : SyntaxError}
    (h : f ts = .error e) : (f >>= g) ts = .error e := by
  show f ts >>= (fun r => g r.1 r.2) = _
  rw [h]
  rfl

/-- What was read, without the proof that fewer lexemes are left. -/
def bare (reading : Except SyntaxError (Parsed α n)) : Except SyntaxError (α × List Lexeme) :=
  reading.map fun p => (p.value, p.rest)

/-- A reader as a step on the lexemes that are left. -/
def plain {bound : List Lexeme → Nat}
    (read : (ts : List Lexeme) → Except SyntaxError (Parsed α (bound ts))) : Reader α :=
  fun ts => bare (read ts)

theorem bare_eq_ok {reading : Except SyntaxError (Parsed α n)} {a : α} :
    bare reading = .ok (a, rest) ↔ Yields reading a rest := by
  cases reading with
  | error e => exact ⟨nofun, nofun⟩
  | ok p =>
    obtain ⟨b, between, hshorter⟩ := p
    constructor
    · intro h
      cases h
      exact .of_ok _
    · rintro ⟨_, h⟩
      cases h
      rfl

/-- One reading after another is one step after another. -/
theorem bare_bind {reading : Except SyntaxError (Parsed α m)}
    {next : Parsed α m → Except SyntaxError (Parsed β n)} {f : Reader α} {g : α → Reader β}
    (hf : bare reading = f ts) (hg : ∀ p, bare (next p) = g p.value p.rest) :
    bare (reading >>= next) = (f >>= g) ts := by
  show _ = f ts >>= fun r => g r.1 r.2
  rw [← hf]
  cases reading with
  | error e => rfl
  | ok p => exact hg p

/-- What was read is passed on, with another bound. -/
theorem bare_pass (reading : Except SyntaxError (Parsed α m))
    (h : ∀ p : Parsed α m, p.rest.length < n) :
    bare (reading >>= fun p => pure ⟨p.value, p.rest, h p⟩) = bare reading := by
  cases reading <;> rfl

theorem bare_map {reading : Except SyntaxError (Parsed α n)} {f : Reader α} {change : α → β}
    (h : bare reading = f ts) :
    bare (reading.map (Parsed.map change)) = (f >>= fun a => pure (change a)) ts := by
  show _ = f ts >>= fun r => _
  rw [← h]
  cases reading <;> rfl

/-- A token that stands at the head is read. -/
theorem plain_exactly_bind {token : Token} {p : SourcePos} (g : Unit → Reader α) :
    (plain (exactly token) >>= g) (⟨token, p⟩ :: ts) = g () ts :=
  bind_of_ok (bare_eq_ok.mpr (yields_exactly.mpr ⟨p, rfl⟩))

/-- A lexeme that is not accepted is the one that the error is about. -/
theorem plain_next_of_rejected {expected : Expected} {accept : Token → Option α}
    (h : ∀ l ∈ ts.head?, accept l.token = none) :
    plain (next expected accept) ts = .error (unexpected expected ts) := by
  cases ts with
  | nil => rfl
  | cons l rest =>
    show bare (next expected accept (l :: rest)) = _
    rw [next, h l rfl]
    rfl

/-! ## Pinpointing -/

theorem peek_of_head (h : other.head? = ts.head?) : peek other = peek ts := by
  cases other <;> cases ts <;> cases h <;> rfl

theorem here_of_head (h : other.head? = ts.head?) : here other = here ts := by
  cases other <;> cases ts <;> cases h <;> rfl

theorem unexpected_of_head (h : other.head? = ts.head?) (expected : Expected) :
    unexpected expected other = unexpected expected ts := by
  rw [unexpected, unexpected, peek_of_head h, here_of_head h]

/-- What is read off these lexemes is read alike wherever the lexemes that are taken and the one
behind them are the same. An error is about the lexeme behind those that are taken, which are
`viable`. -/
structure Pinpoints (read : Reader α) (viable : List Lexeme → Prop) (ts : List Lexeme) :
    Prop where
  keeps : ∀ {a rest}, read ts = .ok (a, rest) → ∃ xs, ts = xs ++ rest ∧
    ∀ other, other.head? = rest.head? → read (xs ++ other) = .ok (a, other)
  fails : ∀ {e}, read ts = .error e → ∃ xs rest, ts = xs ++ rest ∧ e.pos = here rest ∧ viable xs ∧
    ∀ other, other.head? = rest.head? → read (xs ++ other) = .error e

namespace Pinpoints

variable {read f : Reader α} {g : α → Reader β} {viable inner : List Lexeme → Prop}

theorem mono (h : Pinpoints read inner ts) (hviable : ∀ ys, inner ys → viable ys) :
    Pinpoints read viable ts where
  keeps := h.keeps
  fails he := by
    obtain ⟨xs, rest, hts, hpos, hxs, hsame⟩ := h.fails he
    exact ⟨xs, rest, hts, hpos, hviable xs hxs, hsame⟩

/-- A reader that is decided on by the lexeme at the head. -/
theorem congr (hread : ∀ other, other.head? = ts.head? → read other = f other)
    (hf : Pinpoints f viable ts) : Pinpoints read viable ts where
  keeps h := by
    rw [hread ts rfl] at h
    obtain ⟨xs, hts, hsame⟩ := hf.keeps h
    refine ⟨xs, hts, fun other hother => ?_⟩
    rw [hread _ (by rw [hts, List.head?_append, List.head?_append, hother])]
    exact hsame other hother
  fails h := by
    rw [hread ts rfl] at h
    obtain ⟨xs, rest, hts, hpos, hxs, hsame⟩ := hf.fails h
    refine ⟨xs, rest, hts, hpos, hxs, fun other hother => ?_⟩
    rw [hread _ (by rw [hts, List.head?_append, List.head?_append, hother])]
    exact hsame other hother

protected theorem pure (a : α) : Pinpoints (pure a) viable ts where
  keeps h := by
    cases h
    exact ⟨[], rfl, fun _ _ => rfl⟩
  fails h := nomatch h

/-- An error about the lexeme at the head. -/
theorem fault (hempty : viable []) {e : SyntaxError} (hpos : e.pos = here ts)
    (hread : ∀ other, other.head? = ts.head? → read other = .error e) :
    Pinpoints read viable ts where
  keeps h := by
    rw [hread ts rfl] at h
    cases h
  fails h := by
    rw [hread ts rfl] at h
    cases h
    exact ⟨[], ts, rfl, hpos, hempty, hread⟩

theorem next {expected : Expected} {accept : Token → Option α} (hempty : viable []) :
    Pinpoints (plain (Parse.next expected accept)) viable ts where
  keeps h := by
    obtain ⟨l, rfl, ha⟩ := yields_next.mp (bare_eq_ok.mp h)
    exact ⟨[l], rfl, fun other _ => bare_eq_ok.mpr (yields_next.mpr ⟨l, rfl, ha⟩)⟩
  fails h := by
    have hrejected : ∀ l ∈ ts.head?, accept l.token = none := by
      intro l hl
      obtain ⟨rest, rfl⟩ := List.head?_eq_some_iff.mp hl
      cases ha : accept l.token with
      | none => rfl
      | some a =>
        have hok : plain (Parse.next expected accept) (l :: rest) = .ok (a, rest) :=
          bare_eq_ok.mpr (yields_next.mpr ⟨l, rfl, ha⟩)
        cases hok.symm.trans h
    refine (fault hempty (e := unexpected expected ts) rfl fun other hother => ?_).fails h
    rw [← hother] at hrejected
    rw [plain_next_of_rejected hrejected, unexpected_of_head hother]

/-- **One step after another.** What the first one takes is viable for the second. -/
theorem bind (hf : Pinpoints f viable ts)
    (hg : ∀ xs a rest, ts = xs ++ rest → f ts = .ok (a, rest) →
      Pinpoints (g a) (fun ys => viable (xs ++ ys)) rest) :
    Pinpoints (f >>= g) viable ts := by
  cases hfirst : f ts with
  | error e =>
    refine ⟨fun h => ?_, fun h => ?_⟩
    · cases (bind_of_error hfirst).symm.trans h
    · obtain rfl := Except.error.inj ((bind_of_error hfirst).symm.trans h)
      obtain ⟨xs, rest, hts, hpos, hxs, hsame⟩ := hf.fails hfirst
      exact ⟨xs, rest, hts, hpos, hxs, fun other hother => bind_of_error (hsame other hother)⟩
  | ok r =>
    obtain ⟨a, between⟩ := r
    obtain ⟨xs, hts, hsame⟩ := hf.keeps hfirst
    have hsecond := hg xs a between hts hfirst
    -- the first step stops at the same place, since the second takes the lexeme that is there or
    -- leaves it
    have hstep {ys rest other : List Lexeme} (hbetween : between = ys ++ rest)
        (hother : other.head? = rest.head?) :
        (f >>= g) (xs ++ ys ++ other) = g a (ys ++ other) := by
      have hhead : (ys ++ other).head? = between.head? := by
        rw [hbetween, List.head?_append, List.head?_append, hother]
      rw [List.append_assoc]
      exact bind_of_ok (hsame _ hhead)
    refine ⟨fun h => ?_, fun h => ?_⟩
    · obtain ⟨ys, hbetween, hsame'⟩ := hsecond.keeps ((bind_of_ok hfirst).symm.trans h)
      refine ⟨xs ++ ys, by rw [hts, hbetween, List.append_assoc], fun other hother => ?_⟩
      rw [hstep hbetween hother]
      exact hsame' other hother
    · obtain ⟨ys, rest, hbetween, hpos, hys, hsame'⟩ :=
        hsecond.fails ((bind_of_ok hfirst).symm.trans h)
      refine ⟨xs ++ ys, rest, by rw [hts, hbetween, List.append_assoc], hpos, hys,
        fun other hother => ?_⟩
      rw [hstep hbetween hother]
      exact hsame' other hother

theorem bind_pure (hf : Pinpoints f viable ts) (change : α → β) :
    Pinpoints (f >>= fun a => pure (change a)) viable ts :=
  hf.bind fun _ a _ _ _ => .pure (change a)

/-- **A part, then the others.** The lexemes of a part derive what it stands for. -/
theorem step {bound : List Lexeme → Nat}
    {read : (ts : List Lexeme) → Except SyntaxError (Parsed α (bound ts))}
    {derived : List Lexeme → α → Prop} (hread : Pinpoints (plain read) (Viable derived) ts)
    (hsound : ∀ {a rest}, Yields (read ts) a rest → ∃ xs, ts = xs ++ rest ∧ derived xs a)
    (hviable : ∀ ys, Viable derived ys → viable ys)
    (hg : ∀ xs a rest, derived xs a → rest.length < bound ts →
      Pinpoints (g a) (fun ys => viable (xs ++ ys)) rest) :
    Pinpoints (plain read >>= g) viable ts := by
  refine (hread.mono hviable).bind fun xs a rest hts h => ?_
  have hyields := bare_eq_ok.mp h
  obtain ⟨ys, hys, hderived⟩ := hsound hyields
  obtain rfl : xs = ys := List.append_cancel_right (hts.symm.trans hys)
  exact hg xs a rest hderived hyields.shorter

/-- One lexeme that a test accepts, then the others. -/
theorem nextStep {expected : Expected} {accept : Token → Option α} (hempty : viable [])
    (hg : ∀ l a rest, accept l.token = some a → rest.length < ts.length →
      Pinpoints (g a) (fun ys => viable (l :: ys)) rest) :
    Pinpoints (plain (Parse.next expected accept) >>= g) viable ts := by
  refine (Pinpoints.next hempty).bind fun xs a rest hts h => ?_
  obtain ⟨l, hl, ha⟩ := yields_next.mp (bare_eq_ok.mp h)
  obtain rfl : xs = [l] := List.append_cancel_right (hts.symm.trans hl)
  exact hg l a rest ha (by rw [hl, List.length_cons]; exact Nat.lt_succ_self _)

variable {next : Unit → Reader β}

theorem exactly {token : Token} (hempty : viable [])
    (hnext : ∀ p rest, rest.length < ts.length →
      Pinpoints (next ()) (fun ys => viable (⟨token, p⟩ :: ys)) rest) :
    Pinpoints (plain (Parse.exactly token) >>= next) viable ts := by
  refine nextStep hempty fun l a rest ha hshorter => ?_
  obtain ⟨found, p⟩ := l
  split at ha
  · rename_i htoken
    obtain rfl : found = token := htoken
    exact hnext p rest hshorter
  · cases ha

theorem mark {m : Mark} (hempty : viable [])
    (hnext : ∀ p rest, rest.length < ts.length →
      Pinpoints (next ()) (fun ys => viable (⟨.mark m, p⟩ :: ys)) rest) :
    Pinpoints (plain (Parse.mark m) >>= next) viable ts := exactly hempty hnext

theorem identifier {g : String → Reader β} (hempty : viable [])
    (hg : ∀ x p rest, rest.length < ts.length →
      Pinpoints (g x) (fun ys => viable (⟨.identifier x, p⟩ :: ys)) rest) :
    Pinpoints (plain Parse.identifier >>= g) viable ts := by
  refine nextStep hempty fun l x rest hx hshorter => ?_
  obtain ⟨token, p⟩ := l
  cases token <;> cases hx
  exact hg x p rest hshorter

theorem integer {g : Nat → Reader β} (hempty : viable [])
    (hg : ∀ i p rest, rest.length < ts.length →
      Pinpoints (g i) (fun ys => viable (⟨.integer i, p⟩ :: ys)) rest) :
    Pinpoints (plain Parse.integer >>= g) viable ts := by
  refine nextStep hempty fun l i rest hi hshorter => ?_
  obtain ⟨token, p⟩ := l
  cases token <;> cases hi
  exact hg i p rest hshorter

end Pinpoints

/-! ## Operands -/

theorem plain_index?_bracket (h : peek ts = .mark .openBracket) : plain index? ts =
    (do plain (mark .openBracket)
        let i ← plain integer
        plain (mark .closeBracket)
        pure (some i) : Reader (Option Nat)) ts := by
  show bare (index? ts) = _
  rw [index?, if_pos h]
  exact bare_bind rfl fun _ => bare_bind rfl fun _ => bare_bind rfl fun _ => rfl

theorem plain_index?_none (h : peek ts ≠ .mark .openBracket) :
    plain index? ts = (pure none : Reader (Option Nat)) ts := by
  show bare (index? ts) = _
  rw [index?, if_neg h]
  rfl

theorem plain_operand {p : SourcePos} (h : here ts = p) : plain operand ts =
    (do let x ← plain identifier
        let i ← plain index?
        pure ⟨x, i, p⟩ : Reader Operand) ts := by
  subst h
  exact bare_bind rfl fun _ => bare_bind rfl fun _ => rfl

theorem pinpoints_index? (x : String) (p : SourcePos) (ts : List Lexeme) :
    Pinpoints (plain index?) (fun ys => Viable IsOperand (⟨.identifier x, p⟩ :: ys)) ts := by
  have helement (q r s : SourcePos) (i : Nat) := IsOperand.element (x := x) (i := i) (p := p)
    (q := q) (r := r) (s := s)
  by_cases hbracket : peek ts = .mark .openBracket
  · refine .congr (fun _ h => plain_index?_bracket ((peek_of_head h).trans hbracket)) ?_
    refine .mark (.of_start .whole ⟨_, rfl⟩) fun q _ _ => ?_
    refine .integer (.of_start (helement q p p 0) ⟨_, rfl⟩) fun i r _ _ => ?_
    exact .mark (.of_start (helement q r p i) ⟨_, rfl⟩) fun _ _ _ => .pure _
  · exact .congr (fun _ h => plain_index?_none ((peek_of_head h).trans_ne hbracket)) (.pure _)

theorem pinpoints_operand (ts : List Lexeme) :
    Pinpoints (plain operand) (Viable IsOperand) ts := by
  refine .congr (fun _ h => plain_operand (here_of_head h)) ?_
  refine .identifier (.of_start isOperand_some ⟨_, rfl⟩) fun x p rest _ => ?_
  exact (pinpoints_index? x p rest).bind_pure _

theorem pinpoints_identifier (ts : List Lexeme) :
    Pinpoints (plain identifier) (Viable IsName) ts := .next (.of_start isName_some ⟨_, rfl⟩)

/-! ## Lists -/

section Lists

variable {item : (ts : List Lexeme) → Reading α ts}

/-- The items that commas introduce after a first one. -/
def moreItems (item : (ts : List Lexeme) → Reading α ts) (first : α) : Reader (List α) := fun ts =>
  if peek ts = .mark .comma then
    (do plain (mark .comma)
        let others ← plain (commaList item)
        pure (first :: others) : Reader (List α)) ts
  else (pure [first] : Reader (List α)) ts

theorem plain_commaList : plain (commaList item) ts = (plain item >>= moreItems item) ts := by
  show bare (commaList item ts) = _
  rw [commaList]
  refine bare_bind rfl fun first => ?_
  obtain ⟨a, between, hshorter⟩ := first
  cases between with
  | nil => exact (if_neg (show Token.endOfFile ≠ .mark .comma by decide)).symm
  | cons l rest =>
    obtain ⟨token, p⟩ := l
    dsimp only
    by_cases hcomma : token = .mark .comma
    · subst hcomma
      rw [if_pos rfl]
      refine .trans ?_ ((if_pos rfl).trans (plain_exactly_bind _)).symm
      exact bare_bind rfl fun _ => rfl
    · rw [if_neg hcomma]
      exact (if_neg hcomma).symm

variable {derived : List Lexeme → α → Prop}
  (hitem : ∀ ts, Pinpoints (plain item) (Viable derived) ts)
  (hsound : ∀ {ts a rest}, Yields (item ts) a rest → ∃ xs, ts = xs ++ rest ∧ derived xs a)

include hitem hsound

/-- **Lists pinpoint their errors when their items do.** -/
theorem pinpoints_commaList (ts : List Lexeme) :
    Pinpoints (plain (commaList item)) (Viable (IsList derived)) ts := by
  refine .congr (fun _ _ => plain_commaList) (.step (hitem ts) hsound ?_ fun xs a rest ha _ => ?_)
  · exact fun ys h => h.within fun h => ⟨_, _, .single h, List.prefix_append ..⟩
  by_cases hcomma : peek rest = .mark .comma
  · refine .congr (fun _ h => if_pos ((peek_of_head h).trans hcomma)) ?_
    refine .mark (.of_start (.single ha) (by simp)) fun p tail htail => ?_
    refine ((pinpoints_commaList tail).mono fun ys h => ?_).bind_pure _
    exact h.within fun h => ⟨_, _, .cons (p := p) ha h, by simp⟩
  · exact .congr (fun _ h => if_neg ((peek_of_head h).trans_ne hcomma)) (.pure _)
termination_by ts.length

end Lists

/-! ## Parentheses -/

section Parentheses

variable {list : (ts : List Lexeme) → Reading (List α) ts}

/-- What follows an open parenthesis: a list, unless the parenthesis is closed at once. -/
def opened (list : (ts : List Lexeme) → Reading (List α) ts) : Reader (Option (List α)) :=
  fun ts =>
    if peek ts = .mark .closeParen then
      (do plain (mark .closeParen)
          pure (some []) : Reader (Option (List α))) ts
    else
      (do let items ← plain list
          plain (mark .closeParen)
          pure (some items) : Reader (Option (List α))) ts

theorem plain_parenthesized?_open (h : peek ts = .mark .openParen) :
    plain (parenthesized? list) ts =
      (do plain (mark .openParen)
          opened list : Reader (Option (List α))) ts := by
  show bare (parenthesized? list ts) = _
  rw [parenthesized?, if_pos h]
  refine bare_bind rfl fun between => ?_
  rw [opened]
  split
  · exact bare_bind rfl fun _ => rfl
  · exact bare_bind rfl fun _ => bare_bind rfl fun _ => rfl

theorem plain_parenthesized?_none (h : peek ts ≠ .mark .openParen) :
    plain (parenthesized? list) ts = (pure none : Reader (Option (List α))) ts := by
  show bare (parenthesized? list ts) = _
  rw [parenthesized?, if_neg h]
  rfl

variable {derived : List Lexeme → List α → Prop}
  (hlist : ∀ ts, Pinpoints (plain list) (Viable derived) ts)
  (hsound : ∀ {ts as rest}, Yields (list ts) as rest → ∃ xs, ts = xs ++ rest ∧ derived xs as)

include hlist hsound

/-- **Lists in parentheses pinpoint their errors when the lists do.** -/
theorem pinpoints_parenthesized? (ts : List Lexeme) :
    Pinpoints (plain (parenthesized? list)) (Viable (IsOptional derived)) ts := by
  by_cases hopen : peek ts = .mark .openParen
  · refine .congr (fun _ h => plain_parenthesized?_open ((peek_of_head h).trans hopen)) ?_
    refine .mark (.of_start .absent List.nil_prefix) fun p rest _ => ?_
    have hempty : Viable (IsOptional derived) [⟨.mark .openParen, p⟩] :=
      .of_start (.empty (q := p)) ⟨_, rfl⟩
    by_cases hclose : peek rest = .mark .closeParen
    · refine .congr (fun _ h => if_pos ((peek_of_head h).trans hclose)) ?_
      exact .mark hempty fun _ _ _ => .pure _
    · refine .congr (fun _ h => if_neg ((peek_of_head h).trans_ne hclose)) ?_
      refine .step (hlist rest) hsound (fun ys h => ?_) fun xs as tail has _ => ?_
      · exact h.within fun h => ⟨_, _, .items (p := p) (q := p) h, by simp⟩
      · exact .mark (.of_start (.items (p := p) (q := p) has) (by simp)) fun _ _ _ => .pure _
  · exact .congr (fun _ h => plain_parenthesized?_none ((peek_of_head h).trans_ne hopen)) (.pure _)

end Parentheses

theorem pinpoints_operandList (ts : List Lexeme) :
    Pinpoints (plain operandList) (Viable (IsList IsOperand)) ts :=
  pinpoints_commaList pinpoints_operand recognizes_operand.sound ts

theorem pinpoints_identifierList (ts : List Lexeme) :
    Pinpoints (plain identifierList) (Viable (IsList IsName)) ts :=
  pinpoints_commaList pinpoints_identifier recognizes_identifier.sound ts

end OpenQasm.Parse
