import OpenQasm.Proofs.Fallible
import OpenQasm.Proofs.Grammar
import OpenQasm.Syntax.Parse.Statement

/-!
# What a reader accepts

A reader answers a value and the lexemes after it, with a proof that they are fewer. `Yields` says
what is answered without that proof, and each reader has one equation in these terms.

A reader `Recognizes` a nonterminal when the lexemes that it takes are derived from it, and when it
takes derived lexemes and no more, unless what follows could extend them. What could is a list of
tokens: an opening bracket after a name, a comma after a list. Recognition is kept by lists
(`recognizes_commaList`) and by optional parentheses (`recognizes_parenthesized`).
-/

namespace OpenQasm.Parse

open Grammar

variable {α β : Type} {m n : Nat} {ts rest : List Lexeme}

/-- The reader answers `a` and leaves `rest`. -/
def Yields (reading : Except SyntaxError (Parsed α n)) (a : α) (rest : List Lexeme) : Prop :=
  ∃ h, reading = .ok ⟨a, rest, h⟩

namespace Yields

theorem shorter {reading : Except SyntaxError (Parsed α n)} {a : α} (h : Yields reading a rest) :
    rest.length < n := h.1

theorem of_ok (p : Parsed α n) : Yields (.ok p) p.value p.rest := ⟨p.shorter, rfl⟩

end Yields

theorem yields_pure {p : Parsed α n} {a : α} :
    Yields (pure p) a rest ↔ a = p.value ∧ rest = p.rest := by
  constructor
  · rintro ⟨_, h⟩
    obtain rfl := Except.ok.inj h
    exact ⟨rfl, rfl⟩
  · rintro ⟨rfl, rfl⟩
    exact .of_ok p

theorem yields_bind {reading : Except SyntaxError (Parsed α m)}
    {next : Parsed α m → Except SyntaxError (Parsed β n)} {b : β} :
    Yields (reading >>= next) b rest ↔
      ∃ a between, ∃ h : Yields reading a between,
        Yields (next ⟨a, between, h.shorter⟩) b rest := by
  constructor
  · rintro ⟨h, hok⟩
    obtain ⟨⟨a, between, hshorter⟩, hfirst, hnext⟩ := bind_eq_ok.mp hok
    exact ⟨a, between, ⟨hshorter, hfirst⟩, h, hnext⟩
  · rintro ⟨a, between, ⟨_, hfirst⟩, h, hnext⟩
    exact ⟨h, bind_eq_ok.mpr ⟨_, hfirst, hnext⟩⟩

theorem yields_map {reading : Except SyntaxError (Parsed α n)} {f : α → β} {b : β} :
    Yields (reading.map (Parsed.map f)) b rest ↔ ∃ a, Yields reading a rest ∧ b = f a := by
  cases reading with
  | error e => exact ⟨nofun, nofun⟩
  | ok p =>
    constructor
    · rintro ⟨_, h⟩
      obtain ⟨a, r, hr⟩ := p
      cases h
      exact ⟨a, .of_ok _, rfl⟩
    · rintro ⟨a, ⟨h, hok⟩, rfl⟩
      cases hok
      exact ⟨h, rfl⟩

theorem yields_error {e : SyntaxError} {a : α} :
    ¬Yields (.error e : Except SyntaxError (Parsed α n)) a rest := nofun

/-! ## Single lexemes -/

theorem yields_next {expected : Expected} {accept : Token → Option α} {a : α} :
    Yields (next expected accept ts) a rest ↔
      ∃ l, ts = l :: rest ∧ accept l.token = some a := by
  cases ts with
  | nil => exact ⟨nofun, nofun⟩
  | cons l tail =>
    rw [next]
    constructor
    · rintro ⟨_, h⟩
      split at h
      · rename_i b hb
        cases h
        exact ⟨l, rfl, hb⟩
      · cases h
    · rintro ⟨_, heq, ha⟩
      cases heq
      refine ⟨Nat.lt_succ_self _, ?_⟩
      split
      · rename_i b hb
        rw [hb] at ha
        cases ha
        rfl
      · rename_i hnone
        rw [hnone] at ha
        cases ha

theorem yields_exactly {token : Token} {a : Unit} :
    Yields (exactly token ts) a rest ↔ ∃ p, ts = ⟨token, p⟩ :: rest := by
  rw [exactly, yields_next]
  constructor
  · rintro ⟨⟨_, p⟩, rfl, h⟩
    split at h
    · rename_i ht
      exact ⟨p, by rw [← ht]⟩
    · cases h
  · rintro ⟨p, rfl⟩
    exact ⟨_, rfl, if_pos rfl⟩

theorem yields_mark {mk : Mark} {a : Unit} :
    Yields (mark mk ts) a rest ↔ ∃ p, ts = ⟨.mark mk, p⟩ :: rest := yields_exactly

theorem yields_identifier {name : String} :
    Yields (identifier ts) name rest ↔ ∃ p, ts = ⟨.identifier name, p⟩ :: rest := by
  rw [identifier, yields_next]
  constructor
  · rintro ⟨⟨token, p⟩, rfl, h⟩
    cases token <;> cases h
    exact ⟨p, rfl⟩
  · rintro ⟨p, rfl⟩
    exact ⟨_, rfl, rfl⟩

theorem yields_integer {value : Nat} :
    Yields (integer ts) value rest ↔ ∃ p, ts = ⟨.integer value, p⟩ :: rest := by
  rw [integer, yields_next]
  constructor
  · rintro ⟨⟨token, p⟩, rfl, h⟩
    cases token <;> cases h
    exact ⟨p, rfl⟩
  · rintro ⟨p, rfl⟩
    exact ⟨_, rfl, rfl⟩

/-- The token at the head is a lexeme, or the file has ended. -/
theorem peek_eq_iff {token : Token} (h : token ≠ .endOfFile) :
    peek ts = token ↔ ∃ p tail, ts = ⟨token, p⟩ :: tail := by
  cases ts with
  | nil => exact ⟨fun he => absurd he.symm h, nofun⟩
  | cons l tail =>
    constructor
    · rintro rfl
      exact ⟨l.pos, tail, rfl⟩
    · rintro ⟨p, tail, heq⟩
      cases heq
      rfl

theorem peek_eq_mark {mk : Mark} : peek ts = .mark mk ↔ ∃ p tail, ts = ⟨.mark mk, p⟩ :: tail :=
  peek_eq_iff nofun

theorem peek_eq_keyword {word : Keyword} :
    peek ts = .keyword word ↔ ∃ p tail, ts = ⟨.keyword word, p⟩ :: tail := peek_eq_iff nofun

theorem yields_terminated {reading : Reading α ts} {a : α} :
    Yields (terminated reading) a rest ↔ ∃ p, Yields reading a (⟨.mark .semicolon, p⟩ :: rest) := by
  simp only [terminated, yields_bind, yields_mark, yields_pure, exists_prop, exists_const]
  constructor
  · rintro ⟨_, _, h, between, ⟨p, rfl⟩, rfl, rfl⟩
    exact ⟨p, h⟩
  · rintro ⟨p, h⟩
    exact ⟨a, _, h, rest, ⟨p, rfl⟩, rfl, rfl⟩

/-! ## Recognition -/

/-- The reader reads what is derived, up to a token that cannot extend it. -/
structure Recognizes {bound : List Lexeme → Nat}
    (read : (ts : List Lexeme) → Except SyntaxError (Parsed α (bound ts)))
    (derived : List Lexeme → α → Prop) (extending : List Token) : Prop where
  sound : ∀ {ts a rest}, Yields (read ts) a rest → ∃ xs, ts = xs ++ rest ∧ derived xs a
  complete : ∀ {xs a rest}, derived xs a → peek rest ∉ extending →
    Yields (read (xs ++ rest)) a rest

theorem recognizes_identifier : Recognizes identifier IsName [] where
  sound h := by
    obtain ⟨p, rfl⟩ := yields_identifier.mp h
    exact ⟨_, rfl, .name⟩
  complete h _ := by
    cases h
    exact yields_identifier.mpr ⟨_, rfl⟩

/-! ## Operands -/

theorem yields_index? {i : Option Nat} : Yields (index? ts) i rest ↔
    (peek ts ≠ .mark .openBracket ∧ i = none ∧ rest = ts) ∨
      ∃ p value q r, ts = ⟨.mark .openBracket, p⟩ :: ⟨.integer value, q⟩ ::
        ⟨.mark .closeBracket, r⟩ :: rest ∧ i = some value := by
  rw [index?]
  split
  · rename_i h
    simp only [yields_bind, yields_mark, yields_pure, yields_integer, exists_prop, exists_const]
    constructor
    · rintro ⟨_, ⟨p, rfl⟩, value, _, ⟨q, rfl⟩, _, ⟨r, rfl⟩, rfl, rfl⟩
      exact Or.inr ⟨p, value, q, r, rfl, rfl⟩
    · rintro (⟨hne, -⟩ | ⟨p, value, q, r, rfl, rfl⟩)
      · exact absurd h hne
      · exact ⟨_, ⟨p, rfl⟩, value, _, ⟨q, rfl⟩, rest, ⟨r, rfl⟩, rfl, rfl⟩
  · rename_i h
    rw [yields_pure]
    constructor
    · rintro ⟨rfl, rfl⟩
      exact Or.inl ⟨h, rfl, rfl⟩
    · rintro (⟨-, rfl, rfl⟩ | ⟨p, value, q, r, rfl, -⟩)
      · exact ⟨rfl, rfl⟩
      · exact absurd rfl h

theorem yields_operand {v : Operand} : Yields (operand ts) v rest ↔
    ∃ name p tail i, ts = ⟨.identifier name, p⟩ :: tail ∧ v = ⟨name, i, p⟩ ∧
      Yields (index? tail) i rest := by
  simp only [operand, yields_bind, yields_pure, yields_identifier, exists_prop]
  constructor
  · rintro ⟨name, tail, ⟨p, rfl⟩, i, _, hindex, rfl, rfl⟩
    exact ⟨name, p, tail, i, rfl, rfl, hindex⟩
  · rintro ⟨name, p, tail, i, rfl, rfl, hindex⟩
    exact ⟨name, tail, ⟨p, rfl⟩, i, rest, hindex, rfl, rfl⟩

theorem recognizes_operand : Recognizes operand IsOperand [.mark .openBracket] where
  sound h := by
    obtain ⟨name, p, tail, i, rfl, rfl, hindex⟩ := yields_operand.mp h
    rcases yields_index?.mp hindex with ⟨-, rfl, rfl⟩ | ⟨q, value, r, s, rfl, rfl⟩
    · exact ⟨_, rfl, .whole⟩
    · exact ⟨_, rfl, .element⟩
  complete h hrest := by
    rw [List.mem_singleton] at hrest
    cases h with
    | whole =>
      exact yields_operand.mpr ⟨_, _, _, _, rfl, rfl, yields_index?.mpr (Or.inl ⟨hrest, rfl, rfl⟩)⟩
    | element =>
      exact yields_operand.mpr ⟨_, _, _, _, rfl, rfl,
        yields_index?.mpr (Or.inr ⟨_, _, _, _, rfl, rfl⟩)⟩

/-! ## Lists -/

/-- An item, and after a comma more of them. -/
theorem yields_commaList {item : (ts : List Lexeme) → Reading α ts} {as : List α} :
    Yields (commaList item ts) as rest ↔ ∃ a between, Yields (item ts) a between ∧
      ((peek between ≠ .mark .comma ∧ as = [a] ∧ rest = between) ∨
        ∃ p tail others, between = ⟨.mark .comma, p⟩ :: tail ∧
          Yields (commaList item tail) others rest ∧ as = a :: others) := by
  rw [commaList, yields_bind]
  refine exists_congr fun a => exists_congr fun between => ?_
  rw [← exists_prop]
  refine exists_congr fun h => ?_
  match between with
  | [] => simp [yields_pure, peek]
  | ⟨token, p⟩ :: tail =>
    by_cases hcomma : token = .mark .comma
    · subst hcomma
      simp only [↓reduceIte, yields_bind, yields_pure, exists_and_left, exists_prop, ↓existsAndEq,
        and_true, peek, ne_eq, not_true_eq_false, false_and, List.cons.injEq, Lexeme.mk.injEq,
        true_and, exists_and_right, false_or]
      exact exists_congr fun _ => and_comm
    · simp [yields_pure, peek, hcomma]

variable {item : (ts : List Lexeme) → Reading α ts} {derived : List Lexeme → α → Prop}
  {extending : List Token}

theorem sound_commaList (h : Recognizes item derived extending) {ts rest : List Lexeme}
    {as : List α} (hread : Yields (commaList item ts) as rest) :
    ∃ xs, ts = xs ++ rest ∧ IsList derived xs as := by
  obtain ⟨a, between, ha, hlist⟩ := yields_commaList.mp hread
  have hshorter := ha.shorter
  obtain ⟨xs, hts, hxs⟩ := h.sound ha
  rcases hlist with ⟨-, rfl, rfl⟩ | ⟨p, tail, others, rfl, hothers, rfl⟩
  · exact ⟨xs, hts, .single hxs⟩
  · rw [List.length_cons] at hshorter
    obtain ⟨ys, rfl, hys⟩ := sound_commaList h hothers
    exact ⟨xs ++ ⟨.mark .comma, p⟩ :: ys, by simp [hts], .cons hxs hys⟩
termination_by ts.length

/-- **Lists are recognized when their items are**, if no comma can extend an item. -/
theorem recognizes_commaList (h : Recognizes item derived extending)
    (hcomma : .mark .comma ∉ extending) :
    Recognizes (commaList item) (IsList derived) (.mark .comma :: extending) where
  sound hread := sound_commaList h hread
  complete hlist hrest := by
    rw [List.mem_cons, not_or] at hrest
    induction hlist with
    | single ha =>
      exact yields_commaList.mpr ⟨_, _, h.complete ha hrest.2, Or.inl ⟨hrest.1, rfl, rfl⟩⟩
    | cons ha _ ih =>
      rw [List.append_assoc, List.cons_append]
      exact yields_commaList.mpr ⟨_, _, h.complete ha hcomma, Or.inr ⟨_, _, _, rfl, ih, rfl⟩⟩

theorem recognizes_identifierList :
    Recognizes identifierList (IsList IsName) [.mark .comma] :=
  recognizes_commaList recognizes_identifier List.not_mem_nil

theorem recognizes_operandList :
    Recognizes operandList (IsList IsOperand) [.mark .comma, .mark .openBracket] :=
  recognizes_commaList recognizes_operand (by decide)

/-! ## Parentheses -/

theorem yields_parenthesized {list : (ts : List Lexeme) → Reading (List α) ts}
    {as : Option (List α)} : Yields (parenthesized? list ts) as rest ↔
      (peek ts ≠ .mark .openParen ∧ as = none ∧ rest = ts) ∨
        (∃ p q, ts = ⟨.mark .openParen, p⟩ :: ⟨.mark .closeParen, q⟩ :: rest ∧ as = some []) ∨
          ∃ p tail items q, ts = ⟨.mark .openParen, p⟩ :: tail ∧ peek tail ≠ .mark .closeParen ∧
            Yields (list tail) items (⟨.mark .closeParen, q⟩ :: rest) ∧ as = some items := by
  rw [parenthesized?]
  split
  · rename_i hopen
    simp only [yields_bind, yields_mark]
    constructor
    · rintro ⟨_, tail, ⟨p, rfl⟩, h⟩
      split at h
      · simp only [yields_bind, yields_mark, yields_pure, exists_prop, exists_const] at h
        obtain ⟨_, ⟨q, rfl⟩, rfl, rfl⟩ := h
        exact Or.inr (Or.inl ⟨p, q, rfl, rfl⟩)
      · rename_i hclose
        simp only [yields_bind, yields_mark, yields_pure, exists_prop, exists_const] at h
        obtain ⟨items, _, hitems, _, ⟨q, rfl⟩, rfl, rfl⟩ := h
        exact Or.inr (Or.inr ⟨p, tail, items, q, rfl, hclose, hitems, rfl⟩)
    · rintro (⟨hne, -⟩ | ⟨p, q, rfl, rfl⟩ | ⟨p, tail, items, q, rfl, hclose, hitems, rfl⟩)
      · exact absurd hopen hne
      · refine ⟨(), _, ⟨p, rfl⟩, ?_⟩
        rw [if_pos (peek_eq_mark.mpr ⟨q, rest, rfl⟩)]
        simp only [yields_bind, yields_mark, yields_pure, exists_prop, exists_const]
        exact ⟨_, ⟨q, rfl⟩, trivial, rfl⟩
      · refine ⟨(), _, ⟨p, rfl⟩, ?_⟩
        rw [if_neg hclose]
        simp only [yields_bind, yields_mark, yields_pure, exists_prop, exists_const]
        exact ⟨items, _, hitems, _, ⟨q, rfl⟩, rfl, rfl⟩
  · rename_i hopen
    rw [yields_pure]
    constructor
    · rintro ⟨rfl, rfl⟩
      exact Or.inl ⟨hopen, rfl, rfl⟩
    · rintro (⟨-, rfl, rfl⟩ | ⟨p, q, rfl, -⟩ | ⟨p, tail, items, q, rfl, -⟩)
      · exact ⟨rfl, rfl⟩
      · exact absurd rfl hopen
      · exact absurd rfl hopen

/-- **Lists in parentheses are recognized when the lists are**, if no closing parenthesis can extend
a list or begin one. -/
theorem recognizes_parenthesized {list : (ts : List Lexeme) → Reading (List α) ts}
    {derived : List Lexeme → List α → Prop} {extending : List Token}
    (h : Recognizes list derived extending) (hclose : .mark .closeParen ∉ extending)
    (hhead : ∀ {xs as} rest, derived xs as → peek (xs ++ rest) ≠ .mark .closeParen) :
    Recognizes (parenthesized? list) (IsOptional derived) [.mark .openParen] where
  sound hread := by
    rcases yields_parenthesized.mp hread with
      ⟨-, rfl, rfl⟩ | ⟨p, q, rfl, rfl⟩ | ⟨p, tail, items, q, rfl, -, hitems, rfl⟩
    · exact ⟨[], rfl, .absent⟩
    · exact ⟨_, rfl, .empty⟩
    · obtain ⟨xs, rfl, hxs⟩ := h.sound hitems
      exact ⟨⟨.mark .openParen, p⟩ :: xs ++ [⟨.mark .closeParen, q⟩], by simp, .items hxs⟩
  complete hderived hrest := by
    rw [List.mem_singleton] at hrest
    refine yields_parenthesized.mpr ?_
    cases hderived with
    | absent => exact Or.inl ⟨hrest, rfl, rfl⟩
    | empty => exact Or.inr (Or.inl ⟨_, _, rfl, rfl⟩)
    | items hxs =>
      simp only [List.cons_append, List.append_assoc, List.nil_append]
      exact Or.inr (Or.inr ⟨_, _, _, _, rfl, hhead _ hxs, h.complete hxs hclose, rfl⟩)

end OpenQasm.Parse
