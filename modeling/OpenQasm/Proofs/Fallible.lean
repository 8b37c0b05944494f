import Mathlib.Data.List.Forall2
import OpenQasm.Run.Executor

/-!
# Computations that can fail

When sequences of fallible steps succeed, and what is known when they fail.

* `bind_eq_ok`, `mapError_eq_ok`, `mapM_eq_ok`, `forM_eq_ok`: a sequence succeeds when each step
  does.
* `bind_eq_error`, `mapM_eq_error`, `forM_eq_error`: it fails in a step behind others that succeed.
* `Ends x post fault`: a value of `x` satisfies `post` and an error satisfies `fault`. What is said
  of the errors of a program is proved in this form, one function at a time.
-/

namespace OpenQasm

variable {ε δ α β : Type}

/-! ## Success -/

theorem bind_eq_ok {x : Except ε α} {f : α → Except ε β} {b : β} :
    (x >>= f) = .ok b ↔ ∃ a, x = .ok a ∧ f a = .ok b := by
  cases x with
  | error e => exact ⟨nofun, fun ⟨_, h, _⟩ => nomatch h⟩
  | ok a => exact ⟨fun h => ⟨a, rfl, h⟩, fun ⟨_, h, hf⟩ => by cases h; exact hf⟩

/-- A step without a value, then another. -/
theorem seq_eq_ok {x : Except ε Unit} {f : Unit → Except ε β} {b : β} :
    (x >>= f) = .ok b ↔ x = .ok () ∧ f () = .ok b := by
  rw [bind_eq_ok]
  exact ⟨fun ⟨⟨⟩, hx, hf⟩ => ⟨hx, hf⟩, fun ⟨hx, hf⟩ => ⟨(), hx, hf⟩⟩

theorem mapError_eq_ok {x : Except ε α} {f : ε → δ} {a : α} :
    x.mapError f = .ok a ↔ x = .ok a := by
  cases x with
  | error e => exact ⟨nofun, nofun⟩
  | ok b => exact ⟨fun h => by cases h; rfl, fun h => by cases h; rfl⟩

/-- A success has a value. -/
theorem exists_eq_ok {x : Except ε α} (h : x.isOk = true) : ∃ a, x = .ok a := by
  cases x with
  | error e => cases h
  | ok a => exact ⟨a, rfl⟩

/-- What an attempt fails with, as `f` sees it. -/
def failure? (f : ε → δ) : Except ε α → Option δ
  | .error e => some (f e)
  | .ok _ => none

/-- A failure has an error. -/
theorem exists_eq_error {x : Except ε α} {f : ε → δ} {d : δ} (h : failure? f x = some d) :
    ∃ e, x = .error e ∧ f e = d := by
  cases x with
  | error e => exact ⟨e, rfl, Option.some.inj h⟩
  | ok a => cases h

/-- A value that is computed and dropped. -/
theorem discard_eq_ok {x : Except ε α} : discard x = .ok () ↔ ∃ a, x = .ok a := by
  cases x with
  | error e => exact ⟨nofun, fun ⟨_, h⟩ => nomatch h⟩
  | ok a => exact ⟨fun _ => ⟨a, rfl⟩, fun _ => rfl⟩

/-- What follows a test that fails, in the two ways it is written. -/
theorem ite_throw_eq_ok {c : Prop} [Decidable c] {e : ε} {x : Except ε α} {a : α} :
    (if c then throw e else x) = .ok a ↔ ¬c ∧ x = .ok a := by
  by_cases hc : c
  · rw [if_pos hc]
    exact ⟨nofun, fun h => absurd hc h.1⟩
  · rw [if_neg hc]
    exact ⟨fun h => ⟨hc, h⟩, fun h => h.2⟩

theorem ite_throw_bind_eq_ok {c : Prop} [Decidable c] {e : ε} {f : β → Except ε α}
    {x : Except ε α} {a : α} : (if c then throw e >>= f else x) = .ok a ↔ ¬c ∧ x = .ok a :=
  ite_throw_eq_ok

/-- A list is mapped when each of its items is. -/
theorem mapM_eq_ok {f : α → Except ε β} : ∀ {xs : List α} {ys : List β},
    xs.mapM f = .ok ys ↔ List.Forall₂ (fun x y => f x = .ok y) xs ys
  | [], ys => by
    rw [List.mapM_nil, List.forall₂_nil_left_iff]
    exact ⟨fun h => (Except.ok.inj h).symm, fun h => congrArg Except.ok h.symm⟩
  | x :: xs, ys => by
    rw [List.mapM_cons, bind_eq_ok, List.forall₂_cons_left_iff]
    constructor
    · rintro ⟨y, hy, h⟩
      obtain ⟨rest, hrest, h⟩ := bind_eq_ok.mp h
      exact ⟨y, rest, hy, mapM_eq_ok.mp hrest, (Except.ok.inj h).symm⟩
    · rintro ⟨y, rest, hy, hrest, rfl⟩
      exact ⟨y, hy, bind_eq_ok.mpr ⟨rest, mapM_eq_ok.mpr hrest, rfl⟩⟩

/-- What is known of the items on the right of related lists. -/
theorem forall_right_of_forall₂ {related : α → β → Prop} {good : β → Prop}
    (hgood : ∀ a b, related a b → good b) {xs : List α} {ys : List β}
    (h : List.Forall₂ related xs ys) : ∀ y ∈ ys, good y := by
  induction h with
  | nil => exact fun y hy => absurd hy List.not_mem_nil
  | cons hr _ ih => exact List.forall_mem_cons.mpr ⟨hgood _ _ hr, ih⟩

/-- Every item is visited when each visit succeeds. -/
theorem forM_eq_ok {f : α → Except ε Unit} : ∀ {xs : List α},
    xs.forM f = .ok () ↔ ∀ x ∈ xs, f x = .ok ()
  | [] => ⟨fun _ _ hx => absurd hx List.not_mem_nil, fun _ => rfl⟩
  | x :: xs => by
    rw [List.forall_mem_cons, show (x :: xs).forM f = (f x >>= fun _ => xs.forM f) from rfl,
      seq_eq_ok]
    constructor
    · rintro ⟨hx, h⟩
      exact ⟨hx, forM_eq_ok.mp h⟩
    · rintro ⟨hx, h⟩
      exact ⟨hx, forM_eq_ok.mpr h⟩

/-- A value that must be finite. -/
theorem Expr.finite_eq_ok {R : Type} [Scalar R] {e : Expr} {x y : R} :
    e.finite x = .ok y ↔ Scalar.isFinite x = true ∧ x = y := by
  unfold finite
  by_cases h : Scalar.isFinite x = true
  · rw [if_pos h]
    exact ⟨fun hy => ⟨h, Except.ok.inj hy⟩, fun hy => congrArg Except.ok hy.2⟩
  · rw [if_neg h]
    exact ⟨nofun, fun hy => absurd hy.1 h⟩

/-! ## Failure -/

theorem bind_eq_error {x : Except ε α} {f : α → Except ε β} {e : ε} :
    (x >>= f) = .error e ↔ x = .error e ∨ ∃ a, x = .ok a ∧ f a = .error e := by
  cases x with
  | error found =>
    constructor
    · intro h
      cases h
      exact .inl rfl
    · rintro (h | ⟨_, h, _⟩)
      · cases h
        rfl
      · cases h
  | ok a =>
    constructor
    · exact fun h => .inr ⟨a, rfl, h⟩
    · rintro (h | ⟨_, h, hf⟩)
      · cases h
      · cases h
        exact hf

theorem mapError_eq_error {x : Except ε α} {f : ε → δ} {d : δ} :
    x.mapError f = .error d ↔ ∃ e, x = .error e ∧ d = f e := by
  cases x with
  | ok a => exact ⟨nofun, fun ⟨_, h, _⟩ => nomatch h⟩
  | error e =>
    exact ⟨fun h => ⟨e, rfl, (Except.error.inj h).symm⟩, fun ⟨_, h, hd⟩ => by cases h; rw [hd]; rfl⟩

theorem map_eq_error {x : Except ε α} {f : α → β} {e : ε} :
    x.map f = .error e ↔ x = .error e := by
  cases x with
  | ok a => exact ⟨nofun, nofun⟩
  | error found => exact ⟨fun h => by cases h; rfl, fun h => by cases h; rfl⟩

/-- A list is mapped somehow when each of its items is. -/
theorem exists_mapM_eq_ok {f : α → Except ε β} {xs : List α} :
    (∃ ys, xs.mapM f = .ok ys) ↔ ∀ x ∈ xs, ∃ y, f x = .ok y := by
  simp only [mapM_eq_ok]
  induction xs with
  | nil => simp
  | cons x xs ih =>
    simp only [List.forall₂_cons_left_iff, List.forall_mem_cons, ← ih]
    constructor
    · rintro ⟨_, y, ys, hy, hys, rfl⟩
      exact ⟨⟨y, hy⟩, ys, hys⟩
    · rintro ⟨⟨y, hy⟩, ys, hys⟩
      exact ⟨_, y, ys, hy, hys, rfl⟩

/-- A list that is not mapped has an item that is not, behind items that are. -/
theorem mapM_eq_error {f : α → Except ε β} {e : ε} : ∀ {xs : List α},
    xs.mapM f = .error e ↔ ∃ before a after, xs = before ++ a :: after ∧
      (∀ b ∈ before, ∃ y, f b = .ok y) ∧ f a = .error e
  | [] => ⟨nofun, fun ⟨before, _, _, h, _⟩ => by cases before <;> cases h⟩
  | x :: xs => by
    have hrest {y : β} : (xs.mapM f >>= fun ys => Except.ok (y :: ys)) = .error e ↔
        xs.mapM f = .error e :=
      bind_eq_error.trans (or_iff_left fun ⟨_, _, h⟩ => nomatch h)
    rw [List.mapM_cons, bind_eq_error]
    constructor
    · rintro (hx | ⟨y, hy, h⟩)
      · exact ⟨[], x, xs, rfl, fun _ hb => absurd hb List.not_mem_nil, hx⟩
      · obtain ⟨before, a, after, rfl, hbefore, ha⟩ := mapM_eq_error.mp (hrest.mp h)
        exact ⟨x :: before, a, after, rfl, List.forall_mem_cons.mpr ⟨⟨y, hy⟩, hbefore⟩, ha⟩
    · rintro ⟨_ | ⟨b, before⟩, a, after, h, hbefore, ha⟩
      · obtain ⟨rfl, rfl⟩ := List.cons.inj h
        exact .inl ha
      · obtain ⟨rfl, rfl⟩ := List.cons.inj h
        obtain ⟨⟨y, hy⟩, hbefore⟩ := List.forall_mem_cons.mp hbefore
        exact .inr ⟨y, hy, hrest.mpr (mapM_eq_error.mpr ⟨before, a, after, rfl, hbefore, ha⟩)⟩

/-- A list of steps fails in one that does, behind others that succeed. -/
theorem forM_eq_error {f : α → Except ε Unit} {e : ε} : ∀ {xs : List α}, xs.forM f = .error e →
    ∃ before a after, xs = before ++ a :: after ∧ (∀ b ∈ before, f b = .ok ()) ∧ f a = .error e
  | [], h => nomatch h
  | x :: xs, h => by
    rcases bind_eq_error.mp h with hx | ⟨⟨⟩, hx, hrest⟩
    · exact ⟨[], x, xs, rfl, fun _ hb => absurd hb List.not_mem_nil, hx⟩
    · obtain ⟨before, a, after, rfl, hbefore, ha⟩ := forM_eq_error hrest
      exact ⟨x :: before, a, after, rfl, List.forall_mem_cons.mpr ⟨hx, hbefore⟩, ha⟩

/-! ## Values and errors -/

/-- A value of `x` satisfies `post`, and an error `fault`. -/
def Ends (x : Except ε α) (post : α → Prop) (fault : ε → Prop) : Prop :=
  match x with
  | .ok a => post a
  | .error e => fault e

namespace Ends

variable {x : Except ε α} {post : α → Prop} {fault : ε → Prop}

theorem error_of_eq (h : Ends x post fault) {e : ε} (hx : x = .error e) : fault e := by
  rw [hx] at h
  exact h

theorem mono (h : Ends x post fault) {post' : α → Prop} {fault' : ε → Prop}
    (hpost : ∀ a, post a → post' a) (hfault : ∀ e, fault e → fault' e) : Ends x post' fault' := by
  cases x with
  | error e => exact hfault e h
  | ok a => exact hpost a h

theorem mono_error (h : Ends x post fault) {fault' : ε → Prop} (hfault : ∀ e, fault e → fault' e) :
    Ends x post fault' := h.mono (fun _ ha => ha) hfault

/-- A value that the first step answers is one that the second may rely on. -/
theorem bind {f : α → Except ε β} {post' : β → Prop} (h : Ends x post fault)
    (hf : ∀ a, x = .ok a → post a → Ends (f a) post' fault) : Ends (x >>= f) post' fault := by
  cases hx : x with
  | error e => exact h.error_of_eq hx
  | ok a =>
    rw [hx] at h
    exact hf a hx h

theorem mapError {g : ε → δ} {fault' : δ → Prop} (h : Ends x post fault)
    (hg : ∀ e, fault e → fault' (g e)) : Ends (x.mapError g) post fault' := by
  cases x with
  | error e => exact hg e h
  | ok a => exact h

theorem map {f : α → β} {post' : β → Prop} (h : Ends x post fault)
    (hf : ∀ a, post a → post' (f a)) : Ends (x.map f) post' fault := by
  cases x with
  | error e => exact h
  | ok a => exact hf a h

theorem discard (h : Ends x post fault) : Ends (discard x) (fun _ => True) fault := by
  cases x with
  | error e => exact h
  | ok a => trivial

/-- What follows a test that must fail. -/
theorem ite_throw {c : Prop} [Decidable c] {e : ε} (he : c → fault e)
    (hx : ¬c → Ends x post fault) : Ends (if c then throw e else x) post fault := by
  by_cases hc : c
  · rw [if_pos hc]
    exact he hc
  · rw [if_neg hc]
    exact hx hc

theorem mapM {f : α → Except ε β} {related : α → β → Prop} : ∀ {xs : List α},
    (∀ a ∈ xs, Ends (f a) (related a) fault) → Ends (xs.mapM f) (List.Forall₂ related xs) fault
  | [], _ => List.Forall₂.nil
  | a :: rest, h => by
    obtain ⟨ha, hrest⟩ := List.forall_mem_cons.mp h
    rw [List.mapM_cons]
    exact ha.bind fun b _ hb => (mapM hrest).bind fun bs _ hbs => List.Forall₂.cons hb hbs

theorem forM {f : α → Except ε Unit} : ∀ {xs : List α},
    (∀ a ∈ xs, Ends (f a) (fun _ => True) fault) → Ends (xs.forM f) (fun _ => True) fault
  | [], _ => trivial
  | a :: rest, h => by
    obtain ⟨ha, hrest⟩ := List.forall_mem_cons.mp h
    exact ha.bind fun _ _ _ => forM hrest

end Ends

end OpenQasm
