import OpenQasm.Proofs.Tracking
import OpenQasm.Scope.SymbolTable

/-!
# How scopes are nested

Links between scopes are cut and made again while a table is used: a scope that is left loses the
link to the scope around it and is saved there, and gets the link back when it is entered again. No
order of opening, declaring, leaving and entering nests a scope in itself.

The invariant is `Nested parent t`. Every scope has the parent that it was opened in, which has a
smaller number; a link outwards leads to the parent and a scope is saved in its parent alone; and
links outwards are set along the way from the current scope to the outermost one and nowhere else.

* `Nested.push`, `Nested.declare`, `Nested.popAndSave`, `Nested.restore?`: one operation.
* `Nested.performAll`: any sequence of them.
* `Chain.lookupFrom_eq`, `Nested.lists_dumpScope`: under the invariant, the search outwards and
  the listing end on their own, not for the number of steps that they are given.
* **`reached_nested`**: what follows for every table that operations lead to.
-/

namespace OpenQasm

/-! ## Operations -/

/-- What is done to a table. -/
inductive TableOperation where
  | push
  | declare (symbol : Symbol)
  | popAndSave (name : String)
  | restore (name : String)
deriving DecidableEq, Repr

namespace SymbolTable

/-- One operation. An operation that fails leaves the table alone. -/
def perform (t : SymbolTable) : TableOperation → SymbolTable
  | .push => t.push.2
  | .declare symbol =>
    match t.declare symbol with
    | .ok (_, after) => after
    | .error _ => t
  | .popAndSave name => t.popAndSave name
  | .restore name => (t.restore? name).getD t

/-- Operations, one after the other. -/
def performAll (t : SymbolTable) (operations : List TableOperation) : SymbolTable :=
  operations.foldl perform t

/-- The table that operations lead to, when no scope was open before. -/
def reached (operations : List TableOperation) : SymbolTable := empty.performAll operations

end SymbolTable

/-! ## Links -/

namespace Scope

theorem outer_bind (s : Scope) (symbol : Symbol) : (s.bind symbol).outer = s.outer := by
  unfold bind
  split <;> rfl

theorem saved_bind (s : Scope) (symbol : Symbol) : (s.bind symbol).saved = s.saved := by
  unfold bind
  split <;> rfl

theorem outer_save (s : Scope) (name : String) (id : ScopeId) :
    (s.save name id).outer = s.outer := by
  unfold save
  split <;> rfl

theorem mem_saved_save {s : Scope} {name : String} {id : ScopeId} {entry : String × ScopeId}
    (h : entry ∈ (s.save name id).saved) : entry ∈ s.saved ∨ entry = (name, id) := by
  unfold save at h
  split at h
  · exact Or.inl h
  · simpa using h

end Scope

namespace SymbolTable

variable {t after : SymbolTable} {id child p : ScopeId} {name title indent : String}

/-- The scope around a scope, while it is linked to it. -/
def outer? (t : SymbolTable) (id : ScopeId) : Option ScopeId := (t.scopes[id]?).bind (·.outer)

/-- The scopes that are saved in a scope, with the names that they are saved under. -/
def savedIn (t : SymbolTable) (id : ScopeId) : List (String × ScopeId) :=
  (t.scopes[id]?).elim [] (·.saved)

/-- A scope is linked to a scope around it, or saved in it. -/
def Inside (t : SymbolTable) (id p : ScopeId) : Prop :=
  t.outer? id = some p ∨ ∃ name, (name, id) ∈ t.savedIn p

/-- The way outwards, from a scope to the one that has no scope around it. -/
inductive Chain (t : SymbolTable) : Option ScopeId → List ScopeId → Prop where
  | nil : Chain t none []
  | cons {id : ScopeId} {ids : List ScopeId} (hid : id < t.scopes.size)
      (hrest : Chain t (t.outer? id) ids) : Chain t (some id) (id :: ids)

/-- The listing of a scope, as recursion on the scopes that are saved in it, without any bound on
the depth. -/
inductive Lists (t : SymbolTable) : ScopeId → String → String → String → Prop where
  | scope {id : ScopeId} {scope : Scope} {title indent : String} {texts : String × ScopeId → String}
      (hscope : t.scopes[id]? = some scope)
      (htexts : ∀ s ∈ scope.saved, Lists t s.2 s.1 (indent ++ "  ") (texts s)) :
      Lists t id title indent (indent ++ "scope " ++ title ++ "\n"
        ++ String.join ((scope.symbols.mergeSort listedBefore).map (dumpLine indent))
        ++ String.join ((scope.saved.mergeSort fun a b => decide (a.1 ≤ b.1)).map texts))

theorem lt_size_of_outer? (h : t.outer? id = some p) : id < t.scopes.size := by
  obtain ⟨scope, hscope, -⟩ := Option.bind_eq_some_iff.mp h
  exact (Array.getElem?_eq_some_iff.mp hscope).1

/-! ### What the operations do to them -/

theorem outer?_push (t : SymbolTable) (id : ScopeId) :
    t.push.2.outer? id = if id = t.scopes.size then t.current else t.outer? id := by
  by_cases h : id = t.scopes.size <;> simp [outer?, push, Array.getElem?_push, h, Scope.empty]

theorem savedIn_push (t : SymbolTable) (id : ScopeId) : t.push.2.savedIn id = t.savedIn id := by
  by_cases h : id = t.scopes.size <;> simp [savedIn, push, Array.getElem?_push, h, Scope.empty]

/-- Changes of a scope that keep its links. -/
theorem outer?_modify {change : Scope → Scope} (hchange : ∀ s, (change s).outer = s.outer)
    (id changed : ScopeId) (current : Option ScopeId) :
    outer? ⟨t.scopes.modify changed change, current⟩ id = t.outer? id := by
  by_cases h : changed = id <;> cases hid : t.scopes[id]? <;>
    simp [outer?, Array.getElem?_modify, h, hid, hchange]

theorem savedIn_modify {change : Scope → Scope} (hchange : ∀ s, (change s).saved = s.saved)
    (id changed : ScopeId) (current : Option ScopeId) :
    savedIn ⟨t.scopes.modify changed change, current⟩ id = t.savedIn id := by
  by_cases h : changed = id <;> cases hid : t.scopes[id]? <;>
    simp [savedIn, Array.getElem?_modify, h, hid, hchange]

/-- Setting the link of a scope. -/
theorem outer?_setOuter (hid : child < t.scopes.size) (link current : Option ScopeId)
    (id : ScopeId) :
    outer? ⟨t.scopes.modify child fun s => { s with outer := link }, current⟩ id =
      if id = child then link else t.outer? id := by
  by_cases h : id = child
  · subst h
    simp [outer?, Array.getElem?_modify, Array.getElem?_eq_getElem hid]
  · simp [outer?, Array.getElem?_modify, h, Ne.symm h]

theorem savedIn_setOuter (t : SymbolTable) (child : ScopeId) (link current : Option ScopeId)
    (id : ScopeId) :
    savedIn ⟨t.scopes.modify child fun s => { s with outer := link }, current⟩ id =
      t.savedIn id := by
  refine savedIn_modify ?_ id child current
  exact fun _ => rfl

/-- Saving one more scope. -/
theorem mem_savedIn_save {current : Option ScopeId} {entry : String × ScopeId}
    (h : entry ∈ savedIn ⟨t.scopes.modify p (·.save name child), current⟩ id) :
    entry ∈ t.savedIn id ∨ (entry = (name, child) ∧ p = id) := by
  unfold savedIn at h ⊢
  by_cases hp : p = id
  · cases hid : t.scopes[id]? with
    | none => simp [Array.getElem?_modify, hp, hid] at h
    | some scope =>
      have hsaved : entry ∈ (scope.save name child).saved := by
        simpa [Array.getElem?_modify, hp, hid] using h
      exact (Scope.mem_saved_save hsaved).imp_right fun hentry => ⟨hentry, hp⟩
  · exact Or.inl (by simpa [Array.getElem?_modify, hp] using h)

/-! ## The way outwards -/

theorem Chain.current_eq {current : Option ScopeId} {ids : List ScopeId}
    (h : t.Chain current ids) : current = ids.head? := by
  cases h <;> rfl

theorem Chain.lt_size {current : Option ScopeId} {ids : List ScopeId} (h : t.Chain current ids) :
    ∀ x ∈ ids, x < t.scopes.size := by
  induction h with
  | nil => exact fun x hx => absurd hx List.not_mem_nil
  | cons hid _ ih => exact List.forall_mem_cons.mpr ⟨hid, ih⟩

/-- The way is the same in a table with the same links along it. -/
theorem Chain.congr {current : Option ScopeId} {ids : List ScopeId} (h : t.Chain current ids)
    (hsize : t.scopes.size ≤ after.scopes.size) (hsame : ∀ x ∈ ids, after.outer? x = t.outer? x) :
    after.Chain current ids := by
  induction h with
  | nil => exact .nil
  | cons hid _ ih =>
    obtain ⟨hhead, htail⟩ := List.forall_mem_cons.mp hsame
    refine .cons (Nat.lt_of_lt_of_le hid hsize) ?_
    rw [hhead]
    exact ih htail

section Decreasing

variable (hlt : ∀ id p, t.outer? id = some p → p < id)

include hlt

/-- All scopes on the way lie below what the first one lies below. -/
theorem Chain.lt_of_head {current : Option ScopeId} {ids : List ScopeId}
    (h : t.Chain current ids) {bound : ScopeId} (hcurrent : ∀ id, current = some id → id < bound) :
    ∀ x ∈ ids, x < bound := by
  induction h with
  | nil => exact fun x hx => absurd hx List.not_mem_nil
  | @cons id rest _ _ ih =>
    have hid := hcurrent id rfl
    exact List.forall_mem_cons.mpr ⟨hid, ih fun p hp => (hlt id p hp).trans hid⟩

/-- The numbers of the scopes decrease on the way outwards. -/
theorem Chain.pairwise {current : Option ScopeId} {ids : List ScopeId} (h : t.Chain current ids) :
    ids.Pairwise (· > ·) := by
  induction h with
  | nil => exact .nil
  | @cons id rest _ hrest ih =>
    exact List.pairwise_cons.mpr ⟨hrest.lt_of_head hlt fun p hp => hlt id p hp, ih⟩

/-- **The search outwards** visits the scopes on the way and ends behind the last one: the number
of steps that it is given never runs out. -/
theorem Chain.lookupFrom_eq {current : Option ScopeId} {ids : List ScopeId}
    (h : t.Chain current ids) (name : String) {steps : Nat}
    (hsteps : ∀ id, current = some id → id < steps) :
    t.lookupFrom name false steps current =
      ids.findSome? fun id => (t.scopes[id]?).bind (·.find? name) := by
  induction h generalizing steps with
  | nil => rw [lookupFrom, List.findSome?_nil]
  | @cons id rest hid hrest ih =>
    obtain ⟨left, rfl⟩ := Nat.exists_eq_add_one_of_ne_zero (Nat.ne_zero_of_lt (hsteps id rfl))
    have hscope := Array.getElem?_eq_getElem hid
    have hleft : ∀ p, t.outer? id = some p → p < left := fun p hp =>
      (hlt id p hp).trans_le (Nat.le_of_lt_succ (hsteps id rfl))
    rw [lookupFrom, List.findSome?_cons, hscope, Option.bind_some]
    dsimp only
    cases t.scopes[id].find? name with
    | some symbol => rfl
    | none =>
      rw [← ih hleft, outer?, hscope]
      rfl

end Decreasing

/-! ## The invariant -/

/-- How scopes are nested, where `parent` answers the scope that a scope was opened in. -/
structure Nested (parent : ScopeId → Option ScopeId) (t : SymbolTable) : Prop where
  parent_lt : ∀ id p, parent id = some p → p < id
  outer : ∀ id p, t.outer? id = some p → parent id = some p
  saved : ∀ p name id, (name, id) ∈ t.savedIn p → parent id = some p ∧ id < t.scopes.size
  chain : ∃ ids, t.Chain t.current ids ∧ ∀ id, (t.outer? id).isSome ↔ id ∈ ids.dropLast

variable {parent : ScopeId → Option ScopeId}

theorem Nested.outer_lt (h : t.Nested parent) (id p : ScopeId) (hp : t.outer? id = some p) :
    p < id := h.parent_lt id p (h.outer id p hp)

theorem nested_empty : empty.Nested fun _ => none where
  parent_lt _ _ h := nomatch h
  outer _ _ h := nomatch h
  saved _ _ _ h := nomatch h
  chain := ⟨[], .nil, fun id => by simp [outer?, empty]⟩

/-- A scope that is inside another one was opened in it. -/
theorem Nested.parent_eq (h : t.Nested parent) (hinside : t.Inside id p) :
    parent id = some p ∧ id < t.scopes.size := by
  rcases hinside with houter | ⟨name, hsaved⟩
  · exact ⟨h.outer id p houter, lt_size_of_outer? houter⟩
  · exact h.saved p name id hsaved

/-! ### One operation -/

/-- A scope that is opened lies inside the current one from then on. -/
theorem Nested.push (h : t.Nested parent) :
    t.push.2.Nested (Function.update parent t.scopes.size t.current) := by
  obtain ⟨ids, hchain, hlinked⟩ := h.chain
  have hsize : t.push.2.scopes.size = t.scopes.size + 1 := Array.size_push _
  have hold : ∀ x ∈ ids, t.push.2.outer? x = t.outer? x := fun x hx => by
    rw [outer?_push, if_neg (Nat.ne_of_lt (hchain.lt_size x hx))]
  refine ⟨fun id p hp => ?_, fun id p hp => ?_, fun p name id hid => ?_,
    t.scopes.size :: ids, .cons (hsize ▸ Nat.lt_succ_self _) ?_, fun id => ?_⟩
  · by_cases hid : id = t.scopes.size
    · rw [hid, Function.update_self, hchain.current_eq] at hp
      exact hid ▸ hchain.lt_size p (List.mem_of_head? hp)
    · rw [Function.update_of_ne hid] at hp
      exact h.parent_lt id p hp
  · rw [outer?_push] at hp
    by_cases hid : id = t.scopes.size
    · rw [if_pos hid] at hp
      rw [hid, Function.update_self, hp]
    · rw [if_neg hid] at hp
      rw [Function.update_of_ne hid, h.outer id p hp]
  · rw [savedIn_push] at hid
    obtain ⟨hparent, hlt⟩ := h.saved p name id hid
    rw [Function.update_of_ne (Nat.ne_of_lt hlt), hsize]
    exact ⟨hparent, hlt.trans (Nat.lt_succ_self _)⟩
  · rw [outer?_push, if_pos rfl]
    exact hchain.congr (hsize ▸ Nat.le_succ _) hold
  · rw [outer?_push, hchain.current_eq]
    cases ids with
    | nil =>
      have hnone : t.outer? id = none := by simpa using hlinked id
      simp [hnone]
    | cons head rest =>
      by_cases hid : id = t.scopes.size
      · simp [hid]
      · rw [if_neg hid, hlinked id]
        simp [hid]

/-- Links that stay as they are. -/
theorem Nested.congr (h : t.Nested parent) (hcurrent : after.current = t.current)
    (hsize : after.scopes.size = t.scopes.size) (houter : ∀ x, after.outer? x = t.outer? x)
    (hsaved : ∀ x, after.savedIn x = t.savedIn x) : after.Nested parent := by
  obtain ⟨ids, hchain, hlinked⟩ := h.chain
  refine ⟨h.parent_lt, fun id p hp => ?_, fun p name id hid => ?_, ids, ?_, fun id => ?_⟩
  · rw [houter] at hp
    exact h.outer id p hp
  · rw [hsaved] at hid
    rw [hsize]
    exact h.saved p name id hid
  · rw [hcurrent]
    exact hchain.congr hsize.ge fun x _ => houter x
  · rw [houter]
    exact hlinked id

/-- Binding a name changes no link. -/
theorem Nested.declare (h : t.Nested parent) {symbol : Symbol} {old : Option Symbol}
    (hd : t.declare symbol = .ok (old, after)) :
    after.scopes.size = t.scopes.size ∧ after.Nested parent := by
  unfold SymbolTable.declare at hd
  cases hc : t.current with
  | none =>
    rw [hc] at hd
    cases hd
  | some id =>
    rw [hc] at hd
    cases hd
    refine ⟨Array.size_modify, ?_⟩
    exact h.congr hc.symm Array.size_modify
      (fun x => outer?_modify (fun s => Scope.outer_bind s symbol) x id (some id))
      (fun x => savedIn_modify (fun s => Scope.saved_bind s symbol) x id (some id))

/-- What leaving the current scope does to the links. -/
theorem popAndSave_links (hid : id < t.scopes.size) (hcurrent : t.current = some id)
    (name : String) : (t.popAndSave name).current = t.outer? id ∧
    (t.popAndSave name).scopes.size = t.scopes.size ∧
    (∀ x, (t.popAndSave name).outer? x = if x = id then none else t.outer? x) ∧
    ∀ x entry, entry ∈ (t.popAndSave name).savedIn x →
      entry ∈ t.savedIn x ∨ (entry = (name, id) ∧ t.outer? id = some x) := by
  -- the table between the two changes
  obtain ⟨left, hleft⟩ : ∃ left : SymbolTable,
      left = ⟨t.scopes.modify id fun s => { s with outer := none }, none⟩ := ⟨_, rfl⟩
  have hsize : left.scopes.size = t.scopes.size := by rw [hleft, Array.size_modify]
  have hlinks : ∀ x, left.outer? x = if x = id then none else t.outer? x :=
    hleft ▸ outer?_setOuter hid none none
  have hkept : ∀ x, left.savedIn x = t.savedIn x := hleft ▸ savedIn_setOuter t id none none
  cases houter : t.outer? id with
  | none =>
    have hpop : t.popAndSave name = left := by
      rw [popAndSave, hcurrent, hleft]
      dsimp only
      rw [show (t.scopes[id]?).bind (·.outer) = none from houter]
    rw [hpop]
    refine ⟨by rw [hleft], hsize, hlinks, fun x entry hentry => Or.inl ?_⟩
    rwa [← hkept]
  | some p =>
    have hpop : t.popAndSave name = ⟨left.scopes.modify p (·.save name id), some p⟩ := by
      rw [popAndSave, hcurrent, hleft]
      dsimp only
      rw [show (t.scopes[id]?).bind (·.outer) = some p from houter]
    rw [hpop]
    refine ⟨rfl, Array.size_modify.trans hsize, fun x => ?_, fun x entry hentry => ?_⟩
    · rw [outer?_modify fun s => Scope.outer_save s name id, hlinks]
    · rcases mem_savedIn_save hentry with hold | ⟨rfl, rfl⟩
      · exact Or.inl (hkept x ▸ hold)
      · exact Or.inr ⟨rfl, rfl⟩

/-- A scope that is left is saved in the one that it was opened in. -/
theorem Nested.popAndSave (h : t.Nested parent) (name : String) :
    (t.popAndSave name).scopes.size = t.scopes.size ∧ (t.popAndSave name).Nested parent := by
  obtain ⟨ids, hchain, hlinked⟩ := h.chain
  generalize hcurrent : t.current = current at hchain
  cases hchain with
  | nil =>
    have hpop : t.popAndSave name = t := by rw [SymbolTable.popAndSave, hcurrent]
    rw [hpop]
    exact ⟨rfl, h⟩
  | @cons id rest hid hrest =>
    obtain ⟨hcurrent', hsize, houter, hsaved⟩ := popAndSave_links hid hcurrent name
    have hlt : ∀ x ∈ rest, x < id := hrest.lt_of_head h.outer_lt fun p hp => h.outer_lt id p hp
    have hrest' : (t.popAndSave name).Chain (t.outer? id) rest :=
      hrest.congr hsize.ge fun x hx => by rw [houter, if_neg (Nat.ne_of_lt (hlt x hx))]
    refine ⟨hsize, h.parent_lt, fun x p hp => ?_, fun p saved x hx => ?_, rest,
      hcurrent' ▸ hrest', fun x => ?_⟩
    · rw [houter] at hp
      split at hp
      · cases hp
      · exact h.outer x p hp
    · rw [hsize]
      rcases hsaved p _ hx with hold | ⟨hnew, hp⟩
      · exact h.saved p saved x hold
      · obtain ⟨rfl, rfl⟩ := Prod.mk.inj hnew
        exact ⟨h.outer x p hp, hid⟩
    · rw [houter]
      by_cases hx : x = id
      · have hnot : x ∉ rest := fun hmem => Nat.lt_irrefl id (hx ▸ hlt x hmem)
        simpa [hx] using fun hmem => hnot (hx ▸ List.mem_of_mem_dropLast hmem)
      · rw [if_neg hx, hlinked]
        cases rest <;> simp [hx]

/-- **Entering a scope**: it is saved in the current one. -/
theorem restore?_eq_some : t.restore? name = some after ↔ ∃ p child, t.current = some p ∧
    (t.scopes[p]?).bind (·.saved? name) = some child ∧
    after = ⟨t.scopes.modify child fun s => { s with outer := some p }, some child⟩ := by
  unfold restore?
  constructor
  · intro h
    split at h
    · cases h
    · rename_i p hp
      split at h
      · cases h
      · rename_i child hchild
        exact ⟨p, child, hp, hchild, (Option.some.inj h).symm⟩
  · rintro ⟨p, child, hp, hchild, rfl⟩
    rw [hp]
    dsimp only
    rw [hchild]

theorem mem_savedIn_of_saved? (h : (t.scopes[p]?).bind (·.saved? name) = some child) :
    (name, child) ∈ t.savedIn p := by
  obtain ⟨scope, hscope, hsaved⟩ := Option.bind_eq_some_iff.mp h
  rw [savedIn, hscope]
  exact mem_of_lookup hsaved

/-- A scope that is entered is linked to the one that it was opened in, and is not on the way from
there outwards. -/
theorem Nested.restore? (h : t.Nested parent) (hr : t.restore? name = some after) :
    after.scopes.size = t.scopes.size ∧ after.Nested parent ∧
      ∀ ids, t.Chain t.current ids → ∃ id, after.current = some id ∧ id ∉ ids := by
  obtain ⟨p, child, hcurrent, hchild, rfl⟩ := restore?_eq_some.mp hr
  obtain ⟨hparent, hsize⟩ := h.saved p name child (mem_savedIn_of_saved? hchild)
  have hlt := h.parent_lt child p hparent
  have houter := outer?_setOuter hsize (some p) (some child)
  have hbelow : ∀ ids, t.Chain t.current ids → ∀ x ∈ ids, x < child := fun ids hchain =>
    hchain.lt_of_head h.outer_lt fun id hid => by
      rw [hcurrent] at hid
      exact Option.some.inj hid ▸ hlt
  refine ⟨Array.size_modify, ?_, fun ids hchain =>
    ⟨child, rfl, fun hmem => Nat.lt_irrefl child (hbelow ids hchain child hmem)⟩⟩
  obtain ⟨ids, hchain, hlinked⟩ := h.chain
  have hrest : Chain ⟨t.scopes.modify child fun s => { s with outer := some p }, some child⟩
      t.current ids := hchain.congr Array.size_modify.ge fun x hx => by
    rw [houter, if_neg (Nat.ne_of_lt (hbelow ids hchain x hx))]
  refine ⟨h.parent_lt, fun x q hq => ?_, fun q saved x hx => ?_, child :: ids, .cons ?_ ?_,
    fun x => ?_⟩
  · rw [houter] at hq
    split at hq
    · rename_i hx
      rw [hx, hparent, hq]
    · exact h.outer x q hq
  · rw [savedIn_setOuter] at hx
    rw [Array.size_modify]
    exact h.saved q saved x hx
  · rwa [Array.size_modify]
  · rw [houter, if_pos rfl]
    exact hcurrent ▸ hrest
  · rw [houter]
    rw [hchain.current_eq] at hcurrent
    obtain ⟨rest, rfl⟩ := List.head?_eq_some_iff.mp hcurrent
    by_cases hx : x = child
    · simp [hx]
    · rw [if_neg hx, hlinked]
      simp [hx]

/-! ### Any sequence of operations -/

/-- One operation keeps the invariant and the scopes that the older scopes were opened in. -/
theorem Nested.perform (h : t.Nested parent) (o : TableOperation) :
    t.scopes.size ≤ (t.perform o).scopes.size ∧ ∃ parent', (t.perform o).Nested parent' ∧
      ∀ id, id < t.scopes.size → parent' id = parent id := by
  cases o with
  | push =>
    refine ⟨(Nat.le_succ _).trans_eq (Array.size_push _).symm, _, h.push, fun id hid => ?_⟩
    exact Function.update_of_ne (Nat.ne_of_lt hid) _ _
  | declare symbol =>
    rw [SymbolTable.perform]
    cases hd : t.declare symbol with
    | error => exact ⟨le_rfl, parent, h, fun _ _ => rfl⟩
    | ok answer =>
      obtain ⟨hsize, hafter⟩ := h.declare hd
      exact ⟨hsize.ge, parent, hafter, fun _ _ => rfl⟩
  | popAndSave name =>
    obtain ⟨hsize, hafter⟩ := h.popAndSave name
    exact ⟨hsize.ge, parent, hafter, fun _ _ => rfl⟩
  | restore name =>
    rw [SymbolTable.perform]
    cases hr : t.restore? name with
    | none => exact ⟨le_rfl, parent, h, fun _ _ => rfl⟩
    | some after =>
      obtain ⟨hsize, hafter, -⟩ := h.restore? hr
      exact ⟨hsize.ge, parent, hafter, fun _ _ => rfl⟩

/-- **Operations keep the invariant**, and the scopes that the older scopes were opened in. -/
theorem Nested.performAll (h : t.Nested parent) (operations : List TableOperation) :
    ∃ parent', (t.performAll operations).Nested parent' ∧
      ∀ id, id < t.scopes.size → parent' id = parent id := by
  induction operations generalizing t parent with
  | nil => exact ⟨parent, h, fun _ _ => rfl⟩
  | cons o rest ih =>
    obtain ⟨hsize, between, hbetween, hsame⟩ := h.perform o
    obtain ⟨parent', hafter, hsame'⟩ := ih hbetween
    exact ⟨parent', hafter, fun id hid => (hsame' id (hid.trans_le hsize)).trans (hsame id hid)⟩

/-! ## Listings -/

/-- A scope has one listing. -/
theorem Lists.unique {text other : String} (h : t.Lists id title indent text)
    (h' : t.Lists id title indent other) : text = other := by
  induction h generalizing other with
  | scope hscope _ ih =>
    cases h' with
    | scope hscope' htexts' =>
      obtain rfl := Option.some.inj (hscope.symm.trans hscope')
      congr 2
      refine List.map_congr_left fun s hs => ?_
      have hmem := List.mem_mergeSort.mp hs
      exact ih s hmem (htexts' s hmem)

/-- **The listing** ends where nothing is saved: the number of steps that it is given never runs
out. -/
theorem Nested.lists_dumpScope (h : t.Nested parent) {steps id : Nat}
    (hid : id < t.scopes.size) (hsteps : t.scopes.size - id ≤ steps) (title indent : String) :
    t.Lists id title indent (t.dumpScope steps id title indent) := by
  induction steps generalizing id title indent with
  | zero => omega
  | succ steps ih =>
    have hscope := Array.getElem?_eq_getElem hid
    rw [dumpScope, hscope]
    refine .scope hscope fun s hs => ?_
    obtain ⟨hparent, hlt⟩ := h.saved id s.1 s.2 (by rwa [savedIn, hscope])
    have hless := Nat.sub_lt_sub_left hid (h.parent_lt s.2 id hparent)
    exact ih hlt (Nat.le_of_lt_succ (hless.trans_le hsteps)) s.1 (indent ++ "  ")

/-! ## Every table that operations lead to -/

/-- **Scopes are nested in order**, whatever is done to a table, in any order and with any names.
Links outwards lead to smaller numbers, and what is saved in a scope has a larger one. A scope is
inside one and the same scope for ever. Links outwards are set on the way from the current scope to
the outermost one, which has none, and nowhere else. Hence a search for a name visits the scopes on
that way and ends, a listing ends, and a scope that is entered is not on the way already. -/
theorem reached_nested (operations : List TableOperation) :
    (∀ id p, (reached operations).outer? id = some p → p < id) ∧
    (∀ p name id, (name, id) ∈ (reached operations).savedIn p → p < id) ∧
    (∀ later id p q, (reached operations).Inside id p →
      (reached (operations ++ later)).Inside id q → q = p) ∧
    ∃ ids, (reached operations).Chain (reached operations).current ids ∧
      ids.Pairwise (· > ·) ∧
      (∀ id, ((reached operations).outer? id).isSome ↔ id ∈ ids.dropLast) ∧
      (∀ name, (reached operations).lookup? name =
        ids.findSome? fun id => ((reached operations).scopes[id]?).bind (·.find? name)) ∧
      (∀ id, (reached operations).current = some id → ∀ text,
        (reached operations).Lists id "<global>" "" text ↔ text = (reached operations).dump) ∧
      ∀ name after, (reached operations).restore? name = some after →
        ∃ id, after.current = some id ∧ id ∉ ids := by
  obtain ⟨parent, h, -⟩ := nested_empty.performAll operations
  obtain ⟨ids, hchain, hlinked⟩ := h.chain
  have hcurrent : ∀ id, (reached operations).current = some id →
      id < (reached operations).scopes.size := fun id hid =>
    hchain.lt_size id (List.mem_of_head? (hchain.current_eq ▸ hid))
  refine ⟨h.outer_lt, fun p name id hid => h.parent_lt id p (h.saved p name id hid).1,
    fun later id p q hp hq => ?_, ids, hchain, hchain.pairwise h.outer_lt, hlinked,
    fun name => hchain.lookupFrom_eq h.outer_lt name hcurrent, fun id hid text => ?_,
    fun name after hr => (h.restore? hr).2.2 ids hchain⟩
  · obtain ⟨parent', h', hsame⟩ := h.performAll later
    obtain ⟨hparent, hsize⟩ := h.parent_eq hp
    rw [reached, SymbolTable.performAll, List.foldl_append] at hq
    have hparent' := (h'.parent_eq hq).1
    rw [hsame id hsize, hparent] at hparent'
    exact (Option.some.inj hparent').symm
  · have hdump : (reached operations).dump =
        (reached operations).dumpScope (reached operations).scopes.size id "<global>" "" := by
      rw [dump, hid]
    have hlists := h.lists_dumpScope (hcurrent id hid) (Nat.sub_le _ _) "<global>" ""
    rw [hdump]
    exact ⟨fun htext => htext.unique hlists, fun htext => htext ▸ hlists⟩

/-- A scope that is entered again can be saved under a second name, in the same scope. -/
example : (reached [.push, .push, .popAndSave "f", .restore "f", .popAndSave "g"]).savedIn 0 =
    [("f", 1), ("g", 1)] := by decide

end SymbolTable

end OpenQasm
