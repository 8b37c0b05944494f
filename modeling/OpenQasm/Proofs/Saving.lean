import OpenQasm.Proofs.Nesting
import OpenQasm.Proofs.Scopes

/-!
# Leaving a scope and entering it again

A scope that is left and saved is found again as it was: what is bound in it, and what is bound
around it. In between anything may be done to the table, as long as that scope is not entered, and
nothing is declared in the scopes around it; these may be left and entered themselves, and other
scopes saved under the same name.

The scopes around a scope are linked to each other only while they are open. What does not change is
the scope that each was opened in, and the way outwards from the current scope follows it to a scope
that was opened in none (`Rooted`). A scope that is current again has the same scopes around it.

* `Rooted.perform`, `Rooted.performAll`: operations keep this.
* `symbolsIn_performAll`: a scope that is put aside, and the scopes around it, keep their bindings.
* `lookup_savedIn_performAll`: what is saved under a name stays saved under it.
* **`save_restore_exact`**: what follows for every table that operations lead to.
-/

namespace OpenQasm

/-- Whether an operation binds a name. -/
def TableOperation.declares : TableOperation → Bool
  | .declare _ => true
  | .push | .popAndSave _ | .restore _ => false

theorem Scope.symbols_save (s : Scope) (name : String) (id : ScopeId) :
    (s.save name id).symbols = s.symbols := by
  unfold save
  split <;> rfl

namespace SymbolTable

variable {t u after : SymbolTable} {s p id : ScopeId} {name : String}
  {parent : ScopeId → Option ScopeId}

/-! ## What is bound in a scope -/

/-- The bindings of a scope. -/
def symbolsIn (t : SymbolTable) (id : ScopeId) : List Symbol := (t.scopes[id]?).elim [] (·.symbols)

theorem find?_symbolsIn (t : SymbolTable) (id : ScopeId) (name : String) :
    (t.symbolsIn id).find? (·.name == name) = (t.scopes[id]?).bind (·.find? name) := by
  unfold symbolsIn
  cases t.scopes[id]? <;> rfl

/-- Changes of a scope that keep its bindings. -/
theorem symbolsIn_modify {change : Scope → Scope} (hchange : ∀ s, (change s).symbols = s.symbols)
    (id changed : ScopeId) (current : Option ScopeId) :
    symbolsIn ⟨t.scopes.modify changed change, current⟩ id = t.symbolsIn id := by
  by_cases h : changed = id <;> cases hid : t.scopes[id]? <;>
    simp [symbolsIn, Array.getElem?_modify, h, hid, hchange]

theorem symbolsIn_setOuter (t : SymbolTable) (child : ScopeId) (link current : Option ScopeId)
    (id : ScopeId) :
    symbolsIn ⟨t.scopes.modify child fun s => { s with outer := link }, current⟩ id =
      t.symbolsIn id := by
  refine symbolsIn_modify ?_ id child current
  exact fun _ => rfl

theorem symbolsIn_push (hid : id < t.scopes.size) : t.push.2.symbolsIn id = t.symbolsIn id := by
  simp [symbolsIn, push, Array.getElem?_push, Nat.ne_of_lt hid]

/-- Leaving a scope, by the link that it has. -/
theorem popAndSave_eq (hcurrent : t.current = some s) (name : String) :
    t.popAndSave name =
      match t.outer? s with
      | none => ⟨t.scopes.modify s fun scope => { scope with outer := none }, none⟩
      | some p => ⟨(t.scopes.modify s fun scope => { scope with outer := none }).modify p
          (·.save name s), some p⟩ := by
  rw [popAndSave, hcurrent]
  rfl

theorem symbolsIn_popAndSave (t : SymbolTable) (name : String) (id : ScopeId) :
    (t.popAndSave name).symbolsIn id = t.symbolsIn id := by
  cases hcurrent : t.current with
  | none => rw [popAndSave, hcurrent]
  | some left =>
    have hleft := symbolsIn_setOuter t left none none id
    rw [popAndSave_eq hcurrent]
    cases t.outer? left with
    | none => exact hleft
    | some around =>
      have haround := symbolsIn_modify
        (t := ⟨t.scopes.modify left fun s => { s with outer := none }, none⟩)
        (fun s => s.symbols_save name left) id around (some around)
      exact haround.trans hleft

theorem symbolsIn_restore? (h : t.restore? name = some after) (id : ScopeId) :
    after.symbolsIn id = t.symbolsIn id := by
  obtain ⟨p, child, -, -, rfl⟩ := restore?_eq_some.mp h
  exact symbolsIn_setOuter t child (some p) (some child) id

/-- **Only a declaration changes what is bound**, and only in the current scope. -/
theorem symbolsIn_perform {o : TableOperation} (hid : id < t.scopes.size)
    (hdeclares : o.declares = true → t.current ≠ some id) :
    (t.perform o).symbolsIn id = t.symbolsIn id := by
  cases o with
  | push => exact symbolsIn_push hid
  | declare symbol =>
    rw [perform, SymbolTable.declare]
    cases hc : t.current with
    | none => rfl
    | some current =>
      have hne : current ≠ id := fun h => hdeclares rfl (h ▸ hc)
      simp [symbolsIn, Array.getElem?_modify, hne]
  | popAndSave name => exact symbolsIn_popAndSave t name id
  | restore name =>
    rw [perform]
    cases hr : t.restore? name with
    | none => rfl
    | some after => exact symbolsIn_restore? hr id

/-! ## What is saved in a scope -/

theorem lookup_savedIn (t : SymbolTable) (id : ScopeId) (name : String) :
    (t.savedIn id).lookup name = (t.scopes[id]?).bind (·.saved? name) := by
  unfold savedIn
  cases t.scopes[id]? <;> rfl

/-- Saving one more scope in a scope `p` of the table. -/
theorem lookup_savedIn_save (hp : p < t.scopes.size) (current : Option ScopeId) (child id : ScopeId)
    (saved name : String) :
    (savedIn ⟨t.scopes.modify p (·.save saved child), current⟩ id).lookup name =
      ((t.savedIn id).lookup name).or
        (if p = id ∧ name = saved then some child else none) := by
  simp only [lookup_savedIn, Array.getElem?_modify]
  by_cases hid : p = id
  · subst hid
    rw [if_pos rfl, Array.getElem?_eq_getElem hp, Option.map_some, Option.bind_some,
      Option.bind_some]
    cases hsaved : t.scopes[p].saved? saved with
    | none => simp [Scope.saved?_save hsaved]
    | some first =>
      rw [Scope.save_of_saved hsaved]
      by_cases hname : name = saved
      · rw [hname, hsaved, Option.some_or]
      · simp [hname]
  · simp [hid]

/-- **What leaving a scope saves**: the scope, in the one around it, unless something is saved there
under the name. -/
theorem lookup_savedIn_popAndSave (h : t.Nested parent) (id : ScopeId) (saved name : String) :
    ((t.popAndSave saved).savedIn id).lookup name = ((t.savedIn id).lookup name).or
      (if t.current.bind t.outer? = some id ∧ name = saved then t.current else none) := by
  cases hcurrent : t.current with
  | none => simp [popAndSave, hcurrent]
  | some left =>
    have hleft := savedIn_setOuter t left none none id
    rw [popAndSave_eq hcurrent, Option.bind_some]
    cases houter : t.outer? left with
    | none => simp [hleft]
    | some around =>
      have haround := (h.outer_lt left around houter).trans (lt_size_of_outer? houter)
      have hsave := lookup_savedIn_save
        (t := ⟨t.scopes.modify left fun s => { s with outer := none }, none⟩)
        (p := around) (by rwa [Array.size_modify]) (some around) left id saved name
      rw [hleft] at hsave
      simpa using hsave

/-- **What is saved under a name stays saved under it**, whatever is done to the table. -/
theorem lookup_savedIn_perform (h : t.Nested parent) {child : ScopeId}
    (hsaved : (t.savedIn id).lookup name = some child) (o : TableOperation) :
    ((t.perform o).savedIn id).lookup name = some child := by
  cases o with
  | push => rwa [perform, savedIn_push]
  | declare symbol =>
    rw [perform, SymbolTable.declare]
    cases hc : t.current with
    | none => exact hsaved
    | some current =>
      have hkept := savedIn_modify (t := t) (fun s => Scope.saved_bind s symbol) id current
        (some current)
      exact (congrArg (List.lookup name) hkept).trans hsaved
  | popAndSave saved => rw [perform, lookup_savedIn_popAndSave h, hsaved, Option.some_or]
  | restore saved =>
    rw [perform]
    cases hr : t.restore? saved with
    | none => exact hsaved
    | some after =>
      obtain ⟨p, child, -, -, rfl⟩ := restore?_eq_some.mp hr
      rwa [Option.getD_some, savedIn_setOuter]

theorem lookup_savedIn_performAll (h : t.Nested parent) {child : ScopeId}
    (hsaved : (t.savedIn id).lookup name = some child) (operations : List TableOperation) :
    ((t.performAll operations).savedIn id).lookup name = some child := by
  induction operations generalizing t parent with
  | nil => exact hsaved
  | cons o rest ih =>
    obtain ⟨-, parent', hnext, -⟩ := h.perform o
    exact ih hnext (lookup_savedIn_perform h hsaved o)

/-- A scope that is saved in the current one can be entered. -/
theorem restore?_of_lookup (hcurrent : t.current = some p)
    (hsaved : (t.savedIn p).lookup name = some s) : t.restore? name =
      some ⟨t.scopes.modify s fun scope => { scope with outer := some p }, some s⟩ :=
  restore?_eq_some.mpr ⟨p, s, hcurrent, lookup_savedIn t p name ▸ hsaved, rfl⟩

/-! ## The scopes around a scope -/

/-- Two tables that have the same links along the way outwards have the same way. -/
theorem Chain.eq_of_outer {current : Option ScopeId} {ids others : List ScopeId}
    (h : t.Chain current ids) (h' : u.Chain current others)
    (hsame : ∀ x ∈ ids, x ∈ others → u.outer? x = t.outer? x) : ids = others := by
  induction h generalizing others with
  | nil =>
    cases h'
    rfl
  | @cons id rest _ _ ih =>
    cases h' with
    | @cons _ rest' _ hrest' =>
      rw [hsame id List.mem_cons_self List.mem_cons_self] at hrest'
      rw [ih hrest' fun x hx hx' =>
        hsame x (List.mem_cons_of_mem _ hx) (List.mem_cons_of_mem _ hx')]

/-- The scopes are nested, and on the way outwards from the current one each is linked to the scope
that it was opened in, so that the last one was opened in none. -/
structure Rooted (parent : ScopeId → Option ScopeId) (t : SymbolTable) : Prop
    extends t.Nested parent where
  rooted : ∃ ids, t.Chain t.current ids ∧ ∀ id ∈ ids, t.outer? id = parent id

theorem rooted_empty : empty.Rooted fun _ => none where
  toNested := nested_empty
  rooted := ⟨[], .nil, fun _ h => absurd h List.not_mem_nil⟩

theorem Rooted.push (h : t.Rooted parent) :
    t.push.2.Rooted (Function.update parent t.scopes.size t.current) := by
  obtain ⟨ids, hchain, hlinked⟩ := h.rooted
  have hne : ∀ x ∈ ids, x ≠ t.scopes.size := fun x hx => Nat.ne_of_lt (hchain.lt_size x hx)
  have hsize : t.push.2.scopes.size = t.scopes.size + 1 := Array.size_push _
  have hhead : t.push.2.outer? t.scopes.size = t.current := by rw [outer?_push, if_pos rfl]
  have hold : ∀ x ∈ ids, t.push.2.outer? x = t.outer? x := fun x hx => by
    rw [outer?_push, if_neg (hne x hx)]
  refine ⟨h.toNested.push, t.scopes.size :: ids, .cons (hsize ▸ Nat.lt_succ_self _) ?_,
    List.forall_mem_cons.mpr ⟨by rw [hhead, Function.update_self], fun x hx => ?_⟩⟩
  · exact hhead ▸ hchain.congr (hsize ▸ Nat.le_succ _) hold
  · rw [hold x hx, Function.update_of_ne (hne x hx), hlinked x hx]

theorem Rooted.declare (h : t.Rooted parent) {symbol : Symbol} {old : Option Symbol}
    (hd : t.declare symbol = .ok (old, after)) : after.Rooted parent := by
  refine ⟨(h.toNested.declare hd).2, ?_⟩
  obtain ⟨ids, hchain, hlinked⟩ := h.rooted
  unfold SymbolTable.declare at hd
  cases hc : t.current with
  | none =>
    rw [hc] at hd
    cases hd
  | some id =>
    rw [hc] at hd
    cases hd
    have hsame (x : ScopeId) :=
      outer?_modify (t := t) (fun s => Scope.outer_bind s symbol) x id (some id)
    refine ⟨ids, ?_, fun x hx => (hsame x).trans (hlinked x hx)⟩
    exact hc ▸ hchain.congr Array.size_modify.ge fun x _ => hsame x

theorem Rooted.popAndSave (h : t.Rooted parent) (name : String) :
    (t.popAndSave name).Rooted parent := by
  refine ⟨(h.toNested.popAndSave name).2, ?_⟩
  obtain ⟨ids, hchain, hlinked⟩ := h.rooted
  generalize hcurrent : t.current = current at hchain
  cases hchain with
  | nil =>
    have hpop : t.popAndSave name = t := by rw [SymbolTable.popAndSave, hcurrent]
    rw [hpop, hcurrent]
    exact ⟨[], .nil, hlinked⟩
  | @cons id rest hid hrest =>
    obtain ⟨hcurrent', hsize, houter, -⟩ := popAndSave_links hid hcurrent name
    have hsame : ∀ x ∈ rest, (t.popAndSave name).outer? x = t.outer? x := fun x hx => by
      rw [houter, if_neg]
      exact Nat.ne_of_lt (hrest.lt_of_head h.outer_lt (fun p hp => h.outer_lt id p hp) x hx)
    refine ⟨rest, hcurrent' ▸ hrest.congr hsize.ge hsame, fun x hx => ?_⟩
    exact (hsame x hx).trans (hlinked x (List.mem_cons_of_mem _ hx))

theorem Rooted.restore? (h : t.Rooted parent) (hr : t.restore? name = some after) :
    after.Rooted parent := by
  refine ⟨(h.toNested.restore? hr).2.1, ?_⟩
  obtain ⟨ids, hchain, hlinked⟩ := h.rooted
  obtain ⟨p, child, hcurrent, hchild, rfl⟩ := restore?_eq_some.mp hr
  obtain ⟨hparent, hsize⟩ := h.saved p name child (mem_savedIn_of_saved? hchild)
  have houter := outer?_setOuter hsize (some p) (some child)
  have hsame : ∀ x ∈ ids, outer? ⟨t.scopes.modify child fun s => { s with outer := some p },
      some child⟩ x = t.outer? x := fun x hx => by
    rw [houter, if_neg]
    refine Nat.ne_of_lt (hchain.lt_of_head h.outer_lt (fun id hid => ?_) x hx)
    rw [hcurrent] at hid
    exact Option.some.inj hid ▸ h.parent_lt child p hparent
  have hhead := (houter child).trans (if_pos rfl)
  refine ⟨child :: ids, .cons (by rwa [Array.size_modify]) ?_,
    List.forall_mem_cons.mpr ⟨hhead.trans hparent.symm, fun x hx => ?_⟩⟩
  · have hrest := hchain.congr Array.size_modify.ge hsame
    rw [hcurrent] at hrest
    rwa [hhead]
  · exact (hsame x hx).trans (hlinked x hx)

/-- One operation keeps the invariant and the scopes that the older scopes were opened in. -/
theorem Rooted.perform (h : t.Rooted parent) (o : TableOperation) :
    t.scopes.size ≤ (t.perform o).scopes.size ∧ ∃ parent', (t.perform o).Rooted parent' ∧
      ∀ id, id < t.scopes.size → parent' id = parent id := by
  refine ⟨(h.toNested.perform o).1, ?_⟩
  cases o with
  | push => exact ⟨_, h.push, fun id hid => Function.update_of_ne (Nat.ne_of_lt hid) _ _⟩
  | declare symbol =>
    rw [SymbolTable.perform]
    cases hd : t.declare symbol with
    | error => exact ⟨parent, h, fun _ _ => rfl⟩
    | ok answer => exact ⟨parent, h.declare hd, fun _ _ => rfl⟩
  | popAndSave name => exact ⟨parent, h.popAndSave name, fun _ _ => rfl⟩
  | restore name =>
    rw [SymbolTable.perform]
    cases hr : t.restore? name with
    | none => exact ⟨parent, h, fun _ _ => rfl⟩
    | some after => exact ⟨parent, h.restore? hr, fun _ _ => rfl⟩

/-- **Operations keep the invariant**, and the scopes that the older scopes were opened in. -/
theorem Rooted.performAll (h : t.Rooted parent) (operations : List TableOperation) :
    ∃ parent', (t.performAll operations).Rooted parent' ∧
      ∀ id, id < t.scopes.size → parent' id = parent id := by
  induction operations generalizing t parent with
  | nil => exact ⟨parent, h, fun _ _ => rfl⟩
  | cons o rest ih =>
    obtain ⟨hsize, between, hbetween, hsame⟩ := h.perform o
    obtain ⟨parent', hafter, hsame'⟩ := ih hbetween
    exact ⟨parent', hafter, fun id hid => (hsame' id (hid.trans_le hsize)).trans (hsame id hid)⟩

/-! ## A scope that is put aside -/

/-- Along these operations, a scope `s` is not entered, and nothing is declared in the scopes
`around` it. -/
def Spares (s : ScopeId) (around : List ScopeId) : SymbolTable → List TableOperation → Prop
  | _, [] => True
  | t, o :: rest =>
    (o.declares = true → ∀ id ∈ around, t.current ≠ some id) ∧
      (t.perform o).current ≠ some s ∧ Spares s around (t.perform o) rest

instance decidableSpares (s : ScopeId) (around : List ScopeId) :
    ∀ (t : SymbolTable) (operations : List TableOperation),
      Decidable (Spares s around t operations)
  | _, [] => isTrue trivial
  | t, o :: rest =>
    have := decidableSpares s around (t.perform o) rest
    inferInstanceAs (Decidable (_ ∧ _ ∧ _))

/-- **A scope that is put aside keeps its bindings**, and so do the scopes around it. -/
theorem symbolsIn_performAll {around : List ScopeId} {operations : List TableOperation}
    (h : t.Nested parent) (hcurrent : t.current ≠ some s) (hspares : Spares s around t operations)
    (hsizes : ∀ x ∈ s :: around, x < t.scopes.size) :
    ∀ x ∈ s :: around, (t.performAll operations).symbolsIn x = t.symbolsIn x := by
  induction operations generalizing t parent with
  | nil => exact fun _ _ => rfl
  | cons o rest ih =>
    obtain ⟨hdeclares, hnext, hrest⟩ := hspares
    obtain ⟨hsize, parent', hafter, -⟩ := h.perform o
    intro x hx
    have hlater := ih hafter hnext hrest (fun y hy => (hsizes y hy).trans_le hsize) x hx
    refine hlater.trans (symbolsIn_perform (hsizes x hx) fun hd => ?_)
    rcases List.mem_cons.mp hx with rfl | hx
    · exact hcurrent
    · exact hdeclares hd x hx

/-! ## Leaving and entering -/

/-- What the current scope answers about itself. -/
theorem symbols_eq (hcurrent : t.current = some s) :
    t.symbols = (t.symbolsIn s).mergeSort fun a b => decide (a.name ≤ b.name) := by
  rw [symbols, hcurrent, Option.bind_some, symbolsIn]
  cases t.scopes[s]? with
  | none => exact List.mergeSort_nil.symm
  | some scope => rfl

theorem lookupHere?_eq_find? (hcurrent : t.current = some s) (hs : s < t.scopes.size)
    (name : String) : t.lookupHere? name = (t.symbolsIn s).find? (·.name == name) := by
  have hscope := Array.getElem?_eq_getElem hs
  rw [lookupHere?_eq ⟨hcurrent, hscope⟩, find?_symbolsIn, hscope]
  rfl

/-- What it answers about the scopes on the way outwards. -/
theorem Nested.lookup?_eq (h : t.Nested parent) {ids : List ScopeId}
    (hchain : t.Chain t.current ids) (name : String) :
    t.lookup? name = ids.findSome? fun id => (t.symbolsIn id).find? (·.name == name) := by
  simp only [find?_symbolsIn]
  exact hchain.lookupFrom_eq h.outer_lt name fun id hid =>
    hchain.lt_size id (List.mem_of_head? (hchain.current_eq ▸ hid))

/-- **A scope that is current again** has the same scopes around it, and when these have the same
bindings it gives the same answers. -/
theorem Rooted.answers_eq {parent' : ScopeId → Option ScopeId} (h : t.Rooted parent)
    (h' : after.Rooted parent') (hparent : ∀ x, x < t.scopes.size → parent' x = parent x)
    (hcurrent : t.current = some s) (hcurrent' : after.current = some s) {ids : List ScopeId}
    (hchain : t.Chain t.current ids)
    (hsymbols : ∀ x ∈ ids, after.symbolsIn x = t.symbolsIn x) :
    after.symbols = t.symbols ∧ ∀ name, after.lookup? name = t.lookup? name ∧
      after.lookupHere? name = t.lookupHere? name := by
  obtain ⟨own, hown, hlinked⟩ := h.rooted
  obtain rfl := hown.eq_of_outer hchain fun _ _ _ => rfl
  obtain ⟨others, hothers, hlinked'⟩ := h'.rooted
  have hothers' := hothers
  rw [hcurrent', ← hcurrent] at hothers'
  -- links outwards lead to the scopes that scopes were opened in, which are the same in both tables
  obtain rfl := hown.eq_of_outer hothers' fun x hx hx' => by
    rw [hlinked' x hx', hparent x (hown.lt_size x hx), hlinked x hx]
  have hmem : s ∈ own := List.mem_of_head? (hcurrent ▸ hown.current_eq).symm
  have hs := hown.lt_size s hmem
  have hs' := hothers.lt_size s hmem
  refine ⟨?_, fun name => ⟨?_, ?_⟩⟩
  · rw [symbols_eq hcurrent, symbols_eq hcurrent', hsymbols s hmem]
  · rw [h.lookup?_eq hown, h'.lookup?_eq hothers]
    have hsame := List.map_congr_left fun x hx =>
      congrArg (List.find? fun symbol => symbol.name == name) (hsymbols x hx)
    simpa only [List.findSome?_map, Function.id_comp] using congrArg (List.findSome? id) hsame
  · rw [lookupHere?_eq_find? hcurrent hs, lookupHere?_eq_find? hcurrent' hs', hsymbols s hmem]

/-- What is not saved in the current scope cannot be entered, and trying to changes nothing. -/
theorem restore?_eq_none (h : ∀ p, t.current = some p → ∀ id, (name, id) ∉ t.savedIn p) :
    t.restore? name = none ∧ t.perform (.restore name) = t := by
  have hnone : t.restore? name = none := by
    rw [Option.eq_none_iff_forall_ne_some]
    intro after hr
    obtain ⟨p, child, hcurrent, hchild, -⟩ := restore?_eq_some.mp hr
    exact h p hcurrent child (mem_savedIn_of_saved? hchild)
  exact ⟨hnone, by rw [perform, hnone, Option.getD_none]⟩

theorem lookup_eq_none_of_notMem {saved : List (String × ScopeId)}
    (h : ∀ id, (name, id) ∉ saved) : saved.lookup name = none := by
  rw [Option.eq_none_iff_forall_ne_some]
  exact fun id hid => h id (mem_of_lookup hid)

/-- **Saving and restoring is exact.** In every table that operations lead to:

* a scope that is left, and saved under a name that nothing is saved under in the scope around it,
  is entered again by that name from there, as long as it is not entered and nothing is declared in
  the scopes around it in between. It lists the same symbols then and answers the same for every
  name, alone and with the scopes around it, whatever else was done: scopes opened, left, saved
  under the same name or another, and entered, the ones around it included.
* The first scope saved under a name is kept: whatever is done, entering by that name leads to it.
* Entering by a name that nothing is saved under fails and changes nothing. -/
theorem save_restore_exact (operations : List TableOperation) :
    let t := reached operations
    (∀ s p name, t.current = some s → t.outer? s = some p → (∀ id, (name, id) ∉ t.savedIn p) →
      (∀ around later, t.Chain (some p) around → Spares s around (t.popAndSave name) later →
        ((t.popAndSave name).performAll later).current = some p →
        ∃ after, ((t.popAndSave name).performAll later).restore? name = some after ∧
          after.current = some s ∧ after.symbols = t.symbols ∧
          ∀ x, after.lookup? x = t.lookup? x ∧ after.lookupHere? x = t.lookupHere? x) ∧
      ∀ later, ((t.popAndSave name).performAll later).current = some p →
        ∃ after, ((t.popAndSave name).performAll later).restore? name = some after ∧
          after.current = some s) ∧
    ∀ name, (∀ p, t.current = some p → ∀ id, (name, id) ∉ t.savedIn p) →
      t.restore? name = none ∧ t.perform (.restore name) = t := by
  intro t
  obtain ⟨parent, h⟩ : ∃ parent, t.Rooted parent :=
    let ⟨parent, h, _⟩ := rooted_empty.performAll operations
    ⟨parent, h⟩
  refine ⟨fun s p name hcurrent houter hfree => ?_, fun name hnone => restore?_eq_none hnone⟩
  have hs := lt_size_of_outer? houter
  have hleft := h.popAndSave name
  obtain ⟨hcurrent', hsize, -, -⟩ := popAndSave_links hs hcurrent name
  rw [houter] at hcurrent'
  have hsaved : ((t.popAndSave name).savedIn p).lookup name = some s := by
    rw [lookup_savedIn_popAndSave h.toNested, lookup_eq_none_of_notMem hfree, hcurrent,
      Option.bind_some, houter, if_pos ⟨rfl, rfl⟩, Option.none_or]
  have hrestore : ∀ later, ((t.popAndSave name).performAll later).current = some p →
      ((t.popAndSave name).performAll later).restore? name = some _ := fun later hback =>
    restore?_of_lookup hback (lookup_savedIn_performAll hleft.toNested hsaved later)
  refine ⟨fun around later hchain hspares hback => ?_,
    fun later hback => ⟨_, hrestore later hback, rfl⟩⟩
  have hchain' : t.Chain t.current (s :: around) := hcurrent ▸ .cons hs (houter ▸ hchain)
  have hne : (t.popAndSave name).current ≠ some s := by
    rw [hcurrent']
    exact fun hp => Nat.ne_of_lt (h.outer_lt s p houter) (Option.some.inj hp)
  have hkept := symbolsIn_performAll hleft.toNested hne hspares fun x hx =>
    hsize ▸ hchain'.lt_size x hx
  obtain ⟨parent', hlater, hparent⟩ := hleft.performAll later
  have hr := hrestore later hback
  obtain ⟨hsymbols, hlookup⟩ := h.answers_eq (hlater.restore? hr)
    (fun x hx => hparent x (hsize ▸ hx)) hcurrent rfl hchain' fun x hx => by
      rw [symbolsIn_restore? hr, hkept x hx, symbolsIn_popAndSave]
  exact ⟨_, hr, rfl, hsymbols, hlookup⟩

/-- A scope saved as `g` inside another one. Then one more is saved as `g`, and the other one is
left and entered again. -/
theorem save_restore_exact_reentered :
    let t := reached [.push, .push, .declare ⟨"q", 1, .argument 0⟩, .push,
      .declare ⟨"theta", 2, .parameter 0⟩]
    let between := (t.popAndSave "g").performAll [.push, .declare ⟨"x", 3, .parameter 0⟩,
      .popAndSave "g", .popAndSave "f", .push, .popAndSave "h", .restore "f"]
    t.restore? "g" = none ∧ ∃ after, between.restore? "g" = some after ∧ after.current = some 2 ∧
      after.symbols = t.symbols ∧
      ∀ x, after.lookup? x = t.lookup? x ∧ after.lookupHere? x = t.lookupHere? x := by
  intro t between
  have hexact := save_restore_exact [.push, .push, .declare ⟨"q", 1, .argument 0⟩, .push,
    .declare ⟨"theta", 2, .parameter 0⟩]
  have hempty : t.savedIn 2 = [] := by decide
  have hfree : t.savedIn 1 = [] := by decide
  refine ⟨(hexact.2 "g" fun p hp id hid => ?_).1, ?_⟩
  · obtain rfl : 2 = p := Option.some.inj hp
    rw [hempty] at hid
    exact List.not_mem_nil hid
  · refine (hexact.1 2 1 "g" (by decide) (by decide) fun id hid => ?_).1 [1, 0] _
      (.cons (by decide) (.cons (by decide) .nil)) (by decide) (by decide)
    rw [hfree] at hid
    exact List.not_mem_nil hid

end SymbolTable

end OpenQasm
