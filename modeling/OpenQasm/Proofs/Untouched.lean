import OpenQasm.Proofs.Accepted
import OpenQasm.Proofs.Saving

/-!
# Verifying leaves the table as it is

The verification pass enters the scope of every gate whose body it checks, and leaves it again,
also when the body breaks a rule. A scope that is saved in the current one has no link outwards,
since only the scopes on the way outwards from the current one have links; and what is saved under a
name stays saved under it. So leaving a scope that was just entered undoes the entering, whatever
was done to the table before (`Nested.popAndSave_restore?`).

A checker declares and verifies programs in any order and goes on after errors; a declaration that
fails inside a gate's scope leaves that scope open. All that happens to its table are operations
(`leads_complete`), so that the invariant of all tables, `Nested`, holds of it
(`nested_completed`).

* `table_verifyStatement`, `table_verifyAll`: one statement, and the whole pass, on nested scopes.
* **`verification_leaves_table`**: the same of every checker, and what is in the table of an
  accepted program.
-/

namespace OpenQasm

namespace SymbolTable

variable {t after : SymbolTable} {parent : ScopeId → Option ScopeId} {name : String}

/-- A scope that is saved in the current one is closed: the way outwards leads to smaller numbers
only, so it is not on that way. -/
theorem Nested.outer?_of_saved (h : t.Nested parent) {p child : ScopeId}
    (hcurrent : t.current = some p) (hchild : (name, child) ∈ t.savedIn p) :
    t.outer? child = none := by
  obtain ⟨ids, hchain, hlinked⟩ := h.chain
  have hlt : p < child := h.parent_lt child p (h.saved p name child hchild).1
  have hbelow : ∀ x ∈ ids, x < child := hchain.lt_of_head h.outer_lt fun id hid => by
    rw [hcurrent] at hid
    exact Option.some.inj hid ▸ hlt
  rw [← Option.not_isSome_iff_eq_none, hlinked]
  exact fun hmem => Nat.lt_irrefl child (hbelow child (List.mem_of_mem_dropLast hmem))

/-- **Leaving a scope that was just entered undoes the entering.** -/
theorem Nested.popAndSave_restore? (h : t.Nested parent) (hr : t.restore? name = some after) :
    after.popAndSave name = t := by
  obtain ⟨p, child, hcurrent, hsaved, rfl⟩ := restore?_eq_some.mp hr
  have hmem := mem_savedIn_of_saved? hsaved
  have hclosed := h.outer?_of_saved hcurrent hmem
  obtain ⟨hparent, hsize⟩ := h.saved p name child hmem
  have hlt : p < child := h.parent_lt child p hparent
  have hlink := (outer?_setOuter hsize (some p) (some child) child).trans (if_pos rfl)
  rw [popAndSave_eq rfl, hlink]
  obtain ⟨scopes, current⟩ := t
  obtain rfl : current = some p := hcurrent
  dsimp only
  congr 1
  -- scope by scope: the one that was entered is closed again, the one around it has saved the name
  refine Array.ext_getElem? fun id => ?_
  simp only [Array.getElem?_modify]
  cases hid : scopes[id]? with
  | none => simp
  | some scope =>
    have hback : child = id → { scope with outer := none } = scope := by
      rintro rfl
      rw [outer?, hid, Option.bind_some] at hclosed
      rw [← hclosed]
    have hkept : p = id → scope.save name child = scope := by
      rintro rfl
      rw [hid, Option.bind_some] at hsaved
      exact Scope.save_of_saved hsaved child
    by_cases hp : p = id
    · have hne : child ≠ id := hp ▸ Nat.ne_of_gt hlt
      simp [hp, hne, hkept hp]
    · by_cases hchild : child = id
      · simp [hp, hchild, hback hchild]
      · simp [hp, hchild]

end SymbolTable

namespace Check

open SymbolTable

variable {t : SymbolTable} {parent : ScopeId → Option ScopeId}

/-! ## The verification pass -/

theorem table_verifyGate (h : t.Nested parent) (s : Signature) (body : List BodyStatement)
    (pos : SourcePos) : (verifyGate t s body pos).2 = t := by
  unfold verifyGate
  cases hr : t.restore? s.name with
  | none => rfl
  | some inner => exact h.popAndSave_restore? hr

/-- One statement, whether it is legal or not. -/
theorem table_verifyStatement (h : t.Nested parent) (s : Statement) :
    (verifyStatement t s).2 = t := by
  unfold verifyStatement
  cases s.action with
  | gate signature body => exact table_verifyGate h signature body s.pos
  | register | opaqueGate | operation | barrier | conditional => rfl

theorem table_passAll (h : t.Nested parent) (statements : List Statement) :
    (passAll verifyStatement t statements).2 = t := by
  induction statements with
  | nil => rfl
  | cons s rest ih =>
    have hs := table_verifyStatement h s
    rw [passAll]
    cases hv : verifyStatement t s with
    | mk result after =>
      rw [hv] at hs
      subst hs
      cases result with
      | error e => rfl
      | ok u => exact ih

/-- **The verification pass leaves the table as it is**, however it ends. -/
theorem table_verifyAll (h : t.Nested parent) (p : Program) : (verifyAll t p).2 = t :=
  table_passAll h p.statements

/-! ## The declaration pass -/

/-- Operations lead from one table to another. -/
def Leads (t after : SymbolTable) : Prop := ∃ operations, after = t.performAll operations

theorem leads_refl (t : SymbolTable) : Leads t t := ⟨[], rfl⟩

theorem Leads.trans {after last : SymbolTable} (h : Leads t after) (h' : Leads after last) :
    Leads t last := by
  obtain ⟨first, rfl⟩ := h
  obtain ⟨second, rfl⟩ := h'
  exact ⟨first ++ second, List.foldl_append.symm⟩

theorem leads_perform (t : SymbolTable) (o : TableOperation) : Leads t (t.perform o) := ⟨[o], rfl⟩

theorem Leads.nested {after : SymbolTable} (h : Leads t after) (ht : t.Nested parent) :
    ∃ parent', after.Nested parent' := by
  obtain ⟨operations, rfl⟩ := h
  obtain ⟨parent', hafter, -⟩ := ht.performAll operations
  exact ⟨parent', hafter⟩

theorem leads_declare (t : SymbolTable) (name : String) (kind : SymbolKind) (pos : SourcePos) :
    Leads t (declare t name kind pos).2 := by
  unfold declare
  cases t.lookupHere? name with
  | some old => exact leads_refl t
  | none =>
    have hperform := leads_perform t (.declare ⟨name, pos.line, kind⟩)
    rw [perform] at hperform
    dsimp only
    cases hd : t.declare ⟨name, pos.line, kind⟩ with
    | error symbol => exact leads_refl t
    | ok answer => rwa [hd] at hperform

theorem leads_declareFormals (kind : Nat → SymbolKind) (pos : SourcePos) (position : Nat)
    (names : List String) (t : SymbolTable) :
    Leads t (declareFormals kind pos position names t).2 := by
  induction names generalizing position t with
  | nil => exact leads_refl t
  | cons name names ih =>
    have hfirst := leads_declare t name (kind position) pos
    rw [declareFormals]
    cases hd : declare t name (kind position) pos with
    | mk result after =>
      rw [hd] at hfirst
      cases result with
      | error e => exact hfirst
      | ok u => exact hfirst.trans (ih (position + 1) after)

/-- Declaring a gate, also when it fails in the scope of its formals and leaves it open. -/
theorem leads_declareGate (t : SymbolTable) (s : Signature) (pos : SourcePos) :
    Leads t (declareGate t s pos).2 := by
  have hname := leads_declare t s.name (.gate s.formals.length s.arguments.length) pos
  unfold declareGate
  split
  · rename_i bound hbound
    rw [hbound] at hname
    have hopened := hname.trans (leads_perform bound .push)
    have hformals := hopened.trans (leads_declareFormals .parameter pos 0 s.formals bound.push.2)
    split
    · rename_i inner hinner
      rw [hinner] at hformals
      have harguments := hformals.trans (leads_declareFormals .argument pos 0 s.arguments inner)
      split
      · rename_i full hfull
        rw [hfull] at harguments
        exact harguments.trans (leads_perform full (.popAndSave s.name))
      · exact harguments
    · exact hformals
  · exact hname

theorem leads_declareStatement (t : SymbolTable) (s : Statement) :
    Leads t (declareStatement t s).2 := by
  unfold declareStatement
  split
  · split
    · exact leads_refl t
    · exact leads_declare _ _ _ _
  · exact leads_declareGate _ _ _
  · exact leads_declareGate _ _ _
  · exact leads_refl t
  · exact leads_refl t
  · exact leads_refl t

/-- **The declaration pass** does operations to the table, however it ends. -/
theorem leads_declareAll (t : SymbolTable) (p : Program) : Leads t (declareAll t p).2 := by
  unfold declareAll
  induction p.statements generalizing t with
  | nil => exact leads_refl t
  | cons s rest ih =>
    have hs := leads_declareStatement t s
    rw [passAll]
    cases hd : declareStatement t s with
    | mk result after =>
      rw [hd] at hs
      cases result with
      | error e => exact hs
      | ok u => exact hs.trans (ih after)

/-! ## Every checker -/

/-- What a checker is asked to do with a program. -/
inductive Task where
  | declare (p : Program)
  | verify (p : Program)

/-- The table after a task, whether it succeeds or fails. -/
def complete (t : SymbolTable) : Task → SymbolTable
  | .declare p => (declareAll t p).2
  | .verify p => (verifyAll t p).2

/-- The table of a checker after tasks, the first one given to a new checker. -/
def completed (tasks : List Task) : SymbolTable := tasks.foldl complete globalScope

theorem leads_complete (h : t.Nested parent) (task : Task) : Leads t (complete t task) := by
  cases task with
  | declare p => exact leads_declareAll t p
  | verify p =>
    rw [complete, table_verifyAll h]
    exact leads_refl t

/-- **Scopes are nested in every checker.** -/
theorem nested_completed (tasks : List Task) : ∃ parent, (completed tasks).Nested parent := by
  have hglobal : ∃ parent, globalScope.Nested parent := ⟨_, nested_empty.push⟩
  unfold completed
  induction tasks using List.reverseRecOn with
  | nil => exact hglobal
  | append_singleton tasks task ih =>
    obtain ⟨parent, h⟩ := ih
    rw [List.foldl_append]
    exact (leads_complete h task).nested h

/-- The table of an accepted program is that of its declarations. -/
theorem declares_of_check {p : Program} (h : p.check = .ok t) :
    declareAll globalScope p = (.ok (), t) ∧ ∃ root, t.Declares p.statements root := by
  unfold Program.check at h
  cases hd : declareAll globalScope p with
  | mk result declared =>
    rw [hd] at h
    cases result with
    | error e => cases h
    | ok u =>
      obtain ⟨-, -, root, hdeclares⟩ := declares_of_passAll declares_globalScope List.nodup_nil hd
      obtain ⟨parent, hnested⟩ := (leads_declareAll globalScope p).nested nested_empty.push
      have htable := table_verifyAll (hd ▸ hnested) p
      dsimp only at h htable
      cases hv : verifyAll declared p with
      | mk result left =>
        rw [hv] at h htable
        cases result with
        | error e => cases h
        | ok u =>
          obtain rfl : left = t := Except.ok.inj h
          obtain rfl : left = declared := htable
          exact ⟨rfl, root, hdeclares⟩

/-- **Verifying leaves the table as it is.** In every checker, whatever it has declared and verified
before, with whatever errors, a verification ends with the table that it found: the same current
scope, and in every scope the same symbols, saved scopes and link outwards. So what an accepted
program answers is the table of its declarations. The global scope is current there, and under the
name of each gate, opaque or not, a scope is saved in it which binds the parameters and the
arguments of that gate by their positions, and nothing else. -/
theorem verification_leaves_table :
    (∀ tasks p, (verifyAll (completed tasks) p).2 = completed tasks) ∧
    ∀ (p : Program) t, p.check = .ok t →
      declareAll globalScope p = (.ok (), t) ∧ t.current = some 0 ∧
      ∀ s ∈ p.statements, ∀ signature, s.action.signature? = some signature →
        ∃ id scope, (t.savedIn 0).lookup signature.name = some id ∧
          t.scopes[id]? = some scope ∧ scope.outer = none ∧
          scope.bindings =
            (signature.formals.zipIdx.map fun f => (f.1, .parameter f.2)) ++
              signature.arguments.zipIdx.map fun a => (a.1, .argument a.2) := by
  refine ⟨fun tasks p => ?_, fun p t hcheck => ?_⟩
  · obtain ⟨parent, h⟩ := nested_completed tasks
    exact table_verifyAll h p
  · obtain ⟨hdeclared, root, hdeclares⟩ := declares_of_check hcheck
    refine ⟨hdeclared, hdeclares.at_root.current, fun s hs signature hsignature => ?_⟩
    obtain ⟨id, scope, hsaved, -, hscope, houter, hbindings⟩ :=
      hdeclares.saves s hs signature hsignature
    refine ⟨id, scope, ?_, hscope, houter, hbindings⟩
    rw [lookup_savedIn, hdeclares.at_root.scopes]
    exact hsaved

/-- A gate and an opaque one:
```
gate turn(theta) a { U(theta, 0, 0) a; }
opaque swap x, y;
```
-/
def turnAndSwap : Program where
  file := "turn.qasm"
  version := ⟨20, -1⟩
  includes := []
  statements :=
    [⟨.gate ⟨"turn", some ["theta"], ["a"]⟩
        [⟨.call ⟨.rotation,
          some [.operand ⟨"theta", none, ⟨"turn.qasm", 2, 24⟩⟩, .integer 0 ⟨"turn.qasm", 2, 31⟩,
            .integer 0 ⟨"turn.qasm", 2, 34⟩],
          [⟨"a", none, ⟨"turn.qasm", 2, 37⟩⟩]⟩, ⟨"turn.qasm", 2, 22⟩⟩], ⟨"turn.qasm", 2, 1⟩⟩,
      ⟨.opaqueGate ⟨"swap", none, ["x", "y"]⟩, ⟨"turn.qasm", 3, 1⟩⟩]

/-- A gate whose arguments have one name: its declaration fails in the scope of the formals. -/
def repeatedArgument : Program where
  file := "repeated.qasm"
  version := ⟨20, -1⟩
  includes := []
  statements := [⟨.gate ⟨"g", none, ["a", "a"]⟩ [], ⟨"repeated.qasm", 2, 1⟩⟩]

/-- A checker that has failed in the scope of a gate stands there, and verifying the gate, which
fails as well, leaves it there; the table of an accepted program holds the formals of its gates. -/
theorem verification_leaves_table_turnAndSwap :
    let stuck := completed [.declare repeatedArgument]
    (stuck.current = some 1 ∧ (verifyAll stuck repeatedArgument).1 ≠ .ok () ∧
      (verifyAll stuck repeatedArgument).2 = stuck) ∧
    ∃ t, turnAndSwap.check = .ok t ∧ t.current = some 0 ∧
      ∃ id scope, (t.savedIn 0).lookup "turn" = some id ∧ t.scopes[id]? = some scope ∧
        scope.bindings = [("theta", .parameter 0), ("a", .argument 0)] := by
  intro stuck
  obtain ⟨huntouched, haccepted⟩ := verification_leaves_table
  refine ⟨⟨by decide +kernel, by decide +kernel, huntouched _ _⟩, ?_⟩
  have hcheck : ∃ t, turnAndSwap.check = .ok t := by
    refine ⟨(declareAll globalScope turnAndSwap).2, ?_⟩
    decide +kernel
  obtain ⟨t, ht⟩ := hcheck
  obtain ⟨-, hcurrent, hsaves⟩ := haccepted turnAndSwap t ht
  obtain ⟨id, scope, hsaved, hscope, -, hbindings⟩ :=
    hsaves _ List.mem_cons_self ⟨"turn", some ["theta"], ["a"]⟩ rfl
  exact ⟨t, ht, hcurrent, id, scope, hsaved, hscope, hbindings⟩

end Check

end OpenQasm
