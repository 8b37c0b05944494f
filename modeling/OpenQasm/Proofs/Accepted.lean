import OpenQasm.Proofs.Legal
import OpenQasm.Proofs.Scopes

/-!
# Accepted programs

What the two passes of `Program.check` find out together, said without a symbol table.

* `globals statements` is what the declarations of some statements bind, and `Signature.env` hides
  it behind the formals of a gate.
* `SymbolTable.Declares t statements`: the global scope of `t` binds exactly the globals, and the
  scope of each gate's formals is saved in it. One statement of the declaration pass adds itself
  (`declares_of_declareStatement`), and the verification pass leaves the table as it is
  (`verifyStatement_eq_ok`).
* `wellFormed_of_check`: an accepted program is well formed.
-/

namespace OpenQasm

/-- The name that a statement declares, with what it stands for. -/
def Action.declares : Action → Option (String × SymbolKind)
  | .register kind name width => some (name, .register kind width)
  | .gate s _ | .opaqueGate s => some (s.name, .gate s.formals.length s.arguments.length)
  | .operation _ | .barrier _ | .conditional .. => none

/-- The signature of the gate that a statement declares. -/
def Action.signature? : Action → Option Signature
  | .gate s _ | .opaqueGate s => some s
  | .register .. | .operation _ | .barrier _ | .conditional .. => none

/-- What the declarations of some statements bind. -/
def globals (statements : List Statement) : List (String × SymbolKind) :=
  statements.filterMap (·.action.declares)

/-- The names that some statements declare. -/
def declaredNames (statements : List Statement) : List String := (globals statements).map Prod.fst

/-- What the formals of a gate bind. -/
def Signature.locals (s : Signature) : List (String × SymbolKind) :=
  (s.formals.zipIdx.map fun p => (p.1, .parameter p.2)) ++
    s.arguments.zipIdx.map fun p => (p.1, .argument p.2)

/-- The environment of all the declarations of some statements. -/
def globalEnv (statements : List Statement) : Env := fun name => (globals statements).lookup name

/-- The environment of a gate's body: its formals hide what is around them. -/
def Signature.env (s : Signature) (env : Env) : Env :=
  fun name => (s.locals.lookup name).or (env name)

/-- A statement is legal. -/
def Env.LegalAction (env : Env) : Action → Prop
  | .register .. | .opaqueGate _ => True
  | .gate s body => ∀ b ∈ body, (s.env env).LegalBody b.action
  | .operation o => env.LegalOperation o
  | .barrier operands => ∀ v ∈ operands, env.Qubit v
  | .conditional register value o _ =>
    env.Classical register ∧ env.LegalExpr value ∧ env.LegalOperation o

/-- The declaration of a statement is sound by itself: a register has a bit, and the formals of a
gate differ. -/
def Action.Sound : Action → Prop
  | .register _ _ width => width ≠ 0
  | .gate s _ | .opaqueGate s => (s.formals ++ s.arguments).Nodup
  | .operation _ | .barrier _ | .conditional .. => True

/-- A program whose declarations are sound, whose names are declared once, and whose statements are
legal. -/
structure Program.WellFormed (p : Program) : Prop where
  sound : ∀ s ∈ p.statements, s.action.Sound
  distinct : (declaredNames p.statements).Nodup
  legal : ∀ s ∈ p.statements, (globalEnv p.statements).LegalAction s.action

theorem globals_append (xs ys : List Statement) : globals (xs ++ ys) = globals xs ++ globals ys :=
  List.filterMap_append

theorem globals_singleton (s : Statement) : globals [s] = s.action.declares.toList := by
  rw [globals, List.filterMap_cons]
  cases s.action.declares <;> rfl

theorem declaredNames_append (xs ys : List Statement) :
    declaredNames (xs ++ ys) = declaredNames xs ++ declaredNames ys := by
  rw [declaredNames, globals_append, List.map_append]
  rfl

/-! ## The scopes of gates -/

theorem bindings_formalSymbols (kind : Nat → SymbolKind) (line : Nat) : ∀ (position : Nat)
    (names : List String),
    ((formalSymbols kind line position names).map fun b => (b.name, b.kind)) =
      (names.zipIdx position).map fun p => (p.1, kind p.2)
  | _, [] => rfl
  | position, name :: names => by
    rw [formalSymbols, List.zipIdx_cons, List.map_cons, List.map_cons,
      bindings_formalSymbols kind line (position + 1) names]

theorem bindings_symbols (s : Signature) (line : Nat) :
    ((s.symbols line).map fun b => (b.name, b.kind)) = s.locals := by
  rw [Signature.symbols, List.map_append, bindings_formalSymbols, bindings_formalSymbols]
  rfl

namespace SymbolTable

/-- The scope that a scope holds saved for a gate: closed, and with the gate's formals. -/
def Saves (t : SymbolTable) (root : Scope) (s : Signature) : Prop :=
  ∃ id inner, root.saved? s.name = some id ∧ id ≠ 0 ∧ t.scopes[id]? = some inner ∧
    inner.outer = none ∧ inner.bindings = s.locals

/-- The table holds the declarations of some statements. -/
structure Declares (t : SymbolTable) (statements : List Statement) (root : Scope) : Prop where
  at_root : t.At 0 root
  outer : root.outer = none
  bindings : root.bindings = globals statements
  saved_names : ∀ name id, root.saved? name = some id → name ∈ declaredNames statements
  saves : ∀ s ∈ statements, ∀ signature, s.action.signature? = some signature →
    t.Saves root signature

variable {t after : SymbolTable} {statements : List Statement} {root : Scope}

theorem Declares.names (h : t.Declares statements root) :
    root.names = declaredNames statements := by
  rw [declaredNames, ← h.bindings]
  unfold Scope.names Scope.bindings
  rw [List.map_map]
  rfl

/-- The environment of a table that holds the declarations. -/
theorem Declares.kinds (h : t.Declares statements root) : t.kinds = globalEnv statements := by
  funext name
  rw [SymbolTable.kinds, lookup?_eq_of_global h.at_root h.outer, Scope.find?_kind, h.bindings]
  rfl

/-- **A saved scope, entered and left again**: inside, the formals hide what is around; afterwards
the table is what it was. -/
theorem Declares.restore (h : t.Declares statements root) {signature : Signature}
    (hs : t.Saves root signature) :
    ∃ inner, t.restore? signature.name = some inner ∧ inner.kinds = signature.env t.kinds ∧
      inner.popAndSave signature.name = t := by
  obtain ⟨id, scope, hsaved, hne, hscope, hclosed, hbindings⟩ := hs
  have hat : SymbolTable.At ⟨t.scopes.modify id fun s => { s with outer := some 0 }, some id⟩ id
      { scope with outer := some 0 } := by
    refine ⟨rfl, ?_⟩
    rw [Array.getElem?_modify, if_pos rfl, hscope]
    rfl
  have hroot : (t.scopes.modify id fun s => { s with outer := some 0 })[0]? = some root := by
    rw [Array.getElem?_modify, if_neg hne, h.at_root.scopes]
  refine ⟨⟨t.scopes.modify id fun s => { s with outer := some 0 }, some id⟩, ?_, ?_, ?_⟩
  · unfold restore?
    simp only [h.at_root.current, h.at_root.scopes, Option.bind_some, hsaved]
  · funext name
    rw [SymbolTable.kinds, lookup?_eq_of_inner hat rfl hne hroot h.outer, Signature.env, h.kinds,
      globalEnv, ← h.bindings, ← hbindings, ← Scope.find?_kind, ← Scope.find?_kind,
      Option.map_or]
    rfl
  · have hscopes := scopes_popAndSave hat rfl hne signature.name
    have hcurrent := current_popAndSave hat rfl signature.name
    generalize SymbolTable.popAndSave _ _ = left at hscopes hcurrent
    obtain ⟨scopes, current⟩ := left
    obtain ⟨before, open_⟩ := t
    obtain rfl : open_ = some 0 := h.at_root.current
    obtain rfl : current = some 0 := hcurrent
    congr 1
    -- scope by scope: the root has saved this name before, the inner scope is closed again
    refine Array.ext_getElem? fun j => ?_
    rw [hscopes j]
    by_cases hj : j = 0
    · subst hj
      rw [if_pos rfl, hroot, Option.map_some, Scope.save_of_saved hsaved]
      exact h.at_root.scopes.symm
    · rw [if_neg hj]
      by_cases hi : j = id
      · subst hi
        rw [if_pos rfl, ← hclosed]
        exact hscope.symm
      · rw [if_neg hi, Array.getElem?_modify, if_neg (Ne.symm hi)]

/-! ## The declaration pass -/

section Append

open Check

variable {before : List Statement}

theorem declares_globalScope : globalScope.Declares [] (.empty none) where
  at_root := at_push SymbolTable.empty
  outer := rfl
  bindings := rfl
  saved_names _ _ h := nomatch h
  saves _ h := absurd h List.not_mem_nil

/-- A statement that declares nothing. -/
theorem Declares.append_plain (h : t.Declares before root) {s : Statement}
    (hd : s.action.declares = none) (hs : s.action.signature? = none) :
    t.Declares (before ++ [s]) root where
  at_root := h.at_root
  outer := h.outer
  bindings := by
    rw [globals_append, h.bindings, globals_singleton, hd]
    exact (List.append_nil _).symm
  saved_names name id hsaved := by
    rw [declaredNames_append]
    exact List.mem_append_left _ (h.saved_names name id hsaved)
  saves statement hm signature hsignature := by
    rcases List.mem_append.mp hm with hm | hm
    · exact h.saves statement hm signature hsignature
    · obtain rfl := List.mem_singleton.mp hm
      rw [hs] at hsignature
      cases hsignature

/-- A register. -/
theorem Declares.append_register (h : t.Declares before root) {s : Statement}
    {kind : RegisterKind} {name : String} {width : Nat}
    (hs : s.action = .register kind name width) (line : Nat) :
    (t.extend 0 [⟨name, line, .register kind width⟩]).Declares (before ++ [s])
      (root.append [⟨name, line, .register kind width⟩]) where
  at_root := h.at_root.extend _
  outer := h.outer
  bindings := by
    rw [globals_append, Scope.bindings_append, h.bindings, globals_singleton, hs]
    rfl
  saved_names other id hsaved := by
    rw [declaredNames_append]
    exact List.mem_append_left _ (h.saved_names other id hsaved)
  saves statement hm signature hsignature := by
    rcases List.mem_append.mp hm with hm | hm
    · obtain ⟨id, inner, hsaved, hne, hinner, hrest⟩ := h.saves statement hm signature hsignature
      refine ⟨id, inner, hsaved, hne, ?_, hrest⟩
      rw [SymbolTable.extend, Array.getElem?_modify, if_neg (Ne.symm hne), hinner]
    · obtain rfl := List.mem_singleton.mp hm
      rw [hs] at hsignature
      cases hsignature

/-- A gate, with the scope of its formals. -/
theorem Declares.append_gate (h : t.Declares before root) {s : Statement} {signature : Signature}
    (hs : s.action.signature? = some signature)
    (hd : s.action.declares =
      some (signature.name, .gate signature.formals.length signature.arguments.length))
    (hnew : signature.name ∉ declaredNames before) (line : Nat) :
    ((openGate t signature line).popAndSave signature.name).Declares (before ++ [s])
      ((root.append [signature.symbol line]).save signature.name t.scopes.size) := by
  obtain ⟨hcurrent, hscopes⟩ := saveGate h.at_root signature line
  have hunsaved : (root.append [signature.symbol line]).saved? signature.name = none := by
    rw [← Option.not_isSome_iff_eq_none]
    intro hsome
    obtain ⟨id, hid⟩ := Option.isSome_iff_exists.mp hsome
    exact hnew (h.saved_names _ _ hid)
  have hsaved := Scope.saved?_save hunsaved t.scopes.size
  have hsymbols : ((root.append [signature.symbol line]).save signature.name
      t.scopes.size).symbols = (root.append [signature.symbol line]).symbols := by
    rw [Scope.save, hunsaved]
    rfl
  have houter : ((root.append [signature.symbol line]).save signature.name
      t.scopes.size).outer = root.outer := by
    rw [Scope.save, hunsaved]
    rfl
  have hpos : t.scopes.size ≠ 0 := Nat.ne_of_gt h.at_root.lt
  have hdeclared : declaredNames (before ++ [s]) = declaredNames before ++ [signature.name] := by
    rw [declaredNames_append]
    rw [declaredNames, declaredNames, globals_singleton, hd]
    rfl
  constructor
  · exact ⟨hcurrent, by rw [hscopes 0, if_pos rfl]⟩
  · rw [houter, h.outer]
  · rw [Scope.bindings, hsymbols, ← Scope.bindings, Scope.bindings_append, h.bindings,
      globals_append, globals_singleton, hd]
    rfl
  · intro other id hother
    rw [hsaved] at hother
    rw [hdeclared, List.mem_append]
    by_cases ho : other = signature.name
    · exact Or.inr (by rw [ho]; exact List.mem_singleton_self _)
    · rw [if_neg ho, Option.or_none] at hother
      exact Or.inl (h.saved_names _ _ hother)
  · intro statement hm other hother
    rcases List.mem_append.mp hm with hm | hm
    · obtain ⟨id, inner, hid, hne, hinner, hrest⟩ := h.saves statement hm other hother
      refine ⟨id, inner, ?_, hne, ?_, hrest⟩
      · rw [hsaved]
        exact Option.or_eq_some_iff.mpr (Or.inl hid)
      · have hlt : id < t.scopes.size := (Array.getElem?_eq_some_iff.mp hinner).1
        rw [hscopes id, if_neg hne, if_neg (Nat.ne_of_lt hlt), hinner]
    · obtain rfl := List.mem_singleton.mp hm
      obtain rfl := Option.some.inj (hs.symm.trans hother)
      refine ⟨t.scopes.size, ⟨signature.symbols line, none, []⟩, ?_, hpos, ?_, rfl,
        bindings_symbols signature line⟩
      · rw [hsaved, if_pos rfl]
        rw [show (root.append [signature.symbol line]).saved? signature.name = none from hunsaved]
        rfl
      · rw [hscopes, if_neg hpos, if_pos rfl]

end Append

end SymbolTable

namespace Check

open SymbolTable

variable {t after : SymbolTable} {before : List Statement} {root : Scope}

/-- One statement of the declaration pass: its declaration is sound and its name is new, and the
table holds it afterwards. -/
theorem declares_of_declareStatement (h : t.Declares before root) {s : Statement}
    (hd : declareStatement t s = (.ok (), after)) :
    s.action.Sound ∧ (∀ name ∈ declaredNames [s], name ∉ declaredNames before) ∧
      ∃ next, after.Declares (before ++ [s]) next := by
  have hsingle : ∀ {name : String} {kind : SymbolKind}, s.action.declares = some (name, kind) →
      name ∉ declaredNames before → ∀ other ∈ declaredNames [s], other ∉ declaredNames before := by
    intro name kind hs hname other hother
    rw [declaredNames, globals_singleton, hs] at hother
    rwa [show other = name from List.mem_singleton.mp hother]
  have hplain : s.action.declares = none → ∀ other ∈ declaredNames [s],
      other ∉ declaredNames before := by
    intro hs other hother
    rw [declaredNames, globals_singleton, hs] at hother
    exact absurd hother List.not_mem_nil
  have hgate : ∀ {signature : Signature}, s.action.signature? = some signature →
      s.action.declares =
        some (signature.name, .gate signature.formals.length signature.arguments.length) →
      declareGate t signature s.pos = (.ok (), after) →
      (signature.formals ++ signature.arguments).Nodup ∧
        (∀ name ∈ declaredNames [s], name ∉ declaredNames before) ∧
        ∃ next, after.Declares (before ++ [s]) next := by
    intro signature hs hdeclares hd
    obtain ⟨hname, hnodup, rfl⟩ := (declareGate_eq_ok h.at_root).mp hd
    rw [h.names] at hname
    exact ⟨hnodup, hsingle hdeclares hname, _, h.append_gate hs hdeclares hname s.pos.line⟩
  unfold declareStatement at hd
  cases hs : s.action with
  | register kind name width =>
    rw [hs] at hd hsingle
    simp only at hd
    split at hd
    · cases (Prod.mk.inj hd).1
    · rename_i hwidth
      obtain ⟨hname, rfl⟩ := (declare_eq_ok h.at_root).mp hd
      rw [h.names] at hname
      exact ⟨hwidth, hsingle rfl hname, _, h.append_register hs s.pos.line⟩
  | gate signature body =>
    rw [hs] at hd hgate
    exact hgate rfl rfl hd
  | opaqueGate signature =>
    rw [hs] at hd hgate
    exact hgate rfl rfl hd
  | operation o =>
    rw [hs] at hd hplain
    obtain rfl := (Prod.mk.inj hd).2
    exact ⟨trivial, hplain rfl, root, h.append_plain (by rw [hs]; rfl) (by rw [hs]; rfl)⟩
  | barrier operands =>
    rw [hs] at hd hplain
    obtain rfl := (Prod.mk.inj hd).2
    exact ⟨trivial, hplain rfl, root, h.append_plain (by rw [hs]; rfl) (by rw [hs]; rfl)⟩
  | conditional register value o pos =>
    rw [hs] at hd hplain
    obtain rfl := (Prod.mk.inj hd).2
    exact ⟨trivial, hplain rfl, root, h.append_plain (by rw [hs]; rfl) (by rw [hs]; rfl)⟩

theorem passAll_cons_eq_ok {pass : SymbolTable → Statement → Pass} {s : Statement}
    {rest : List Statement} :
    passAll pass t (s :: rest) = (.ok (), after) ↔
      ∃ next, pass t s = (.ok (), next) ∧ passAll pass next rest = (.ok (), after) := by
  rw [passAll]
  cases hp : pass t s with
  | mk result next =>
    cases result with
    | error e =>
      refine ⟨fun h => ?_, fun ⟨_, h, _⟩ => ?_⟩
      · cases (Prod.mk.inj h).1
      · cases (Prod.mk.inj h).1
    | ok u => exact ⟨fun h => ⟨next, rfl, h⟩, fun ⟨_, h, hr⟩ => by cases h; exact hr⟩

/-- **The declaration pass**: the declarations are sound, no name is declared twice, and the table
holds them all. -/
theorem declares_of_passAll : ∀ {rest before : List Statement} {t after : SymbolTable}
    {root : Scope}, t.Declares before root → (declaredNames before).Nodup →
    passAll declareStatement t rest = (.ok (), after) →
    (∀ s ∈ rest, s.action.Sound) ∧ (declaredNames (before ++ rest)).Nodup ∧
      ∃ last, after.Declares (before ++ rest) last
  | [], before, t, after, root, h, hd, hp => by
    obtain rfl := (Prod.mk.inj hp).2
    rw [List.append_nil]
    exact ⟨fun _ hs => absurd hs List.not_mem_nil, hd, root, h⟩
  | s :: rest, before, t, after, root, h, hd, hp => by
    obtain ⟨next, hs, hr⟩ := passAll_cons_eq_ok.mp hp
    obtain ⟨hsound, hnew, _, hnext⟩ := declares_of_declareStatement h hs
    have hdistinct : (declaredNames (before ++ [s])).Nodup := by
      rw [declaredNames_append, List.nodup_append']
      refine ⟨hd, ?_, fun name hb hs => hnew name hs hb⟩
      rw [declaredNames, globals_singleton]
      cases s.action.declares <;> simp
    obtain ⟨hrest, hall, last, hlast⟩ := declares_of_passAll hnext hdistinct hr
    rw [List.append_assoc, List.singleton_append] at hall hlast
    exact ⟨List.forall_mem_cons.mpr ⟨hsound, hrest⟩, hall, last, hlast⟩

/-! ## The verification pass -/

theorem verifyGate_eq_ok {statements : List Statement} (h : t.Declares statements root)
    {signature : Signature} (hs : t.Saves root signature) {body : List BodyStatement}
    {pos : SourcePos} :
    verifyGate t signature body pos = (.ok (), after) ↔
      (∀ b ∈ body, (signature.env t.kinds).LegalBody b.action) ∧ after = t := by
  obtain ⟨inner, hrestore, hkinds, hleave⟩ := h.restore hs
  unfold verifyGate
  simp only [hrestore, hleave, Prod.mk.injEq, mapError_eq_ok, forM_eq_ok, checkBodyStatement_eq_ok,
    hkinds]
  exact and_congr_right fun _ => eq_comm

/-- **A statement is verified exactly when it is legal**, and the table stays as it is. -/
theorem verifyStatement_eq_ok {statements : List Statement} (h : t.Declares statements root)
    {s : Statement} (hs : s ∈ statements) :
    verifyStatement t s = (.ok (), after) ↔ t.kinds.LegalAction s.action ∧ after = t := by
  have hsaves := h.saves s hs
  unfold verifyStatement
  cases ha : s.action with
  | register kind name width =>
    simp only [Env.LegalAction, Prod.mk.injEq, true_and]
    exact eq_comm
  | opaqueGate signature =>
    simp only [Env.LegalAction, Prod.mk.injEq, true_and]
    exact eq_comm
  | gate signature body =>
    rw [ha] at hsaves
    exact verifyGate_eq_ok h (hsaves signature rfl)
  | operation o =>
    simp only [Env.LegalAction, Prod.mk.injEq, checkOperation_eq_ok]
    exact and_congr_right fun _ => eq_comm
  | barrier operands =>
    simp only [Env.LegalAction, Prod.mk.injEq, checkBarrier, checkQubits_eq_ok]
    exact and_congr_right fun _ => eq_comm
  | conditional register value o pos =>
    simp only [Env.LegalAction, Prod.mk.injEq, checkConditional_eq_ok]
    exact and_congr_right fun _ => eq_comm

/-- **The verification pass**: every statement is legal, and the table stays as it is. -/
theorem legal_of_passAll {statements : List Statement} (h : t.Declares statements root) :
    ∀ {rest : List Statement}, (∀ s ∈ rest, s ∈ statements) →
      passAll verifyStatement t rest = (.ok (), after) →
      (∀ s ∈ rest, t.kinds.LegalAction s.action) ∧ after = t
  | [], _, hp => ⟨fun _ hs => absurd hs List.not_mem_nil, (Prod.mk.inj hp).2.symm⟩
  | s :: rest, hm, hp => by
    obtain ⟨hs, hm⟩ := List.forall_mem_cons.mp hm
    obtain ⟨next, hv, hr⟩ := passAll_cons_eq_ok.mp hp
    obtain ⟨hlegal, hnext⟩ := (verifyStatement_eq_ok h hs).mp hv
    rw [hnext] at hr
    obtain ⟨hrest, hafter⟩ := legal_of_passAll h hm hr
    exact ⟨List.forall_mem_cons.mpr ⟨hlegal, hrest⟩, hafter⟩

end Check

/-- **Accepted programs are well formed.** -/
theorem Program.wellFormed_of_check {p : Program} {t : SymbolTable} (h : p.check = .ok t) :
    p.WellFormed := by
  unfold check at h
  cases hd : Check.declareAll Check.globalScope p with
  | mk result declared =>
    rw [hd] at h
    cases result with
    | error e => cases h
    | ok u =>
      obtain ⟨hsound, hdistinct, root, hdeclares⟩ :=
        Check.declares_of_passAll SymbolTable.declares_globalScope List.nodup_nil hd
      cases hv : Check.verifyAll declared p with
      | mk result left =>
        simp only [hv] at h
        cases result with
        | error e => cases h
        | ok u =>
          obtain ⟨hlegal, -⟩ := Check.legal_of_passAll hdeclares (fun _ hs => hs) hv
          rw [hdeclares.kinds] at hlegal
          exact ⟨hsound, hdistinct, hlegal⟩

end OpenQasm
