import Mathlib.Data.List.Nodup
import OpenQasm.Proofs.Fallible
import OpenQasm.Scope.Check

/-!
# Declaring names in scopes

What the declaration pass does to the current scope. `SymbolTable.At t id scope` says that `id` is
current and holds `scope`; declaring a name then succeeds exactly when the scope does not bind it
yet, and appends it (`declare_eq_ok`). The formals of a gate are appended to its scope in order
(`declareFormals_eq_ok`), and leaving that scope saves it in the global one
(`declareGate_eq_ok`, `saveGate`).
-/

namespace OpenQasm

namespace Scope

/-- The names that a scope binds. -/
def names (s : Scope) : List String := s.symbols.map Symbol.name

/-- The bindings of a scope: its names, and what they stand for. -/
def bindings (s : Scope) : List (String × SymbolKind) := s.symbols.map fun b => (b.name, b.kind)

/-- More symbols in a scope. -/
def append (s : Scope) (symbols : List Symbol) : Scope :=
  { s with symbols := s.symbols ++ symbols }

theorem find?_eq_none_iff {s : Scope} {name : String} :
    s.find? name = none ↔ name ∉ s.names := by
  simp only [find?, names, List.find?_eq_none, List.mem_map, beq_iff_eq, not_exists, not_and]

/-- What a scope finds is what its bindings say. -/
theorem find?_kind (s : Scope) (name : String) :
    (s.find? name).map Symbol.kind = s.bindings.lookup name := by
  unfold find? bindings
  induction s.symbols with
  | nil => rfl
  | cons b rest ih =>
    rw [List.find?_cons, List.map_cons, List.lookup_cons]
    by_cases hb : b.name = name
    · subst hb
      simp
    · have hne : (name == b.name) = false := by simpa using Ne.symm hb
      have hne' : (b.name == name) = false := by simpa using hb
      simp only [hne, hne', ih]

theorem bind_eq_append {s : Scope} {symbol : Symbol} (h : symbol.name ∉ s.names) :
    s.bind symbol = s.append [symbol] := by
  rw [bind, if_neg]
  · rfl
  · rw [find?_eq_none_iff.mpr h]
    exact Bool.false_ne_true

/-- What is saved after a scope is saved under a new name. -/
theorem saved?_save {s : Scope} {name : String} (h : s.saved? name = none) (id : Nat)
    (other : String) :
    (s.save name id).saved? other =
      (s.saved? other).or (if other = name then some id else none) := by
  rw [save, if_neg (by rw [h]; exact Bool.false_ne_true), saved?, List.lookup_append]
  congr 1
  by_cases ho : other = name
  · subst ho
    simp
  · have hne : (other == name) = false := by simpa using ho
    simp [List.lookup_cons, hne, ho]

/-- Saving under a name that is taken changes nothing. -/
theorem save_of_saved {s : Scope} {name : String} {id : Nat} (h : s.saved? name = some id)
    (other : Nat) : s.save name other = s := by
  rw [save, if_pos (by rw [h]; rfl)]

theorem names_append (s : Scope) (symbols : List Symbol) :
    (s.append symbols).names = s.names ++ symbols.map Symbol.name := List.map_append

theorem bindings_append (s : Scope) (symbols : List Symbol) :
    (s.append symbols).bindings = s.bindings ++ symbols.map fun b => (b.name, b.kind) :=
  List.map_append

theorem append_append (s : Scope) (xs ys : List Symbol) :
    (s.append xs).append ys = s.append (xs ++ ys) := by
  simp only [append, List.append_assoc]

end Scope

namespace SymbolTable

/-- The scope `id` is current, and is `scope`. -/
structure At (t : SymbolTable) (id : Nat) (scope : Scope) : Prop where
  current : t.current = some id
  scopes : t.scopes[id]? = some scope

/-- More symbols in one scope of a table. -/
def extend (t : SymbolTable) (id : Nat) (symbols : List Symbol) : SymbolTable :=
  { t with scopes := t.scopes.modify id (·.append symbols) }

variable {t : SymbolTable} {id : Nat} {scope : Scope}

theorem At.lt (h : t.At id scope) : id < t.scopes.size :=
  (Array.getElem?_eq_some_iff.mp h.scopes).1

theorem At.extend (h : t.At id scope) (symbols : List Symbol) :
    (t.extend id symbols).At id (scope.append symbols) := by
  refine ⟨h.current, ?_⟩
  rw [SymbolTable.extend, Array.getElem?_modify, if_pos rfl, h.scopes]
  rfl

theorem extend_nil (t : SymbolTable) (id : Nat) : t.extend id [] = t := by
  obtain ⟨scopes, current⟩ := t
  simp only [extend, Scope.append, List.append_nil, mk.injEq, and_true]
  refine Array.ext_getElem? fun j => ?_
  rw [Array.getElem?_modify]
  by_cases hj : id = j
  · rw [if_pos hj]
    cases scopes[j]? <;> rfl
  · rw [if_neg hj]

theorem extend_extend (t : SymbolTable) (id : Nat) (xs ys : List Symbol) :
    (t.extend id xs).extend id ys = t.extend id (xs ++ ys) := by
  simp only [extend, mk.injEq, and_true]
  refine Array.ext_getElem? fun j => ?_
  simp only [Array.getElem?_modify]
  by_cases hj : id = j
  · simp only [if_pos hj, Option.map_map]
    congr 1
    funext s
    exact s.append_append xs ys
  · simp only [if_neg hj]

/-! ## Looking up -/

theorem lookupHere?_eq (h : t.At id scope) (name : String) :
    t.lookupHere? name = scope.find? name := by
  unfold lookupHere?
  obtain ⟨steps, hsteps⟩ := Nat.exists_eq_succ_of_ne_zero (Nat.ne_of_gt (Nat.zero_lt_of_lt h.lt))
  rw [hsteps, h.current, lookupFrom, h.scopes]
  cases hf : scope.find? name with
  | some symbol => simp only [hf]
  | none => simp only [hf, if_true]

/-- In a scope with nothing around it, its own bindings count. -/
theorem lookup?_eq_of_global (h : t.At id scope) (houter : scope.outer = none) (name : String) :
    t.lookup? name = scope.find? name := by
  unfold lookup?
  obtain ⟨steps, hsteps⟩ := Nat.exists_eq_succ_of_ne_zero (Nat.ne_of_gt (Nat.zero_lt_of_lt h.lt))
  rw [hsteps, h.current, lookupFrom, h.scopes]
  cases hf : scope.find? name with
  | some symbol => simp only [hf]
  | none =>
    simp only [hf, houter]
    cases steps <;> rfl

/-- In a scope inside one with nothing around it, the bindings around count next. -/
theorem lookup?_eq_of_inner (h : t.At id scope) {parent : Nat} {around : Scope}
    (houter : scope.outer = some parent) (hne : id ≠ parent)
    (hparent : t.scopes[parent]? = some around) (hglobal : around.outer = none) (name : String) :
    t.lookup? name = (scope.find? name).or (around.find? name) := by
  unfold lookup?
  have hlt := h.lt
  have hplt : parent < t.scopes.size := (Array.getElem?_eq_some_iff.mp hparent).1
  obtain ⟨steps, hsteps⟩ : ∃ steps, t.scopes.size = steps + 1 + 1 := ⟨t.scopes.size - 2, by omega⟩
  rw [hsteps, h.current, lookupFrom, h.scopes]
  cases hf : scope.find? name with
  | some symbol => simp only [hf, Option.some_or]
  | none =>
    simp only [hf, houter, Option.none_or, Bool.false_eq_true, if_false]
    rw [lookupFrom, hparent]
    cases ha : around.find? name with
    | some symbol => simp only [ha]
    | none =>
      simp only [ha, hglobal, Bool.false_eq_true, if_false]
      cases steps <;> rfl

/-- Binding a new name in the current scope. -/
theorem declare_eq (h : t.At id scope) (symbol : Symbol) (hname : symbol.name ∉ scope.names) :
    t.declare symbol = .ok (none, t.extend id [symbol]) := by
  have hmodify : t.scopes.modify id (·.bind symbol) = t.scopes.modify id (·.append [symbol]) := by
    refine Array.ext_getElem? fun j => ?_
    rw [Array.getElem?_modify, Array.getElem?_modify]
    by_cases hj : id = j
    · subst hj
      rw [if_pos rfl, if_pos rfl, h.scopes, Option.map_some, Option.map_some,
        Scope.bind_eq_append hname]
    · rw [if_neg hj, if_neg hj]
  rw [declare, h.current]
  simp only [hmodify, h.scopes, Option.bind_some, Scope.find?_eq_none_iff.mpr hname]
  rw [extend, h.current]

/-! ## Entering and leaving a scope -/

theorem at_push (t : SymbolTable) : t.push.2.At t.scopes.size (.empty t.current) := by
  refine ⟨rfl, ?_⟩
  rw [push, Array.getElem?_push, if_pos rfl]

theorem current_popAndSave (h : t.At id scope) {parent : Nat} (houter : scope.outer = some parent)
    (name : String) : (t.popAndSave name).current = some parent := by
  unfold popAndSave
  simp only [h.current, h.scopes, Option.bind_some, houter]

/-- Leaving a scope closes it and saves it in the scope around it; no other scope changes. -/
theorem scopes_popAndSave (h : t.At id scope) {parent : Nat} (houter : scope.outer = some parent)
    (hne : id ≠ parent) (name : String) (j : Nat) :
    (t.popAndSave name).scopes[j]? =
      if j = parent then t.scopes[j]?.map (·.save name id)
      else if j = id then some { scope with outer := none } else t.scopes[j]? := by
  unfold popAndSave
  simp only [h.current, h.scopes, Option.bind_some, houter, Array.getElem?_modify]
  by_cases hj : j = parent
  · subst hj
    rw [if_pos rfl, if_pos rfl, if_neg hne]
  · rw [if_neg hj, if_neg (Ne.symm hj)]
    by_cases hi : j = id
    · subst hi
      rw [if_pos rfl, if_pos rfl, h.scopes]
      rfl
    · rw [if_neg hi, if_neg (Ne.symm hi)]

end SymbolTable

/-! ## Declaring -/

/-- The symbols of formals on one line, their positions counted from the first. -/
def formalSymbols (kind : Nat → SymbolKind) (line : Nat) : Nat → List String → List Symbol
  | _, [] => []
  | position, name :: names =>
    ⟨name, line, kind position⟩ :: formalSymbols kind line (position + 1) names

theorem map_name_formalSymbols (kind : Nat → SymbolKind) (line : Nat) : ∀ (position : Nat)
    (names : List String), (formalSymbols kind line position names).map Symbol.name = names
  | _, [] => rfl
  | position, name :: names => by
    rw [formalSymbols, List.map_cons, map_name_formalSymbols kind line (position + 1) names]

/-- The symbols that stand for the formals of a gate. -/
def Signature.symbols (s : Signature) (line : Nat) : List Symbol :=
  formalSymbols .parameter line 0 s.formals ++ formalSymbols .argument line 0 s.arguments

/-- The symbol of a gate. -/
def Signature.symbol (s : Signature) (line : Nat) : Symbol :=
  ⟨s.name, line, .gate s.formals.length s.arguments.length⟩

namespace Check

open SymbolTable

variable {t after : SymbolTable} {id : Nat} {scope : Scope} {pos : SourcePos}

/-- **A name is declared exactly when the current scope does not bind it yet.** -/
theorem declare_eq_ok (h : t.At id scope) {name : String} {kind : SymbolKind} :
    declare t name kind pos = (.ok (), after) ↔
      name ∉ scope.names ∧ after = t.extend id [⟨name, pos.line, kind⟩] := by
  unfold declare
  rw [lookupHere?_eq h]
  cases hf : scope.find? name with
  | some old =>
    constructor
    · intro h
      cases (Prod.mk.inj h).1
    · intro hname
      rw [Scope.find?_eq_none_iff.mpr hname.1] at hf
      cases hf
  | none =>
    have hname := Scope.find?_eq_none_iff.mp hf
    simp only [declare_eq h ⟨name, pos.line, kind⟩ hname]
    exact ⟨fun h => ⟨hname, (Prod.mk.inj h).2.symm⟩, fun h => by rw [h.2]⟩

/-- Formals are declared exactly when they differ and the scope binds none of them yet. -/
theorem declareFormals_eq_ok {kind : Nat → SymbolKind} : ∀ {names : List String} {position : Nat}
    {t : SymbolTable} {scope : Scope}, t.At id scope →
    (declareFormals kind pos position names t = (.ok (), after) ↔
      names.Nodup ∧ (∀ name ∈ names, name ∉ scope.names) ∧
        after = t.extend id (formalSymbols kind pos.line position names))
  | [], position, t, scope, h => by
    rw [formalSymbols, extend_nil]
    refine ⟨fun h => ⟨List.nodup_nil, fun _ hn => absurd hn List.not_mem_nil, ?_⟩, fun h => ?_⟩
    · exact (Prod.mk.inj h).2.symm
    · rw [h.2.2]
      rfl
  | name :: names, position, t, scope, h => by
    rw [declareFormals]
    rw [List.nodup_cons, List.forall_mem_cons, formalSymbols]
    have hnext := h.extend [⟨name, pos.line, kind position⟩]
    constructor
    · intro hd
      cases hdeclare : declare t name (kind position) pos with
      | mk result bound =>
        rw [hdeclare] at hd
        cases result with
        | error e => cases (Prod.mk.inj hd).1
        | ok u =>
          obtain ⟨hname, rfl⟩ := (declare_eq_ok h).mp hdeclare
          obtain ⟨hnodup, hfresh, rfl⟩ := (declareFormals_eq_ok hnext).mp hd
          have hfresh : ∀ other ∈ names, other ∉ scope.names ∧ other ≠ name := by
            intro other hother
            have := hfresh other hother
            rw [Scope.names_append, List.mem_append, not_or] at this
            exact ⟨this.1, fun he => this.2 (by rw [he]; exact List.mem_singleton_self name)⟩
          refine ⟨⟨fun hm => (hfresh name hm).2 rfl, hnodup⟩,
            ⟨hname, fun other hother => (hfresh other hother).1⟩, ?_⟩
          rw [extend_extend]
          rfl
    · rintro ⟨⟨hnew, hnodup⟩, ⟨hname, hfresh⟩, hafter⟩
      rw [(declare_eq_ok h).mpr ⟨hname, rfl⟩]
      refine (declareFormals_eq_ok hnext).mpr ⟨hnodup, fun other hother => ?_, hafter.trans ?_⟩
      · rw [Scope.names_append, List.mem_append, not_or]
        refine ⟨hfresh other hother, fun hm => hnew ?_⟩
        rwa [show other = name from List.mem_singleton.mp hm] at hother
      · rw [extend_extend]
        rfl

/-- The table in which a gate's scope is open and filled, before it is saved. -/
def openGate (t : SymbolTable) (s : Signature) (line : Nat) : SymbolTable :=
  (t.extend 0 [s.symbol line]).push.2.extend t.scopes.size (s.symbols line)

/-- **A gate is declared exactly when its name is new and its formals differ.** -/
theorem declareGate_eq_ok (h : t.At 0 scope) {s : Signature} :
    declareGate t s pos = (.ok (), after) ↔
      s.name ∉ scope.names ∧ (s.formals ++ s.arguments).Nodup ∧
        after = (openGate t s pos.line).popAndSave s.name := by
  have hsize : (t.extend 0 [s.symbol pos.line]).scopes.size = t.scopes.size :=
    Array.size_modify
  have hpush := at_push (t.extend 0 [s.symbol pos.line])
  rw [hsize] at hpush
  have hformals := hpush.extend (formalSymbols .parameter pos.line 0 s.formals)
  have hnames : ((Scope.empty (t.extend 0 [s.symbol pos.line]).current).append
      (formalSymbols .parameter pos.line 0 s.formals)).names = s.formals := by
    rw [Scope.names_append, map_name_formalSymbols]
    rfl
  have hopen : openGate t s pos.line =
      ((t.extend 0 [s.symbol pos.line]).push.2.extend t.scopes.size
        (formalSymbols .parameter pos.line 0 s.formals)).extend t.scopes.size
          (formalSymbols .argument pos.line 0 s.arguments) := by
    rw [extend_extend]
    rfl
  rw [List.nodup_append', List.disjoint_comm, hopen]
  constructor
  · intro hd
    unfold declareGate at hd
    split at hd
    · rename_i bound hbound
      obtain ⟨hname, rfl⟩ := (declare_eq_ok h).mp hbound
      split at hd
      · rename_i inner hinner
        obtain ⟨hf, -, rfl⟩ := (declareFormals_eq_ok hpush).mp hinner
        split at hd
        · rename_i full hfull
          obtain ⟨ha, hdisjoint, rfl⟩ := (declareFormals_eq_ok hformals).mp hfull
          rw [hnames] at hdisjoint
          exact ⟨hname, ⟨hf, ha, hdisjoint⟩, (Prod.mk.inj hd).2.symm⟩
        · rename_i hfailed
          exact absurd hd (hfailed _)
      · rename_i hfailed
        exact absurd hd (hfailed _)
    · rename_i hfailed
      exact absurd hd (hfailed _)
  · rintro ⟨hname, ⟨hf, ha, hdisjoint⟩, rfl⟩
    have hbound : declare t s.name (.gate s.formals.length s.arguments.length) pos =
        (.ok (), t.extend 0 [s.symbol pos.line]) := (declare_eq_ok h).mpr ⟨hname, rfl⟩
    have hinner : declareFormals .parameter pos 0 s.formals
        (t.extend 0 [s.symbol pos.line]).push.2 = (.ok (), _) :=
      (declareFormals_eq_ok hpush).mpr ⟨hf, fun _ _ => List.not_mem_nil, rfl⟩
    have hfull : declareFormals .argument pos 0 s.arguments _ = (.ok (), _) :=
      (declareFormals_eq_ok hformals).mpr ⟨ha, by rw [hnames]; exact hdisjoint, rfl⟩
    unfold declareGate
    simp only [hbound, hinner, hfull]

/-- The table after a gate is declared: its name is bound in the global scope, and the scope of its
formals is saved there. -/
theorem saveGate (h : t.At 0 scope) (s : Signature) (line : Nat) :
    ((openGate t s line).popAndSave s.name).current = some 0 ∧
      ∀ j, ((openGate t s line).popAndSave s.name).scopes[j]? =
        if j = 0 then some ((scope.append [s.symbol line]).save s.name t.scopes.size)
        else if j = t.scopes.size then some ⟨s.symbols line, none, []⟩ else t.scopes[j]? := by
  have hbound := h.extend [s.symbol line]
  have hsize : (t.extend 0 [s.symbol line]).scopes.size = t.scopes.size := Array.size_modify
  have hpush := at_push (t.extend 0 [s.symbol line])
  rw [hsize, hbound.current] at hpush
  have hopen : (openGate t s line).At t.scopes.size ((Scope.empty (some 0)).append
      (s.symbols line)) := hpush.extend _
  have hpos : t.scopes.size ≠ 0 := Nat.ne_of_gt h.lt
  have hother : ∀ j, j ≠ t.scopes.size →
      (openGate t s line).scopes[j]? = (t.extend 0 [s.symbol line]).scopes[j]? := by
    intro j hj
    rw [openGate, SymbolTable.extend, Array.getElem?_modify, if_neg (Ne.symm hj), push,
      Array.getElem?_push, if_neg (by rw [hsize]; exact hj)]
  refine ⟨current_popAndSave hopen rfl _, fun j => ?_⟩
  rw [scopes_popAndSave hopen rfl hpos]
  by_cases hj : j = 0
  · subst hj
    rw [if_pos rfl, if_pos rfl, hother 0 (Ne.symm hpos), hbound.scopes]
    rfl
  · rw [if_neg hj, if_neg hj]
    by_cases hs : j = t.scopes.size
    · rw [if_pos hs, if_pos hs]
      rfl
    · rw [if_neg hs, if_neg hs, hother j hs, SymbolTable.extend, Array.getElem?_modify,
        if_neg (Ne.symm hj)]

end Check

end OpenQasm
