import OpenQasm.Proofs.Circuits

/-!
# Gates whose sizes fit together

The sizes inside a gate fit when every step is placed on as many qubits as its gate acts on
(`Gate.Fits`). Such a gate can only fail because steps repeat a qubit, or name one that does not
exist, or because a circuit inside it is too wide for an address space. The last is found before the
steps of the circuit are looked at.

* `Gate.ends_resolve`: what a gate whose sizes fit amounts to, or fails with.
* `Gate.Spread`: every step inside a gate acts on distinct qubits of its circuit.
* `Gate.widths_le`: the circuits inside a spread gate are no wider than the gate.
* **`Gate.exists_resolve_iff`**: which gates can be resolved.
-/

namespace OpenQasm

/-! ## Sizes -/

section Fits

variable {A : Type}

mutual

/-- The sizes inside a gate fit together, and it acts on `k` qubits. -/
def Gate.Fits : Gate A → Nat → Prop
  | .operator matrix, k => matrix.dim = 2 ^ k
  | .composite q circuit, k => q = k ∧ circuit.Fits

/-- Every step of a circuit fits its targets. -/
def Circuit.Fits : Circuit A → Prop
  | .done => True
  | .step gate targets rest => gate.Fits targets.length ∧ rest.Fits

end

theorem Gate.dim_of_fits {gate : Gate A} {k : Nat} (h : gate.Fits k) : gate.dim = 2 ^ k := by
  cases gate with
  | operator matrix =>
    rw [Fits] at h
    exact h
  | composite q circuit =>
    rw [Fits] at h
    rw [dim, h.1]

mutual

/-- Each step has the dimension that its targets ask for. -/
theorem Gate.dim_of_mem_standings : ∀ (gate : Gate A) {k : Nat}, gate.Fits k →
    ∀ s ∈ gate.standings, s.dim = 2 ^ s.targets.length
  | .operator _, _, _, s, hs => by
    rw [Gate.standings] at hs
    exact absurd hs List.not_mem_nil
  | .composite qubits circuit, _, h, s, hs => by
    rw [Gate.Fits] at h
    rw [Gate.standings] at hs
    exact Circuit.dim_of_mem_standings circuit h.2 s hs

theorem Circuit.dim_of_mem_standings : ∀ (circuit : Circuit A) {n : Nat}, circuit.Fits →
    ∀ s ∈ circuit.standings n, s.dim = 2 ^ s.targets.length
  | .done, _, _, s, hs => by
    rw [Circuit.standings] at hs
    exact absurd hs List.not_mem_nil
  | .step gate targets rest, n, h, s, hs => by
    rw [Circuit.Fits] at h
    rw [Circuit.standings] at hs
    rcases List.mem_append.mp hs with hs | hs
    · exact Gate.dim_of_mem_standings gate h.1 s hs
    · rcases List.mem_cons.mp hs with rfl | hs
      · exact Gate.dim_of_fits h.1
      · exact Circuit.dim_of_mem_standings rest h.2 s hs

end

end Fits

section Primitives

variable {R : Type} [Scalar R]

theorem Gate.fits_rotation (theta phi lambda : R) : (rotation theta phi lambda).Fits 1 := by
  have hdim : (rotationMatrix theta phi lambda).dim = 2 ^ 1 := rfl
  unfold rotation Fits
  exact hdim

theorem Gate.fits_controlledNot : (controlledNot : Gate (Amplitude R)).Fits 2 := by
  have hdim : 4 = 2 ^ 2 := rfl
  unfold controlledNot Fits
  exact hdim

end Primitives

/-- An error that blames a permutation. -/
def AlgebraError.IsPermutation (e : AlgebraError) : Prop := ∃ fault, e = .invalidPermutation fault

/-- **A gate whose sizes fit resolves to an operator on its qubits**, or fails for a permutation or
for a circuit that is too wide. -/
theorem Gate.ends_resolve {A : Type} [Zero A] [One A] [Add A] [Mul A] [BEq A] (gate : Gate A)
    {k : Nat} (hfits : gate.Fits k) :
    Ends gate.resolve (·.dim = 2 ^ k) (fun e => e.IsPermutation ∨ e.Exceeds gate.widths) := by
  refine gate.ends_standings.mono (fun _ hends => hends.2.2.trans (dim_of_fits hfits))
    fun e he => he.imp_left ?_
  rintro ⟨before, s, after, hsteps, -, hs⟩
  have hmem : s ∈ gate.standings := hsteps ▸ List.mem_append_right _ List.mem_cons_self
  have hdim := gate.dim_of_mem_standings hfits s hmem
  obtain ⟨fault, rfl, -⟩ := hs.placement fun w hw => Standing.width_unique hdim hw
  exact ⟨fault, rfl⟩

/-! ## Distinct qubits -/

section Spread

variable {A : Type}

mutual

/-- Every step inside a gate acts on distinct qubits of its circuit. -/
def Gate.Spread : Gate A → Prop
  | .operator _ => True
  | .composite qubits circuit => circuit.Spread qubits

/-- Every step of a circuit, and inside it, acts on distinct qubits of its circuit. -/
def Circuit.Spread (qubits : Nat) : Circuit A → Prop
  | .done => True
  | .step gate targets rest =>
    gate.Spread ∧ targets.Nodup ∧ (∀ t ∈ targets, t < qubits) ∧ rest.Spread qubits

end

theorem Standing.sound_iff {s : Standing} (hdim : s.dim = 2 ^ s.targets.length) :
    s.Sound ↔ s.targets.Nodup ∧ ∀ t ∈ s.targets, t < s.qubits :=
  ⟨fun h => ⟨h.nodup, h.lt⟩, fun ⟨hnodup, hlt⟩ => ⟨hdim, hnodup, hlt⟩⟩

mutual

/-- When the sizes fit, a gate is spread if its steps stand well, and only then. -/
theorem Gate.spread_iff_sound : ∀ (gate : Gate A) {k : Nat}, gate.Fits k →
    (gate.Spread ↔ ∀ s ∈ gate.standings, s.Sound)
  | .operator _, _, _ => by
    rw [Gate.Spread, Gate.standings]
    exact iff_of_true trivial fun _ hs => absurd hs List.not_mem_nil
  | .composite qubits circuit, _, h => by
    rw [Gate.Fits] at h
    rw [Gate.Spread, Gate.standings]
    exact Circuit.spread_iff_sound circuit h.2

theorem Circuit.spread_iff_sound : ∀ (circuit : Circuit A) {n : Nat}, circuit.Fits →
    (circuit.Spread n ↔ ∀ s ∈ circuit.standings n, s.Sound)
  | .done, _, _ => by
    rw [Circuit.Spread, Circuit.standings]
    exact iff_of_true trivial fun _ hs => absurd hs List.not_mem_nil
  | .step gate targets rest, n, h => by
    rw [Circuit.Fits] at h
    rw [Circuit.Spread, Circuit.standings, List.forall_mem_append, List.forall_mem_cons,
      Standing.sound_iff (Gate.dim_of_fits h.1), Gate.spread_iff_sound gate h.1,
      Circuit.spread_iff_sound rest h.2, and_assoc]

end

mutual

/-- **The circuits inside a spread gate** are no wider than the gate. -/
theorem Gate.widths_le : ∀ (gate : Gate A) {j k : Nat}, gate.Fits j → gate.Spread → j ≤ k →
    ∀ q ∈ gate.widths, q ≤ k
  | .operator _, _, _, _, _, _, _, hq => by
    rw [Gate.widths] at hq
    exact absurd hq List.not_mem_nil
  | .composite qubits circuit, j, k, hfits, hspread, hj, q, hq => by
    rw [Gate.Fits] at hfits
    rw [Gate.Spread] at hspread
    rw [Gate.widths] at hq
    obtain ⟨rfl, hfits⟩ := hfits
    rcases List.mem_cons.mp hq with rfl | hq
    · exact hj
    · exact Nat.le_trans (Circuit.widths_le circuit hfits hspread q hq) hj

theorem Circuit.widths_le : ∀ (circuit : Circuit A) {n : Nat}, circuit.Fits → circuit.Spread n →
    ∀ q ∈ circuit.widths, q ≤ n
  | .done, _, _, _, _, hq => by
    rw [Circuit.widths] at hq
    exact absurd hq List.not_mem_nil
  | .step gate targets rest, n, hfits, hspread, q, hq => by
    rw [Circuit.Fits] at hfits
    rw [Circuit.Spread] at hspread
    rw [Circuit.widths] at hq
    obtain ⟨hgate, hd, hn, hrest⟩ := hspread
    rcases List.mem_append.mp hq with hq | hq
    · exact Gate.widths_le gate hfits.1 hgate (length_le_of_nodup hd hn) q hq
    · exact Circuit.widths_le rest hfits.2 hrest q hq

end

/-- **Which gates can be resolved**, among those whose sizes fit. -/
theorem Gate.exists_resolve_iff [Zero A] [One A] [Add A] [Mul A] [BEq A] {gate : Gate A} {k : Nat}
    (hfits : gate.Fits k) : (∃ operator, gate.resolve = .ok operator) ↔
      gate.Spread ∧ ∀ q ∈ gate.widths, q ≤ SquareMatrix.maxQubits := by
  rw [exists_resolve_iff_sound, gate.spread_iff_sound hfits]

end Spread

end OpenQasm
