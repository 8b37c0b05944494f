/-!
# Expansions that end

An include directive stands for a file and a call of a defined gate for the gate's body, and both
can lead on to further files and gates. The names that are being expanded are *active*, and none of
them may come up again. Every other name that can be expanded is one of finitely many *known* ones,
so each expansion leaves fewer names to expand: `pending_cons_lt`.
-/

namespace OpenQasm

variable {Name : Type} [DecidableEq Name]

/-- How many of the known names are not active. -/
def pending (known active : List Name) : Nat := known.countP (· ∉ active)

/-- Making a name active leaves no more names to expand. -/
theorem pending_cons_le (known active : List Name) (name : Name) :
    pending known (name :: active) ≤ pending known active := by
  refine List.countP_mono_left fun other _ hnew => ?_
  rw [decide_eq_true_eq] at hnew ⊢
  exact fun hactive => hnew (List.mem_cons_of_mem _ hactive)

/-- Making a known name active leaves fewer names to expand. -/
theorem pending_cons_lt {known active : List Name} {name : Name} (hknown : name ∈ known)
    (hnew : name ∉ active) : pending known (name :: active) < pending known active := by
  obtain ⟨before, after, rfl⟩ := List.append_of_mem hknown
  have hbefore := pending_cons_le before active name
  have hafter := pending_cons_le after active name
  unfold pending at hbefore hafter ⊢
  rw [List.countP_append, List.countP_append,
    List.countP_cons_of_neg (by rw [decide_eq_true_eq]; exact not_not_intro List.mem_cons_self),
    List.countP_cons_of_pos (by rwa [decide_eq_true_eq])]
  omega

end OpenQasm
