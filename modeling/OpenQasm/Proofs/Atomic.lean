import OpenQasm.Proofs.Stability
import OpenQasm.Quantum.Procedure

/-!
# Machine operations are all or nothing

A procedure changes its machine step by step, so one that fails could leave it half changed, or with
a draw taken. None does: every procedure ends as the operation of `Machine` says, and leaves the
machine as it was when it fails (`Request.procedure_settles`). Each of them checks all that can fail
before its first change; where a classical register is looked up again after a collapse, it is
still there.

* `Steps.settled`: what is left when all is done or nothing.
* `drawn_of_respond_ok`: a granted request takes a draw exactly when it is a measurement.
* **`Machine.atomic_and_drawn`**: both, along every history of requests.
-/

namespace OpenQasm

open Kernel

namespace Steps

variable {ε σ α β : Type} {s : σ}

/-- All or nothing: the new state, or an error and the state as it was. -/
def settled (s : σ) : Except ε σ → EStateM.Result ε σ Unit
  | .ok after => .ok () after
  | .error e => .error e s

theorem settled_eq_ok {x : Except ε σ} {after : σ} :
    settled s x = .ok () after ↔ x = .ok after := by
  cases x with
  | error e => exact ⟨nofun, nofun⟩
  | ok next => exact ⟨fun h => by cases h; rfl, fun h => by cases h; rfl⟩

/-- Steps that are all or nothing and fail leave the state as it was. -/
theorem settled_eq_error {x : Except ε σ} {e : ε} {after : σ} :
    settled s x = .error e after ↔ x = .error e ∧ after = s := by
  cases x with
  | ok next => exact ⟨nofun, nofun⟩
  | error found =>
    constructor
    · intro h
      cases h
      exact ⟨rfl, rfl⟩
    · rintro ⟨h, rfl⟩
      cases h
      rfl

theorem consult_bind (look : σ → Except ε α) (next : α → Steps ε σ β) :
    (consult look >>= next) s =
      match look s with
      | .ok a => next a s
      | .error e => .error e s := by
  show EStateM.bind (consult look) next s = _
  unfold EStateM.bind consult
  cases look s <;> rfl

/-- A look at the state, then steps that are all or nothing. -/
theorem consult_bind_settles {look : σ → Except ε α} {next : α → Steps ε σ Unit}
    {f : α → Except ε σ} (h : ∀ a, look s = .ok a → next a s = settled s (f a)) :
    (consult look >>= next) s = settled s (look s >>= f) := by
  rw [consult_bind]
  cases hl : look s with
  | error e => rfl
  | ok a => exact h a hl

theorem ite_settles {c : Prop} [Decidable c] {p q : Steps ε σ Unit} {x y : Except ε σ}
    (hp : c → p s = settled s x) (hq : ¬c → q s = settled s y) :
    (if c then p else q) s = settled s (if c then x else y) := by
  by_cases hc : c
  · rw [if_pos hc, if_pos hc, hp hc]
  · rw [if_neg hc, if_neg hc, hq hc]

theorem get_bind (next : σ → Steps ε σ α) : (get >>= next) s = next s s := rfl

end Steps

/-- Clearing the entries that are not kept, then scaling, is collapsing. -/
theorem StateVector.divBy_keep {R : Type} [Scalar R] (v : StateVector (Amplitude R))
    (offset width outcome : Nat) (norm : R) :
    (v.keep offset width outcome).divBy norm = v.collapse offset width outcome norm := by
  unfold keep divBy collapse tabulate
  rw [Array.map_ofFn]
  rfl

/-! ## One procedure at a time -/

namespace Procedure

open Steps

variable {R : Type} {m : Machine R}

theorem modifyClassical_settles (name : String)
    (change : ClassicalRegister → ClassicalRegister) :
    modifyClassical name change m =
      settled m (m.classicalRegister name >>= fun _ => .ok (m.updateClassical name change)) :=
  consult_bind_settles fun _ _ => rfl

/-- A register that is there is changed. -/
theorem modifyClassical_of_ok {name : String} {r : ClassicalRegister}
    (h : m.classicalRegister name = .ok r) (change : ClassicalRegister → ClassicalRegister) :
    modifyClassical name change m = .ok () (m.updateClassical name change) := by
  rw [modifyClassical_settles, h]
  rfl

theorem declareClassical_settles (name : String) (width : Nat) :
    declareClassical name width m = settled m (m.declareClassical name width) := by
  refine consult_bind_settles fun _ _ => ?_
  exact ite_settles (fun _ => rfl) fun _ => rfl

theorem resetClassical_settles (name : String) :
    resetClassical name m = settled m (m.resetClassical name) := by
  refine (modifyClassical_settles name _).trans ?_
  unfold Machine.resetClassical
  cases m.classicalRegister name <;> rfl

theorem resetClassicalBit_settles (name : String) (index : Nat) :
    resetClassicalBit name index m = settled m (m.resetClassicalBit name index) := by
  refine consult_bind_settles fun r hr => ?_
  refine consult_bind_settles fun _ _ => ?_
  exact modifyClassical_of_ok hr _

variable [Scalar R]

theorem declareQuantum_settles (name : String) (width : Nat) :
    declareQuantum name width m = settled m (m.declareQuantum name width) := by
  refine consult_bind_settles fun _ _ => ?_
  rw [get_bind]
  refine ite_settles (fun _ => rfl) fun _ => ?_
  exact consult_bind_settles fun _ _ => rfl

theorem apply_settles (gate : Gate (Amplitude R)) (targets : List Nat) :
    apply gate targets m = settled m (m.apply gate targets) := by
  refine consult_bind_settles fun _ _ => ?_
  refine consult_bind_settles fun operator _ => ?_
  exact ite_settles (fun _ => rfl) fun _ => rfl

/-- **A measurement of bits** draws and collapses when nothing can fail any more. -/
theorem measureBits_eq (offset width : Nat) :
    measureBits offset width m =
      match m.measureBits offset width with
      | .ok (outcome, after) => .ok outcome after
      | .error fault => .error fault m := by
  unfold measureBits checkRange Machine.measureBits StateVector.measure
  rw [consult_bind]
  cases m.vector.checkRange offset width with
  | error e => rfl
  | ok u =>
    show (get >>= _ : Procedure R Nat) m = _
    rw [get_bind]
    unfold StateVector.selectOutcome
    by_cases hmass : (m.vector.outcomeMasses offset width).toList.foldl (· + ·) 0 < Scalar.zeroMass
    · simp only [if_pos hmass]
      rfl
    · simp only [if_neg hmass]
      cases StateVector.lastSolid? (m.vector.outcomeMasses offset width).toList with
      | none => rfl
      | some last =>
        simp only [← StateVector.divBy_keep]
        rfl

theorem projectBits_settles (offset width : Nat) :
    projectBits offset width m =
      settled m (((m.vector.reset offset width).mapError .algebra) >>=
        fun vector => .ok { m with vector }) := by
  unfold projectBits checkRange StateVector.reset
  rw [consult_bind]
  cases m.vector.checkRange offset width with
  | error e => rfl
  | ok u =>
    show (get >>= _ : Procedure R Unit) m = _
    rw [get_bind]
    by_cases hmass : m.vector.clearMass offset width < Scalar.zeroMass
    · simp only [if_pos hmass]
      rfl
    · simp only [if_neg hmass, ← StateVector.divBy_keep]
      rfl

theorem resetQuantum_settles (name : String) :
    resetQuantum name m = settled m (m.resetQuantum name) :=
  consult_bind_settles fun r _ => projectBits_settles r.offset r.width

theorem resetQubit_settles (name : String) (index : Nat) :
    resetQubit name index m = settled m (m.resetQubit name index) :=
  consult_bind_settles fun bit _ => projectBits_settles bit 1

/-- A measurement of bits, then a register that was there before. -/
theorem measureBits_bind_settles {offset width : Nat} {name : String} {r : ClassicalRegister}
    (h : m.classicalRegister name = .ok r) (change : Nat → ClassicalRegister → ClassicalRegister) :
    (measureBits offset width >>= fun outcome => modifyClassical name (change outcome)) m =
      settled m (m.measureBits offset width >>= fun measured =>
        .ok (measured.2.updateClassical name (change measured.1))) := by
  show EStateM.bind (measureBits offset width) _ m = _
  unfold EStateM.bind
  rw [measureBits_eq]
  cases hbits : m.measureBits offset width with
  | error fault => rfl
  | ok measured =>
    obtain ⟨outcome, after⟩ := measured
    obtain ⟨vector, -, rfl⟩ := Machine.of_measureBits_ok hbits
    -- the classical registers are those before the collapse
    have hfound : ({ m with vector, drawn := m.drawn + 1 } : Machine R).classicalRegister name =
        .ok r := h
    exact modifyClassical_of_ok hfound (change outcome)

theorem measure_settles (source target : String) :
    measure source target m = settled m (m.measure source target) := by
  refine consult_bind_settles fun q _ => ?_
  refine consult_bind_settles fun c hc => ?_
  refine ite_settles (fun _ => rfl) fun _ => ?_
  exact measureBits_bind_settles hc _

theorem measureBit_settles (source : String) (sourceIndex : Nat) (target : String)
    (targetIndex : Nat) :
    measureBit source sourceIndex target targetIndex m =
      settled m (m.measureBit source sourceIndex target targetIndex) := by
  refine consult_bind_settles fun bit _ => ?_
  refine consult_bind_settles fun c hc => ?_
  refine consult_bind_settles fun _ _ => ?_
  exact measureBits_bind_settles hc _

end Procedure

/-! ## Requests -/

namespace Request

variable {R : Type}

/-- Whether a request is a measurement, of a register or of a qubit. -/
def isMeasurement : Request R → Bool
  | .measure .. | .measureBit .. => true
  | _ => false

variable [Scalar R]

/-- The steps that carry out a request. -/
def procedure : Request R → Procedure R Unit
  | .declareQuantum name width => .declareQuantum name width
  | .declareClassical name width => .declareClassical name width
  | .apply gate targets => .apply gate targets
  | .measure source target => .measure source target
  | .measureBit source sourceIndex target targetIndex =>
    .measureBit source sourceIndex target targetIndex
  | .resetQuantum name => .resetQuantum name
  | .resetQubit name index => .resetQubit name index
  | .resetClassical name => .resetClassical name
  | .resetClassicalBit name index => .resetClassicalBit name index

/-- **A request is all or nothing**: its steps lead to the machine that answers it, or fail with the
same fault and leave the machine as it was. -/
theorem procedure_settles (request : Request R) (m : Machine R) :
    request.procedure m = Steps.settled m (m.respond request) := by
  cases request with
  | declareQuantum name width => exact Procedure.declareQuantum_settles name width
  | declareClassical name width => exact Procedure.declareClassical_settles name width
  | apply gate targets => exact Procedure.apply_settles gate targets
  | measure source target => exact Procedure.measure_settles source target
  | measureBit source i target j => exact Procedure.measureBit_settles source i target j
  | resetQuantum name => exact Procedure.resetQuantum_settles name
  | resetQubit name index => exact Procedure.resetQubit_settles name index
  | resetClassical name => exact Procedure.resetClassical_settles name
  | resetClassicalBit name index => exact Procedure.resetClassicalBit_settles name index

end Request

namespace Machine

variable {R : Type} [Scalar R] {m after : Machine R}

/-- The machine after the steps of a request, wherever they have stopped. -/
def carryOut (m : Machine R) (request : Request R) : Machine R :=
  match request.procedure m with
  | .ok _ after => after
  | .error _ after => after

/-- The machine after the steps of a history of requests. -/
def carryOutAll (m : Machine R) (requests : List (Request R)) : Machine R :=
  requests.foldl carryOut m

/-- The requests of a history whose steps succeed. -/
def succeeding : Machine R → List (Request R) → List (Request R)
  | _, [] => []
  | m, request :: rest =>
    match request.procedure m with
    | .ok _ after => request :: succeeding after rest
    | .error _ after => succeeding after rest

theorem carryOut_eq_serve (m : Machine R) (request : Request R) :
    m.carryOut request = m.serve request := by
  unfold carryOut serve
  rw [request.procedure_settles]
  cases m.respond request <;> rfl

theorem carryOutAll_eq_serveAll (m : Machine R) (requests : List (Request R)) :
    m.carryOutAll requests = m.serveAll requests := by
  have hsame : (carryOut : Machine R → Request R → Machine R) = serve := funext₂ carryOut_eq_serve
  rw [carryOutAll, hsame, serveAll]

/-! ## Draws -/

/-- **A granted request takes one draw if it is a measurement**, and none otherwise. -/
theorem drawn_of_respond_ok {request : Request R} (h : m.respond request = .ok after) :
    after.draws = m.draws ∧
      after.drawn = m.drawn + if request.isMeasurement then 1 else 0 := by
  cases request with
  | declareQuantum name width =>
    obtain ⟨-, -, fresh, -, rfl⟩ := declareQuantum_eq_ok.mp h
    exact ⟨rfl, rfl⟩
  | declareClassical name width =>
    obtain ⟨-, rfl⟩ := declareClassical_eq_ok.mp h
    exact ⟨rfl, rfl⟩
  | apply gate targets =>
    obtain ⟨-, -, operator, -, -, rfl⟩ := apply_eq_ok.mp h
    exact ⟨rfl, rfl⟩
  | measure source target =>
    obtain ⟨q, c, outcome, vector, -, -, -, -, rfl⟩ := measure_eq_ok.mp h
    exact ⟨rfl, rfl⟩
  | measureBit source i target j =>
    obtain ⟨bit, c, outcome, vector, -, -, -, -, rfl⟩ := measureBit_eq_ok.mp h
    exact ⟨rfl, rfl⟩
  | resetQuantum name =>
    obtain ⟨r, vector, -, -, rfl⟩ := resetQuantum_eq_ok.mp h
    exact ⟨rfl, rfl⟩
  | resetQubit name index =>
    obtain ⟨bit, vector, -, -, rfl⟩ := resetQubit_eq_ok.mp h
    exact ⟨rfl, rfl⟩
  | resetClassical name =>
    obtain ⟨r, -, rfl⟩ := resetClassical_eq_ok.mp h
    exact ⟨rfl, rfl⟩
  | resetClassicalBit name index =>
    obtain ⟨r, -, -, rfl⟩ := resetClassicalBit_eq_ok.mp h
    exact ⟨rfl, rfl⟩

/-- **A history takes one draw for each measurement that succeeds.** -/
theorem drawn_carryOutAll (m : Machine R) (requests : List (Request R)) :
    (m.carryOutAll requests).draws = m.draws ∧
      (m.carryOutAll requests).drawn =
        m.drawn + (m.succeeding requests).countP (·.isMeasurement) := by
  induction requests generalizing m with
  | nil => exact ⟨rfl, rfl⟩
  | cons request rest ih =>
    have hsteps := request.procedure_settles m
    rw [carryOutAll, List.foldl_cons, ← carryOutAll, carryOut, succeeding]
    cases h : m.respond request with
    | error fault =>
      rw [h] at hsteps
      rw [hsteps]
      exact ih m
    | ok after =>
      rw [h] at hsteps
      rw [hsteps]
      obtain ⟨hdraws, hdrawn⟩ := drawn_of_respond_ok h
      obtain ⟨hrest, hcount⟩ := ih after
      refine ⟨hrest.trans hdraws, hcount.trans ?_⟩
      show _ = m.drawn + List.countP _ (request :: after.succeeding rest)
      rw [hdrawn, List.countP_cons]
      omega

/-- **Machine operations are all or nothing, and account for every draw.** For every history of
requests with whatever arguments, carried out step by step, and one more request: if its steps fail,
the machine is as it was; one draw has been taken for each measurement that has succeeded and none
for anything else; and if the request is a measurement that succeeds, its outcome is that of the
draw of its number. The steps fail or succeed as the machine responds. -/
theorem atomic_and_drawn (maxQubits : Nat) (draws : Nat → R) (history : List (Request R))
    (request : Request R) :
    let m := (initial maxQubits draws).carryOutAll history
    let measured := ((initial maxQubits draws).succeeding history).countP (·.isMeasurement)
    (∀ fault after, request.procedure m = .error fault after →
        after = m ∧ m.respond request = .error fault) ∧
      (∀ after, request.procedure m = .ok () after → m.respond request = .ok after) ∧
      m.draws = draws ∧ m.drawn = measured ∧
      (∀ source target after, request = .measure source target →
        request.procedure m = .ok () after →
        ∃ q c outcome vector, m.quantumRegister source = .ok q ∧
          m.vector.measure q.offset q.width (draws measured) = .ok ⟨outcome, vector⟩ ∧
          after.vector = vector ∧ after.drawn = measured + 1 ∧
          after.classicalRegister target = .ok c ∧ c.bits = BitIndex.bits q.width outcome) ∧
      ∀ source i target j after, request = .measureBit source i target j →
        request.procedure m = .ok () after →
        ∃ bit c outcome vector, m.qubit source i = .ok bit ∧
          m.vector.measure bit 1 (draws measured) = .ok ⟨outcome, vector⟩ ∧
          after.vector = vector ∧ after.drawn = measured + 1 ∧
          after.classicalRegister target = .ok c ∧ c.bits[j]? = some (outcome.testBit 0) := by
  intro m measured
  obtain ⟨hdraws, hdrawn⟩ := drawn_carryOutAll (initial maxQubits draws) history
  have hdrawn : m.drawn = measured := hdrawn.trans (Nat.zero_add _)
  have hok : ∀ after, request.procedure m = .ok () after → m.respond request = .ok after := by
    intro after h
    rw [request.procedure_settles] at h
    exact Steps.settled_eq_ok.mp h
  refine ⟨?_, hok, hdraws, hdrawn, ?_, ?_⟩
  · intro fault after h
    rw [request.procedure_settles] at h
    exact (Steps.settled_eq_error.mp h).symm
  · rintro source target after rfl h
    obtain ⟨q, c, outcome, vector, hq, hc, -, hm, rfl⟩ := measure_eq_ok.mp (hok after h)
    rw [hdraws, hdrawn] at hm
    refine ⟨q, _, outcome, vector, hq, hm, rfl, congrArg (· + 1) hdrawn,
      classicalRegister_updateClassical (r := c) hc fun _ => rfl, rfl⟩
  · rintro source i target j after rfl h
    obtain ⟨bit, c, outcome, vector, hbit, hc, hj, hm, rfl⟩ := measureBit_eq_ok.mp (hok after h)
    rw [hdraws, hdrawn] at hm
    refine ⟨bit, _, outcome, vector, hbit, hm, rfl, congrArg (· + 1) hdrawn,
      classicalRegister_updateClassical (r := c) hc fun _ => rfl, ?_⟩
    exact List.getElem?_set_self hj

/-- A measurement into a register that is not there leaves the machine as it was; the next one, of
the flipped qubit, takes the first draw. -/
theorem atomic_and_drawn_flipped :
    let m := (initial 24 fun _ => (0 : ℝ)).carryOutAll flippedHistory
    (∃ fault after, (Request.measure "q" "d").procedure m = .error fault after ∧ after = m) ∧
      ∃ after, (Request.measure "q" "c").procedure m = .ok () after ∧ after.drawn = 1 ∧
        ∃ c, after.classicalRegister "c" = .ok c ∧ c.bits = [true] := by
  intro m
  have hm : m = (initial 24 fun _ => (0 : ℝ)).serveAll flippedHistory :=
    carryOutAll_eq_serveAll _ _
  have hnone : m.drawn = 0 := by
    rw [hm]
    rfl
  have hsource : m.quantumRegister "q" = .ok ⟨"q", 0, 1⟩ := by
    rw [hm]
    rfl
  have hvector : m.vector.measure 0 1 (m.draws m.drawn) = .ok ⟨1, m.vector⟩ := by
    rw [hm]
    exact measure_flippedHistory
  have hfails : (Request.measure "q" "d").procedure m = .error (.undefinedRegister "d") m := by
    rw [Request.procedure_settles, hm]
    rfl
  have hresponse : m.respond (.measure "q" "c") = .ok _ :=
    measure_eq_ok.mpr ⟨_, ⟨"c", [false]⟩, 1, _, hsource, hm ▸ rfl, rfl, hvector, rfl⟩
  have hsucceeds := (Request.measure "q" "c").procedure_settles m
  rw [hresponse] at hsucceeds
  obtain ⟨hatomic, -⟩ := atomic_and_drawn 24 (fun _ => (0 : ℝ)) flippedHistory (.measure "q" "d")
  obtain ⟨-, -, hdraws, hdrawn, hmeasured, -⟩ :=
    atomic_and_drawn 24 (fun _ => (0 : ℝ)) flippedHistory (.measure "q" "c")
  obtain ⟨q, c, outcome, vector, hq, hfound, -, hafter, hc, hbits⟩ :=
    hmeasured "q" "c" _ rfl hsucceeds
  obtain rfl := Except.ok.inj (hsource.symm.trans hq)
  have hsame : m.vector.measure 0 1 (m.draws m.drawn) = .ok ⟨outcome, vector⟩ := hdraws ▸ hfound
  obtain rfl : 1 = outcome :=
    (StateVector.Measured.mk.inj (Except.ok.inj (hvector.symm.trans hsame))).1
  refine ⟨⟨_, m, hfails, (hatomic _ _ hfails).1⟩, _, hsucceeds, ?_, c, hc, hbits⟩
  rw [hafter, ← hdrawn]
  exact congrArg (· + 1) hnone

end Machine

end OpenQasm
