import Mathlib.Data.List.Basic
import Mathlib.Data.List.Induction

/-!
# Runs of a state machine

A state machine is a step function `step : σ → ι → σ`; its run over a list of inputs is
`List.foldl step`. `Along step P s is` says that every step of the run from `s` over `is` meets
`P`, a condition on the state before the step and on the input; `Throughout step P s is` says that
every state of the run, the first and the last included, satisfies `P`. The rules here are the
inductions over runs: an invariant (`invariant_foldl`, and `throughout_iff_forall_append` for every
state on the way) the exact condition under which a property holds throughout
(`throughout_iff_along`), and what every step meets as a condition on the inputs
(`along_iff_forall`). `trace` is the run of a machine whose steps answer: each answer is
that of one step (`exists_of_trace_eq`), and a simulation of the steps is one of the runs
(`trace_map`).

A step function that may fail, `step : σ → ι → Option σ`, runs by `List.foldlM step`, and `AlongM`
is what every step meets that the run comes to. Two such machines that stay in step run to states
that correspond (`foldlM_simulation`).

A machine that answers and may fail for a reason is `f : ι → StateT σ (Except ε) ω`, and runs by
`List.mapM f`. What holds before the first input and is kept by every answered one holds at the end
(`mapM_invariant`), and a run fails exactly where the state after some part of it fails on the next
input (`mapM_eq_error_iff`).
-/

namespace Run

variable {σ ι : Type*} {step : σ → ι → σ} {P Q : σ → ι → Prop} {Inv : σ → Prop} {s : σ}
  {is js : List ι}

/-- Every step of the run meets `P`. -/
def Along (step : σ → ι → σ) (P : σ → ι → Prop) : σ → List ι → Prop
  | _, [] => True
  | s, i :: is => P s i ∧ Along step P (step s i) is

/-- Every state of the run satisfies `Inv`. -/
def Throughout (step : σ → ι → σ) (Inv : σ → Prop) : σ → List ι → Prop
  | s, [] => Inv s
  | s, i :: is => Inv s ∧ Throughout step Inv (step s i) is

instance decidableAlong [∀ s i, Decidable (P s i)] : ∀ s is, Decidable (Along step P s is)
  | _, [] => inferInstanceAs (Decidable True)
  | s, i :: is => @instDecidableAnd _ _ _ (decidableAlong (step s i) is)

@[simp] theorem along_nil : Along step P s [] := trivial

@[simp] theorem along_cons {i : ι} :
    Along step P s (i :: is) ↔ P s i ∧ Along step P (step s i) is := Iff.rfl

theorem along_append :
    Along step P s (is ++ js) ↔ Along step P s is ∧ Along step P (is.foldl step s) js := by
  induction is generalizing s with
  | nil => simp
  | cons i is ih => simp [ih, and_assoc]

/-- **A property that every allowed step keeps holds at the end of every allowed run.** -/
theorem invariant_foldl (Inv : σ → Prop) (hstep : ∀ s i, Inv s → P s i → Inv (step s i))
    (hs : Inv s) (h : Along step P s is) : Inv (is.foldl step s) := by
  induction is generalizing s with
  | nil => exact hs
  | cons i is ih => exact ih (hstep s i hs h.1) h.2

/-- The invariant rule for a machine all of whose steps are allowed. -/
theorem invariant_foldl' (Inv : σ → Prop) (hstep : ∀ s i, Inv s → Inv (step s i)) (hs : Inv s)
    (is : List ι) : Inv (is.foldl step s) := by
  induction is generalizing s with
  | nil => exact hs
  | cons i is ih => exact ih (hstep s i hs)

/-- **Where an invariant makes the condition one on the inputs alone**, it is met along a run
exactly when every input meets it. -/
theorem along_iff_forall {R : ι → Prop} (hstep : ∀ s i, Inv s → Inv (step s i))
    (h : ∀ s i, Inv s → (P s i ↔ R i)) (hs : Inv s) : Along step P s is ↔ ∀ i ∈ is, R i := by
  induction is generalizing s with
  | nil => exact iff_of_true trivial fun i hi => absurd hi List.not_mem_nil
  | cons i is ih => rw [along_cons, List.forall_mem_cons, h s i hs, ih (hstep s i hs)]

instance decidableThroughout [DecidablePred Inv] : ∀ s is, Decidable (Throughout step Inv s is)
  | s, [] => inferInstanceAs (Decidable (Inv s))
  | s, i :: is => @instDecidableAnd _ _ _ (decidableThroughout (step s i) is)

theorem Throughout.head (h : Throughout step Inv s is) : Inv s := by
  cases is with
  | nil => exact h
  | cons => exact h.1

/-- The steps of a run throughout which a property holds lead to states that have it. -/
theorem Throughout.along (h : Throughout step Inv s is) :
    Along step (fun s i => Inv (step s i)) s is := by
  induction is generalizing s with
  | nil => exact trivial
  | cons i is ih => exact ⟨h.2.head, ih h.2⟩

/-- A property holds throughout a run when it holds after every part of it. -/
theorem throughout_iff_forall_append : Throughout step Inv s is ↔
    ∀ done rest, is = done ++ rest → Inv (done.foldl step s) := by
  induction is generalizing s with
  | nil =>
    constructor
    · intro h done rest heq
      obtain ⟨rfl, rfl⟩ := List.append_eq_nil_iff.mp heq.symm
      exact h
    · intro h
      exact h [] [] rfl
  | cons i is ih =>
    constructor
    · rintro ⟨hs, h⟩ done rest heq
      cases done with
      | nil => exact hs
      | cons j done =>
        obtain ⟨rfl, rfl⟩ := List.cons.inj heq
        exact ih.mp h done rest rfl
    · intro h
      refine ⟨h [] _ rfl, ih.mpr fun done rest heq => ?_⟩
      exact h (i :: done) rest (by rw [heq]; rfl)

theorem Throughout.and {Inv' : σ → Prop} (h : Throughout step Inv s is)
    (h' : Throughout step Inv' s is) : Throughout step (fun s => Inv s ∧ Inv' s) s is :=
  throughout_iff_forall_append.mpr fun done rest heq =>
    ⟨throughout_iff_forall_append.mp h done rest heq,
      throughout_iff_forall_append.mp h' done rest heq⟩

theorem Throughout.imp {Inv' : σ → Prop} (h : Throughout step Inv s is)
    (himp : ∀ s, Inv s → Inv' s) : Throughout step Inv' s is :=
  throughout_iff_forall_append.mpr fun done rest heq =>
    himp _ (throughout_iff_forall_append.mp h done rest heq)

/-- **The exact condition for a property to hold throughout a run**: it holds at the start, and
every step from a state that has it meets the condition under which the step keeps it. -/
theorem throughout_iff_along (hstep : ∀ s i, Inv s → (Inv (step s i) ↔ Q s i)) (hs : Inv s) :
    Throughout step Inv s is ↔ Along step Q s is := by
  induction is generalizing s with
  | nil => exact iff_of_true hs trivial
  | cons i is ih =>
    have hi := hstep s i hs
    constructor
    · intro h
      have hnext : Inv (step s i) := h.2.head
      exact ⟨hi.1 hnext, (ih hnext).1 h.2⟩
    · intro h
      have hnext : Inv (step s i) := hi.2 h.1
      exact ⟨hs, (ih hnext).2 h.2⟩

/-! ## Machines that may fail -/

section Partial

variable {σ' ι' : Type*} {step : σ → ι → Option σ} {step' : σ' → ι' → Option σ'}
  {P' : σ' → ι' → Prop} {s' : σ'}

/-- Every step that the run comes to meets `P`. -/
def AlongM (step : σ → ι → Option σ) (P : σ → ι → Prop) : σ → List ι → Prop
  | _, [] => True
  | s, i :: is => P s i ∧ ∀ t ∈ step s i, AlongM step P t is

instance decidableAlongM [∀ s i, Decidable (P s i)] : ∀ s is, Decidable (AlongM step P s is)
  | _, [] => inferInstanceAs (Decidable True)
  | s, i :: is => @instDecidableAnd _ _ _
      (@Option.decidableForallMem _ _ (fun t => decidableAlongM t is) (step s i))

/-- **A simulation of one step is a simulation of every run**, where the steps of both machines
meet the conditions under which they stay in step. -/
theorem foldlM_simulation (R : σ → σ' → Prop) (g : ι → ι')
    (hstep : ∀ s s' i, R s s' → P s i → P' s' (g i) →
      ∃ t t', step s i = some t ∧ step' s' (g i) = some t' ∧ R t t')
    (hs : R s s') (h : AlongM step P s is) (h' : AlongM step' P' s' (is.map g)) :
    ∃ t t', is.foldlM step s = some t ∧ (is.map g).foldlM step' s' = some t' ∧ R t t' := by
  induction is generalizing s s' with
  | nil => exact ⟨s, s', rfl, rfl, hs⟩
  | cons i is ih =>
    obtain ⟨t, t', ht, ht', hR⟩ := hstep s s' i hs h.1 h'.1
    obtain ⟨u, u', hu, hu', hR⟩ := ih hR (h.2 t ht) (h'.2 t' ht')
    refine ⟨u, u', ?_, ?_, hR⟩
    · rw [List.foldlM_cons, ht]
      exact hu
    · rw [List.map_cons, List.foldlM_cons, ht']
      exact hu'

end Partial

/-! ## Machines that answer -/

section Trace

variable {σ' ι' ω ω' : Type*}

/-- The state and the answer after each input. -/
def trace (step : σ → ι → σ × ω) : σ → List ι → List (σ × ω)
  | _, [] => []
  | s, i :: is => step s i :: trace step (step s i).1 is

/-- **An answer of a run** is the answer to one input, in the state after those before it. -/
theorem exists_of_trace_eq {step : σ → ι → σ × ω} {pre post : List (σ × ω)} {x : σ × ω}
    (h : trace step s is = pre ++ x :: post) :
    ∃ done i rest, is = done ++ i :: rest ∧ pre = trace step s done ∧
      x = step (done.foldl (fun s i => (step s i).1) s) i := by
  induction is generalizing s pre with
  | nil => simp [trace] at h
  | cons i is ih =>
    cases pre with
    | nil => exact ⟨[], i, is, rfl, rfl, (List.cons.inj h).1.symm⟩
    | cons y pre =>
      obtain ⟨rfl, htail⟩ := List.cons.inj h
      obtain ⟨done, j, rest, rfl, rfl, rfl⟩ := ih htail
      exact ⟨i :: done, j, rest, rfl, rfl, rfl⟩

/-- **A simulation of one step is a simulation of every run**, states and answers. -/
theorem trace_map {step : σ → ι → σ × ω} {step' : σ' → ι' → σ' × ω'} (f : σ → σ') (g : ι → ι')
    (h : ω → ω') (hstep : ∀ s i, step' (f s) (g i) = Prod.map f h (step s i)) (s : σ)
    (is : List ι) : trace step' (f s) (is.map g) = (trace step s is).map (Prod.map f h) := by
  induction is generalizing s with
  | nil => rfl
  | cons i is ih => rw [List.map_cons, trace, trace, hstep, List.map_cons, Prod.map_fst, ih]

end Trace

/-! ## Machines that answer and may fail -/

section Session

variable {ε ω : Type} {σ : Type} {f : ι → StateT σ (Except ε) ω} {s s' : σ} {ws : List ω}

theorem mapM_cons_apply (f : ι → StateT σ (Except ε) ω) (i : ι) (is : List ι) (s : σ) :
    (i :: is).mapM f s = (f i s).bind fun t => (is.mapM f t.2).map fun r => (t.1 :: r.1, r.2) := by
  rw [List.mapM_cons]
  change (f i s).bind _ = _
  refine congrArg _ (funext fun t => ?_)
  change (is.mapM f t.2).bind _ = _
  cases is.mapM f t.2 <;> rfl

theorem mapM_cons_eq_ok_iff {i : ι} : (i :: is).mapM f s = .ok (ws, s') ↔
    ∃ w t ws₁, f i s = .ok (w, t) ∧ is.mapM f t = .ok (ws₁, s') ∧ ws = w :: ws₁ := by
  rw [mapM_cons_apply]
  cases hhead : f i s with
  | error e => simp [Except.bind]
  | ok r =>
    obtain ⟨w, t⟩ := r
    cases htail : is.mapM f t with
    | error e => simp [Except.bind, Except.map, htail]
    | ok r =>
      simp only [Except.bind, Except.map, htail, Except.ok.injEq, Prod.mk.injEq]
      constructor
      · rintro ⟨rfl, rfl⟩
        exact ⟨w, t, r.1, ⟨rfl, rfl⟩, htail, rfl⟩
      · rintro ⟨_, _, ws₁, ⟨rfl, rfl⟩, hrun, rfl⟩
        cases htail.symm.trans hrun
        exact ⟨rfl, rfl⟩

theorem mapM_cons_eq_error_iff {i : ι} {e : ε} : (i :: is).mapM f s = .error e ↔
    f i s = .error e ∨ ∃ w t, f i s = .ok (w, t) ∧ is.mapM f t = .error e := by
  rw [mapM_cons_apply]
  cases hhead : f i s with
  | error e' => simp [Except.bind]
  | ok r =>
    obtain ⟨w, t⟩ := r
    cases htail : is.mapM f t with
    | error e' => simp [Except.bind, Except.map, htail]
    | ok r => simp [Except.bind, Except.map, htail]

theorem mapM_append_eq_ok_iff : (is ++ js).mapM f s = .ok (ws, s') ↔
    ∃ ws₁ t ws₂, is.mapM f s = .ok (ws₁, t) ∧ js.mapM f t = .ok (ws₂, s') ∧ ws = ws₁ ++ ws₂ := by
  induction is generalizing s ws with
  | nil =>
    constructor
    · exact fun h => ⟨[], s, ws, rfl, h, rfl⟩
    · rintro ⟨ws₁, t, ws₂, hfront, h, rfl⟩
      cases hfront
      exact h
  | cons i is ih =>
    rw [List.cons_append, mapM_cons_eq_ok_iff]
    constructor
    · rintro ⟨w, t, ws', hhead, htail, rfl⟩
      obtain ⟨ws₁, u, ws₂, hfront, hback, rfl⟩ := ih.mp htail
      exact ⟨w :: ws₁, u, ws₂, mapM_cons_eq_ok_iff.mpr ⟨w, t, ws₁, hhead, hfront, rfl⟩, hback, rfl⟩
    · rintro ⟨ws₁, u, ws₂, hfront, hback, rfl⟩
      obtain ⟨w, t, ws₁, hhead, htail, rfl⟩ := mapM_cons_eq_ok_iff.mp hfront
      exact ⟨w, t, ws₁ ++ ws₂, hhead, ih.mpr ⟨ws₁, u, ws₂, htail, hback, rfl⟩, rfl⟩

theorem mapM_singleton_eq_ok_iff {i : ι} :
    [i].mapM f s = .ok (ws, s') ↔ ∃ w, f i s = .ok (w, s') ∧ ws = [w] := by
  rw [mapM_cons_eq_ok_iff]
  constructor
  · rintro ⟨w, t, ws₁, hhead, hnil, rfl⟩
    cases hnil
    exact ⟨w, hhead, rfl⟩
  · rintro ⟨w, hhead, rfl⟩
    exact ⟨w, s', [], hhead, rfl, rfl⟩

/-- **What every answered input keeps** holds at the end of a run that does not fail. -/
theorem mapM_invariant (Inv : List ι → List ω → σ → Prop) (hstart : Inv [] [] s)
    (hstep : ∀ is ws s i w s', Inv is ws s → f i s = .ok (w, s') → Inv (is ++ [i]) (ws ++ [w]) s')
    (h : is.mapM f s = .ok (ws, s')) : Inv is ws s' := by
  induction is using List.reverseRecOn generalizing ws s' with
  | nil =>
    cases h
    exact hstart
  | append_singleton is i ih =>
    obtain ⟨ws₁, t, ws₂, hfront, hback, rfl⟩ := mapM_append_eq_ok_iff.mp h
    obtain ⟨w, hlast, rfl⟩ := mapM_singleton_eq_ok_iff.mp hback
    exact hstep is ws₁ t i w s' (ih hfront) hlast

/-- **A run fails** where the state after some part of it fails on the next input. -/
theorem mapM_eq_error_iff {e : ε} : is.mapM f s = .error e ↔
    ∃ done i rest ws s', is = done ++ i :: rest ∧ done.mapM f s = .ok (ws, s') ∧
      f i s' = .error e := by
  induction is generalizing s with
  | nil => exact iff_of_false nofun (by simp)
  | cons i is ih =>
    rw [mapM_cons_eq_error_iff]
    constructor
    · rintro (hhead | ⟨w, t, hhead, htail⟩)
      · exact ⟨[], i, is, [], s, rfl, rfl, hhead⟩
      · obtain ⟨done, j, rest, ws, s', rfl, hdone, hj⟩ := ih.mp htail
        exact ⟨i :: done, j, rest, w :: ws, s', rfl,
          mapM_cons_eq_ok_iff.mpr ⟨w, t, ws, hhead, hdone, rfl⟩, hj⟩
    · rintro ⟨done, j, rest, ws, s', heq, hdone, hj⟩
      cases done with
      | nil =>
        obtain ⟨rfl, rfl⟩ := List.cons.inj heq
        cases hdone
        exact .inl hj
      | cons k done =>
        obtain ⟨rfl, rfl⟩ := List.cons.inj heq
        obtain ⟨w, t, ws, hhead, htail, rfl⟩ := mapM_cons_eq_ok_iff.mp hdone
        exact .inr ⟨w, t, hhead, ih.mpr ⟨done, j, rest, ws, s', rfl, htail, hj⟩⟩

end Session

end Run
