import Mathlib.Data.List.Basic

/-!
# Runs of a partial step function

A system is a partial function `step` from a state and an action to the next
state; `none` means that the action is not enabled.  A run is the fold of `step`
over a list of actions.  `Along` says that a condition on the state and the next
action holds at every step of a run, and `run_invariant` is the induction by
which a property preserved by one step holds in every state reached.
-/

namespace DistributedMemory.Library

universe u v

variable {State : Type u} {Action : Type v}

def run (step : State → Action → Option State) :
    State → List Action → Option State
  | s, [] => some s
  | s, a :: rest =>
      match step s a with
      | none => none
      | some s' => run step s' rest

/-- `ok` holds at every step that the run takes. -/
def Along (step : State → Action → Option State)
    (ok : State → Action → Prop) : State → List Action → Prop
  | _, [] => True
  | s, a :: rest =>
      match step s a with
      | none => ok s a
      | some s' => ok s a ∧ Along step ok s' rest

instance Along.decide (step : State → Action → Option State)
    (ok : State → Action → Prop) [∀ s a, Decidable (ok s a)] :
    ∀ s actions, Decidable (Along step ok s actions)
  | _, [] => isTrue trivial
  | s, a :: rest =>
      match h : step s a with
      | none => decidable_of_iff (ok s a) (by simp only [Along, h])
      | some s' =>
          haveI := Along.decide step ok s' rest
          decidable_of_iff (ok s a ∧ Along step ok s' rest)
            (by simp only [Along, h])

def sumAlong (step : State → Action → Option State)
    (weight : State → Action → Nat) : State → List Action → Nat
  | _, [] => 0
  | s, a :: rest =>
      weight s a +
        match step s a with
        | none => 0
        | some s' => sumAlong step weight s' rest

/-- How many steps of a run are as `p` says of the state before and the action. -/
def countAlong (step : State → Action → Option State)
    (p : State → Action → Bool) : State → List Action → Nat :=
  sumAlong step fun s a => if p s a then 1 else 0

/-- `P` holds in every state of the run, the first and the last included. -/
def Always (step : State → Action → Option State) (P : State → Prop) :
    State → List Action → Prop
  | s, [] => P s
  | s, a :: rest =>
      P s ∧
        match step s a with
        | none => True
        | some s' => Always step P s' rest

section Run

variable {step : State → Action → Option State}
  {ok : State → Action → Prop}

@[simp] theorem run_nil (s : State) : run step s [] = some s := rfl

theorem run_cons_of_step {s s' : State} {a : Action} {rest : List Action}
    (h : step s a = some s') : run step s (a :: rest) = run step s' rest := by
  simp only [run, h]

theorem run_cons {s t : State} {a : Action} {rest : List Action} :
    run step s (a :: rest) = some t ↔
      ∃ s', step s a = some s' ∧ run step s' rest = some t := by
  cases h : step s a with
  | none => simp [run, h]
  | some s' => simp [run, h]

theorem run_append {s t : State} {before after : List Action} :
    run step s (before ++ after) = some t ↔
      ∃ s', run step s before = some s' ∧ run step s' after = some t := by
  induction before generalizing s with
  | nil => simp
  | cons a rest ih =>
      cases h : step s a with
      | none => simp [run, h]
      | some s' => simpa [run, h] using ih

/-- A run that comes to satisfy `P` does so in one of its steps. -/
theorem run_crosses {P : State → Prop} {s t : State} {actions : List Action}
    (hs : ¬ P s) (ht : P t) (hrun : run step s actions = some t) :
    ∃ before a after s₁ s₂, actions = before ++ a :: after ∧
      run step s before = some s₁ ∧ ¬ P s₁ ∧ step s₁ a = some s₂ ∧ P s₂ ∧
      run step s₂ after = some t := by
  induction actions generalizing s with
  | nil =>
      cases hrun
      exact absurd ht hs
  | cons a rest ih =>
      obtain ⟨s', hstep, hrest⟩ := run_cons.mp hrun
      by_cases hs' : P s'
      · exact ⟨[], a, rest, s, s', rfl, rfl, hs, hstep, hs', hrest⟩
      · obtain ⟨before, b, after, s₁, s₂, rfl, hbefore, hs₁, hb, hs₂, hafter⟩ :=
          ih hs' hrest
        refine ⟨a :: before, b, after, s₁, s₂, rfl, ?_, hs₁, hb, hs₂, hafter⟩
        rw [run_cons_of_step hstep]
        exact hbefore

/-- A run keeps `P` up to a state in which `Q` holds. -/
theorem run_until {P Q : State → Prop}
    (hstep : ∀ s a s', P s → step s a = some s' → Q s' ∨ P s')
    {s t : State} {actions : List Action} (hs : P s)
    (hrun : run step s actions = some t) :
    (∃ before after s₁, actions = before ++ after ∧
      run step s before = some s₁ ∧ Q s₁) ∨ P t := by
  induction actions generalizing s with
  | nil =>
      cases hrun
      exact .inr hs
  | cons a rest ih =>
      obtain ⟨s', hs', hrest⟩ := run_cons.mp hrun
      have hfirst : run step s [a] = some s' := by
        rw [run_cons_of_step hs', run_nil]
      rcases hstep s a s' hs hs' with hQ | hP
      · exact .inl ⟨[a], rest, s', rfl, hfirst, hQ⟩
      · rcases ih hP hrest with ⟨before, after, s₁, rfl, hbefore, hQ⟩ | hend
        · refine .inl ⟨a :: before, after, s₁, rfl, ?_, hQ⟩
          rw [run_cons_of_step hs']
          exact hbefore
        · exact .inr hend

theorem along_cons_of_step {s s' : State} {a : Action} {rest : List Action}
    (h : step s a = some s') :
    Along step ok s (a :: rest) ↔ ok s a ∧ Along step ok s' rest := by
  simp only [Along, h]

theorem along_of_forall (hall : ∀ s a, ok s a) (s : State)
    (actions : List Action) : Along step ok s actions := by
  induction actions generalizing s with
  | nil => trivial
  | cons a rest ih =>
      cases hstep : step s a with
      | none =>
          simp only [Along, hstep]
          exact hall s a
      | some s' => exact (along_cons_of_step hstep).mpr ⟨hall s a, ih s'⟩

theorem along_of_forall_mem {p : Action → Prop} {actions : List Action}
    (hp : ∀ a ∈ actions, p a) (s : State) :
    Along step (fun _ a => p a) s actions := by
  induction actions generalizing s with
  | nil => trivial
  | cons a rest ih =>
      cases hstep : step s a with
      | none =>
          simp only [Along, hstep]
          exact hp a (by simp)
      | some s' =>
          refine (along_cons_of_step hstep).mpr ⟨hp a (by simp), ih ?_ s'⟩
          exact fun b hb => hp b (List.mem_cons_of_mem a hb)

theorem along_and {p : Action → Prop} {s : State} {actions : List Action}
    (hp : ∀ a ∈ actions, p a) (h : Along step ok s actions) :
    Along step (fun s a => p a ∧ ok s a) s actions := by
  induction actions generalizing s with
  | nil => trivial
  | cons a rest ih =>
      have hrest := fun b hb => hp b (List.mem_cons_of_mem a hb)
      cases hstep : step s a with
      | none =>
          simp only [Along, hstep] at h ⊢
          exact ⟨hp a (by simp), h⟩
      | some s' =>
          rw [along_cons_of_step hstep] at h ⊢
          exact ⟨⟨hp a (by simp), h.1⟩, ih hrest h.2⟩

theorem Along.of_append {s : State} {before after : List Action}
    (h : Along step ok s (before ++ after)) : Along step ok s before := by
  induction before generalizing s with
  | nil => trivial
  | cons a rest ih =>
      rw [List.cons_append] at h
      cases hstep : step s a with
      | none => simpa only [Along, hstep] using h
      | some s' =>
          rw [along_cons_of_step hstep] at h ⊢
          exact ⟨h.1, ih h.2⟩

/-- A property kept by every step that meets `ok` is kept by every run. -/
theorem run_invariant {I : State → Prop}
    (hstep : ∀ s a s', I s → ok s a → step s a = some s' → I s')
    {s t : State} {actions : List Action} (hinit : I s)
    (hok : Along step ok s actions) (hrun : run step s actions = some t) :
    I t := by
  induction actions generalizing s with
  | nil =>
      cases hrun
      exact hinit
  | cons a rest ih =>
      obtain ⟨s', hs', hrest⟩ := run_cons.mp hrun
      rw [along_cons_of_step hs'] at hok
      exact ih (hstep s a s' hinit hok.1 hs') hok.2 hrest

/-- With the invariant the one condition on the steps gives the other. -/
theorem Along.imp {I : State → Prop} {ok' : State → Action → Prop}
    (hstep : ∀ s a s', I s → ok s a → step s a = some s' → I s')
    (himp : ∀ s a, I s → ok s a → ok' s a) {s : State} {actions : List Action}
    (hinit : I s) (h : Along step ok s actions) : Along step ok' s actions := by
  induction actions generalizing s with
  | nil => trivial
  | cons a rest ih =>
      cases hs' : step s a with
      | none =>
          simp only [Along, hs'] at h ⊢
          exact himp s a hinit h
      | some s' =>
          rw [along_cons_of_step hs'] at h ⊢
          exact ⟨himp s a hinit h.1, ih (hstep s a s' hinit h.1 hs') h.2⟩

/-- A property kept by every step is kept by every run. -/
theorem run_preserves {I : State → Prop}
    (hstep : ∀ s a s', I s → step s a = some s' → I s')
    {s t : State} {actions : List Action} (hinit : I s)
    (hrun : run step s actions = some t) : I t := by
  have hok : Along step (fun _ _ => True) s actions :=
    along_of_forall (fun _ _ => trivial) s actions
  exact run_invariant (fun s a s' h _ => hstep s a s' h) hinit hok hrun

/-- When a step that does not meet `ok` makes `B` hold, and `B` once it holds stays,
a run that ends without `B` meets `ok` throughout. -/
theorem along_of_stable {I B : State → Prop}
    (hinv : ∀ s a s', I s → step s a = some s' → I s')
    (hkeep : ∀ s a s', I s → B s → step s a = some s' → B s')
    (hbreak : ∀ s a s', I s → ¬ ok s a → step s a = some s' → B s')
    {s t : State} {actions : List Action} (hinit : I s)
    (hrun : run step s actions = some t) (hB : ¬ B t) :
    Along step ok s actions := by
  induction actions generalizing s with
  | nil => trivial
  | cons a rest ih =>
      obtain ⟨s', hs', hrest⟩ := run_cons.mp hrun
      have hinit' := hinv s a s' hinit hs'
      refine (along_cons_of_step hs').mpr ⟨?_, ih hinit' hrest⟩
      by_contra hok
      have hboth : I t ∧ B t :=
        run_preserves (I := fun s => I s ∧ B s)
          (fun s a s' h hs => ⟨hinv s a s' h.1 hs, hkeep s a s' h.1 h.2 hs⟩)
          ⟨hinit', hbreak s a s' hinit hok hs'⟩ hrest
      exact hB hboth.2

theorem always_cons_of_step {P : State → Prop} {s s' : State} {a : Action}
    {rest : List Action} (h : step s a = some s') :
    Always step P s (a :: rest) ↔ P s ∧ Always step P s' rest := by
  simp only [Always, h]

theorem Always.head {P : State → Prop} {s : State} {actions : List Action}
    (h : Always step P s actions) : P s := by
  cases actions with
  | nil => exact h
  | cons a rest => exact h.1

theorem Always.last {P : State → Prop} {s t : State} {actions : List Action}
    (h : Always step P s actions) (hrun : run step s actions = some t) :
    P t := by
  induction actions generalizing s with
  | nil =>
      cases hrun
      exact h
  | cons a rest ih =>
      obtain ⟨s', hs', hrest⟩ := run_cons.mp hrun
      exact ih ((always_cons_of_step hs').mp h).2 hrest

/-- When `ok` is what one step needs to keep `P` and is enough to keep the
stronger `Q`, a run keeps `P` throughout exactly when it meets `ok` throughout. -/
theorem always_iff_along_of {I P Q : State → Prop} (hweak : ∀ s, Q s → P s)
    (hinv : ∀ s a s', I s → step s a = some s' → I s')
    (hstep : ∀ s a s', I s → Q s → step s a = some s' →
      (P s' ↔ ok s a) ∧ (ok s a → Q s'))
    {s t : State} {actions : List Action} (hinit : I s) (hQ : Q s)
    (hrun : run step s actions = some t) :
    Always step P s actions ↔ Along step ok s actions := by
  induction actions generalizing s with
  | nil => exact iff_of_true (hweak s hQ) trivial
  | cons a rest ih =>
      obtain ⟨s', hs', hrest⟩ := run_cons.mp hrun
      obtain ⟨hiff, hkeep⟩ := hstep s a s' hinit hQ hs'
      have hinit' := hinv s a s' hinit hs'
      rw [always_cons_of_step hs', along_cons_of_step hs']
      constructor
      · rintro ⟨-, hall⟩
        have hok := hiff.mp hall.head
        exact ⟨hok, (ih hinit' (hkeep hok) hrest).mp hall⟩
      · rintro ⟨hok, hall⟩
        exact ⟨hweak s hQ, (ih hinit' (hkeep hok) hrest).mpr hall⟩

/-- When `ok` is what one step needs to keep `P`, a run keeps `P` throughout
exactly when it meets `ok` throughout. -/
theorem always_iff_along {I P : State → Prop}
    (hinv : ∀ s a s', I s → step s a = some s' → I s')
    (hstep : ∀ s a s', I s → P s → step s a = some s' → (P s' ↔ ok s a))
    {s t : State} {actions : List Action} (hinit : I s) (hP : P s)
    (hrun : run step s actions = some t) :
    Always step P s actions ↔ Along step ok s actions :=
  always_iff_along_of (fun _ h => h) hinv
    (fun s a s' hI h hs => ⟨hstep s a s' hI h hs, (hstep s a s' hI h hs).mpr⟩)
    hinit hP hrun

/-- A run is followed by the run of what each of its actions stands for, when every
step that meets `ok` is. -/
theorem run_simulates {State' : Type*} {Action' : Type*}
    {step' : State' → Action' → Option State'} {image : Action → Option Action'}
    {R : State' → State → Prop}
    (hstep : ∀ s' s a t, R s' s → ok s a → step s a = some t →
      ∃ t', run step' s' (image a).toList = some t' ∧ R t' t)
    {s' : State'} {s t : State} {actions : List Action} (hinit : R s' s)
    (hok : Along step ok s actions) (hrun : run step s actions = some t) :
    ∃ t', run step' s' (actions.filterMap image) = some t' ∧ R t' t := by
  induction actions generalizing s' s with
  | nil =>
      cases hrun
      exact ⟨s', rfl, hinit⟩
  | cons a rest ih =>
      obtain ⟨s₁, hs₁, hrest⟩ := run_cons.mp hrun
      rw [along_cons_of_step hs₁] at hok
      obtain ⟨s₁', hfirst, hR⟩ := hstep s' s a s₁ hinit hok.1 hs₁
      obtain ⟨t', hlater, hend⟩ := ih hR hok.2 hrest
      have hcons : (a :: rest).filterMap image =
          (image a).toList ++ rest.filterMap image := by
        cases himage : image a <;> simp [himage]
      exact ⟨t', by rw [hcons]; exact run_append.mpr ⟨s₁', hfirst, hlater⟩, hend⟩

/-- A list that every step extends by what its action stands for is extended by a
run with what its actions stand for, in this order. -/
theorem run_records {Entry : Type*} (log : State → List Entry)
    {image : Action → Option Entry}
    (hstep : ∀ s a s', step s a = some s' → log s' = log s ++ (image a).toList)
    {s t : State} {actions : List Action}
    (hrun : run step s actions = some t) :
    log t = log s ++ actions.filterMap image := by
  induction actions generalizing s with
  | nil =>
      cases hrun
      simp
  | cons a rest ih =>
      obtain ⟨s', hs', hrest⟩ := run_cons.mp hrun
      rw [ih hrest, hstep s a s' hs', List.append_assoc]
      cases himage : image a <;> simp [himage]

/-! ## Counting steps -/

variable {weight weight' : State → Action → Nat} {p : State → Action → Bool}

theorem sumAlong_cons_of_step {s s' : State} {a : Action} {rest : List Action}
    (h : step s a = some s') :
    sumAlong step weight s (a :: rest) =
      weight s a + sumAlong step weight s' rest := by
  simp only [sumAlong, h]

theorem sumAlong_add (s : State) (actions : List Action) :
    sumAlong step (fun s a => weight s a + weight' s a) s actions =
      sumAlong step weight s actions + sumAlong step weight' s actions := by
  induction actions generalizing s with
  | nil => rfl
  | cons a rest ih =>
      cases hstep : step s a with
      | none => simp only [sumAlong, hstep, Nat.add_zero]
      | some s' =>
          rw [sumAlong_cons_of_step hstep, sumAlong_cons_of_step hstep,
            sumAlong_cons_of_step hstep, ih]
          omega

/-- What every step adds and takes away adds up over a run. -/
theorem run_conserves {f : State → Nat} {gain loss : State → Action → Nat}
    (hstep : ∀ s a s', step s a = some s' → f s' + loss s a = f s + gain s a)
    {s t : State} {actions : List Action} (hrun : run step s actions = some t) :
    f t + sumAlong step loss s actions = f s + sumAlong step gain s actions := by
  induction actions generalizing s with
  | nil =>
      cases hrun
      rfl
  | cons a rest ih =>
      obtain ⟨s', hs', hrest⟩ := run_cons.mp hrun
      have hone := hstep s a s' hs'
      have hlater := ih hrest
      rw [sumAlong_cons_of_step hs', sumAlong_cons_of_step hs']
      omega

theorem sumAlong_ite {p : Action → Bool} {s t : State} {actions : List Action}
    (hrun : run step s actions = some t) (w : Nat) :
    sumAlong step (fun _ a => if p a then w else 0) s actions =
      actions.countP p * w := by
  induction actions generalizing s with
  | nil => exact (Nat.zero_mul w).symm
  | cons a rest ih =>
      obtain ⟨s', hs', hrest⟩ := run_cons.mp hrun
      rw [sumAlong_cons_of_step hs', ih hrest, List.countP_cons, Nat.add_comm,
        Nat.add_mul]
      congr 1
      split
      · exact (Nat.one_mul w).symm
      · exact (Nat.zero_mul w).symm

/-- No step is as `p` says when the invariant and `ok` exclude it. -/
theorem countAlong_eq_zero {I : State → Prop}
    (hstep : ∀ s a s', I s → ok s a → step s a = some s' → I s')
    (hnone : ∀ s a, I s → p s a = false) {s : State} {actions : List Action}
    (hinit : I s) (hok : Along step ok s actions) :
    countAlong step p s actions = 0 := by
  induction actions generalizing s with
  | nil => rfl
  | cons a rest ih =>
      have hfirst : (if p s a then 1 else 0) = 0 := by rw [hnone s a hinit]; rfl
      cases hs' : step s a with
      | none => simp only [countAlong, sumAlong, hs', hfirst]
      | some s' =>
          rw [along_cons_of_step hs'] at hok
          have hlater := ih (hstep s a s' hinit hok.1 hs') hok.2
          rw [countAlong] at hlater
          rw [countAlong, sumAlong_cons_of_step hs', hfirst, hlater]

end Run

end DistributedMemory.Library
