import FpgaGpu.Lib.Machine

/-!
# Forward simulations

A machine follows another one if it does one or more steps for each step of the other, and stops
where the other stops. Both then come to an end or neither does, and the states that they end in are
related.
-/

namespace Machine

variable {σ τ α β : Type} {step : σ → Option (α × σ)} {step' : τ → Option (β × τ)}

lemma rel_mono {R R' : σ → τ → Prop} (imp : ∀ s t, R s t → R' s t) {s : Option σ} {t : Option τ}
    (h : Option.Rel R s t) : Option.Rel R' s t := by
  cases h with
  | some rel => exact .some (imp _ _ rel)
  | none => exact .none

/-- The run from `s` stops at `s'`. -/
def Ends (step : σ → Option (α × σ)) (s s' : σ) : Prop :=
  ∃ n, after step n s = some s' ∧ step s' = none

/-- A run goes on behind its first step. -/
lemma after_succ {s s₁ : σ} {a : α} (h : step s = some (a, s₁)) (n : Nat) :
    after step (n + 1) s = after step n s₁ := by
  rw [after, h]

/-- There are no steps after a stop. -/
lemma after_succ_of_stop {s : σ} (stop : step s = none) (n : Nat) :
    after step (n + 1) s = none := by
  rw [after, stop]

lemma Ends.of_stop {s : σ} (stop : step s = none) : Ends step s s := ⟨0, rfl, stop⟩

/-- What steps lead to ends where the run does. -/
lemma Ends.of_after {s s₁ s' : σ} {n : Nat} (run : after step n s = some s₁)
    (ends : Ends step s₁ s') :
    Ends step s s' := by
  obtain ⟨m, rest, stop⟩ := ends
  refine ⟨n + m, ?_, stop⟩
  rw [after_add, run]
  exact rest

/-- A run that stops later has done the steps before. -/
lemma after_of_stop {s s₁ s' : σ} {n m : Nat} (run : after step n s = some s₁)
    (last : after step m s = some s') (stop : step s' = none) :
    n ≤ m ∧ after step (m - n) s₁ = some s' := by
  obtain lt | le := Nat.lt_or_ge m n
  · obtain ⟨k, rfl⟩ := Nat.exists_eq_add_of_lt lt
    rw [Nat.add_assoc, after_add, last, Option.bind_some, after_succ_of_stop stop] at run
    cases run
  · obtain ⟨k, rfl⟩ := Nat.exists_eq_add_of_le le
    rw [after_add, run] at last
    exact ⟨le, by rwa [Nat.add_sub_cancel_left]⟩

/-- A run stops at one state. -/
lemma Ends.unique {s s₁ s₂ : σ} (h₁ : Ends step s s₁) (h₂ : Ends step s s₂) : s₁ = s₂ := by
  obtain ⟨n, run₁, stop₁⟩ := h₁
  obtain ⟨m, run₂, stop₂⟩ := h₂
  obtain ⟨le, rest⟩ := after_of_stop run₁ run₂ stop₂
  obtain ⟨le', -⟩ := after_of_stop run₂ run₁ stop₁
  rw [Nat.le_antisymm le' le, Nat.sub_self] at rest
  exact Option.some.inj rest

/-- What holds along a run of any length holds where it is after `n` steps. -/
lemma Along.after {P : σ → Prop} {s s' : σ} {n : Nat} (along : Along P step (n + 1) s)
    (run : Machine.after step n s = some s') : P s' := by
  induction n generalizing s with
  | zero =>
    obtain rfl := Option.some.inj run
    exact along.1
  | succ n ih =>
    rw [Machine.after] at run
    cases e : step s with
    | none =>
      rw [e] at run
      cases run
    | some next =>
      rw [e] at run
      exact ih (along.2 _ _ e) run

/-- The second machine does one or more steps for each step of the first, and stops where that
stops; only states in `P` count. -/
structure Forward (P : σ → Prop) (R : σ → τ → Prop) (step : σ → Option (α × σ))
    (step' : τ → Option (β × τ)) : Prop where
  advance : ∀ {s t a s'}, P s → R s t → step s = some (a, s') →
    ∃ d t', after step' (d + 1) t = some t' ∧ R s' t'
  stop : ∀ {s t}, P s → R s t → step s = none → step' t = none

/-- Machines in lockstep follow each other. -/
lemma Forward.of_lockstep {E : α → β → Prop} {P : σ → Prop} {R : σ → τ → Prop}
    (sim : ∀ {s t}, P s → R s t → Lockstep E R step step' s t) : Forward P R step step' where
  advance {s t a s'} p rel e := by
    have same := sim p rel
    rw [Lockstep, e] at same
    obtain ⟨y, e', -, rel'⟩ := exists_of_rel same
    exact ⟨0, y.2, after_succ e' 0, rel'⟩
  stop {s t} p rel e := by
    have same := sim p rel
    rw [Lockstep, e] at same
    cases e' : step' t with
    | none => rfl
    | some y =>
      rw [e'] at same
      cases same

namespace Forward

variable {P : σ → Prop} {R : σ → τ → Prop} {s s' : σ} {t t' : τ}

/-- After any number of steps the second machine has come to a related state. -/
theorem after (sim : Forward P R step step') {n : Nat} (along : Along P step n s) (rel : R s t)
    (run : Machine.after step n s = some s') :
    ∃ m t', n ≤ m ∧ Machine.after step' m t = some t' ∧ R s' t' := by
  induction n generalizing s t with
  | zero =>
    obtain rfl := Option.some.inj run
    exact ⟨0, t, Nat.le_refl 0, rfl, rel⟩
  | succ n ih =>
    rw [Machine.after] at run
    cases e : step s with
    | none =>
      rw [e] at run
      cases run
    | some next =>
      rw [e] at run
      obtain ⟨d, t₁, first, rel₁⟩ := sim.advance along.1 rel e
      obtain ⟨m, t', le, rest, rel'⟩ := ih (along.2 _ _ e) rel₁ run
      refine ⟨d + 1 + m, t', by omega, ?_, rel'⟩
      rw [after_add, first]
      exact rest

/-- Where the first machine ends, the second one ends. -/
theorem ends (sim : Forward P R step step') (along : ∀ n, Along P step n s) (rel : R s t)
    (h : Ends step s s') : ∃ t', Ends step' t t' ∧ R s' t' := by
  obtain ⟨n, run, stop⟩ := h
  obtain ⟨m, t', -, run', rel'⟩ := sim.after (along n) rel run
  exact ⟨t', ⟨m, run', sim.stop ((along (n + 1)).after run) rel' stop⟩, rel'⟩

/-- Where the second machine ends, the first one ends: it cannot go on, since each of its steps
takes one or more of the second. -/
theorem ended (sim : Forward P R step step') (along : ∀ n, Along P step n s) (rel : R s t)
    (h : Ends step' t t') : ∃ s', Ends step s s' ∧ R s' t' := by
  obtain ⟨m, run, stop⟩ := h
  induction m using Nat.strongRecOn generalizing s t with
  | ind m ih =>
    cases e : step s with
    | none =>
      have here := sim.stop (along 1).1 rel e
      obtain rfl : t = t' := Ends.unique (.of_stop here) ⟨m, run, stop⟩
      exact ⟨s, .of_stop e, rel⟩
    | some next =>
      obtain ⟨d, t₁, first, rel₁⟩ := sim.advance (along 1).1 rel e
      obtain ⟨le, rest⟩ := after_of_stop first run stop
      obtain ⟨s', ends, rel'⟩ :=
        ih (m - (d + 1)) (by omega) (fun n => (along (n + 1)).2 _ _ e) rel₁ rest
      exact ⟨s', ends.of_after (n := 1) (after_succ e 0), rel'⟩

/-- Where related states are equal, both machines end in the same states. -/
theorem ends_iff {R : σ → σ → Prop} {step' : σ → Option (β × σ)} (sim : Forward P R step step')
    (same : ∀ {s t}, R s t → t = s) (along : ∀ n, Along P step n s) (rel : R s s) :
    Ends step' s s' ↔ Ends step s s' := by
  constructor
  · intro h
    obtain ⟨s', ends, rel'⟩ := sim.ended along rel h
    exact same rel' ▸ ends
  · intro h
    obtain ⟨t', ends, rel'⟩ := sim.ends along rel h
    exact same rel' ▸ ends

end Forward

end Machine
