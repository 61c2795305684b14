import Mathlib.Data.Option.Basic
import Mathlib.Tactic.Common

/-!
# Deterministic machines

A machine is a partial step function that shows one item a step and stops where it is undefined. Two
machines whose steps preserve a relation run in lockstep. The relation may have to be preserved from
the states of a set `P` only; the result is then about the runs that stay in `P`.
-/

namespace Machine

variable {σ τ α β : Type} {step : σ → Option (α × σ)} {step' : τ → Option (β × τ)}

/-- What a run of at most `n` steps shows. -/
def trace (step : σ → Option (α × σ)) : Nat → σ → List α
  | 0, _ => []
  | n + 1, s =>
    match step s with
    | none => []
    | some (a, s') => a :: trace step n s'

/-- The state after exactly `n` steps; `none` where the machine stopped before. -/
def after (step : σ → Option (α × σ)) : Nat → σ → Option σ
  | 0, s => some s
  | n + 1, s =>
    match step s with
    | none => none
    | some (_, s') => after step n s'

/-- A run continues where a shorter one ended. -/
lemma after_add (m n : Nat) (s : σ) :
    after step (m + n) s = (after step m s).bind (after step n) := by
  induction m generalizing s with
  | zero => rw [Nat.zero_add]; rfl
  | succ m ih =>
    rw [Nat.add_right_comm, after, after]
    cases step s with
    | none => rfl
    | some next => exact ih next.2

/-- Every state that a run of `n` steps leaves is in `P`. -/
def Along (P : σ → Prop) (step : σ → Option (α × σ)) : Nat → σ → Prop
  | 0, _ => True
  | n + 1, s => P s ∧ ∀ a s', step s = some (a, s') → Along P step n s'

/-- A set that every step stays in holds along every run. -/
lemma Along.of_invariant {P : σ → Prop} (keep : ∀ {s a s'}, P s → step s = some (a, s') → P s')
    {n s} (h : P s) : Along P step n s := by
  induction n generalizing s with
  | zero => trivial
  | succ n ih => exact ⟨h, fun a s' e => ih (keep h e)⟩

/-- Two conditions along one run. -/
lemma Along.and {P Q : σ → Prop} {n s} (hp : Along P step n s) (hq : Along Q step n s) :
    Along (fun s => P s ∧ Q s) step n s := by
  induction n generalizing s with
  | zero => trivial
  | succ n ih => exact ⟨⟨hp.1, hq.1⟩, fun a s' e => ih (hp.2 a s' e) (hq.2 a s' e)⟩

/-- A weaker condition along the same run. -/
lemma Along.mono {P Q : σ → Prop} (imp : ∀ s, P s → Q s) {n s} (h : Along P step n s) :
    Along Q step n s := by
  induction n generalizing s with
  | zero => trivial
  | succ n ih => exact ⟨imp s h.1, fun a s' e => ih (h.2 a s' e)⟩

/-- Both machines stop, or both step to related states and show related items. -/
def Lockstep (E : α → β → Prop) (R : σ → τ → Prop) (step : σ → Option (α × σ))
    (step' : τ → Option (β × τ)) (s : σ) (t : τ) : Prop :=
  Option.Rel (fun x y => E x.1 y.1 ∧ R x.2 y.2) (step s) (step' t)

/-- Machines in lockstep show related traces. -/
theorem trace_related {E : α → β → Prop} {R : σ → τ → Prop} {P : σ → Prop}
    (sim : ∀ {s t}, P s → R s t → Lockstep E R step step' s t) {n s t} (along : Along P step n s)
    (h : R s t) : List.Forall₂ E (trace step n s) (trace step' n t) := by
  induction n generalizing s t with
  | zero => exact .nil
  | succ n ih =>
    have rel := sim along.1 h
    rw [Lockstep] at rel
    cases e : step s with
    | none => cases e' : step' t with
      | none => simp [trace, e, e']
      | some y => rw [e, e'] at rel; cases rel
    | some x => cases e' : step' t with
      | none => rw [e, e'] at rel; cases rel
      | some y =>
        rw [e, e'] at rel
        obtain ⟨item, next⟩ := Option.rel_some_some.mp rel
        simp only [trace, e, e', List.forall₂_cons]
        exact ⟨item, ih (along.2 _ _ e) next⟩

/-- Machines in lockstep stay related. -/
theorem after_related {E : α → β → Prop} {R : σ → τ → Prop} {P : σ → Prop}
    (sim : ∀ {s t}, P s → R s t → Lockstep E R step step' s t) {n s t} (along : Along P step n s)
    (h : R s t) : Option.Rel R (after step n s) (after step' n t) := by
  induction n generalizing s t with
  | zero => exact .some h
  | succ n ih =>
    have rel := sim along.1 h
    rw [Lockstep] at rel
    cases e : step s with
    | none => cases e' : step' t with
      | none => simp [after, e, e']
      | some y => rw [e, e'] at rel; cases rel
    | some x => cases e' : step' t with
      | none => rw [e, e'] at rel; cases rel
      | some y =>
        rw [e, e'] at rel
        obtain ⟨-, next⟩ := Option.rel_some_some.mp rel
        simp only [after, e, e']
        exact ih (along.2 _ _ e) next

/-- Where one of two related runs ends, the other ends too. -/
lemma exists_of_rel {R : σ → τ → Prop} {s : σ} {t : Option τ} (h : Option.Rel R (some s) t) :
    ∃ t', t = some t' ∧ R s t' := by
  cases h with
  | some rel => exact ⟨_, rfl, rel⟩

/-! ## Stuttering -/

section Stuttering

variable {shown : α → Bool} {step'' : τ → Option (α × τ)}

/-- `d` steps that show nothing lead from `t` to `t'`. -/
def Hidden (shown : α → Bool) (step : τ → Option (α × τ)) : Nat → τ → τ → Prop
  | 0, t, t' => t = t'
  | d + 1, t, t' => ∃ a t₁, step t = some (a, t₁) ∧ shown a = false ∧ Hidden shown step d t₁ t'

/-- Both machines stop, or both show one item and then the second, after hidden steps, is related
again. -/
def Stutters (shown : α → Bool) (R : σ → τ → Prop) (step : σ → Option (α × σ))
    (step' : τ → Option (α × τ)) (s : σ) (t : τ) : Prop :=
  (step s = none ∧ step' t = none) ∨
    ∃ a s' t₁ d t', step s = some (a, s') ∧ step' t = some (a, t₁) ∧ shown a = true ∧
      Hidden shown step' d t₁ t' ∧ R s' t'

/-- Hidden steps at the start of a run show nothing, whether or not the run gets past them. -/
lemma trace_hidden {d t t'} (h : Hidden shown step'' d t t') (n : Nat) :
    (trace step'' (d + n) t).filter shown = (trace step'' n t').filter shown ∧
      ∀ m < d, (trace step'' m t).filter shown = [] := by
  induction d generalizing t with
  | zero =>
    obtain rfl : t = t' := h
    exact ⟨by rw [Nat.zero_add], fun m lt => absurd lt (Nat.not_lt_zero m)⟩
  | succ d ih =>
    obtain ⟨a, t₁, e, hidden, rest⟩ := h
    obtain ⟨past, within⟩ := ih rest
    constructor
    · rw [Nat.add_right_comm, trace, e]
      simpa [hidden] using past
    · intro m lt
      cases m with
      | zero => rfl
      | succ m =>
        rw [trace, e]
        simpa [hidden] using within m (Nat.lt_of_succ_lt_succ lt)

/-- What a stuttering machine shows is what the other one shows. -/
theorem trace_stutters {R : σ → τ → Prop}
    (sim : ∀ {s t}, R s t → Stutters shown R step step'' s t) {s t} (h : R s t) :
    (∀ n, ∃ m, (trace step'' m t).filter shown = trace step n s) ∧
      ∀ m, ∃ n, (trace step'' m t).filter shown = trace step n s := by
  constructor
  · intro n
    induction n generalizing s t with
    | zero => exact ⟨0, rfl⟩
    | succ n ih =>
      obtain ⟨e, e'⟩ | ⟨a, s', t₁, d, t', e, e', vis, hidden, next⟩ := sim h
      · exact ⟨0, by rw [trace, trace, e]; rfl⟩
      · obtain ⟨m, eq⟩ := ih next
        refine ⟨d + m + 1, ?_⟩
        rw [trace, trace, e, e', List.filter_cons_of_pos vis, (trace_hidden hidden m).1, eq]
  · intro m
    -- one step of the first machine is d + 1 steps of the second
    induction m using Nat.strongRecOn generalizing s t with
    | ind m ih =>
      cases m with
      | zero => exact ⟨0, rfl⟩
      | succ m =>
        obtain ⟨e, e'⟩ | ⟨a, s', t₁, d, t', e, e', vis, hidden, next⟩ := sim h
        · exact ⟨0, by rw [trace, trace, e']; rfl⟩
        · rw [trace, e', List.filter_cons_of_pos vis]
          obtain lt | ge := Nat.lt_or_ge m d
          · exact ⟨1, by rw [(trace_hidden hidden 0).2 m lt, trace, e]; rfl⟩
          · obtain ⟨k, rfl⟩ := Nat.exists_eq_add_of_le ge
            obtain ⟨n, eq⟩ := ih k (by omega) next
            exact ⟨n + 1, by rw [(trace_hidden hidden k).1, eq, trace, e]⟩

end Stuttering

end Machine
