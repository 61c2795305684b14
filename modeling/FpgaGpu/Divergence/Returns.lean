import FpgaGpu.Divergence.Detours
import FpgaGpu.Ir.Control

/-!
# The divergence pass and single threads

What the pass inserts does nothing to a single thread: a block that it creates leads a thread on,
and its `SSY`s and `SYNC`s leave the state alone. A thread ends in the same state before the pass
and behind it.
-/

namespace FpgaGpu

open Llvm (Terminator Control deviceAsm?)

/-! ## Markers -/

section Markers

variable {hw : Hardware} {typeAllocSize : Llvm.Ty → BitVec 64} {s : Llvm.State hw}

/-- A call that only marks where a warp splits or joins. -/
def IsMarker (operation : Llvm.Operation) : Prop :=
  ∃ text, operation = asmOperation text ∧ deviceAsm? text = some .marker

lemma isMarker_sync : IsMarker (asmOperation "sync".toList) := ⟨_, rfl, by decide⟩

lemma deviceAsm?_ssyAsm (f : Llvm.Function) (ipd : Nat) :
    deviceAsm? (ssyAsm f ipd) = some .marker := by
  have marks : "ssy ".toList <+: ssyAsm f ipd := List.prefix_append ..
  have other : ∀ text : Text, text.take 1 ≠ "s".toList ∨ text.take 2 = "s2".toList ∨
      text.take 2 = "st".toList ∨ text.take 2 = "sy".toList → ssyAsm f ipd ≠ text := by
    rintro text no rfl
    revert no
    simp [ssyAsm]
  unfold deviceAsm?
  rw [if_neg (other _ (by decide)), if_neg (other _ (by decide)), if_neg (other _ (by decide)),
    if_neg (other _ (by decide)), if_neg (other _ (by decide)), if_neg (other _ (by decide)),
      if_pos (.inr marks)]

lemma performBody_append (body body' : List Llvm.Instruction) :
    Llvm.performBody typeAllocSize s (body ++ body') =
      (Llvm.performBody typeAllocSize s body).bind fun s =>
        Llvm.performBody typeAllocSize s body' := by
  induction body generalizing s with
  | nil => rfl
  | cons i body ih =>
    simp only [List.cons_append, Llvm.performBody, Option.bind_eq_bind]
    cases Llvm.perform typeAllocSize s i with
    | none => rfl
    | some s => exact ih

/-- Markers leave the state alone. -/
lemma performBody_markers {calls : List Llvm.Instruction}
    (markers : ∀ i ∈ calls, IsMarker i.operation) :
    Llvm.performBody typeAllocSize s calls = some s := by
  induction calls with
  | nil => rfl
  | cons i calls ih =>
    obtain ⟨⟨text, call, marker⟩, rest⟩ := List.forall_mem_cons.mp markers
    obtain ⟨id, operation⟩ := i
    obtain rfl : operation = _ := call
    have here : Llvm.perform typeAllocSize s ⟨id, asmOperation text⟩ = some s := by
      simp [Llvm.perform, asmOperation, marker, Llvm.State.device]
    rw [Llvm.performBody, here]
    exact ih rest

/-- A terminator goes to the block that its successor was sent to. -/
lemma next_mapSuccessors (h : Nat → Nat) (t : Terminator) :
    (t.mapSuccessors h).next s = (t.next s).map (Option.map h) := by
  cases t with
  | condBr cond ifTrue ifFalse =>
    simp only [Terminator.mapSuccessors, Terminator.next, Option.bind_eq_bind,
      Option.pure_def, Option.map_bind]
    cases s.condition cond with
    | none => rfl
    | some holds => cases holds <;> rfl
  | br | ret | switch | unreachable | other => rfl

end Markers

/-! ## Detours -/

section Steps

variable {hw : Hardware} {typeAllocSize : Llvm.Ty → BitVec 64}
  {inserted : Text → Prop} {f g : Llvm.Function}
variable {place : Nat → Nat}

/-- An original block does what it did, and goes to where its edges were sent. -/
lemma Detours.step_original (typeAllocSize : Llvm.Ty → BitVec 64) (h : Detours inserted f g place)
    (marks : ∀ text, inserted text → deviceAsm? text = some .marker) {b : Nat}
    (lt : b < f.blocks.length) :
    ∃ r : Nat → Nat, (∀ d ∈ f.successors b, place (r d) = d ∧ r d < g.blocks.length) ∧
      ∀ s : Llvm.State hw, g.step typeAllocSize { block := some b, state := s } =
        (f.step typeAllocSize { block := some b, state := s }).map fun (b, c) =>
          (b, { c with block := c.block.map r }) := by
  have here := List.getElem?_eq_getElem lt
  generalize f.blocks[b] = bb at here
  obtain ⟨name, calls, r, here', new, sent⟩ := h.original here
  refine ⟨r, fun d succ => sent d (Llvm.Function.successors_of_getElem? here ▸ succ), fun s => ?_⟩
  have body : Llvm.performBody typeAllocSize s (bb.body ++ calls) =
      Llvm.performBody typeAllocSize s bb.body := by
    rw [performBody_append]
    cases Llvm.performBody typeAllocSize s bb.body with
    | none => rfl
    | some s =>
      refine performBody_markers fun i mem => ?_
      obtain ⟨text, new, call⟩ := new i mem
      exact ⟨text, call, marks text new⟩
  simp only [Llvm.Function.step, Option.bind_eq_bind, Option.bind_some, here, here',
    body, next_mapSuccessors, Option.pure_def]
  cases Llvm.performBody typeAllocSize s bb.body with
  | none => rfl
  | some s =>
    simp only [Option.bind_some]
    cases bb.terminator.next s with
    | none => rfl
    | some next => rfl

/-- A created block leads on. -/
lemma Detours.step_created (typeAllocSize : Llvm.Ty → BitVec 64)
    (h : Detours inserted f g place) {c : Nat} (ge : f.blocks.length ≤ c)
    (lt : c < g.blocks.length) :
    ∃ k, place k = place c ∧ k < g.blocks.length ∧ (k < f.blocks.length ∨ c < k) ∧
      ∀ s : Llvm.State hw, g.step typeAllocSize { block := some c, state := s } =
        some (c, { block := some k, state := s }) := by
  have here := List.getElem?_eq_getElem lt
  obtain ⟨name, id, k, created, leads, inside, range⟩ := h.created ge here
  rw [created] at here
  have body : ∀ s : Llvm.State hw,
      Llvm.performBody typeAllocSize s (syncBlock name id k).body = some s :=
    fun s => performBody_markers (List.forall_mem_singleton.mpr isMarker_sync)
  exact ⟨k, leads, inside, range, fun s => Llvm.Function.step_of_block rfl here (body s) rfl⟩

/-- A thread comes from a block to its place. -/
lemma Detours.after_place (typeAllocSize : Llvm.Ty → BitVec 64)
    (h : Detours inserted f g place) {c : Nat} (lt : c < g.blocks.length) (s : Llvm.State hw) :
    ∃ d, Machine.after (g.step typeAllocSize) d { block := some c, state := s } =
      some { block := some (place c), state := s } := by
  induction n : g.blocks.length - c using Nat.strongRecOn generalizing c with
  | ind n ih =>
    obtain old | created := Nat.lt_or_ge c f.blocks.length
    · exact ⟨0, by rw [h.place_eq old]; rfl⟩
    · obtain ⟨k, leads, inside, range, step⟩ := h.step_created typeAllocSize created lt
      have rest : ∃ d, Machine.after (g.step typeAllocSize) d { block := some k, state := s } =
          some { block := some (place k), state := s } := by
        obtain old | later := range
        · exact ⟨0, by rw [h.place_eq old]; rfl⟩
        · exact ih _ (by omega) inside rfl
      obtain ⟨d, rest⟩ := rest
      exact ⟨d + 1, by rw [Machine.after_succ (step s), rest, leads]⟩

/-- A thread does the same on the detours, with more steps. -/
theorem Detours.forward (h : Detours inserted f g place)
    (marks : ∀ text, inserted text → deviceAsm? text = some .marker) (closed : f.Closed) :
    Machine.Forward (fun _ : Control hw => True)
      (fun c c' => c' = c ∧ ∀ b, c.block = some b → b < f.blocks.length) (f.step typeAllocSize)
      (g.step typeAllocSize) where
  advance {c c' b c₁} _ same step := by
    obtain ⟨rfl, inside⟩ := same
    obtain ⟨at_b, bb, next, block, -, goes, goal⟩ := Llvm.Function.step_eq_some step
    obtain ⟨_, s⟩ := c'
    obtain rfl : _ = some b := at_b
    obtain ⟨r, sent, passed⟩ := h.step_original typeAllocSize marks (inside b rfl)
    have step' := passed s
    rw [step, Option.map_some] at step'
    obtain ⟨block₁, s₁⟩ := c₁
    obtain rfl : block₁ = next := goal
    cases block₁ with
    | none => exact ⟨0, _, Machine.after_succ step' 0, rfl, nofun⟩
    | some d =>
      have succ := Terminator.mem_successors_of_next goes
      obtain ⟨place_eq, lt⟩ := sent d (Llvm.Function.successors_of_getElem? block ▸ succ)
      obtain ⟨n, rest⟩ := h.after_place typeAllocSize lt s₁
      rw [place_eq] at rest
      exact ⟨n, _, (Machine.after_succ step' n).trans rest, rfl,
        fun d' e => Option.some.inj e ▸ closed bb (List.mem_of_getElem? block) d succ⟩
  stop {c c'} _ same stop := by
    obtain ⟨rfl, inside⟩ := same
    obtain ⟨block, s⟩ := c'
    cases block with
    | none => exact Llvm.Function.step_of_returned rfl
    | some b =>
      obtain ⟨r, -, passed⟩ := h.step_original typeAllocSize marks (inside b rfl)
      rw [passed s, stop]
      rfl

/-- A thread ends where it ended without detours. -/
lemma Detours.ends (h : Detours inserted f g place)
    (marks : ∀ text, inserted text → deviceAsm? text = some .marker) (closed : f.Closed)
    (nonempty : f.blocks ≠ []) {args : Nat → Word} {mem : hw.Mem} {c : Control hw} :
    Machine.Ends (g.step typeAllocSize) (.enter args mem) c ↔
      Machine.Ends (f.step typeAllocSize) (.enter args mem) c := by
  refine (h.forward marks closed).ends_iff (fun same => same.1)
    (fun n => .of_invariant (fun _ _ => trivial) trivial) ⟨rfl, fun b e => ?_⟩
  obtain rfl := Option.some.inj e
  exact List.length_pos_of_ne_nil nonempty

end Steps

/-! ## The pass -/

section Pass

variable {hw : Hardware} {llvm : Analyses} {typeAllocSize : Llvm.Ty → BitVec 64} {f : Llvm.Function}

/-- The texts of the pass mark. -/
lemma ReconvergenceText.marker {text : Text} (h : ReconvergenceText llvm f text) :
    deviceAsm? text = some .marker := by
  obtain ⟨b, ipd, -, rfl⟩ := h
  exact deviceAsm?_ssyAsm f ipd

/-- The pass keeps what a kernel returns. -/
lemma returns_runDivergencePass (closed : f.Closed) (faithful : llvm.Faithful (nameBlocks llvm f))
    (nonempty : f.blocks ≠ []) {args : Nat → Word} {mem mem' : hw.Mem} :
    (runDivergencePass llvm f).Returns typeAllocSize args mem mem' ↔
      f.Returns typeAllocSize args mem mem' :=
  exists_congr fun _ => and_congr_left'
    ((runDivergencePass_detours closed faithful).ends (fun _ => ReconvergenceText.marker)
      closed nonempty)

/-- The pass keeps where a thread ends, and in what state: behind a return, or stuck where a result
was not computed or a shift is by 32 or more. -/
theorem runDivergencePass_ends (executes : f.Executes)
    (faithful : llvm.Faithful (nameBlocks llvm f)) (args : Nat → Word)
    (mem : hw.Mem) (c : Control hw) :
    (Machine.Ends ((runDivergencePass llvm f).step typeAllocSize) (.enter args mem) c ↔
      Machine.Ends (f.step typeAllocSize) (.enter args mem) c) ∧
    (Machine.Ends (f.step typeAllocSize) (.enter args mem) c →
      c.block = none ∨ f.Stuck typeAllocSize c) := by
  have closed := executes.closed
  exact ⟨(runDivergencePass_detours closed faithful).ends (fun _ => ReconvergenceText.marker) closed
    executes.nonempty, executes.returned_or_stuck⟩

end Pass

/-- Two comparisons with one reconvergence block, and a shift that may be too far. -/
def comparesTwice : Llvm.Function where
  args := [{ name := "x".toList, ty := .int 32 }, { name := "y".toList, ty := .int 32 }]
  blocks :=
    [{ name := "entry".toList
       body := [⟨0, .icmp .slt (.argument 0) (.argument 1)⟩]
       terminator := .condBr (.instruction 0) 1 3 },
     { name := "inner".toList
       body := [⟨1, .icmp .ne (.argument 0) (.constantInt 32 0)⟩]
       terminator := .condBr (.instruction 1) 2 3 },
     { name := "then".toList
       body := [⟨2, .binary .shl (.argument 0) (.argument 1)⟩]
       terminator := .br 3 },
     { name := "join".toList, body := [], terminator := .ret none }]

/-- The pass on the comparisons, where a thread returns or is stuck at the shift. -/
theorem runDivergencePass_ends_comparesTwice : comparesTwice.Executes ∧
    ∀ (args : Nat → Word) (mem : Unit) (c : Control Hardware.plain),
      (Machine.Ends ((runDivergencePass sharedJoinAnalyses comparesTwice).step fun _ => 4)
          (.enter args mem) c ↔
        Machine.Ends (comparesTwice.step fun _ => 4) (.enter args mem) c) ∧
      (Machine.Ends (comparesTwice.step fun _ => 4) (.enter args mem) c →
        c.block = none ∨ comparesTwice.Stuck (fun _ => 4) c) := by
  have executes : comparesTwice.Executes := ⟨by decide, by decide, by decide, by decide⟩
  have one : OneExit comparesTwice 3 := ⟨by decide, by decide, by decide⟩
  have faithful : sharedJoinAnalyses.Faithful (nameBlocks sharedJoinAnalyses comparesTwice) :=
    one.faithful (fun _ => rfl) fun _ _ => .refl _
  exact ⟨executes, fun args mem c => runDivergencePass_ends executes faithful args mem c⟩

end FpgaGpu
