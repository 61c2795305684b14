import FpgaGpu.Divergence.Visits
import FpgaGpu.Lib.PostDominance
import FpgaGpu.Text.Scan
import Mathlib.Data.List.Perm.Basic

/-!
# The SIMT stack

An `SSY` pushes and a `SYNC` pops. The region of a branch is what it reaches before its
reconvergence block. On a run whose edges enter regions at their branches only, do not come back to
a branch from its region, and carry as many `SYNC`s as there are regions that they close, the stack
holds at each block the branches in whose regions the block lies.
-/

namespace FpgaGpu

open Llvm (BasicBlock)
open Relation (ReflTransGen)
open Graph

/-! ## Running the stack -/

/-- What a call does to the stack. -/
inductive StackEffect where
  | push | pop | none
  deriving DecidableEq, Repr

/-- The calls that push and pop: the texts that the pass inserts, and those a user may have
written. -/
def stackEffect : Llvm.Operation → StackEffect
  | .call (.inlineAsm text) _ =>
    if "ssy".toList.isPrefixOf (lower text) then .push
    else if contains (lower text) "sync".toList then .pop
    else .none
  | .call (.function name) _ =>
    if contains name "sync".toList || contains name "barrier".toList then .pop else .none
  | _ => .none

/-- One execution of the `SSY` of a branch. -/
structure Push where
  branch : Nat
  serial : Nat
  deriving DecidableEq, Repr

/-- The stack, how many `SSY`s were executed, and the serial numbers of those that were popped. -/
structure Warp where
  stack : List Push
  pushed : Nat
  popped : List Nat
  deriving DecidableEq, Repr

/-- Executes an operation of the block `b`; `none` when it pops an empty stack. -/
def execOperation (b : Nat) (op : Llvm.Operation) (w : Warp) : Option Warp :=
  match stackEffect op with
  | .push =>
    some { w with
      stack := { branch := b, serial := w.pushed } :: w.stack
      pushed := w.pushed + 1 }
  | .pop =>
    match w.stack with
    | [] => none
    | top :: rest => some { w with stack := rest, popped := top.serial :: w.popped }
  | .none => some w

/-- Executes the body of the block `b`. -/
def execBody (b : Nat) : List Llvm.Instruction → Warp → Option Warp
  | [], w => some w
  | i :: body, w => (execOperation b i.operation w).bind (execBody b body)

/-- Control arrives at a block. -/
structure Arrival where
  block : Nat
  warp : Warp
  deriving DecidableEq, Repr

/-- The entry block with an empty stack. -/
def Arrival.entry : Arrival where
  block := 0
  warp := { stack := [], pushed := 0, popped := [] }

/-- From one block along an edge that is `ok` to the next. -/
def Step (f : Llvm.Function) (ok : Nat → Nat → Prop) (s t : Arrival) : Prop :=
  ∃ bb, f.blocks[s.block]? = some bb ∧ execBody s.block bb.body s.warp = some t.warp ∧
    t.block ∈ bb.terminator.successors ∧ ok s.block t.block

/-- The runs of `f` along edges that are `ok`. -/
abbrev Runs (f : Llvm.Function) (ok : Nat → Nat → Prop) : Arrival → Arrival → Prop :=
  ReflTransGen (Step f ok)

/-- The stack is balanced on all runs of `f` along edges that are `ok`; `ipdom` gives the
reconvergence blocks of the conditional branches. -/
structure Balanced (f : Llvm.Function) (ipdom : Nat → Option Nat) (ok : Nat → Nat → Prop) :
    Prop where
  /-- No `SYNC` is executed on an empty stack. -/
  noUnderflow : ∀ s bb, Runs f ok .entry s → f.blocks[s.block]? = some bb →
    (execBody s.block bb.body s.warp).isSome
  /-- The depth at a block does not depend on the path. -/
  depth : ∀ s t, Runs f ok .entry s → Runs f ok .entry t → s.block = t.block →
    s.warp.stack.length = t.warp.stack.length
  /-- What the `SSY` of a branch pushes is popped by one `SYNC` on the way to its reconvergence
  block. -/
  popped : ∀ s t bb j, Runs f ok .entry s → f.blocks[s.block]? = some bb →
    bb.terminator.isCondBr = true → ipdom s.block = some j → Runs f ok s t → t.block = j →
    t.warp.popped.count s.warp.pushed = 1
  /-- The stack is empty at a return. -/
  returns : ∀ s bb v w, Runs f ok .entry s → f.blocks[s.block]? = some bb →
    bb.terminator = .ret v → execBody s.block bb.body s.warp = some w → w.stack = []

/-! ## What LLVM computes -/

/-- The edges of a function. -/
def Edge (f : Llvm.Function) (x y : Nat) : Prop := y ∈ f.successors x

instance (f : Llvm.Function) (x y : Nat) : Decidable (Edge f x y) :=
  inferInstanceAs (Decidable (y ∈ f.successors x))

/-- The post-dominator tree is that of the function, with the roots `exit`. -/
structure PostDominatorsCorrect (llvm : Analyses) (f : Llvm.Function) (exit : Nat → Prop) :
    Prop where
  exit_of_successors : ∀ b, b < f.blocks.length → f.successors b = [] → exit b
  reaches_exit : ∀ b, b < f.blocks.length → ∃ e, exit e ∧ ReflTransGen (Edge f) b e
  ipdom_some : ∀ {b j : Nat}, llvm.ipdom f b = some j → ImmediatePostDominator (Edge f) exit b j
  ipdom_none : ∀ b, b < f.blocks.length → llvm.ipdom f b = none → ∀ k, k ≠ b →
    ¬ PostDominates (Edge f) exit k b

/-- The dominator tree is that of the function, and has an answer for blocks it does not know. -/
structure DominatorsCorrect (llvm : Analyses) (f : Llvm.Function) : Prop where
  reachable : ∀ a b, a < f.blocks.length → ReflTransGen (Edge f) 0 b →
    (llvm.dominates f a b = true ↔ Dominates (Edge f) 0 a b)
  unknown : llvm.TrueOfUnknown f

/-! ## Regions -/

section Regions

variable (llvm : Analyses) (f : Llvm.Function)

/-- `q` is reached from the branch `b` before its reconvergence block, and the entry leads to
`b`. -/
def Region (b q : Nat) : Prop :=
  b ∈ condBranches f ∧ ReflTransGen (Edge f) 0 b ∧ ∃ j, llvm.ipdom f b = some j ∧
    Avoids (Edge f) j b q

open Classical in
/-- An edge that keeps the stack in step with the regions. -/
structure Structured (q r : Nat) : Prop where
  /-- The region of a branch is entered at the branch. -/
  entered : ∀ b, Region llvm f b r → r ≠ b → Region llvm f b q
  /-- The region of a branch does not lead back to the branch. -/
  left : ∀ b, Region llvm f b q → r ≠ b
  /-- The branches with the reconvergence block `r`, from the first that dominates `q` on, are as
  many as those whose region `q` lies in. -/
  synced : syncs llvm f (condBranches f) q r =
    ((joinsAt llvm f (condBranches f) r).filter fun b => decide (Region llvm f b q)).length

/-- The stack holds the branches in `P`, inner ones above outer ones. -/
structure Pending (P : Nat → Prop) (stack : List Push) : Prop where
  nodup : (stack.map Push.branch).Nodup
  mem : ∀ b, b ∈ stack.map Push.branch ↔ P b
  nested : stack.Pairwise fun upper lower => Region llvm f lower.branch upper.branch

/-- The stack when control arrives at the original block `r`. -/
abbrev Settled (r : Nat) (stack : List Push) : Prop :=
  Pending llvm f (fun b => Region llvm f b r ∧ r ≠ b) stack

end Regions

variable {llvm : Analyses} {f : Llvm.Function} {exit : Nat → Prop}

/-- A list where `p` is closed towards the head is cut in two by `p`. -/
lemma filter_eq_takeWhile {α : Type} {p : α → Bool} {l : List α}
    (closed : l.Pairwise fun upper lower => p lower = true → p upper = true) :
    l.filter p = l.takeWhile p ∧ (l.filter fun a => !p a) = l.dropWhile p := by
  induction l with
  | nil => exact ⟨rfl, rfl⟩
  | cons a l ih =>
    obtain ⟨head, tail⟩ := List.pairwise_cons.mp closed
    obtain ⟨take, drop⟩ := ih tail
    cases h : p a with
    | true => simp [h, take, drop]
    | false =>
      have none : ∀ b ∈ l, p b = false := by
        intro b hb
        by_contra no
        have := head b hb (by simpa using no)
        rw [h] at this
        cases this
      simpa [h, List.filter_eq_nil_iff, List.filter_eq_self] using none

/-- Pending branches are on the stack together with nothing else. -/
lemma Pending.length_eq {P : Nat → Prop} {s t : List Push} (hs : Pending llvm f P s)
    (ht : Pending llvm f P t) : s.length = t.length := by
  have perm : (s.map Push.branch).Perm (t.map Push.branch) :=
    (List.perm_ext_iff_of_nodup hs.nodup ht.nodup).mpr fun b => by rw [hs.mem, ht.mem]
  simpa using perm.length_eq

/-- A branch is in its own region. -/
lemma region_self {b j : Nat} (h : b ∈ condBranches f) (reached : ReflTransGen (Edge f) 0 b)
    (join : llvm.ipdom f b = some j) : Region llvm f b b :=
  ⟨h, reached, j, join, .refl⟩

/-- Pushing the branch of the block itself. -/
lemma Pending.push {b j serial : Nat} {stack : List Push} (h : b ∈ condBranches f)
    (reached : ReflTransGen (Edge f) 0 b) (join : llvm.ipdom f b = some j)
    (pending : Settled llvm f b stack) :
    Pending llvm f (Region llvm f · b) ({ branch := b, serial := serial } :: stack) := by
  refine ⟨?_, fun c => ?_, ?_⟩
  · refine List.nodup_cons.mpr ⟨fun mem => ?_, pending.nodup⟩
    exact ((pending.mem b).mp mem).2 rfl
  · rw [List.map_cons, List.mem_cons, pending.mem]
    constructor
    · rintro (rfl | ⟨region, -⟩)
      · exact region_self h reached join
      · exact region
    · intro region
      by_cases e : c = b
      · exact .inl e
      · exact .inr ⟨region, Ne.symm e⟩
  · refine List.pairwise_cons.mpr ⟨fun lower hl => ?_, pending.nested⟩
    exact ((pending.mem lower.branch).mp (List.mem_map_of_mem hl)).1

/-- A block that is no branch pushes nothing. -/
lemma Pending.noPush {b : Nat} {stack : List Push}
    (h : ¬ (b ∈ condBranches f ∧ ∃ j, llvm.ipdom f b = some j)) (pending : Settled llvm f b stack) :
    Pending llvm f (Region llvm f · b) stack := by
  refine ⟨pending.nodup, fun c => ?_, pending.nested⟩
  rw [pending.mem]
  refine ⟨And.left, fun region => ⟨region, ?_⟩⟩
  rintro rfl
  obtain ⟨mem, -, j, join, -⟩ := region
  exact h ⟨mem, j, join⟩

/-- Along a structured edge, what the `SYNC`s of the edge pop are the branches that join there. -/
lemma Pending.pop (correct : PostDominatorsCorrect llvm f exit) {q r : Nat} {stack : List Push}
    (pending : Pending llvm f (Region llvm f · q) stack) (edge : r ∈ f.successors q)
    (lt : r < f.blocks.length) (structured : Structured llvm f q r) :
    ∃ top rest, stack = top ++ rest ∧ top.length = syncs llvm f (condBranches f) q r ∧
      Settled llvm f r rest := by
  classical
  obtain ⟨e, he, path⟩ := correct.reaches_exit r lt
  let joins : Push → Bool := fun p => decide (llvm.ipdom f p.branch = some r)
  -- of two nested branches the inner one joins at r if the outer one does, so these are on top
  have closed : stack.Pairwise fun upper lower => joins lower = true → joins upper = true := by
    refine pending.nested.imp_of_mem fun {upper lower} hu hl nested at_r => ?_
    obtain ⟨-, -, j, join, inside⟩ := (pending.mem upper.branch).mp (List.mem_map_of_mem hu)
    obtain ⟨-, -, r', join', between⟩ := nested
    obtain rfl : r' = r := Option.some.inj (join'.symm.trans (of_decide_eq_true at_r))
    have := (correct.ipdom_some join').closes (correct.ipdom_some join) between inside edge he path
    exact decide_eq_true (this ▸ join)
  obtain ⟨take, drop⟩ := filter_eq_takeWhile closed
  refine ⟨stack.takeWhile joins, stack.dropWhile joins, (List.takeWhile_append_dropWhile).symm,
    ?_, ?_⟩
  · have perm : ((stack.filter joins).map Push.branch).Perm
        ((joinsAt llvm f (condBranches f) r).filter fun b => decide (Region llvm f b q)) := by
      refine (List.perm_ext_iff_of_nodup ?_ ?_).mpr fun b => ?_
      · exact pending.nodup.sublist (List.filter_sublist.map _)
      · exact ((condBranches_spec f).1.filter _).filter _
      · have mem := pending.mem b
        rw [List.mem_map] at mem
        simp only [List.mem_map, List.mem_filter, joinsAt, joins, decide_eq_true_eq]
        constructor
        · rintro ⟨p, ⟨hp, join⟩, rfl⟩
          have region := mem.mp ⟨p, hp, rfl⟩
          exact ⟨⟨region.1, join⟩, region⟩
        · rintro ⟨⟨-, join⟩, region⟩
          obtain ⟨p, hp, rfl⟩ := mem.mpr region
          exact ⟨p, ⟨hp, join⟩, rfl⟩
    rw [← take, structured.synced, ← perm.length_eq, List.length_map]
  · rw [← drop]
    refine ⟨pending.nodup.sublist (List.filter_sublist.map _), fun b => ?_,
      pending.nested.sublist List.filter_sublist⟩
    have mem := pending.mem b
    rw [List.mem_map] at mem
    simp only [List.mem_map, List.mem_filter, joins, Bool.not_eq_true', decide_eq_false_iff_not]
    constructor
    · rintro ⟨p, ⟨hp, other⟩, rfl⟩
      have region := mem.mp ⟨p, hp, rfl⟩
      obtain ⟨branch, reached, j, join, inside⟩ := id region
      have off : r ≠ j := fun e => other (e ▸ join)
      exact ⟨⟨branch, reached, j, join, inside.tail edge off⟩, structured.left _ region⟩
    · rintro ⟨region, ne⟩
      obtain ⟨p, hp, rfl⟩ := mem.mpr (structured.entered b region ne)
      obtain ⟨-, -, j, join, inside⟩ := region
      refine ⟨p, ⟨hp, fun at_r => ?_⟩, rfl⟩
      obtain rfl : j = r := Option.some.inj (join.symm.trans at_r)
      exact inside.ne (Ne.symm (correct.ipdom_some join).ne) rfl

/-! ## Executing the blocks of the result -/

/-- The warp after an `SSY` of the block `b`. -/
def Warp.push (w : Warp) (b : Nat) : Warp :=
  { w with stack := { branch := b, serial := w.pushed } :: w.stack, pushed := w.pushed + 1 }

@[simp] lemma stackEffect_ssy (g : Llvm.Function) (ipd : Nat) :
    stackEffect (asmOperation (ssyAsm g ipd)) = .push := by
  simp only [stackEffect, asmOperation, ssyAsm, lower, List.map_append]
  rfl

@[simp] lemma stackEffect_sync : stackEffect (asmOperation "sync".toList) = .pop := by decide

/-- Only the operations of a body matter. -/
lemma execBody_congr {b : Nat} {body body' : List Llvm.Instruction}
    (h : body.map Llvm.Instruction.operation = body'.map Llvm.Instruction.operation) (w : Warp) :
    execBody b body w = execBody b body' w := by
  induction body generalizing body' w with
  | nil =>
    obtain rfl := List.map_eq_nil_iff.mp h.symm
    rfl
  | cons i body ih =>
    cases body' with
    | nil => cases h
    | cons i' body' =>
      obtain ⟨op, h⟩ := List.cons.inj h
      rw [execBody, execBody, op]
      congr 1
      funext w
      exact ih h w

lemma execBody_append (b : Nat) (body body' : List Llvm.Instruction) (w : Warp) :
    execBody b (body ++ body') w = (execBody b body w).bind (execBody b body') := by
  induction body generalizing w with
  | nil => rfl
  | cons i body ih =>
    rw [List.cons_append, execBody, execBody, Option.bind_assoc]
    congr 1
    funext w
    exact ih w

/-- A body without stack operations leaves the warp alone. -/
lemma execBody_none {b : Nat} {body : List Llvm.Instruction}
    (h : ∀ i ∈ body, stackEffect i.operation = .none) (w : Warp) : execBody b body w = some w := by
  induction body with
  | nil => rfl
  | cons i body ih =>
    obtain ⟨hi, h⟩ := List.forall_mem_cons.mp h
    rw [execBody, execOperation, hi]
    exact ih h

/-- What an original block does to the stack. -/
lemma execBody_original {b : Nat} {bb bb' : BasicBlock} {calls : List Llvm.Instruction}
    {branches : List Nat} (quiet : ∀ i ∈ bb.body, stackEffect i.operation = .none)
    (body : bb'.body = bb.body ++ calls)
    (ops : calls.map Llvm.Instruction.operation = ssyOperations llvm f branches b) (w : Warp) :
    (b ∈ branches → ∀ j, llvm.ipdom f b = some j → execBody b bb'.body w = some (w.push b)) ∧
      (¬ (b ∈ branches ∧ ∃ j, llvm.ipdom f b = some j) → execBody b bb'.body w = some w) := by
  rw [body, execBody_append, execBody_none quiet, Option.bind_some]
  constructor
  · intro mem j join
    rw [ssyOperations, if_pos mem, join] at ops
    have one : execBody b calls w = execBody b [⟨0, asmOperation (ssyAsm f j)⟩] w :=
      execBody_congr ops w
    rw [one, execBody, execOperation, stackEffect_ssy]
    rfl
  · intro no
    have none : calls = [] := by
      rw [ssyOperations] at ops
      split at ops
      · next mem =>
        split at ops
        · next j join => exact absurd ⟨mem, j, join⟩ no
        · exact List.map_eq_nil_iff.mp ops
      · exact List.map_eq_nil_iff.mp ops
    rw [none, execBody]

/-- What a created block does to the stack. -/
lemma execBody_syncBlock (b : Nat) (name : Text) (id dest : Nat) (w : Warp) :
    execBody b (syncBlock name id dest).body w =
      match w.stack with
      | [] => none
      | top :: rest => some { w with stack := rest, popped := top.serial :: w.popped } := by
  rw [syncBlock, execBody, execOperation, stackEffect_sync]
  cases w.stack <;> rfl

/-- What every operation keeps, a body keeps. -/
lemma execBody_invariant {P : Warp → Prop} {b : Nat}
    (keep : ∀ {op w w'}, P w → execOperation b op w = some w' → P w') {body : List Llvm.Instruction}
    {w w' : Warp} (h : P w) (run : execBody b body w = some w') : P w' := by
  induction body generalizing w with
  | nil => exact Option.some.inj run ▸ h
  | cons i body ih =>
    obtain ⟨w₁, one, rest⟩ := Option.bind_eq_some_iff.mp run
    exact ih (keep h one) rest

/-- What one operation can do. -/
lemma execOperation_cases {b : Nat} {op : Llvm.Operation} {w w' : Warp}
    (h : execOperation b op w = some w') : w' = w ∨ w' = w.push b ∨
      ∃ top rest, w.stack = top :: rest ∧
        w' = { w with stack := rest, popped := top.serial :: w.popped } := by
  unfold execOperation at h
  split at h
  · exact .inr (.inl (Option.some.inj h).symm)
  · split at h
    · cases h
    · next top rest e => exact .inr (.inr ⟨top, rest, e, (Option.some.inj h).symm⟩)
  · exact .inl (Option.some.inj h).symm

/-- Every `SSY` that was executed is on the stack or popped, once. -/
def Accounted (w : Warp) : Prop :=
  (w.stack.map Push.serial ++ w.popped).Perm (List.range w.pushed)

lemma execOperation_accounted {b : Nat} {op : Llvm.Operation} {w w' : Warp} (h : Accounted w)
    (run : execOperation b op w = some w') : Accounted w' := by
  obtain rfl | rfl | ⟨top, rest, e, rfl⟩ := execOperation_cases run
  · exact h
  · unfold Accounted at h ⊢
    rw [Warp.push, List.range_succ]
    exact (h.cons w.pushed).trans (List.perm_append_singleton _ _).symm
  · unfold Accounted at h ⊢
    rw [e, List.map_cons, List.cons_append] at h
    exact List.perm_middle.trans h

/-- The `SSY` number `k` was executed, by the branch `b`. -/
def PushedBy (b k : Nat) (w : Warp) : Prop :=
  k < w.pushed ∧ ∀ p ∈ w.stack, p.serial = k → p.branch = b

lemma execOperation_pushedBy {b c k : Nat} {op : Llvm.Operation} {w w' : Warp}
    (h : PushedBy b k w) (run : execOperation c op w = some w') : PushedBy b k w' := by
  obtain ⟨lt, owner⟩ := h
  obtain rfl | rfl | ⟨top, rest, e, rfl⟩ := execOperation_cases run
  · exact ⟨lt, owner⟩
  · refine ⟨Nat.lt_succ_of_lt lt, fun p hp serial => ?_⟩
    obtain rfl | hp := List.mem_cons.mp hp
    · exact absurd serial (Nat.ne_of_gt lt)
    · exact owner p hp serial
  · refine ⟨lt, fun p hp => owner p ?_⟩
    rw [e]
    exact List.mem_cons_of_mem _ hp

end FpgaGpu
