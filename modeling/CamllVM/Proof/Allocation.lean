import CamllVM.Proof.Relocation

/-!
# Allocation and the collector

A function of the library that allocates gives the same state, up to the relocation of blocks,
whether a collection takes place in it or not.
-/

namespace CamllVM

variable {rt : Runtime} {live : Set Nat} {move : Nat → Nat} {moves : List (Nat → Nat)} {c : Collection}
  {m m' : Machine}

/-- The collection moves the blocks of `live`, which are all blocks that the collector finds from
the stack, the registers and the global data. -/
structure Collection.Relocates (c : Collection) (live : Set Nat) (m : Machine) : Prop where
  heap : Heap.Moved live c.move m.heap c.heap
  accu : m.accu.Within live
  env : m.env.Within live
  stack : ∀ v, some v ∈ m.stack → v.Within live
  camlGlobalData : m.camlGlobalData.Within live

/-- The runtime with a collection at every call of the collector, or without collections. -/
def Runtime.collecting (rt : Runtime) (c : Option Collection) : Runtime :=
  { rt with collect := fun _ => c }

/-- The functions that allocate, with their operands. `closureRec` has the code of the functions
but the first, for the calls of `setClosureRecNestedClos` behind it. -/
inductive AllocOp where
  | makeBlock1 (tag : Nat) | makeBlock2 (tag : Nat) | makeBlock3 (tag : Nat)
  | makeBlock (tag wosize : Nat) | makeFloatBlock (size : Nat) | getDoubleField (idx : Int)
  | closure (nvars : Nat) (codePtr : CodePtr)
  | closureRec (nfuncs nvars : Nat) (mainCodePtr : CodePtr) (codePtrs : List CodePtr)
  | createRestartClosure (codePtr : CodePtr)

namespace Machine

/-- The calls of `setClosureRecNestedClos` from function `idx` on. -/
def setClosureRecNestedCloses (m : Machine) (idx : Nat) : List CodePtr → Option Machine
  | [] => some m
  | codePtr :: codePtrs => do
      let m ← m.setClosureRecNestedClos idx codePtr
      setClosureRecNestedCloses m (idx + 1) codePtrs

end Machine

namespace AllocOp

def run (rt : Runtime) (m : Machine) : AllocOp → Option Machine
  | makeBlock1 tag => m.makeBlock1 rt tag
  | makeBlock2 tag => m.makeBlock2 rt tag
  | makeBlock3 tag => m.makeBlock3 rt tag
  | makeBlock tag wosize => m.makeBlock rt tag wosize
  | makeFloatBlock size => m.makeFloatBlock rt size
  | getDoubleField idx => m.getDoubleField rt idx
  | closure nvars codePtr => m.closure rt nvars codePtr
  | closureRec nfuncs nvars mainCodePtr codePtrs => do
      let m ← m.closureRec rt nfuncs nvars mainCodePtr
      m.setClosureRecNestedCloses 1 codePtrs
  | createRestartClosure codePtr => m.createRestartClosure rt codePtr

/-- A block that is too large for the minor heap is allocated without a collection. -/
def collections (c : Collection) : AllocOp → List (Nat → Nat)
  | makeBlock _ wosize => if wosize ≤ maxYoungWosize then [c.move] else []
  | makeFloatBlock size => if size ≤ maxYoungWosize then [c.move] else []
  | _ => [c.move]

end AllocOp

/-! ### The call of the collector -/

theorem Value.Within.moved {v : Value} (h : v.Within live) (move : Nat → Nat) :
    v.Moved live move (v.relocate move) := ⟨h, rfl⟩

theorem stack_moved {stack : StackWords} (h : ∀ v, some v ∈ stack → v.Within live)
    (move : Nat → Nat) : List.Forall₂ (WordMoved live move) stack (stack.relocate move) :=
  Related.map fun w hw => by
    cases w with
    | none => exact .none
    | some v => exact .some ((h v hw).moved move)

theorem WordMoved.self {w w' : Option Value} (h : WordMoved live move w w') :
    WordMoved live id w w := by
  cases h with
  | some hv => exact .some ⟨hv.within, (Value.relocate_id _).symm⟩
  | none => exact .none

namespace Collection.Relocates

theorem refl (h : c.Relocates live m) : Machine.Moved live id [] m m where
  heap :=
    { injective := Set.injOn_id live
      block := fun b hb => by
        obtain ⟨block, block', hget, -, hmoved⟩ := h.heap.block b hb
        exact ⟨block, block, hget, hget, rfl, Related.self hmoved.fields fun _ _ => WordMoved.self⟩ }
  accu := ⟨h.accu, (Value.relocate_id _).symm⟩
  env := ⟨h.env, (Value.relocate_id _).symm⟩
  extraArgs := rfl
  stack := Related.self (stack_moved h.stack id) fun _ _ => WordMoved.self
  camlGlobalData := ⟨h.camlGlobalData, (Value.relocate_id _).symm⟩
  camlStackThreshold := rfl
  camlExnBucket := rfl
  camlTrapsp := rfl
  nextExceptionContext := rfl
  buffers := rfl
  currentBufferIndex := rfl
  camlExternalRaise := rfl
  moves := rfl

/-- The collector sees the registers that have been saved, and they are reloaded. -/
theorem reserve (h : c.Relocates live m) (rt : Runtime) :
    Option.Rel (fun r r' => r.heap = m.heap ∧ Machine.Moved live c.move [c.move] r r')
      (m.reserve (rt.collecting none)) (m.reserve (rt.collecting (some c))) :=
  .some ⟨rfl,
    { heap := h.heap
      accu := h.accu.moved c.move
      env := h.env.moved c.move
      extraArgs := rfl
      stack := stack_moved h.stack c.move
      camlGlobalData := h.camlGlobalData.moved c.move
      camlStackThreshold := rfl
      camlExnBucket := rfl
      camlTrapsp := rfl
      nextExceptionContext := rfl
      buffers := rfl
      currentBufferIndex := rfl
      camlExternalRaise := rfl
      moves := rfl }⟩

theorem pushAccu (h : c.Relocates live m) : c.Relocates live (m.pushWord m.accu) :=
  { h with
    stack := fun v hv => by
      rcases List.mem_cons.mp hv with hv | hv
      · exact Option.some.inj hv ▸ h.accu
      · exact h.stack v hv }

end Collection.Relocates

/-! ### Behind the allocation -/

/-- What is done with a new block has related effects on related states. -/
def Fills (f : Value × Machine → Option Machine) : Prop :=
  ∀ (live : Set Nat) (move : Nat → Nat) (moves : List (Nat → Nat)) (block block' : Value)
    (m m' : Machine), block.Moved live move block' → Machine.Moved live move moves m m' →
    Option.Rel (Machine.Moved live move moves) (f (block, m)) (f (block', m'))

def EndsMoved (live : Set Nat) (m : Machine) (moves : List (Nat → Nat)) (r r' : Option Machine) :
    Prop :=
  ∃ move, Set.EqOn move (moveAll moves) live ∧
    Option.Rel (Machine.Moved (insert m.heap.length live) move moves) r r'

theorem EndsMoved.bind {r r' : Option Machine} {f g : Machine → Option Machine}
    (h : EndsMoved live m moves r r')
    (hnext : ∀ live move m m', Machine.Moved live move moves m m' →
      Option.Rel (Machine.Moved live move moves) (f m) (g m')) :
    EndsMoved live m moves (r >>= f) (r' >>= g) := by
  obtain ⟨move, hmove, hrel⟩ := h
  exact ⟨move, hmove, Related.bind hrel fun _ _ h => hnext _ _ _ _ h⟩

theorem allocSmall_moved (h : c.Relocates live m) (rt : Runtime) (wosize tag : Nat)
    {f : Value × Machine → Option Machine} (hf : Fills f) :
    EndsMoved live m [c.move] (m.allocSmall (rt.collecting none) wosize tag >>= f)
      (m.allocSmall (rt.collecting (some c)) wosize tag >>= f) := by
  obtain ⟨m₁, m₂, hnone, hsome, hheap, hmoved⟩ : ∃ m₁ m₂,
      m.reserve (rt.collecting none) = some m₁ ∧ m.reserve (rt.collecting (some c)) = some m₂ ∧
        m₁.heap = m.heap ∧ Machine.Moved live c.move [c.move] m₁ m₂ :=
    ⟨_, _, rfl, rfl, rfl, (Option.rel_some_some.mp (h.reserve rt)).2⟩
  obtain ⟨hstate, hblock, hmove⟩ := hmoved.allocate wosize tag
  rw [hheap] at hstate hblock hmove
  refine ⟨_, hmove.symm, ?_⟩
  simp only [Machine.allocSmall, hnone, hsome]
  exact hf _ _ _ _ _ _ _ hblock hstate

theorem allocBlock_moved (h : c.Relocates live m) (rt : Runtime) (wosize tag : Nat)
    {f : Value × Machine → Option Machine} (hf : Fills f) :
    EndsMoved live m (if wosize ≤ maxYoungWosize then [c.move] else [])
      (m.allocBlock (rt.collecting none) wosize tag >>= f)
      (m.allocBlock (rt.collecting (some c)) wosize tag >>= f) := by
  unfold Machine.allocBlock
  split
  · exact allocSmall_moved h rt wosize tag hf
  · obtain ⟨hstate, hblock, hmove⟩ := h.refl.allocate wosize tag
    exact ⟨_, hmove.symm, hf _ _ _ _ _ _ _ hblock hstate⟩

variable (h : c.Relocates live m) (rt : Runtime)

include h

theorem makeBlock1_moved (tag : Nat) :
    EndsMoved live m [c.move] (m.makeBlock1 (rt.collecting none) tag)
      (m.makeBlock1 (rt.collecting (some c)) tag) := by
  refine allocSmall_moved h rt 1 tag fun _ _ _ _ _ _ _ hblock h => ?_
  exact Related.bind (h.setField hblock 0 h.accu) fun _ _ h => .some (h.setAccu hblock)

theorem makeBlock2_moved (tag : Nat) :
    EndsMoved live m [c.move] (m.makeBlock2 (rt.collecting none) tag)
      (m.makeBlock2 (rt.collecting (some c)) tag) := by
  refine allocSmall_moved h rt 2 tag fun _ _ _ _ _ _ _ hblock h => ?_
  exact Related.bind (h.setField hblock 0 h.accu) fun _ _ h => Related.bind (h.slot 0) fun _ _ hw =>
    Related.bind (h.setField hblock 1 hw) fun _ _ h => Related.bind (h.raiseSp 1) fun _ _ h =>
      .some (h.setAccu hblock)

theorem makeBlock3_moved (tag : Nat) :
    EndsMoved live m [c.move] (m.makeBlock3 (rt.collecting none) tag)
      (m.makeBlock3 (rt.collecting (some c)) tag) := by
  refine allocSmall_moved h rt 3 tag fun _ _ _ _ _ _ _ hblock h => ?_
  exact Related.bind (h.setField hblock 0 h.accu) fun _ _ h => Related.bind (h.slot 0) fun _ _ hw =>
    Related.bind (h.setField hblock 1 hw) fun _ _ h => Related.bind (h.slot 1) fun _ _ hw =>
      Related.bind (h.setField hblock 2 hw) fun _ _ h => Related.bind (h.raiseSp 2) fun _ _ h =>
        .some (h.setAccu hblock)

theorem makeBlock_moved (tag wosize : Nat) :
    EndsMoved live m (if wosize ≤ maxYoungWosize then [c.move] else [])
      (m.makeBlock (rt.collecting none) tag wosize)
      (m.makeBlock (rt.collecting (some c)) tag wosize) := by
  refine allocBlock_moved h rt wosize tag fun _ _ _ _ _ _ _ hblock h => ?_
  exact Related.bind (h.setField hblock 0 h.accu) fun _ _ h =>
    Related.bind (h.fillFromStack hblock 1 (wosize - 1)) fun _ _ h => .some (h.setAccu hblock)

theorem makeFloatBlock_moved (size : Nat) :
    EndsMoved live m (if size ≤ maxYoungWosize then [c.move] else [])
      (m.makeFloatBlock (rt.collecting none) size)
      (m.makeFloatBlock (rt.collecting (some c)) size) := by
  refine allocBlock_moved h rt size doubleArrayTag fun _ _ _ _ _ _ _ hblock h => ?_
  refine Related.bind (h.heap.doubleVal h.accu) fun d d' hd => ?_
  obtain rfl := hd
  exact Related.bind (h.setField hblock 0 ⟨trivial, rfl⟩) fun _ _ h =>
    Related.bind (h.fillDoubles hblock 1 (size - 1)) fun _ _ h => .some (h.setAccu hblock)

/-- The double is read before the block is allocated. -/
theorem getDoubleField_moved (idx : Int) :
    EndsMoved live m [c.move] (m.getDoubleField (rt.collecting none) idx)
      (m.getDoubleField (rt.collecting (some c)) idx) := by
  unfold Machine.getDoubleField
  cases m.heap.field m.accu idx with
  | none => exact ⟨c.move, fun _ _ => rfl, .none⟩
  | some v =>
      cases v with
      | raw d =>
          rw [Option.bind_eq_bind, Option.bind_some, Option.bind_eq_bind, Option.bind_some]
          refine allocSmall_moved h rt 1 doubleTag fun _ _ _ _ _ _ _ hblock h => ?_
          exact Related.bind (h.setField hblock 0 ⟨trivial, rfl⟩) fun _ _ h =>
            .some (h.setAccu hblock)
      | _ => exact ⟨c.move, fun _ _ => rfl, .none⟩

theorem pushAccu_if (nvars : Nat) :
    c.Relocates live (if 0 < nvars then m.pushWord m.accu else m) ∧
      (if 0 < nvars then m.pushWord m.accu else m).heap = m.heap := by
  split
  · exact ⟨h.pushAccu, rfl⟩
  · exact ⟨h, rfl⟩

theorem closure_moved (nvars : Nat) (codePtr : CodePtr) :
    EndsMoved live m [c.move] (m.closure (rt.collecting none) nvars codePtr)
      (m.closure (rt.collecting (some c)) nvars codePtr) := by
  obtain ⟨hpushed, hheap⟩ := pushAccu_if h nvars
  unfold EndsMoved
  rw [← hheap]
  refine allocSmall_moved hpushed rt (1 + nvars) closureTag fun _ _ _ _ _ _ _ hblock h => ?_
  exact Related.bind ((h.setAccu hblock).setField hblock 0 ⟨trivial, rfl⟩) fun _ _ h =>
    Related.bind (h.copySlots hblock 1 0 nvars) fun _ _ h => h.raiseSp nvars

theorem closureRec_moved (nfuncs nvars : Nat) (mainCodePtr : CodePtr) :
    EndsMoved live m [c.move] (m.closureRec (rt.collecting none) nfuncs nvars mainCodePtr)
      (m.closureRec (rt.collecting (some c)) nfuncs nvars mainCodePtr) := by
  obtain ⟨hpushed, hheap⟩ := pushAccu_if h nvars
  unfold EndsMoved
  rw [← hheap]
  refine allocSmall_moved hpushed rt (nfuncs * 2 - 1 + nvars) closureTag
    fun _ _ _ _ _ _ _ hblock h => ?_
  exact Related.bind ((h.setAccu hblock).copySlots hblock (nfuncs * 2 - 1) 0 nvars) fun _ _ h =>
    Related.bind (h.raiseSp nvars) fun _ _ h =>
      Related.bind (h.setField hblock 0 ⟨trivial, rfl⟩) fun _ _ h => .some (h.pushWord hblock)

theorem createRestartClosure_moved (codePtr : CodePtr) :
    EndsMoved live m [c.move] (m.createRestartClosure (rt.collecting none) codePtr)
      (m.createRestartClosure (rt.collecting (some c)) codePtr) := by
  refine allocSmall_moved h rt ((1 + m.extraArgs).toNat + 2) closureTag
    fun _ _ _ _ _ _ _ hblock h => ?_
  refine Related.bind ((h.setAccu hblock).setField hblock 1 h.env) fun _ _ h =>
    Related.bind (h.copySlots hblock 2 0 _) fun _ _ h =>
      Related.bind (h.setField hblock 0 ⟨trivial, rfl⟩) fun _ _ h =>
        Related.bind (h.raiseSp _) fun _ _ h => Related.bind (h.slot 1) fun _ _ henv =>
          Related.bind (h.slot 2) fun w w' hw => ?_
  refine Related.bind hw.longVal fun extraArgs extraArgs' hextra => ?_
  obtain rfl := hextra
  exact Related.bind (h.raiseSp 3) fun _ _ h => .some { h with env := henv, extraArgs := rfl }

omit h in
theorem setClosureRecNestedCloses_moved (h : Machine.Moved live move moves m m')
    (idx : Nat) (codePtrs : List CodePtr) :
    Option.Rel (Machine.Moved live move moves) (m.setClosureRecNestedCloses idx codePtrs)
      (m'.setClosureRecNestedCloses idx codePtrs) := by
  induction codePtrs generalizing m m' idx with
  | nil => exact .some h
  | cons codePtr codePtrs ih =>
      exact Related.bind (h.setClosureRecNestedClos idx codePtr) fun _ _ h => ih h (idx + 1)

/-- A function that allocates ends in the relocated state if a collection takes place in it. -/
theorem allocOp_moved (op : AllocOp) :
    ∃ move, Set.EqOn move (moveAll (op.collections c)) live ∧
      Option.Rel (Machine.Moved (insert m.heap.length live) move (op.collections c))
        (op.run (rt.collecting none) m) (op.run (rt.collecting (some c)) m) := by
  cases op with
  | makeBlock1 tag => exact makeBlock1_moved h rt tag
  | makeBlock2 tag => exact makeBlock2_moved h rt tag
  | makeBlock3 tag => exact makeBlock3_moved h rt tag
  | makeBlock tag wosize => exact makeBlock_moved h rt tag wosize
  | makeFloatBlock size => exact makeFloatBlock_moved h rt size
  | getDoubleField idx => exact getDoubleField_moved h rt idx
  | closure nvars codePtr => exact closure_moved h rt nvars codePtr
  | closureRec nfuncs nvars mainCodePtr codePtrs =>
      exact (closureRec_moved h rt nfuncs nvars mainCodePtr).bind fun _ _ _ _ h =>
        setClosureRecNestedCloses_moved h 1 codePtrs
  | createRestartClosure codePtr => exact createRestartClosure_moved h rt codePtr

omit h

/-- A young block that is both components of a pair. -/
def youngState : Machine :=
  { Machine.start [⟨0, [some (.int 7)]⟩] .unit 0 with accu := .ptr 0 0, stack := [some (.ptr 0 0)] }

/-- The block goes to the second place of the heap. -/
def youngCollection : Collection := ⟨Nat.succ, [⟨0, []⟩, ⟨0, [some (.int 7)]⟩]⟩

theorem youngCollection_relocates : youngCollection.Relocates {0} youngState where
  heap :=
    { injective := Set.injOn_singleton _ _
      block := by
        rintro b rfl
        exact ⟨_, _, rfl, rfl, rfl, .cons (.some ⟨trivial, rfl⟩) .nil⟩ }
  accu := rfl
  env := trivial
  stack := by
    intro v hv
    obtain rfl := Option.some.inj (List.mem_singleton.mp hv)
    exact Set.mem_singleton 0
  camlGlobalData := trivial

theorem allocOp_moved_youngState :
    ∃ move, Set.EqOn move (moveAll ((AllocOp.makeBlock2 0).collections youngCollection)) {0} ∧
      Option.Rel (Machine.Moved (insert youngState.heap.length {0}) move
          ((AllocOp.makeBlock2 0).collections youngCollection))
        ((AllocOp.makeBlock2 0).run (Runtime.idle.collecting none) youngState)
        ((AllocOp.makeBlock2 0).run (Runtime.idle.collecting (some youngCollection)) youngState) :=
  allocOp_moved youngCollection_relocates Runtime.idle (.makeBlock2 0)

/-- The pair has the new address of the block in both fields. -/
example : (((AllocOp.makeBlock2 0).run (Runtime.idle.collecting (some youngCollection))
    youngState).map fun m => (m.heap[2]?.map Block.fields, m.stack)) =
    some (some [some (.ptr 1 0), some (.ptr 1 0)], []) := rfl

end CamllVM
