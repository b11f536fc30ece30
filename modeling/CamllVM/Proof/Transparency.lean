import CamllVM.Proof.SameCalls
import CamllVM.Zam

/-!
# Collections are transparent

A program goes through the same states, up to the addresses of blocks, whenever the collector runs
and wherever it moves the blocks.
-/

namespace CamllVM

open Simulation

variable {P : Set Nat} {rt rt' : Runtime} {m m' : Machine} {s s' : Exec} {z z' : Zam}
  {inst : ZInstruction} {prog : List ZInstruction}

structure Exec.Same (P : Set Nat) (s s' : Exec) : Prop where
  machine : s.machine.SameUpTo P s'.machine
  fn : s'.fn = s.fn
  callers : s'.callers = s.callers
  jmpBufs : s'.jmpBufs = s.jmpBufs
  control : s'.control = s.control

inductive Stepped.Same (P : Set Nat) : Stepped → Stepped → Prop
  | running {s s' : Exec} (h : s.Same P s') : Same P (.running s) (.running s')
  | finished : Same P .finished .finished

/-- The states at the same instruction. -/
structure Zam.Same (P : Set Nat) (z z' : Zam) : Prop where
  exec : z.exec.Same P z'.exec
  pc : z'.pc = z.pc
  returns : z'.returns = z.returns

theorem Machine.SameUpTo.scan (h : m.SameUpTo P m') : m.scan.SameUpTo P m'.scan := by
  obtain ⟨ρ, h⟩ := h
  exact ⟨ρ, h.scan⟩

namespace Exec.Same

variable (h : s.Same P s')

include h

theorem enter (hm : m.SameUpTo P m') (code : CodePtr) :
    Option.Rel (Exec.Same P) (s.enter m code) (s'.enter m' code) := by
  cases code with
  | fn id => exact .some { h with machine := hm.scan, fn := rfl, control := rfl }
  | restart id =>
      obtain ⟨ρ, hm⟩ := hm
      exact Related.bind hm.scan.restart fun _ _ hm =>
        .some { h with machine := hm.scan.upTo, fn := rfl, control := rfl }

theorem call (hm : m.SameUpTo P m') (code : CodePtr) :
    Option.Rel (Exec.Same P) (s.call m code) (s'.call m' code) := by
  have hcall : Exec.Same P { s with callers := s.fn :: s.callers }
      { s' with callers := s'.fn :: s'.callers } :=
    { h with callers := congrArg₂ List.cons h.fn h.callers }
  exact hcall.enter hm code

theorem goOn (hm : m.SameUpTo P m') : Option.Rel (Stepped.Same P) (s.goOn m) (s'.goOn m') :=
  .some (.running { h with machine := hm, control := rfl })

theorem leave (hm : m.SameUpTo P m') : (s.leave m).Same P (s'.leave m') := by
  unfold Exec.leave
  rw [h.callers]
  cases s.callers with
  | nil => exact .finished
  | cons fn callers =>
      exact .running { h with machine := hm, fn := rfl, callers := rfl, control := rfl }

theorem land {ρ : Naming P} (i : Nat) (hm : m.SameAtRaise ρ m') :
    Option.Rel (Exec.Same P) (s.land i m) (s'.land i m') := by
  refine Related.bindEq (congrFun h.jmpBufs i) fun buf =>
    Related.ite (by rw [h.fn, h.callers]) (fun _ => ?_) fun _ => .none
  exact Related.bind hm.getExceptionValue fun _ _ hm => Related.bind hm.removeExceptionContext
    fun _ _ hm => .some { h with machine := hm.upTo, fn := rfl, callers := rfl, control := rfl }

theorem settle {α : Type} {R : α → α → Prop} {o o' : Outcome α} {next next' : α → Option Stepped}
    (ho : o.Same P R o') (hnext : ∀ a a', R a a' → Option.Rel (Stepped.Same P) (next a) (next' a')) :
    Option.Rel (Stepped.Same P) (s.settle o next) (s'.settle o' next') := by
  cases ho with
  | next ha => exact hnext _ _ ha
  | jump hj =>
      cases hj with
      | exit => exact .some .finished
      | longjmp i ρ hm => exact Related.optionMap (h.land i hm) fun _ _ => .running

theorem callBy {oc oc' : Option (Outcome (Machine × CodePtr))}
    (hoc : Option.Rel (Outcome.Same P (Machine.CallSame P)) oc oc') :
    Option.Rel (Stepped.Same P) (s.callBy oc) (s'.callBy oc') := by
  refine Related.bind hoc fun _ _ ho => h.settle ho ?_
  rintro ⟨m, code⟩ ⟨m', code'⟩ ⟨hm, rfl⟩
  exact Related.optionMap (h.call hm _) fun _ _ => .running

theorem tailCallBy {oc oc' : Option (Outcome (Machine × CodePtr))}
    (hoc : Option.Rel (Outcome.Same P (Machine.CallSame P)) oc oc') :
    Option.Rel (Stepped.Same P) (s.tailCallBy oc) (s'.tailCallBy oc') := by
  refine Related.bind hoc fun _ _ ho => h.settle ho ?_
  rintro ⟨m, code⟩ ⟨m', code'⟩ ⟨hm, rfl⟩
  exact Related.optionMap (h.enter hm _) fun _ _ => .running

/-- Every step keeps the states the same. -/
theorem exec (hrt : rt.Interchangeable P rt') :
    Option.Rel (Stepped.Same P) (s.exec rt inst) (s'.exec rt' inst) := by
  obtain ⟨ρ, hm⟩ := h.machine
  unfold Exec.exec
  split
  · refine Related.ite (by rw [Machine.checkGrab, Machine.checkGrab, hm.extraArgs]) (fun _ => ?_)
      fun _ => Related.ite (by rw [h.fn]) (fun _ => .none) fun _ => ?_
    · exact h.goOn ⟨ρ, { hm with extraArgs := congrArg (· - _) hm.extraArgs }⟩
    · rw [h.fn]
      exact Related.bind (hm.createRestartClosure hrt _) fun _ _ hm => .some (h.leave hm)
  · refine Related.bind (hm.apply _) ?_
    rintro ⟨m, code⟩ ⟨m', code'⟩ ⟨hm, rfl⟩
    exact Related.bind (h.call hm _) fun _ _ h => .some (.running h)
  · exact h.callBy (hm.applyArgs hrt 1)
  · exact h.callBy (hm.applyArgs hrt 2)
  · exact h.callBy (hm.applyArgs hrt 3)
  · exact Related.bindEq rfl fun nargs => Related.bindEq rfl fun slotsize =>
      h.tailCallBy (hm.appterm hrt nargs slotsize)
  · exact Related.bindEq rfl fun slotsize => h.tailCallBy (hm.apptermArgs hrt 1 slotsize)
  · exact Related.bindEq rfl fun slotsize => h.tailCallBy (hm.apptermArgs hrt 2 slotsize)
  · exact Related.bindEq rfl fun slotsize => h.tailCallBy (hm.apptermArgs hrt 3 slotsize)
  · refine Related.bindEq rfl fun stsz => Related.bind (hm.handleReturn stsz) ?_
    rintro ⟨m, code⟩ ⟨m', code'⟩ ⟨hm, heq⟩
    obtain rfl : code' = code := heq
    cases code' with
    | some code => exact Related.bind (h.enter hm code) fun _ _ h => .some (.running h)
    | none => exact .some (h.leave hm)
  · exact .some (h.leave h.machine)
  · refine Related.bind hm.getNewBuffer ?_
    rintro ⟨i, m⟩ ⟨i', m'⟩ ⟨rfl, hm⟩
    refine Related.bind hm.pushTrap fun _ _ hm => goOn { h with jmpBufs := ?_ } hm.upTo
    rw [h.fn, h.callers, h.jmpBufs]
  · exact Related.bind hm.removeExceptionContext fun _ _ hm => Related.bind hm.popTrap
      fun _ _ hm => h.goOn hm.upTo
  · exact h.settle (.jump (hm.throwException hm.accu)) fun _ _ hm => h.goOn hm
  all_goals first
    | exact h.goOn h.machine
    | exact Related.bindSelf fun cs hcs =>
        Related.bind (RuntimeCall.same_runAll hrt hm (runtimeCalls_immediate hcs)) fun _ _ ho =>
          h.settle ho fun _ _ hm => h.goOn hm

end Exec.Same

/-! ### Runs -/

theorem Machine.Same.test_eq {ρ : Naming P} (h : m.Same ρ m') (cond : BranchCond) :
    cond.test m' = cond.test m := by
  have hfalse : m'.accu.sameWord (.bool false) = m.accu.sameWord (.bool false) :=
    h.accu.sameWord_eq h.heap.injective (.ofInt _)
  have hint : ∀ k, (Value.int k).sameWord m'.accu = (Value.int k).sameWord m.accu := fun k =>
    Value.Moved.sameWord_eq h.heap.injective (.ofInt k) h.accu
  unfold BranchCond.test
  simp only [hfalse, hint, h.accu.toWord_eq]

theorem Machine.Same.next_eq {ρ : Naming P} (h : m.Same ρ m') (inst : ZInstruction) :
    inst.next m' = inst.next m := by
  unfold ZInstruction.next
  simp only [h.test_eq, h.getSwitchOffset_eq]

/-- A program goes through the same states with both runtimes. -/
theorem lockstep (hrt : rt.Interchangeable P rt') :
    Lockstep (Zam.step prog rt) (Zam.step prog rt') (Zam.Same P) := by
  intro z z' h
  unfold Zam.step
  rw [h.pc]
  refine Related.bindEq rfl fun inst => Related.bind (h.exec.exec hrt) fun o o' ho => ?_
  cases ho with
  | finished => exact .some .finished
  | @running s s' hs =>
      refine Related.bind (R := Zam.Same P) ?_ fun _ _ h => .some (.running h)
      unfold Zam.follow
      rw [hs.control, hs.callers, hs.fn, h.returns, h.exec.callers]
      cases s.control with
      | entry => exact .some ⟨hs, rfl, rfl⟩
      | handler block => exact .some ⟨hs, rfl, rfl⟩
      | inside =>
          refine Related.ite Iff.rfl (fun _ => ?_) fun _ => ?_
          · cases z.returns with
            | nil => exact .none
            | cons pc returns => exact .some ⟨hs, rfl, rfl⟩
          · obtain ⟨ρ, hm⟩ := h.exec.machine
            exact Related.bindEq (hm.next_eq inst) fun pc => .some ⟨hs, rfl, rfl⟩

/-- All blocks that are found from the machine are in the heap. -/
structure Machine.Closed (m : Machine) : Prop where
  heap : ∀ block ∈ m.heap, ∀ w ∈ block.fields, ∀ v ∈ w, v.Within (Set.Iio m.heap.length)
  accu : m.accu.Within (Set.Iio m.heap.length)
  env : m.env.Within (Set.Iio m.heap.length)
  stack : ∀ w ∈ m.stack, ∀ v ∈ w, v.Within (Set.Iio m.heap.length)
  camlGlobalData : m.camlGlobalData.Within (Set.Iio m.heap.length)

theorem wordsMoved_relocate {live : Set Nat} {ws : StackWords} (h : ∀ w ∈ ws, ∀ v ∈ w, v.Within live)
    (move : Nat → Nat) : List.Forall₂ (WordMoved live move) ws (ws.relocate move) :=
  stack_moved (fun v hv => h _ hv v rfl) move

theorem Machine.Closed.upTo (h : m.Closed) (hP : ∀ b ∈ P, b < m.heap.length) : m.SameUpTo P m := by
  let ρ : Naming P :=
    { toPartialEquiv := PartialEquiv.ofSet (Set.Iio m.heap.length)
      pinned := fun b hb => ⟨hP b hb, rfl⟩ }
  have hword : ∀ v : Value, v.Within (Set.Iio m.heap.length) → v.Same ρ v := fun v hv =>
    ⟨hv, (v.relocate_id).symm⟩
  have hwords : ∀ ws : StackWords, (∀ w ∈ ws, ∀ v ∈ w, v.Within (Set.Iio m.heap.length)) →
      ws.Same ρ ws := by
    intro ws hws
    have hid := wordsMoved_relocate hws id
    rwa [StackWords.relocate_id] at hid
  refine ⟨ρ,
    { heap := ⟨ρ.injOn, fun b hb => ?_⟩
      accu := hword _ h.accu
      env := hword _ h.env
      extraArgs := rfl
      stack := hwords _ h.stack
      camlGlobalData := hword _ h.camlGlobalData
      camlStackThreshold := rfl
      camlTrapsp := rfl
      nextExceptionContext := rfl
      buffers := rfl
      currentBufferIndex := rfl
      camlExternalRaise := rfl }⟩
  have hget := List.getElem?_eq_getElem hb
  exact ⟨_, _, hget, hget, rfl, hwords _ (h.heap _ (List.getElem_mem hb))⟩

instance (n : Nat) (v : Value) : Decidable (v.Within (Set.Iio n)) :=
  match v with
  | .ptr b _ => inferInstanceAs (Decidable (b < n))
  | .int _ | .raw _ | .header _ _ | .atom _ | .code _ | .slot _ => .isTrue trivial

instance (m : Machine) : Decidable m.Closed :=
  decidable_of_iff ((∀ block ∈ m.heap, ∀ w ∈ block.fields, ∀ v ∈ w, v.Within (Set.Iio m.heap.length)) ∧
      m.accu.Within (Set.Iio m.heap.length) ∧ m.env.Within (Set.Iio m.heap.length) ∧
      (∀ w ∈ m.stack, ∀ v ∈ w, v.Within (Set.Iio m.heap.length)) ∧
      m.camlGlobalData.Within (Set.Iio m.heap.length))
    ⟨fun h => ⟨h.1, h.2.1, h.2.2.1, h.2.2.2.1, h.2.2.2.2⟩,
      fun h => ⟨h.heap, h.accu, h.env, h.stack, h.camlGlobalData⟩⟩

def Block.relocate (move : Nat → Nat) (block : Block) : Block :=
  { block with fields := StackWords.relocate move block.fields }

/-- Every call of the collector moves all blocks to the next places. -/
def Runtime.moving : Runtime :=
  { Runtime.idle with
    collect := fun m =>
      if m.Closed then some ⟨(· + 1), ⟨0, []⟩ :: m.heap.map (Block.relocate (· + 1))⟩ else none }

theorem Runtime.moving_keeps : Runtime.moving.Keeps ∅ := by
  intro m c hc
  obtain ⟨h, heq⟩ := Option.ite_none_right_eq_some.mp hc
  cases heq
  refine ⟨Set.Iio m.heap.length, ⟨⟨fun a _ b _ hab => Nat.succ_injective hab, fun b hb => ?_⟩,
    h.accu, h.env, fun v hv => h.stack _ hv v rfl, h.camlGlobalData⟩, fun b hb => hb.elim⟩
  have hget := List.getElem?_eq_getElem hb
  have hblock : Block.Moved (Set.Iio m.heap.length) (· + 1) m.heap[b]
      (m.heap[b].relocate (· + 1)) :=
    ⟨rfl, wordsMoved_relocate (h.heap _ (List.getElem_mem hb)) _⟩
  refine ⟨_, _, hget, ?_, hblock⟩
  rw [List.getElem?_cons_succ, List.getElem?_map, hget, Option.map_some]

theorem Runtime.moving_interchangeable : Runtime.moving.Interchangeable ∅ .idle where
  keeps := moving_keeps
  keeps' _ _ h := by cases h
  primitive _ _ _ _ _ _ _ _ := .none
  camlReallocStack := rfl
  overflow _ _ h := by cases h

/-- A block is put into a second one and read back. -/
def pairInsts : List ZInstruction :=
  [.blank .const1, .ofArgs .makeBlock1 0 0, .blank .pushConst2, .ofArgs .makeBlock2 0 0,
    .blank .getField1, .blank .getField0, .blank .stop]

def pairProg : List ZInstruction := pairInsts.mapIdx fun i inst => { inst with idx := i }

end CamllVM
