import CamllVM.Proof.SameAllocations
import CamllVM.RuntimeCall

/-!
# Calls and exceptions on states that are the same

Behind a primitive the register `env` is out of date until it is reloaded, and behind a jump only the
exception value counts.
-/

namespace CamllVM

variable {P : Set Nat} {ρ : Naming P} {v v' : Value} {m m' : Machine} {rt rt' : Runtime}

/-- The states in which a primitive returns. -/
def Machine.SameAfterCall (ρ : Naming P) (m m' : Machine) : Prop :=
  Machine.Same ρ { m with env := .unit, stack := m.camlExternSp }
    { m' with env := .unit, stack := m'.camlExternSp }

/-- The states in which a handler is entered. -/
def Machine.SameAtRaise (ρ : Naming P) (m m' : Machine) : Prop :=
  Machine.Same ρ { m with accu := m.camlExnBucket, env := .unit, extraArgs := 0 }
    { m' with accu := m'.camlExnBucket, env := .unit, extraArgs := 0 }

inductive Jump.Same (P : Set Nat) : Jump → Jump → Prop
  | exit : Same P .exit .exit
  | longjmp (i : Nat) {m m' : Machine} (ρ : Naming P) (h : m.SameAtRaise ρ m') :
      Same P (.longjmp i m) (.longjmp i m')

inductive Outcome.Same {α : Type} (P : Set Nat) (R : α → α → Prop) : Outcome α → Outcome α → Prop
  | next {a a' : α} (h : R a a') : Same P R (.next a) (.next a')
  | jump {j j' : Jump} (h : j.Same P j') : Same P R (.jump j) (.jump j')

theorem Outcome.Same.andThen {α β : Type} {R : α → α → Prop} {S : β → β → Prop} {x x' : Outcome α}
    {f f' : α → Option β} (h : x.Same P R x') (hnext : ∀ a a', R a a' → Option.Rel S (f a) (f' a')) :
    Option.Rel (Outcome.Same P S) (x.andThen f) (x'.andThen f') := by
  cases h with
  | next h => exact Related.optionMap (hnext _ _ h) fun _ _ => .next
  | jump h => exact .some (.jump h)

namespace Machine

/-- A function to call and the state in which it is called. -/
def CallSame (P : Set Nat) (p p' : Machine × CodePtr) : Prop := p.1.SameUpTo P p'.1 ∧ p'.2 = p.2

/-! ### Exceptions -/

theorem Same.throwException (h : m.Same ρ m') (hv : v.Same ρ v') :
    (m.throwException v).Same P (m'.throwException v') := by
  unfold Machine.throwException
  rw [h.nextExceptionContext]
  cases m.nextExceptionContext with
  | none => exact .exit
  | some i => exact .longjmp i ρ { h with
      accu := hv, env := .ofInt 0, extraArgs := rfl, nextExceptionContext := rfl }

/-- `h`: what the handler will find. -/
theorem SameAtRaise.camlRaise (m m' : Machine)
    (h : SameAtRaise ρ { m with camlExnBucket := v, stack := m.camlExternSp }
      { m' with camlExnBucket := v', stack := m'.camlExternSp }) :
    Option.Rel (Jump.Same P) (m.camlRaise v) (m'.camlRaise v') := by
  have hraise : m'.camlExternalRaise = m.camlExternalRaise := h.camlExternalRaise
  unfold Machine.camlRaise
  dsimp only
  rw [hraise]
  cases m.camlExternalRaise with
  | null => exact .some .exit
  | jmpBuf i => exact .some (.longjmp i ρ { h with camlExternalRaise := rfl })
  | jmpBufOfNull => exact .none

theorem SameAtRaise.raiseSp (h : m.SameAtRaise ρ m') (n : Nat) :
    Option.Rel (SameAtRaise ρ) (m.raiseSp n) (m'.raiseSp n) :=
  Related.ite (by rw [show m'.stack.length = m.stack.length from h.length_stack])
    (fun _ => .some (h.setStack (List.forall₂_drop n h.stack))) fun _ => .none

theorem SameAtRaise.getExceptionValue (h : m.SameAtRaise ρ m') :
    Option.Rel (Machine.Same ρ) m.getExceptionValue m'.getExceptionValue := by
  have hdepth : m'.camlTrapsp = m.camlTrapsp := h.camlTrapsp
  unfold Machine.getExceptionValue
  rw [hdepth]
  have hsp : SameAtRaise ρ (m.setSp m.camlTrapsp) (m'.setSp m.camlTrapsp) := h.setSp m.camlTrapsp
  exact Related.bind (hsp.slot 2) fun _ _ henv => Related.bindEq hsp.trapLink_eq fun _ =>
    Related.bind (hsp.slot 3) fun _ _ hv => Related.bindEq hv.longVal_eq fun _ =>
      Related.bind (hsp.raiseSp 4) fun _ _ h =>
        .some { h with env := henv, camlTrapsp := rfl, extraArgs := rfl }

theorem SameAfterCall.restoreAfterCCall (h : m.SameAfterCall ρ m') :
    Option.Rel (Machine.Same ρ) m.restoreAfterCCall m'.restoreAfterCCall :=
  Related.bind (h.slot 0) fun _ _ henv =>
    Related.bind (R := fun r r' => Same ρ { r with env := .unit } { r' with env := .unit })
      (Related.ite (by rw [show m'.camlExternSp.length = m.camlExternSp.length from h.length_stack])
        (fun _ => .some (h.setStack (List.forall₂_drop 1 h.stack))) fun _ => .none)
      fun _ _ h => .some (h.setEnv henv)

namespace Same

variable (h : m.Same ρ m')

include h

theorem getNewBuffer :
    Option.Rel (fun p p' => p'.1 = p.1 ∧ p.2.Same ρ p'.2) m.getNewBuffer m'.getNewBuffer := by
  unfold Machine.getNewBuffer
  rw [h.currentBufferIndex, h.buffers, h.nextExceptionContext]
  exact Related.ite Iff.rfl (fun _ => .some ⟨rfl, { h with
    currentBufferIndex := rfl, buffers := rfl, nextExceptionContext := rfl
    camlExternalRaise := rfl }⟩) fun _ => .none

theorem removeExceptionContext :
    Option.Rel (Machine.Same ρ) m.removeExceptionContext m'.removeExceptionContext := by
  unfold Machine.removeExceptionContext
  rw [h.currentBufferIndex, h.buffers]
  exact Related.bindEq h.nextExceptionContext fun _ => .some { h with
    currentBufferIndex := rfl, buffers := rfl, nextExceptionContext := rfl
    camlExternalRaise := rfl }

theorem pushTrap : Option.Rel (Machine.Same ρ) m.pushTrap m'.pushTrap := by
  refine Related.bind ((h.lowerSp 4).setSlot 1 ?_) fun _ _ h => Related.bind (h.setSlot 2 h.env)
    fun _ _ h => Related.bind (h.setSlot 3 ?_) fun _ _ h => .some { h with camlTrapsp := h.length_stack }
  · exact ⟨trivial, congrArg Value.slot h.camlTrapsp⟩
  · exact ⟨trivial, congrArg Value.int h.extraArgs⟩

theorem popTrap : Option.Rel (Machine.Same ρ) m.popTrap m'.popTrap :=
  Related.bindEq h.trapLink_eq fun link =>
    have h₁ : Same ρ { m with camlTrapsp := link } { m' with camlTrapsp := link } :=
      { h with camlTrapsp := rfl }
    h₁.raiseSp 4

/-! ### Calls -/

theorem restart : Option.Rel (Machine.Same ρ) m.restart m'.restart := by
  have hsize : m'.heap.wosizeVal m'.env = m.heap.wosizeVal m.env := by
    rw [Heap.wosizeVal, Heap.wosizeVal, h.heap.headerVal_eq h.env]
  exact Related.bindEq hsize fun size => Related.bind ((h.lowerSp (size - 2)).copyArgs 0 (size - 2))
    fun _ _ h => Related.bind (h.field h.env 1) fun _ _ henv =>
      .some { h with env := henv, extraArgs := congrArg (· + _) h.extraArgs }

theorem calling : Option.Rel (CallSame P) m.calling m'.calling :=
  Related.bindEq (h.codeVal_eq h.accu) fun _ => .some ⟨h.upTo, rfl⟩

theorem apply (n : Int) : Option.Rel (CallSame P) (m.apply n) (m'.apply n) :=
  calling { h with env := h.accu, extraArgs := rfl }

theorem handleReturn (stsz : Nat) :
    Option.Rel (fun p p' => p.1.SameUpTo P p'.1 ∧ p'.2 = p.2) (m.handleReturn stsz)
      (m'.handleReturn stsz) := by
  refine Related.bind (h.raiseSp stsz) fun m₁ m₁' h => Related.ite (by rw [h.extraArgs]) (fun _ => ?_)
    fun _ => ?_
  · refine Related.bindEq (h.codeVal_eq h.accu) fun _ => .some ⟨⟨ρ, ?_⟩, rfl⟩
    exact { h with env := h.accu, extraArgs := congrArg (· - 1) h.extraArgs }
  · exact Related.bind (h.slot 1) fun _ _ henv => Related.bind (h.slot 2) fun _ _ hv =>
      Related.bindEq hv.longVal_eq fun _ => Related.bind (h.raiseSp 3) fun _ _ h =>
        .some ⟨⟨ρ, { h with env := henv, extraArgs := rfl }⟩, rfl⟩

theorem offsetClosure (offset : Int) :
    Option.Rel (Machine.Same ρ) (m.offsetClosure offset) (m'.offsetClosure offset) :=
  Related.bind (h.env.shiftPtr offset) fun _ _ hv => .some (h.setAccu hv)

variable (hrt : rt.Interchangeable P rt')

include hrt

theorem checkStacks :
    Option.Rel (Outcome.Same P (SameUpTo P)) (m.checkStacks rt) (m'.checkStacks rt') := by
  refine Related.ite (by rw [h.camlStackThreshold, h.length_stack]) (fun _ => ?_)
    fun _ => .some (.next h.upTo)
  dsimp only
  rw [hrt.camlReallocStack, h.length_stack]
  cases hrealloc : rt.camlReallocStack m.stack.length with
  | ret threshold =>
      have hgrown : SameUpTo P { m with camlExternSp := m.stack, camlStackThreshold := threshold }
          { m' with camlExternSp := m'.stack, camlStackThreshold := threshold } :=
        ⟨ρ, { h with camlStackThreshold := rfl }⟩
      exact .some (.next hgrown)
  | raise exn =>
      have hexn := Value.same_of_within ρ (hrt.overflow _ _ hrealloc)
      have hraise := SameAtRaise.camlRaise { m with camlExternSp := m.stack }
        { m' with camlExternSp := m'.stack }
        { h with accu := hexn, env := .ofInt 0, extraArgs := rfl }
      exact Related.optionMap hraise fun _ _ => .jump

theorem checkedCall :
    Option.Rel (Outcome.Same P (CallSame P)) (m.checkedCall rt) (m'.checkedCall rt') := by
  refine Related.bind (h.checkStacks hrt) fun _ _ hout => hout.andThen ?_
  rintro m₁ m₁' ⟨ρ₁, h₁⟩
  exact h₁.calling

theorem applyArgs (n : Nat) :
    Option.Rel (Outcome.Same P (CallSame P)) (m.applyArgs rt n) (m'.applyArgs rt' n) := by
  refine Related.bind (h.slots 0 n) fun _ _ hargs =>
    Related.bind ((h.lowerSp 3).setSlots 0 hargs) fun _ _ h₁ =>
      Related.bind (h₁.setSlot (n + 1) h.env) fun _ _ h₁ => Related.bind (h₁.setSlot (n + 2) ?_)
        fun _ _ h₁ => checkedCall { h₁ with env := h₁.accu, extraArgs := rfl } hrt
  exact ⟨trivial, congrArg Value.int h.extraArgs⟩

theorem appterm (nargs slotsize : Nat) :
    Option.Rel (Outcome.Same P (CallSame P)) (m.appterm rt nargs slotsize)
      (m'.appterm rt' nargs slotsize) :=
  Related.bind (h.slideArgs _ nargs) fun _ _ h => Related.bind (h.dropFrame slotsize nargs)
    fun _ _ h => checkedCall { h with env := h.accu, extraArgs := congrArg (· + _) h.extraArgs } hrt

theorem apptermArgs (n slotsize : Nat) :
    Option.Rel (Outcome.Same P (CallSame P)) (m.apptermArgs rt n slotsize)
      (m'.apptermArgs rt' n slotsize) :=
  Related.bind (h.slots 0 n) fun _ _ hargs => Related.bind (h.dropFrame slotsize n) fun _ _ h =>
    Related.bind (h.setSlots 0 hargs) fun _ _ h =>
      checkedCall { h with env := h.accu, extraArgs := congrArg (· + _) h.extraArgs } hrt

/-! ### Primitives -/

theorem primitive {args args' : PrimArgs} (hsp : m.camlExternSp.Same ρ m'.camlExternSp) (prim : Int)
    (hargs : args.Same ρ args') :
    Option.Rel (Outcome.Same P fun a a' => ∃ ρ : Naming P, a.SameAfterCall ρ a')
      (m.primitive rt prim args) (m'.primitive rt' prim args') := by
  refine Related.bind (hrt.primitive ρ prim _ _ _ _ hargs ⟨h.heap, hsp, h.camlGlobalData⟩) ?_
  rintro ⟨st, move, result⟩ ⟨st', move', result'⟩ ⟨ρ₁, hst, hresult⟩
  cases hresult with
  | ret hv =>
      exact .some (.next ⟨ρ₁, { h with
        heap := hst.heap, accu := hv, env := .ofInt 0, stack := hst.camlExternSp
        camlGlobalData := hst.camlGlobalData }⟩)
  | raise hexn =>
      have hraise := SameAtRaise.camlRaise (m.scan.afterPrimitive ⟨st, move, .raise _⟩)
        (m'.scan.afterPrimitive ⟨st', move', .raise _⟩)
        { h with
          heap := hst.heap, accu := hexn, env := .ofInt 0, extraArgs := rfl
          stack := hst.camlExternSp, camlGlobalData := hst.camlGlobalData }
      exact Related.optionMap hraise fun _ _ => .jump

theorem cCall (extra : Nat) (prim : Int) :
    Option.Rel (Outcome.Same P (SameUpTo P)) (m.cCall rt extra prim) (m'.cCall rt' extra prim) := by
  have hsp := (h.pushWord h.env).stack
  have hsetup : m.setupForCCall.Same ρ m'.setupForCCall := { h with stack := hsp }
  refine Related.bind (hsetup.slots 1 extra) fun _ _ hargs =>
    Related.bind (hsetup.primitive hrt hsp prim (.direct (.cons h.accu hargs))) fun _ _ hout =>
      hout.andThen ?_
  rintro m₁ m₁' ⟨ρ₁, h₁⟩
  exact Related.bind h₁.restoreAfterCCall fun _ _ h => optionUpTo (h.raiseSp extra)

theorem cCallN (prim nargs : Int) :
    Option.Rel (Outcome.Same P (SameUpTo P)) (m.cCallN rt prim nargs) (m'.cCallN rt' prim nargs) := by
  have hsp := ((h.pushWord h.accu).pushWord h.env).stack
  have hsetup : (m.pushWord m.accu).setupForCCall.Same ρ (m'.pushWord m'.accu).setupForCCall :=
    { h with stack := hsp }
  refine Related.bind (hsetup.primitive hrt hsp prim (.array nargs (List.forall₂_drop 1 hsp)))
    fun _ _ hout => hout.andThen ?_
  rintro m₁ m₁' ⟨ρ₁, h₁⟩
  exact Related.bind h₁.restoreAfterCCall fun _ _ h =>
    Related.ite Iff.rfl (fun _ => optionUpTo (h.raiseSp _)) fun _ => .none

end Same

end Machine

/-! ### The calls of an instruction -/

namespace RuntimeCall

open Machine Ensures

theorem same_plain {x y : Option Machine} (h : Option.Rel (SameUpTo P) x y) :
    Option.Rel (Outcome.Same P (SameUpTo P)) (plain x) (plain y) :=
  Related.optionMap h fun _ _ => .next

/-- A constant of the program is not an address of a block. -/
def Immediate : RuntimeCall → Prop
  | constInt ci => ci.Within ∅
  | _ => True

variable (hrt : rt.Interchangeable P rt')

include hrt

theorem same_run (h : m.Same ρ m') {c : RuntimeCall} (hc : c.Immediate) :
    Option.Rel (Outcome.Same P (SameUpTo P)) (c.run rt m) (c.run rt' m') := by
  have word : ∀ w, Ensures (Value.Within ∅) (some (.ofWord w)) := fun w =>
    result (show (Value.ofWord w).Moved ∅ id _ from .ofWord w).within
  have kept : ∀ {x y : Option Machine}, Option.Rel (Machine.Same ρ) x y →
      Option.Rel (Outcome.Same P (SameUpTo P)) (plain x) (plain y) := fun hxy =>
    same_plain (Same.optionUpTo hxy)
  cases c with
  | constInt ci => exact kept (.some (h.setAccu (Value.moved_of_immediate hc)))
  | push => exact kept (.some (h.pushWord h.accu))
  | pop n => exact kept (h.raiseSp n)
  | pushRetAddr => exact kept h.pushRetAddr
  | acc n => exact kept (h.acc n)
  | envAcc n => exact kept (h.envAcc n)
  | addInt | subInt | mulInt | andInt | orInt | xorInt => exact kept (h.wordOp fun _ _ => word _)
  | divInt | modInt => exact kept (h.wordOp fun _ _ => byCases (fun _ => stuck) fun _ => word _)
  | lslInt | lsrInt | asrInt =>
      exact kept (h.wordOp fun _ _ => byCases (fun _ => word _) fun _ => stuck)
  | geInt | ltInt | leInt | ultInt | ugeInt | gtInt =>
      exact kept (h.wordOp fun _ _ => result trivial)
  | negInt => exact kept (h.ofAccu _)
  | offsetInt n => exact kept (h.ofAccu _)
  | boolNot => exact kept (h.ofAccu _)
  | cmpNeq => exact kept (h.compare (!·))
  | cmpEq => exact kept (h.compare id)
  | isInt => exact kept (.some h.isInt)
  | offsetRef offset => exact kept (h.offsetRef offset)
  | assign n => exact kept (h.assign n)
  | getGlobal idx => exact kept (h.getGlobal idx)
  | setGlobal idx => exact kept (h.setGlobal idx)
  | getField idx => exact kept (h.getField idx)
  | setField idx => exact kept (h.storeField idx)
  | getAtom idx => exact kept (.some (h.setAccu ⟨trivial, rfl⟩))
  | makeBlock1 tag => exact same_plain (h.makeBlock1 hrt tag)
  | makeBlock2 tag => exact same_plain (h.makeBlock2 hrt tag)
  | makeBlock3 tag => exact same_plain (h.makeBlock3 hrt tag)
  | makeBlock tag wosize => exact same_plain (h.makeBlock hrt tag wosize)
  | makeFloatBlock size => exact same_plain (h.makeFloatBlock hrt size)
  | storeDoubleField idx => exact kept (h.storeDoubleField idx)
  | getDoubleField idx => exact same_plain (h.getDoubleField hrt idx)
  | vectLength => exact kept h.vectLength
  | getVectItem => exact kept h.getVectItem
  | setVectItem => exact kept h.setVectItem
  | getStringChar => exact kept h.getStringChar
  | setStringChar => exact kept h.setStringChar
  | closureRec nfuncs nvars codePtr => exact same_plain (h.closureRec hrt nfuncs nvars codePtr)
  | setClosureRecNestedClos idx codePtr => exact kept (h.setClosureRecNestedClos idx codePtr)
  | closure nvars codePtr => exact same_plain (h.closure hrt nvars codePtr)
  | offsetClosure offset => exact kept (h.offsetClosure offset)
  | getMethod => exact kept h.getMethod
  | getPubMet met => exact kept (h.getPubMet met)
  | getDynMet => exact kept h.getDynMet
  | cCall1 prim => exact h.cCall hrt 0 prim
  | cCall2 prim => exact h.cCall hrt 1 prim
  | cCall3 prim => exact h.cCall hrt 2 prim
  | cCall4 prim => exact h.cCall hrt 3 prim
  | cCall5 prim => exact h.cCall hrt 4 prim
  | cCallN prim nargs => exact h.cCallN hrt prim nargs

theorem same_runAll (h : m.Same ρ m') {cs : List RuntimeCall} (hcs : ∀ c ∈ cs, c.Immediate) :
    Option.Rel (Outcome.Same P (SameUpTo P)) (runAll rt cs m) (runAll rt' cs m') := by
  induction cs generalizing m m' ρ with
  | nil => exact .some (.next h.upTo)
  | cons c cs ih =>
      obtain ⟨hc, hcs⟩ := List.forall_mem_cons.mp hcs
      refine Related.bind (same_run hrt h hc) fun o o' ho => ?_
      cases ho with
      | next h =>
          obtain ⟨ρ₁, h₁⟩ := h
          exact ih h₁ hcs
      | jump hj => exact .some (.jump hj)

end RuntimeCall

theorem nestedClosures_immediate {inst : ZInstruction} {i n : Nat} {cs : List RuntimeCall}
    (h : inst.nestedClosures i n = some cs) : ∀ c ∈ cs, c.Immediate := by
  induction n generalizing i cs with
  | zero =>
      cases h
      intro c hc
      cases hc
  | succ n ih =>
      unfold ZInstruction.nestedClosures at h
      split at h
      · obtain ⟨rest, hrest, heq⟩ := Option.bind_eq_some_iff.mp h
        cases heq
        exact List.forall_mem_cons.mpr ⟨trivial, ih hrest⟩
      · cases h

theorem runtimeCalls_immediate {inst : ZInstruction} {cs : List RuntimeCall}
    (h : inst.runtimeCalls = some cs) : ∀ c ∈ cs, c.Immediate := by
  cases hop : inst.opNum
  case closureRec =>
    simp only [ZInstruction.runtimeCalls, hop, Option.bind_eq_bind, Option.bind_eq_some_iff] at h
    obtain ⟨nfuncs, -, rest, hrest, nvars, -, heq⟩ := h
    cases heq
    exact List.forall_mem_cons.mpr ⟨trivial, nestedClosures_immediate hrest⟩
  all_goals
    simp only [ZInstruction.runtimeCalls, hop, Option.bind_eq_bind, Option.bind_eq_some_iff,
      Option.pure_def, Option.some.injEq, reduceCtorEq] at h <;>
    first
      | (subst h; simp [RuntimeCall.Immediate, Value.Within])
      | (obtain ⟨k, -, rfl⟩ := h; simp [RuntimeCall.Immediate])
      | (obtain ⟨k, -, l, -, rfl⟩ := h; simp [RuntimeCall.Immediate])

end CamllVM
