import CamllVM.Proof.CodeClosed
import CamllVM.Proof.Generation
import CamllVM.Proof.Headroom

/-!
# Every function that is called is known

In a run of the generated code the code addresses in the state are those of functions to which an
instruction has referred. So no call, no tail call and no return leads to other code.
-/

namespace CamllVM

open Ensures

variable {rt : Runtime} {ids : Set Int} {m : Machine} {v : Value} {inst : ZInstruction} {s : Exec}

theorem Outcome.CodeIn.andThen {α β : Type} {P : α → Prop} {Q : β → Prop} {x : Outcome α}
    {f : α → Option β} (h : x.CodeIn ids P) (hnext : ∀ a, P a → Ensures Q (f a)) :
    Ensures (Outcome.CodeIn ids Q) (x.andThen f) := by
  cases x with
  | next a => exact map (hnext a h) fun _ hb => hb
  | jump j => exact result h

/-! ### Calls and exceptions -/

namespace Machine.CodeIn

theorem codeVal (h : m.CodeIn ids) (v : Value) : Ensures (CodePtr.id · ∈ ids) (m.codeVal v) := by
  refine andThen (h.field v 0) fun w hw => ?_
  split
  · exact result (hw _ rfl)
  · exact stuck

/-- The machine at a call, with the code that is called. -/
def Calling (ids : Set Int) (mc : Machine × CodePtr) : Prop := mc.1.CodeIn ids ∧ mc.2.id ∈ ids

theorem calling (h : m.CodeIn ids) : Ensures (Calling ids) m.calling :=
  andThen (h.codeVal m.accu) fun _ hcode => result ⟨h, hcode⟩

theorem apply (h : m.CodeIn ids) (n : Int) : Ensures (Calling ids) (m.apply n) :=
  calling { h with env := h.accu }

theorem throwException (h : m.CodeIn ids) (hv : v.CodeIn ids) :
    (m.throwException v).CodeIn ids := by
  unfold Machine.throwException
  split
  · exact trivial
  · exact { h with camlExnBucket := hv }

theorem camlRaise (h : m.CodeIn ids) (hv : v.CodeIn ids) :
    Ensures (Jump.CodeIn ids) (m.camlRaise v) := by
  unfold Machine.camlRaise
  dsimp only
  split
  · exact result trivial
  · exact result { h with stack := h.camlExternSp, camlExnBucket := hv }
  · exact stuck

theorem getExceptionValue (h : m.CodeIn ids) : Ensures (CodeIn ids) m.getExceptionValue :=
  have h₁ := h.setSp m.camlTrapsp
  andThen (h₁.slot 2) fun _ henv => andThen (self _) fun _ _ => andThen (self _) fun _ _ =>
    andThen (self _) fun _ _ => andThen (h₁.raiseSp 4) fun _ h₂ =>
      result { h₂ with env := henv, accu := h₂.camlExnBucket }

theorem removeExceptionContext (h : m.CodeIn ids) : Ensures (CodeIn ids) m.removeExceptionContext :=
  andThen (self _) fun _ _ => result { h with }

theorem getNewBuffer (h : m.CodeIn ids) : Ensures (fun p => CodeIn ids p.2) m.getNewBuffer :=
  byCases (fun _ => result { h with }) fun _ => stuck

theorem pushTrap (h : m.CodeIn ids) : Ensures (CodeIn ids) m.pushTrap :=
  andThen ((h.lowerSp 4).setSlot 1 (Value.codeIn_slot _)) fun _ h₁ =>
    andThen (h₁.setSlot 2 h₁.env) fun _ h₂ => andThen (h₂.setSlot 3 (Value.codeIn_int _)) fun _ h₃ =>
      result { h₃ with }

theorem popTrap (h : m.CodeIn ids) : Ensures (CodeIn ids) m.popTrap :=
  andThen (self _) fun link _ => raiseSp (m := { m with camlTrapsp := link }) { h with } 4

theorem restart (h : m.CodeIn ids) : Ensures (CodeIn ids) m.restart :=
  andThen (self _) fun n _ => andThen ((h.lowerSp (n - 2)).copyArgs 0 (n - 2)) fun m₁ h₁ =>
    andThen (h₁.field m₁.env 1) fun _ henv => result { h₁ with env := henv }

theorem handleReturn (h : m.CodeIn ids) (stsz : Nat) :
    Ensures (fun mc => mc.1.CodeIn ids ∧ ∀ c ∈ mc.2, c.id ∈ ids) (m.handleReturn stsz) := by
  refine andThen (h.raiseSp stsz) fun m₁ h₁ => byCases (fun _ => ?_) fun _ => ?_
  · refine andThen (codeVal (m := { m₁ with extraArgs := m₁.extraArgs - 1, env := m₁.accu })
      { h₁ with env := h₁.accu } m₁.accu) fun c hc => result ⟨{ h₁ with env := h₁.accu }, ?_⟩
    intro c' hc'
    cases hc'
    exact hc
  · refine andThen (h₁.slot 1) fun _ henv => andThen (self _) fun _ _ => andThen (self _) fun _ _ =>
      andThen (h₁.raiseSp 3) fun _ h₂ => result ⟨{ h₂ with env := henv }, ?_⟩
    intro c hc
    cases hc

theorem dropFrame (h : m.CodeIn ids) (slotsize nargs : Nat) :
    Ensures (CodeIn ids) (m.dropFrame slotsize nargs) :=
  byCases (fun _ => h.raiseSp _) fun _ => stuck

theorem afterPrimitive {done : PrimEnd} (h : m.CodeIn ids) (hdone : done.state.CodeIn ids) :
    (m.afterPrimitive done).CodeIn ids :=
  { h with
    stack := fun _ hv => absurd hv List.not_mem_nil
    heap := hdone.heap
    camlExternSp := hdone.camlExternSp
    camlGlobalData := hdone.camlGlobalData }

section

variable (hrt : rt.CodeIn ids)

include hrt

theorem checkStacks (h : m.CodeIn ids) :
    Ensures (Outcome.CodeIn ids (CodeIn ids)) (m.checkStacks rt) := by
  refine byCases (fun _ => ?_) fun _ => result h
  have h₁ : CodeIn ids { m with camlExternSp := m.stack } := { h with camlExternSp := h.stack }
  dsimp only
  split
  · exact result { h₁ with }
  · next exn hexn => exact map (h₁.camlRaise (hrt.realloc _ exn hexn)) fun _ hj => hj

theorem checkedCall (h : m.CodeIn ids) :
    Ensures (Outcome.CodeIn ids (Calling ids)) (m.checkedCall rt) :=
  andThen (h.checkStacks hrt) fun _ ho => ho.andThen fun _ h₁ => h₁.calling

theorem applyArgs (h : m.CodeIn ids) (n : Nat) :
    Ensures (Outcome.CodeIn ids (Calling ids)) (m.applyArgs rt n) :=
  andThen (h.slots 0 n) fun _ hargs => andThen ((h.lowerSp 3).setSlots 0 hargs) fun _ h₁ =>
    andThen (h₁.setSlot (n + 1) h.env) fun _ h₂ =>
      andThen (h₂.setSlot (n + 2) (Value.codeIn_int _)) fun _ h₃ =>
        checkedCall hrt { h₃ with env := h₃.accu }

theorem appterm (h : m.CodeIn ids) (nargs slotsize : Nat) :
    Ensures (Outcome.CodeIn ids (Calling ids)) (m.appterm rt nargs slotsize) :=
  andThen (h.slideArgs _ nargs) fun _ h₁ => andThen (h₁.dropFrame slotsize nargs) fun _ h₂ =>
    checkedCall hrt { h₂ with env := h₂.accu }

theorem apptermArgs (h : m.CodeIn ids) (n slotsize : Nat) :
    Ensures (Outcome.CodeIn ids (Calling ids)) (m.apptermArgs rt n slotsize) :=
  andThen (h.slots 0 n) fun _ hargs => andThen (h.dropFrame slotsize n) fun _ h₁ =>
    andThen (h₁.setSlots 0 hargs) fun _ h₂ => checkedCall hrt { h₂ with env := h₂.accu }

/-! ### Primitives -/

theorem primitive {args : PrimArgs} (h : m.CodeIn ids) (prim : Int) (hargs : args.CodeIn ids) :
    Ensures (Outcome.CodeIn ids (CodeIn ids)) (m.primitive rt prim args) := by
  refine andThen (fun done hdone => hrt.primitive prim args _ done hargs
    ⟨h.heap, h.camlExternSp, h.camlGlobalData⟩ hdone) fun done hdone => ?_
  have h₁ := h.scan.afterPrimitive hdone.1
  have hvalue := hdone.2
  dsimp only
  split
  · next v hv =>
      rw [hv] at hvalue
      exact result (h₁.setAccu hvalue)
  · next exn hexn =>
      rw [hexn] at hvalue
      exact map (h₁.camlRaise hvalue) fun _ hj => hj

theorem cCall (h : m.CodeIn ids) (extra : Nat) (prim : Int) :
    Ensures (Outcome.CodeIn ids (CodeIn ids)) (m.cCall rt extra prim) := by
  refine andThen (h.setupForCCall.slots 1 extra) fun args hargs =>
    andThen (h.setupForCCall.primitive hrt prim ?_) fun _ ho => ho.andThen fun _ h₁ =>
      andThen h₁.restoreAfterCCall fun _ h₂ => h₂.raiseSp extra
  intro v hv
  rcases List.mem_cons.mp hv with rfl | hv
  · exact h.accu
  · exact hargs v hv

theorem cCallN (h : m.CodeIn ids) (prim nargs : Int) :
    Ensures (Outcome.CodeIn ids (CodeIn ids)) (m.cCallN rt prim nargs) :=
  have h₁ := (h.pushWord h.accu).setupForCCall
  andThen (h₁.primitive hrt prim (h₁.stack.drop 1)) fun _ ho => ho.andThen fun _ h₂ =>
    andThen h₂.restoreAfterCCall fun _ h₃ => byCases (fun _ => h₃.raiseSp _) fun _ => stuck

end

end Machine.CodeIn

/-! ### Instructions -/

/-- The constants of a call. -/
def RuntimeCall.CodeIn (ids : Set Int) : RuntimeCall → Prop
  | constInt ci => ci.CodeIn ids
  | closureRec _ _ codePtr | setClosureRecNestedClos _ codePtr | closure _ codePtr => codePtr.id ∈ ids
  | _ => True

theorem RuntimeCall.codeIn_plain {x : Option Machine} (h : Ensures (Machine.CodeIn ids) x) :
    Ensures (Outcome.CodeIn ids (Machine.CodeIn ids)) (plain x) := map h fun _ hm => hm

theorem RuntimeCall.codeIn_run (hrt : rt.CodeIn ids) (h : m.CodeIn ids) {c : RuntimeCall}
    (hc : c.CodeIn ids) : Ensures (Outcome.CodeIn ids (Machine.CodeIn ids)) (c.run rt m) := by
  have word : ∀ w, Ensures (Value.CodeIn ids) (some (.ofWord w)) := fun w =>
    result (Value.codeIn_ofWord w)
  have bit : ∀ b, Ensures (Value.CodeIn ids) (some (.bool b)) := fun b => result (Value.codeIn_bool b)
  cases c with
  | constInt ci => exact codeIn_plain (result (h.setAccu hc))
  | push => exact codeIn_plain (result (h.pushWord h.accu))
  | pop n => exact codeIn_plain (h.raiseSp n)
  | pushRetAddr => exact codeIn_plain h.pushRetAddr
  | acc n => exact codeIn_plain (h.acc n)
  | envAcc n => exact codeIn_plain (h.envAcc n)
  | addInt | subInt | mulInt | andInt | orInt | xorInt => exact codeIn_plain (h.wordOp fun _ _ => word _)
  | divInt | modInt =>
      exact codeIn_plain (h.wordOp fun _ _ => byCases (fun _ => stuck) fun _ => word _)
  | lslInt | lsrInt | asrInt => exact codeIn_plain (h.shiftOp _)
  | geInt | ltInt | leInt | ultInt | ugeInt | gtInt => exact codeIn_plain (h.wordOp fun _ _ => bit _)
  | negInt => exact codeIn_plain (h.ofAccu _)
  | offsetInt n => exact codeIn_plain (h.ofAccu _)
  | boolNot => exact codeIn_plain (h.ofAccu _)
  | cmpNeq => exact codeIn_plain (h.compare fun a b => !a.sameWord b)
  | cmpEq => exact codeIn_plain (h.compare Value.sameWord)
  | isInt => exact codeIn_plain (result (h.setAccu (Value.codeIn_bool _)))
  | offsetRef offset => exact codeIn_plain (h.offsetRef offset)
  | assign n => exact codeIn_plain (h.assign n)
  | getGlobal idx => exact codeIn_plain (h.getGlobal idx)
  | setGlobal idx => exact codeIn_plain (h.setGlobal idx)
  | getField idx => exact codeIn_plain (h.getField idx)
  | setField idx => exact codeIn_plain (h.storeField idx)
  | getAtom idx => exact codeIn_plain (result (h.setAccu (Value.codeIn_atom idx)))
  | makeBlock1 tag => exact codeIn_plain (h.makeBlock1 hrt tag)
  | makeBlock2 tag => exact codeIn_plain (h.makeBlock2 hrt tag)
  | makeBlock3 tag => exact codeIn_plain (h.makeBlock3 hrt tag)
  | makeBlock tag wosize => exact codeIn_plain (h.makeBlock hrt tag wosize)
  | makeFloatBlock size => exact codeIn_plain (h.makeFloatBlock hrt size)
  | storeDoubleField idx => exact codeIn_plain (h.storeDoubleField idx)
  | getDoubleField idx => exact codeIn_plain (h.getDoubleField hrt idx)
  | vectLength => exact codeIn_plain h.vectLength
  | getVectItem => exact codeIn_plain h.getVectItem
  | setVectItem => exact codeIn_plain h.setVectItem
  | getStringChar => exact codeIn_plain h.getStringChar
  | setStringChar => exact codeIn_plain h.setStringChar
  | closureRec nfuncs nvars codePtr => exact codeIn_plain (h.closureRec hrt nfuncs nvars hc)
  | setClosureRecNestedClos idx codePtr => exact codeIn_plain (h.setClosureRecNestedClos idx hc)
  | closure nvars codePtr => exact codeIn_plain (h.closure hrt nvars hc)
  | offsetClosure offset => exact codeIn_plain (h.offsetClosure offset)
  | getMethod => exact codeIn_plain h.getMethod
  | getPubMet met =>
      exact codeIn_plain (((h.pushWord h.accu).setAccu (Value.codeIn_int met)).getDynMet)
  | getDynMet => exact codeIn_plain h.getDynMet
  | cCall1 prim => exact h.cCall hrt 0 prim
  | cCall2 prim => exact h.cCall hrt 1 prim
  | cCall3 prim => exact h.cCall hrt 2 prim
  | cCall4 prim => exact h.cCall hrt 3 prim
  | cCall5 prim => exact h.cCall hrt 4 prim
  | cCallN prim nargs => exact h.cCallN hrt prim nargs

theorem RuntimeCall.codeIn_runAll (hrt : rt.CodeIn ids) (h : m.CodeIn ids) {cs : List RuntimeCall}
    (hcs : ∀ c ∈ cs, c.CodeIn ids) :
    Ensures (Outcome.CodeIn ids (Machine.CodeIn ids)) (runAll rt cs m) := by
  induction cs generalizing m with
  | nil => exact result h
  | cons c cs ih =>
      refine andThen (codeIn_run hrt h (hcs c List.mem_cons_self)) fun o ho => ?_
      cases o with
      | next m₁ => exact ih ho fun c hc => hcs c (List.mem_cons_of_mem _ hc)
      | jump j => exact result ho

/-- The functions that an instruction makes closures of. -/
def ZInstruction.CodeIn (ids : Set Int) (inst : ZInstruction) : Prop :=
  ∀ id, .closure id ∈ inst.fnRefs → id ∈ ids

theorem nestedClosures_codeIn {i n : Nat} {cs : List RuntimeCall}
    (h : inst.nestedClosures i n = some cs)
    (hids : ∀ (j : Nat) (hj : j < 32), i ≤ j → j < i + n → inst.closureRecFns[j] ∈ ids) :
    ∀ c ∈ cs, c.CodeIn ids := by
  induction n generalizing i cs with
  | zero =>
      cases h
      intro c hc
      cases hc
  | succ n ih =>
      unfold ZInstruction.nestedClosures at h
      split at h
      · next hi =>
          obtain ⟨rest, hrest, heq⟩ := Option.bind_eq_some_iff.mp h
          cases heq
          intro c hc
          rcases List.mem_cons.mp hc with rfl | hc
          · exact hids i hi le_rfl (by omega)
          · exact ih hrest (fun j hj hle hlt => hids j hj (by omega) (by omega)) c hc
      · cases h

theorem runtimeCalls_codeIn {cs : List RuntimeCall} (h : inst.runtimeCalls = some cs)
    (hinst : inst.CodeIn ids) : ∀ c ∈ cs, c.CodeIn ids := by
  cases hop : inst.opNum
  case closure =>
    simp only [ZInstruction.runtimeCalls, hop, Option.bind_eq_bind, Option.bind_eq_some_iff] at h
    obtain ⟨nvars, -, heq⟩ := h
    cases heq
    intro c hc
    rw [List.mem_singleton.mp hc]
    exact hinst (inst.arg 1) (by simp [ZInstruction.fnRefs, ZInstruction.isClosure, hop])
  case closureRec =>
    simp only [ZInstruction.runtimeCalls, hop, Option.bind_eq_bind, Option.bind_eq_some_iff] at h
    obtain ⟨nfuncs, hnfuncs, rest, hrest, nvars, -, heq⟩ := h
    cases heq
    have hcount : (inst.arg 0).toNat = nfuncs := by
      unfold ZInstruction.countArg at hnfuncs
      split at hnfuncs
      · exact Option.some.inj hnfuncs
      · cases hnfuncs
    have hids : ∀ (j : Nat) (hj : j < 32), j < max 1 nfuncs → inst.closureRecFns[j] ∈ ids := by
      intro j hj hlt
      refine hinst _ ?_
      rw [ZInstruction.fnRefs, if_neg (by simp [ZInstruction.isClosure, hop]),
        if_pos (by simp [ZInstruction.isClosureRec, hop]), hcount]
      refine List.mem_map.mpr ⟨_, List.mem_iff_getElem?.mpr ⟨j, ?_⟩, rfl⟩
      rw [List.getElem?_take, if_pos hlt]
      simp [hj]
    intro c hc
    rcases List.mem_cons.mp hc with rfl | hc
    · exact hids 0 (by omega) (by omega)
    · exact nestedClosures_codeIn hrest (fun j hj hle hlt => hids j hj (by omega)) c hc
  all_goals
    simp only [ZInstruction.runtimeCalls, hop, Option.bind_eq_bind, Option.bind_eq_some_iff,
      Option.pure_def, Option.some.injEq, reduceCtorEq] at h <;>
    first
      | (subst h; simp [RuntimeCall.CodeIn, Value.codeIn_int])
      | (obtain ⟨k, -, rfl⟩ := h; simp [RuntimeCall.CodeIn])
      | (obtain ⟨k, -, l, -, rfl⟩ := h; simp [RuntimeCall.CodeIn])

/-! ### Runs -/

/-- The functions of the run are the main function and functions in `ids`. -/
def KnownFn (ids : Set Int) (fn : Int) : Prop := fn = mainFunctionId ∨ fn ∈ ids

/-- The code addresses in the state, the functions that run or wait, and those with a handler, are
known. -/
structure Exec.CodeIn (ids : Set Int) (s : Exec) : Prop where
  machine : s.machine.CodeIn ids
  fn : KnownFn ids s.fn
  callers : ∀ fn ∈ s.callers, KnownFn ids fn
  jmpBufs : ∀ i buf, s.jmpBufs i = some buf →
    KnownFn ids buf.fn ∧ ∀ fn ∈ buf.callers, KnownFn ids fn

/-- The function that has just been entered has a closure. -/
structure Exec.EntersIn (ids : Set Int) (s : Exec) : Prop where
  known : s.CodeIn ids
  entry : s.control = .entry → s.fn ∈ ids

def Stepped.CodeIn (ids : Set Int) : Stepped → Prop
  | finished => True
  | running s => s.EntersIn ids

namespace Exec.CodeIn

theorem enter (h : s.CodeIn ids) (hm : m.CodeIn ids) {code : CodePtr} (hcode : code.id ∈ ids) :
    Ensures (Exec.EntersIn ids) (s.enter m code) := by
  cases code with
  | fn id => exact result ⟨{ h with machine := hm.scan, fn := .inr hcode }, fun _ => hcode⟩
  | restart id =>
      exact andThen hm.scan.restart fun m₁ h₁ =>
        result ⟨{ h with machine := h₁.scan, fn := .inr hcode }, fun _ => hcode⟩

theorem call (h : s.CodeIn ids) (hm : m.CodeIn ids) {code : CodePtr} (hcode : code.id ∈ ids) :
    Ensures (Exec.EntersIn ids) (s.call m code) :=
  enter (s := { s with callers := s.fn :: s.callers })
    { h with callers := List.forall_mem_cons.mpr ⟨h.fn, h.callers⟩ } hm hcode

theorem inside (h : s.CodeIn ids) (hm : m.CodeIn ids) (hcontrol : s.control = .inside) :
    Exec.EntersIn ids { s with machine := m } := by
  refine ⟨{ h with machine := hm }, fun hentry => ?_⟩
  cases hcontrol.symm.trans hentry

theorem goOn (h : s.CodeIn ids) (hm : m.CodeIn ids) : Ensures (Stepped.CodeIn ids) (s.goOn m) :=
  result (inside (s := { s with control := .inside }) { h with } hm rfl)

theorem leave (h : s.CodeIn ids) (hm : m.CodeIn ids) : (s.leave m).CodeIn ids := by
  have hcallers := h.callers
  unfold Exec.leave
  split
  · exact trivial
  · next fn callers heq =>
      rw [heq] at hcallers
      obtain ⟨hfn, hcallers⟩ := List.forall_mem_cons.mp hcallers
      exact inside (s := { s with fn := fn, callers := callers, control := .inside })
        { h with fn := hfn, callers := hcallers } hm rfl

theorem land (h : s.CodeIn ids) (i : Nat) (hm : m.CodeIn ids) :
    Ensures (Exec.EntersIn ids) (s.land i m) := by
  refine andThen (h.jmpBufs i) fun buf hbuf => byCases (fun _ => ?_) fun _ => stuck
  refine andThen hm.getExceptionValue fun _ h₁ => andThen h₁.removeExceptionContext fun _ h₂ =>
    result ⟨{ h with machine := h₂, fn := hbuf.1, callers := hbuf.2 }, fun hentry => ?_⟩
  cases hentry

theorem settle {α : Type} {P : α → Prop} {o : Outcome α} {next : α → Option Stepped}
    (h : s.CodeIn ids) (ho : o.CodeIn ids P) (hnext : ∀ a, P a → Ensures (Stepped.CodeIn ids) (next a)) :
    Ensures (Stepped.CodeIn ids) (s.settle o next) := by
  cases o with
  | next a => exact hnext a ho
  | jump j =>
      cases j with
      | exit => exact result trivial
      | longjmp i m => exact map (h.land i ho) fun _ hs => hs

theorem callBy {oc : Option (Outcome (Machine × CodePtr))} (h : s.CodeIn ids)
    (hoc : Ensures (Outcome.CodeIn ids (Machine.CodeIn.Calling ids)) oc) :
    Ensures (Stepped.CodeIn ids) (s.callBy oc) :=
  andThen hoc fun _ ho => h.settle ho fun _ hmc => map (h.call hmc.1 hmc.2) fun _ hs => hs

theorem tailCallBy {oc : Option (Outcome (Machine × CodePtr))} (h : s.CodeIn ids)
    (hoc : Ensures (Outcome.CodeIn ids (Machine.CodeIn.Calling ids)) oc) :
    Ensures (Stepped.CodeIn ids) (s.tailCallBy oc) :=
  andThen hoc fun _ ho => h.settle ho fun _ hmc => map (h.enter hmc.1 hmc.2) fun _ hs => hs

/-- Every step keeps the code addresses known. -/
theorem exec (hrt : rt.CodeIn ids) (h : s.CodeIn ids) (hinst : inst.CodeIn ids) :
    Ensures (Stepped.CodeIn ids) (s.exec rt inst) := by
  have hm := h.machine
  unfold Exec.exec
  split
  · refine byCases (fun _ => h.goOn { hm with }) fun _ => byCases (fun _ => stuck) fun hmain => ?_
    exact andThen (hm.createRestartClosure hrt (h.fn.resolve_left hmain)) fun _ h₁ =>
      result (h.leave h₁)
  · refine andThen (hm.apply _) fun mc hmc => andThen (h.call hmc.1 hmc.2) fun _ hs => result hs
  · exact h.callBy (hm.applyArgs hrt 1)
  · exact h.callBy (hm.applyArgs hrt 2)
  · exact h.callBy (hm.applyArgs hrt 3)
  · exact andThen (self _) fun nargs _ => andThen (self _) fun slotsize _ =>
      h.tailCallBy (hm.appterm hrt nargs slotsize)
  · exact andThen (self _) fun slotsize _ => h.tailCallBy (hm.apptermArgs hrt 1 slotsize)
  · exact andThen (self _) fun slotsize _ => h.tailCallBy (hm.apptermArgs hrt 2 slotsize)
  · exact andThen (self _) fun slotsize _ => h.tailCallBy (hm.apptermArgs hrt 3 slotsize)
  · refine andThen (self _) fun stsz _ => andThen (hm.handleReturn stsz) ?_
    rintro ⟨m₁, code⟩ ⟨h₁, hcode⟩
    cases code with
    | some code => exact andThen (h.enter h₁ (hcode code rfl)) fun _ hs => result hs
    | none => exact result (h.leave h₁)
  · exact result (h.leave hm)
  · refine andThen hm.getNewBuffer ?_
    rintro ⟨i, m₁⟩ h₁
    refine andThen h₁.pushTrap fun m₂ h₂ => goOn { h with jmpBufs := fun k buf hbuf => ?_ } h₂
    dsimp only at hbuf
    split at hbuf
    · cases hbuf
      exact ⟨h.fn, h.callers⟩
    · exact h.jmpBufs k buf hbuf
  · exact andThen hm.removeExceptionContext fun _ h₁ => andThen h₁.popTrap fun _ h₂ => h.goOn h₂
  · exact h.settle (hm.throwException hm.accu) fun _ h₁ => h.goOn h₁
  all_goals first
    | exact h.goOn hm
    | exact andThen (fun _ hcs => runtimeCalls_codeIn hcs hinst) fun _ hcs =>
        andThen (RuntimeCall.codeIn_runAll hrt hm hcs) fun _ ho => h.settle ho fun _ h₁ => h.goOn h₁

end Exec.CodeIn

/-! ### Runs -/

section

variable {s' : Exec} {ids' : Set Int}

theorem Value.CodeIn.mono (h : v.CodeIn ids) (hsub : ids ⊆ ids') : v.CodeIn ids' :=
  fun c hc => hsub (h c hc)

theorem StackWords.CodeIn.mono {ws : StackWords} (h : ws.CodeIn ids) (hsub : ids ⊆ ids') :
    ws.CodeIn ids' := fun v hv => (h v hv).mono hsub

theorem Machine.CodeIn.mono (h : m.CodeIn ids) (hsub : ids ⊆ ids') : m.CodeIn ids' where
  accu := h.accu.mono hsub
  env := h.env.mono hsub
  stack := h.stack.mono hsub
  camlExternSp := h.camlExternSp.mono hsub
  heap block hblock := (h.heap block hblock).mono hsub
  camlGlobalData := h.camlGlobalData.mono hsub
  camlExnBucket := h.camlExnBucket.mono hsub

/-- Before the main function is called. -/
theorem Machine.CodeIn.start (h : m.CodeIn ids) : (Exec.start m).CodeIn ids where
  machine := h
  fn := .inl rfl
  callers _ hfn := absurd hfn List.not_mem_nil
  jmpBufs _ _ hbuf := by cases hbuf

/-- An instruction that makes closures goes on with the next one. -/
theorem Exec.fnRefs_of_entry (hexec : s.exec rt inst = some (.running s'))
    (hentry : s'.control = .entry) :
    inst.fnRefs = [] := by
  by_contra hne
  have hop : inst.opNum = .closure ∨ inst.opNum = .closureRec := by
    by_contra hnot
    refine hne ?_
    rw [ZInstruction.fnRefs, if_neg, if_neg] <;>
      simp only [ZInstruction.isClosure, ZInstruction.isClosureRec, beq_iff_eq] <;> tauto
  obtain ⟨cs, -, o, -, hsettle⟩ : ∃ cs, inst.runtimeCalls = some cs ∧ ∃ o,
      RuntimeCall.runAll rt cs s.machine = some o ∧ s.settle o s.goOn = some (.running s') := by
    rcases hop with hop | hop <;>
      simpa only [Exec.exec, hop, Option.bind_eq_bind, Option.bind_eq_some_iff] using hexec
  rcases settle_eq_running hsettle with ⟨m, -, hgo⟩ | ⟨i, m, -, hland⟩
  · cases hgo
    cases hentry
  · obtain ⟨buf, m₁, m₂, -, -, -, -, rfl⟩ := land_eq_some hland
    cases hentry

open Runs

theorem entersIn_of_run {run : List (ZInstruction × Exec)} (hrt : rt.CodeIn ids) (hs : s.CodeIn ids)
    (hrun : IsRun (Exec.step rt) s run) (hinsts : ∀ e ∈ run, e.1.CodeIn ids) :
    (last s run).CodeIn ids ∧ ∀ e ∈ run, e.2.EntersIn ids := by
  induction run generalizing s with
  | nil => exact ⟨hs, fun _ he => absurd he List.not_mem_nil⟩
  | cons e run ih =>
      obtain ⟨inst, s'⟩ := e
      obtain ⟨hinst, hinsts⟩ := List.forall_mem_cons.mp hinsts
      have hs' : s'.EntersIn ids := hs.exec hrt hinst _ (Exec.step_eq_some hrun.1)
      obtain ⟨hlast, hrest⟩ := ih hs'.known hrun.2 hinsts
      exact ⟨hlast, List.forall_mem_cons.mpr ⟨hs', hrest⟩⟩

/-- A function is entered only behind an instruction that has made a closure of it. -/
theorem entered_after_closure (hrt : ∀ ids, rt.CodeIn ids) (hm : m.CodeIn ∅)
    {run before after : List (ZInstruction × Exec)} (hrun : IsRun (Exec.step rt) (.start m) run)
    (hsplit : run = before ++ (inst, s') :: after) (hentry : s'.control = .entry) :
    ∃ e ∈ before, .closure s'.fn ∈ e.1.fnRefs := by
  rw [hsplit, isRun_append] at hrun
  obtain ⟨hbefore, hstep, -⟩ := hrun
  let made : Set Int := {id | ∃ e ∈ before, .closure id ∈ e.1.fnRefs}
  have hexec := Exec.step_eq_some hstep
  have hinst : inst.CodeIn made := by
    intro id hid
    rw [Exec.fnRefs_of_entry hexec hentry] at hid
    cases hid
  obtain ⟨hlast, -⟩ := entersIn_of_run (hrt made) (hm.mono (Set.empty_subset made)).start hbefore
    fun e he id hid => ⟨e, he, hid⟩
  have hs' : s'.EntersIn made := hlast.exec (hrt made) hinst _ hexec
  exact hs'.entry hentry

theorem Runtime.idle_codeIn (ids : Set Int) : Runtime.idle.CodeIn ids where
  collect _ _ _ h := by cases h
  primitive _ _ _ _ _ _ h := absurd h idle_primitive
  realloc _ _ h := by cases h

theorem Machine.codeIn_start (threshold : Nat) : (Machine.start [] .unit threshold).CodeIn ids where
  accu := Value.codeIn_raw 0
  env := Value.codeIn_raw 0
  stack _ hv := absurd hv List.not_mem_nil
  camlExternSp _ hv := absurd hv List.not_mem_nil
  heap _ hblock := absurd hblock List.not_mem_nil
  camlGlobalData := Value.codeIn_int 0
  camlExnBucket := Value.codeIn_int 0

/-- A closure is made and applied. -/
def closureApplied : List (ZInstruction × Exec) :=
  trace (Exec.step .idle) (.start (.start [] .unit 100)) [.ofArgs .closure 0 10, .ofArgs .apply 1 0]

theorem entered_after_closure_closureApplied :
    closureApplied.length = 2 ∧ ∃ e ∈ closureApplied.take 1, .closure 10 ∈ e.1.fnRefs := by
  have hlength : closureApplied.length = 2 := rfl
  have hrun : IsRun (Exec.step .idle) (.start (.start [] .unit 100)) closureApplied :=
    isRun_trace _ _ _
  have hsplit : closureApplied =
      closureApplied.take 1 ++ (closureApplied[1].1, closureApplied[1].2) :: [] := rfl
  exact ⟨hlength, entered_after_closure Runtime.idle_codeIn (Machine.codeIn_start 100) hrun hsplit rfl⟩

end

end CamllVM
