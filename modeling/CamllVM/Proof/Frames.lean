import CamllVM.Proof.Handlers

/-!
# Calls preserve the state of the caller

The native stack holds the suspended functions, the stack of the machine their words. A run is
recorded together with the frame of the running function and the calls that have not returned. The
record refuses runs of code that is not balanced. The invariant `Framed` says that below the frame of
a function stand its extra arguments, the three words for its return and then the stack of its
caller.
-/

namespace CamllVM

open Runs

/-- The distance of the three words of `PUSH_RETADDR` from the stack base, by the state before it. -/
def Exec.retDepth (p : Exec) : Nat := p.machine.stack.length + 3

/-- The frame of the running function: the number of the words below its arguments and local slots,
and its pending `PUSH_RETADDR` instructions, each with the state before it. -/
structure Frame where
  base : Nat
  pending : List Exec

/-- The words that the code of a function leaves alone. -/
def Frame.floor (f : Frame) : Nat :=
  match f.pending with
  | [] => f.base
  | p :: _ => p.retDepth

/-- A native call that has not returned: the states before the call sequence and before its last
instruction, the number of words that the call takes from the stack, and the frame of the caller. -/
structure Call where
  start : Exec
  site : Exec
  pops : Nat
  frame : Frame

/-- The stack of the caller without the arguments and without the words for the return. -/
def Call.stack (c : Call) : StackWords := c.site.machine.stack.drop c.pops

/-- The frame of a function that is entered with its first argument on top of the stack. -/
def Frame.entered (s : Exec) : Frame := ⟨s.machine.stack.length - 1, []⟩

/-- The top words of the stack that the code of an instruction inside a function takes. -/
def ZInstruction.takesInside (inst : ZInstruction) : Nat :=
  if inst.opNum = .popTrap then 4 else inst.touches

/-- The words that an instruction inside a function takes or overwrites are in its frame, and they
are not the words of a pending `PUSH_RETADDR`. -/
def InFrame (inst : ZInstruction) (m : Machine) (f : Frame) : Prop :=
  inst.takesInside + f.floor ≤ m.stack.length ∧
    ∀ n ∈ inst.assigned, n + f.base < m.stack.length ∧
      ∀ p ∈ f.pending,
        n + p.retDepth < m.stack.length ∨ m.stack.length ≤ n + p.machine.stack.length

instance (inst : ZInstruction) (m : Machine) (f : Frame) : Decidable (InFrame inst m f) :=
  inferInstanceAs (Decidable (_ ∧ ∀ n ∈ inst.assigned, _ ∧ ∀ p ∈ f.pending, _ ∨ _))

/-- The record at the entry of a function. `APPLY` finds its arguments on the words of the innermost
`PUSH_RETADDR`, and a tail call and `RETURN` give the size of the frame. -/
def recordEntry (inst : ZInstruction) (s s' : Exec) (f : Frame) (calls : List Call) :
    Option (Frame × List Call) :=
  let size := s.machine.stack.length
  match inst.opNum with
  | .apply =>
      match f.pending with
      | p :: pending =>
          if 0 < inst.arg 0 ∧ (inst.arg 0).toNat + p.retDepth = size then
            some (.entered s', ⟨p, s, (inst.arg 0).toNat + 3, ⟨f.base, pending⟩⟩ :: calls)
          else
            none
      | [] => none
  | .return_ => if (inst.arg 0).toNat + f.base = size then some (.entered s', calls) else none
  | _ =>
      match inst.framedArgs, inst.tailOperands with
      | some n, _ => if n + f.floor ≤ size then some (.entered s', ⟨s, s, n, f⟩ :: calls) else none
      | none, some (n, slotsize) =>
          if 0 < n ∧ slotsize + f.base = size then some (.entered s', calls) else none
      | none, none => none

def recordReturn : List Call → Option (Frame × List Call)
  | [] => none
  | c :: calls => some (c.frame, calls)

/-- The record of the frame and of the calls. `GRAB` is the first instruction of a function. -/
def recordCalls (inst : ZInstruction) (s s' : Exec) (r : Frame × List Call) :
    Option (Frame × List Call) :=
  match s'.control with
  | .handler _ => none
  | .entry => recordEntry inst s s' r.1 r.2
  | .inside =>
      match inst.opNum with
      | .grab =>
          if s.control = .entry ∧ 0 ≤ inst.arg 0 then
            if s.machine.checkGrab (inst.arg 0) then
              some (⟨r.1.base - (inst.arg 0).toNat, []⟩, r.2)
            else
              recordReturn r.2
          else
            none
      | .return_ =>
          if (inst.arg 0).toNat + r.1.base = s.machine.stack.length then recordReturn r.2 else none
      | .stop => none
      | .pushRetAddr => some (⟨r.1.base, s :: r.1.pending⟩, r.2)
      | _ => if InFrame inst s.machine r.1 then some r else none

/-! ### The invariant -/

/-- The three words of a pending `PUSH_RETADDR` are on the stack. -/
def HasRet (stack : StackWords) (p : Exec) : Prop :=
  ∃ w rest, stack.rtake p.retDepth =
    w :: some p.machine.env :: some (.int p.machine.extraArgs) :: rest

/-- The pending `PUSH_RETADDR` instructions, one below the other, and the base below them. -/
def HoldsRets (stack : StackWords) (base : Nat) : Nat → List Exec → Prop
  | bound, [] => base ≤ bound
  | bound, p :: pending =>
      p.retDepth ≤ bound ∧ HasRet stack p ∧ HoldsRets stack base p.machine.stack.length pending

/-- The pending `PUSH_RETADDR` instructions of a frame are those of a function with so many extra
arguments. -/
structure Frame.Held (f : Frame) (stack : StackWords) (extraArgs : Int) : Prop where
  rets : HoldsRets stack f.base stack.length f.pending
  extraArgs : ∀ p ∈ f.pending, p.machine.extraArgs = extraArgs

/-- Below a frame stand the extra arguments, the words for the return of a call and the stack of its
caller. -/
def ReturnsTo (stack : StackWords) (extraArgs : Int) (base : Nat) (c : Call) : Prop :=
  ∃ extras w, (extras.length : Int) = extraArgs ∧
    stack.rtake base = extras ++ w :: some c.start.machine.env ::
      some (.int c.start.machine.extraArgs) :: c.stack

/-- The stack below a frame, for all calls that have not returned. -/
def Suspended (stack : StackWords) (extraArgs : Int) (base : Nat) : List Call → Prop
  | [] => True
  | c :: calls =>
      ReturnsTo stack extraArgs base c ∧ c.frame.Held c.stack c.start.machine.extraArgs ∧
        Suspended c.stack c.start.machine.extraArgs c.frame.base calls

def Calling : List Int → List Call → Prop
  | callers, [] => callers = []
  | callers, c :: calls => callers = c.site.fn :: c.site.callers ∧ Calling c.site.callers calls

/-- The two stacks of a state are those of the record. -/
structure Framed (s : Exec) (f : Frame) (calls : List Call) : Prop where
  held : f.Held s.machine.stack s.machine.extraArgs
  entry : s.control = .entry → calls ≠ [] → f.base + 1 = s.machine.stack.length
  suspended : Suspended s.machine.stack s.machine.extraArgs f.base calls
  calling : Calling s.callers calls

/-- What a native return leaves: the value that the function returns, or the closure that remembers
the arguments if there are too few of them. -/
def Results (inst : ZInstruction) (s s' : Exec) : Prop :=
  inst.opNum = .return_ ∧ s'.machine.accu = s.machine.accu ∨
    inst.opNum = .grab ∧ ∃ (args : List Value) (b : Nat),
      (args.length : Int) = 1 + s.machine.extraArgs ∧
      s.machine.stack = args.map some ++ s.machine.stack.drop args.length ∧
      s'.machine.accu = .ptr b 0 ∧ s'.machine.heap[b]? = some
        ⟨closureTag, some (.code (.restart s.fn)) :: some s.machine.env :: args.map some⟩

/-- The state behind a call: the one of the caller, without the arguments and the words for the
return on the stack. -/
structure Returned (c : Call) (inst : ZInstruction) (s s' : Exec) : Prop where
  fn : s'.fn = c.site.fn
  callers : s'.callers = c.site.callers
  stack : s'.machine.stack = c.site.machine.stack.drop c.pops
  env : s'.machine.env = c.start.machine.env
  extraArgs : s'.machine.extraArgs = c.start.machine.extraArgs
  accu : Results inst s s'

/-! ### Steps inside a function -/

variable {rt : Runtime} {inst : ZInstruction} {s s' : Exec} {f f' : Frame} {calls calls' : List Call}

theorem HoldsRets.depth_le {stack : StackWords} {base bound : Nat} {pending : List Exec}
    (h : HoldsRets stack base bound pending) :
    base ≤ bound ∧ ∀ p ∈ pending, p.retDepth ≤ bound := by
  induction pending generalizing bound with
  | nil => exact ⟨h, fun p hp => absurd hp List.not_mem_nil⟩
  | cons p pending ih =>
      obtain ⟨hle, -, hrest⟩ := h
      obtain ⟨hbase, hdepths⟩ := ih hrest
      have hbelow : p.machine.stack.length ≤ bound := Nat.le_trans (Nat.le_add_right _ 3) hle
      refine ⟨Nat.le_trans hbase hbelow, fun p' hp' => ?_⟩
      rcases List.mem_cons.mp hp' with rfl | hp'
      · exact hle
      · exact Nat.le_trans (hdepths p' hp') hbelow

theorem HoldsRets.floor_le {stack : StackWords} {base bound : Nat} {pending : List Exec}
    (h : HoldsRets stack base bound pending) : (Frame.mk base pending).floor ≤ bound := by
  cases pending with
  | nil => exact h
  | cons p pending => exact h.1

theorem HoldsRets.le_floor {stack : StackWords} {base bound : Nat} {pending : List Exec}
    (h : HoldsRets stack base bound pending) :
    base ≤ (Frame.mk base pending).floor ∧
      ∀ p ∈ pending, p.retDepth ≤ (Frame.mk base pending).floor := by
  cases pending with
  | nil => exact ⟨Nat.le_refl _, fun p hp => absurd hp List.not_mem_nil⟩
  | cons p pending =>
      have hrest : HoldsRets stack base p.retDepth (p :: pending) :=
        ⟨Nat.le_refl _, h.2.1, h.2.2⟩
      exact hrest.depth_le

theorem Frame.Held.le_floor {stack : StackWords} {extraArgs : Int} (h : f.Held stack extraArgs) :
    f.base ≤ f.floor ∧ (∀ p ∈ f.pending, p.retDepth ≤ f.floor) ∧ f.floor ≤ stack.length :=
  ⟨h.rets.le_floor.1, h.rets.le_floor.2, h.rets.floor_le⟩

theorem HoldsRets.congr {stack stack' : StackWords} {base bound bound' : Nat} {pending : List Exec}
    (h : HoldsRets stack base bound pending)
    (hret : ∀ p ∈ pending, HasRet stack p → HasRet stack' p)
    (hbound : (Frame.mk base pending).floor ≤ bound') : HoldsRets stack' base bound' pending := by
  induction pending generalizing bound bound' with
  | nil => exact hbound
  | cons p pending ih =>
      obtain ⟨-, hhas, hrest⟩ := h
      exact ⟨hbound, hret p List.mem_cons_self hhas,
        ih hrest (fun p' hp' => hret p' (List.mem_cons_of_mem p hp')) hrest.floor_le⟩

theorem Suspended.congr {stack stack' : StackWords} {extraArgs : Int} {base : Nat}
    (h : Suspended stack extraArgs base calls) (hstack : stack'.rtake base = stack.rtake base) :
    Suspended stack' extraArgs base calls := by
  cases calls with
  | nil => trivial
  | cons c calls =>
      obtain ⟨⟨extras, w, hextra, hwords⟩, hrest⟩ := h
      exact ⟨⟨extras, w, hextra, hstack.trans hwords⟩, hrest⟩

theorem Framed.keep (h : Framed s f calls)
    (hret : ∀ p ∈ f.pending, HasRet s.machine.stack p → HasRet s'.machine.stack p)
    (hfloor : f.floor ≤ s'.machine.stack.length)
    (hbase : s'.machine.stack.rtake f.base = s.machine.stack.rtake f.base)
    (hextra : s'.machine.extraArgs = s.machine.extraArgs) (hcallers : s'.callers = s.callers)
    (hcontrol : s'.control = .inside) : Framed s' f calls := by
  refine ⟨⟨h.held.rets.congr hret hfloor, fun p hp => ?_⟩, fun hentry => ?_, ?_, ?_⟩
  · rw [hextra]
    exact h.held.extraArgs p hp
  · cases hcontrol.symm.trans hentry
  · rw [hextra]
    exact h.suspended.congr hbase
  · rw [hcallers]
    exact h.calling

theorem Replaces.rtake_eq (hquiet : rt.Quiet) {k j d : Nat} {m m' : Machine}
    (h : Replaces rt k j m m') (hd : k + d ≤ m.stack.length) :
    m'.stack.rtake d = m.stack.rtake d := by
  obtain ⟨new, left, -, hid, -, hstack⟩ := h.stack
  rw [hstack, hid hquiet, StackWords.relocate_id, rtake_append_of_le _ _ (by simp; omega),
    rtake_drop_of_le _ hd]

/-- A step that replaces words of the frame above its pending `PUSH_RETADDR`. -/
theorem Framed.replace (hquiet : rt.Quiet) {k j : Nat} {m : Machine} (h : Framed s f calls)
    (hstep : Replaces rt k j s.machine m) (hk : k + f.floor ≤ s.machine.stack.length)
    (hstack : s'.machine.stack = m.stack) (hextra : s'.machine.extraArgs = s.machine.extraArgs)
    (hcallers : s'.callers = s.callers) (hcontrol : s'.control = .inside) : Framed s' f calls := by
  obtain ⟨hbase, hdepths, -⟩ := h.held.le_floor
  have hsame : ∀ d ≤ f.floor, s'.machine.stack.rtake d = s.machine.stack.rtake d := fun d hd => by
    rw [hstack]
    exact hstep.rtake_eq hquiet (by omega)
  refine h.keep (fun p hp => ?_) ?_ (hsame _ hbase) hextra hcallers hcontrol
  · rintro ⟨w, rest, hwords⟩
    exact ⟨w, rest, (hsame _ (hdepths p hp)).trans hwords⟩
  · rw [hstack]
    exact hstep.length_le hk

theorem rtake_set_of_lt {α : Type} (l : List α) {n d : Nat} (v : α) (h : n + d < l.length) :
    (l.set n v).rtake d = l.rtake d := by
  rw [List.rtake, List.rtake, List.length_set, List.drop_set_of_lt (by omega)]

theorem Framed.assign (h : Framed s f calls) {n : Nat} {m : Machine}
    (hassign : s.machine.assign n = some m) (hn : n + f.base < s.machine.stack.length)
    (hpending : ∀ p ∈ f.pending,
      n + p.retDepth < s.machine.stack.length ∨
        s.machine.stack.length ≤ n + p.machine.stack.length) :
    Framed { s with machine := m, control := .inside } f calls := by
  obtain ⟨-, rfl⟩ := Machine.assign_eq hassign
  obtain ⟨hbase, hdepths, hfloor⟩ := h.held.le_floor
  refine h.keep (fun p hp => ?_) (by rw [List.length_set]; exact hfloor)
    (rtake_set_of_lt _ _ hn) rfl rfl rfl
  rintro ⟨w, rest, hwords⟩
  rcases hpending p hp with hlow | hhigh
  · exact ⟨w, rest, (rtake_set_of_lt _ _ hlow).trans hwords⟩
  · have hdepth := hdepths p hp
    obtain ⟨i, hi⟩ : ∃ i, n = s.machine.stack.length - p.retDepth + (i + 3) :=
      ⟨n + p.machine.stack.length - s.machine.stack.length, by
        unfold Exec.retDepth at hdepth ⊢
        omega⟩
    refine ⟨w, rest.set i (some s.machine.accu), ?_⟩
    rw [List.rtake] at hwords ⊢
    rw [List.length_set, List.drop_set, if_neg (by omega), hwords, hi, Nat.add_sub_cancel_left]
    rfl

theorem Framed.pushRetAddr (h : Framed s f calls) {m : Machine}
    (hpush : s.machine.pushRetAddr = some m) :
    Framed { s with machine := m, control := .inside } ⟨f.base, s :: f.pending⟩ calls := by
  let pushed : StackWords := [some .unit, some s.machine.env, some (.int s.machine.extraArgs)]
  have hm : m = s.machine.withStack (pushed ++ s.machine.stack) := (Option.some.inj hpush).symm
  obtain ⟨hbase, hdepths, hfloor⟩ := h.held.le_floor
  have hrtake : ∀ d ≤ f.floor, (pushed ++ s.machine.stack).rtake d = s.machine.stack.rtake d :=
    fun d hd => rtake_append_of_le pushed _ (Nat.le_trans hd hfloor)
  have hall : (pushed ++ s.machine.stack).rtake s.retDepth = pushed ++ s.machine.stack := by
    rw [List.rtake, show (pushed ++ s.machine.stack).length = s.retDepth from
      (List.length_append.trans (Nat.add_comm _ _)), Nat.sub_self, List.drop_zero]
  subst hm
  refine ⟨⟨⟨Nat.le_refl _, ⟨_, _, hall⟩, ?_⟩, ?_⟩, by simp, ?_, h.calling⟩
  · refine h.held.rets.congr (fun p hp => ?_) hfloor
    rintro ⟨w, rest, hwords⟩
    exact ⟨w, rest, (hrtake _ (hdepths p hp)).trans hwords⟩
  · intro p hp
    rcases List.mem_cons.mp hp with rfl | hp
    · rfl
    · exact h.held.extraArgs p hp
  · exact h.suspended.congr (hrtake _ hbase)

/-- `GRAB` with enough arguments: the extra arguments that it takes become slots of the frame. -/
theorem Framed.grab (h : Framed s f calls) {required : Int} (hnonneg : 0 ≤ required)
    (hle : required ≤ s.machine.extraArgs) :
    Framed { s with machine := s.machine.substractExtraArgs required, control := .inside }
      ⟨f.base - required.toNat, []⟩ calls := by
  have hbase := h.held.rets.depth_le.1
  refine ⟨⟨Nat.le_trans (Nat.sub_le _ _) hbase, fun p hp => absurd hp List.not_mem_nil⟩, by simp, ?_,
    h.calling⟩
  have hsuspended := h.suspended
  cases calls with
  | nil => trivial
  | cons c calls =>
      obtain ⟨⟨extras, w, hextra, hwords⟩, hrest⟩ := hsuspended
      refine ⟨⟨extras.drop required.toNat, w, ?_, ?_⟩, hrest⟩
      · rw [List.length_drop]
        show ((extras.length - required.toNat : Nat) : Int) = s.machine.extraArgs - required
        omega
      · have hlength := congrArg List.length hwords
        rw [List.rtake, List.length_drop, List.length_append] at hlength
        rw [List.rtake] at hwords
        show List.rtake s.machine.stack (f.base - required.toNat) = _
        rw [List.rtake, show s.machine.stack.length - (f.base - required.toNat) =
          s.machine.stack.length - f.base + required.toNat by simp at hlength; omega,
          ← List.drop_drop, hwords, List.drop_append_of_le_length (by omega)]

/-! ### Entries and returns -/

/-- The machine at the call of a function: all arguments stand above the words for the return. -/
def Entering (m : Machine) : List Call → Prop
  | [] => True
  | c :: calls =>
      (∃ args w, 0 < args.length ∧ (args.length : Int) = m.extraArgs + 1 ∧
        m.stack = args ++ w :: some c.start.machine.env ::
          some (.int c.start.machine.extraArgs) :: c.stack) ∧
      c.frame.Held c.stack c.start.machine.extraArgs ∧
        Suspended c.stack c.start.machine.extraArgs c.frame.base calls

theorem Exec.enter_pushes {m : Machine} {code : CodePtr} (h : s.enter m code = some s') :
    s'.callers = s.callers ∧ ∃ vs : List Value, s'.machine.stack = vs.map some ++ m.stack ∧
      s'.machine.extraArgs = m.extraArgs + vs.length := by
  obtain ⟨id, m', rfl, ⟨-, rfl⟩ | ⟨-, vs, env, rfl⟩⟩ := enter_cases h
  · exact ⟨rfl, [], rfl, (Int.add_zero _).symm⟩
  · exact ⟨rfl, vs, rfl, rfl⟩

theorem Entering.enter {m : Machine} {code : CodePtr} (h : Entering m calls)
    (hcalling : Calling s.callers calls) (henter : s.enter m code = some s') :
    Framed s' (.entered s') calls := by
  obtain ⟨hcallers, vs, hstack, hextra⟩ := Exec.enter_pushes henter
  rw [← hcallers] at hcalling
  have hheld : (Frame.entered s').Held s'.machine.stack s'.machine.extraArgs :=
    ⟨Nat.sub_le _ _, fun p hp => absurd hp List.not_mem_nil⟩
  cases calls with
  | nil => exact ⟨hheld, fun _ hne => absurd rfl hne, trivial, hcalling⟩
  | cons c calls =>
      obtain ⟨⟨args, w, hpos, hargs, hwords⟩, hrest⟩ := h
      rw [hwords, ← List.append_assoc] at hstack
      obtain ⟨a, args', heq⟩ : ∃ a args', vs.map some ++ args = a :: args' := by
        refine List.exists_cons_of_length_pos ?_
        rw [List.length_append]
        omega
      have hlength := congrArg List.length heq
      rw [List.length_append, List.length_map, List.length_cons] at hlength
      rw [heq, List.cons_append] at hstack
      have hbase : (Frame.entered s').base + 1 = s'.machine.stack.length := by
        rw [Frame.entered, hstack]
        rfl
      refine ⟨hheld, fun _ _ => hbase, ⟨⟨args', w, by omega, ?_⟩, hrest⟩, hcalling⟩
      rw [List.rtake, ← hbase, Nat.add_sub_cancel_left, hstack]
      rfl

theorem rtake_eq_drop {α : Type} {l : List α} {n d : Nat} (h : n + d = l.length) :
    l.rtake d = l.drop n := by
  rw [List.rtake, ← h, Nat.add_sub_cancel]

/-- `APPLY` finds the words of the innermost `PUSH_RETADDR` below its arguments. -/
theorem Framed.entering_apply {base n : Nat} {p : Exec} {pending : List Exec}
    (h : Framed s ⟨base, p :: pending⟩ calls) (hpos : 0 < n)
    (hn : n + p.retDepth = s.machine.stack.length) {m : Machine} (hm : m.extraArgs = n - 1)
    (hstack : m.stack = s.machine.stack) :
    Entering m (⟨p, s, n + 3, ⟨base, pending⟩⟩ :: calls) := by
  obtain ⟨-, ⟨w, rest, hwords⟩, hrest⟩ := h.held.rets
  rw [rtake_eq_drop hn] at hwords
  have hcaller : s.machine.stack.drop (n + 3) = rest := by
    rw [← List.drop_drop, hwords]
    rfl
  have hsame : ∀ d ≤ p.machine.stack.length,
      (s.machine.stack.drop (n + 3)).rtake d = s.machine.stack.rtake d := by
    intro d hd
    refine rtake_drop_of_le _ ?_
    unfold Exec.retDepth at hn
    omega
  obtain ⟨hbase, hdepths⟩ := hrest.depth_le
  have hfloor : (Frame.mk base pending).floor ≤ p.machine.stack.length := hrest.floor_le
  have hextra : p.machine.extraArgs = s.machine.extraArgs :=
    h.held.extraArgs p List.mem_cons_self
  have hlength : (s.machine.stack.take n).length = n := List.length_take_of_le (by omega)
  refine ⟨⟨s.machine.stack.take n, w, by omega, by omega, ?_⟩, ⟨?_, ?_⟩, ?_⟩
  · rw [hstack, Call.stack, hcaller, ← hwords, List.take_append_drop]
  · refine hrest.congr (fun p' hp' => ?_) ?_
    · rintro ⟨w', rest', hwords'⟩
      exact ⟨w', rest', (hsame _ (hdepths p' hp')).trans hwords'⟩
    · show (Frame.mk base pending).floor ≤ (s.machine.stack.drop (n + 3)).length
      rw [List.length_drop]
      unfold Exec.retDepth at hn
      omega
  · exact fun p' hp' => (h.held.extraArgs p' (List.mem_cons_of_mem p hp')).trans hextra.symm
  · rw [hextra]
    exact h.suspended.congr (hsame base hbase)

/-- `APPLY1` to `APPLY3` put the words for the return below their arguments. -/
theorem Framed.entering_framed (h : Framed s f calls) {args : List Value} {w : Option Value}
    (hpos : 0 < args.length) (hn : args.length + f.floor ≤ s.machine.stack.length) {m : Machine}
    (hm : (s.machine.framed args w).Checked m) :
    Entering m (⟨s, s, args.length, f⟩ :: calls) := by
  obtain ⟨sp, threshold, rfl⟩ := hm
  obtain ⟨hbase, hdepths, -⟩ := h.held.le_floor
  have hsame : ∀ d ≤ f.floor,
      (s.machine.stack.drop args.length).rtake d = s.machine.stack.rtake d :=
    fun d hd => rtake_drop_of_le _ (by omega)
  refine ⟨⟨args.map some, w, by rwa [List.length_map], ?_, rfl⟩, ⟨?_, h.held.extraArgs⟩,
    h.suspended.congr (hsame _ hbase)⟩
  · rw [List.length_map]
    exact (Int.sub_add_cancel _ _).symm
  · refine h.held.rets.congr (fun p hp => ?_) ?_
    · rintro ⟨w', rest', hwords'⟩
      exact ⟨w', rest', (hsame _ (hdepths p hp)).trans hwords'⟩
    · show f.floor ≤ (s.machine.stack.drop args.length).length
      rw [List.length_drop]
      omega

/-- A tail call leaves the extra arguments below its own arguments. -/
theorem Framed.entering_appterm (h : Framed s f calls) {args : List Value} {slotsize : Nat}
    (hpos : 0 < args.length) (hsize : slotsize + f.base = s.machine.stack.length) {m : Machine}
    (hm : (s.machine.tailFramed args slotsize).Checked m) : Entering m calls := by
  obtain ⟨sp, threshold, rfl⟩ := hm
  have hsuspended := h.suspended
  cases calls with
  | nil => trivial
  | cons c calls =>
      obtain ⟨⟨extras, w, hextra, hwords⟩, hrest⟩ := hsuspended
      rw [rtake_eq_drop hsize] at hwords
      have hlength : (args.map some ++ extras).length = args.length + extras.length := by
        rw [List.length_append, List.length_map]
      refine ⟨⟨args.map some ++ extras, w, by omega, ?_, ?_⟩, hrest⟩
      · show _ = s.machine.extraArgs + (args.length - 1 : Int) + 1
        omega
      · rw [Machine.tailFramed, List.append_assoc, ← hwords]

/-- `RETURN` with extra arguments calls the value it returns. -/
theorem Framed.entering_return (h : Framed s f calls) {n : Nat} (hpos : 0 < s.machine.extraArgs)
    (hsize : n + f.base = s.machine.stack.length) {m : Machine}
    (hextra : m.extraArgs = s.machine.extraArgs - 1) (hstack : m.stack = s.machine.stack.drop n) :
    Entering m calls := by
  have hsuspended := h.suspended
  cases calls with
  | nil => trivial
  | cons c calls =>
      obtain ⟨⟨extras, w, hlength, hwords⟩, hrest⟩ := hsuspended
      rw [rtake_eq_drop hsize] at hwords
      exact ⟨⟨extras, w, by omega, by omega, hstack.trans hwords⟩, hrest⟩

theorem Framed.back {c : Call} {extraArgs : Int} {base : Nat}
    (hsuspended : Suspended s.machine.stack extraArgs base (c :: calls))
    (hcalling : Calling s.callers (c :: calls)) (hcontrol : s'.control = .inside)
    (hcallers : s.callers = s'.fn :: s'.callers) (hstack : s'.machine.stack = c.stack)
    (hextra : s'.machine.extraArgs = c.start.machine.extraArgs) :
    Framed s' c.frame calls ∧ s'.fn = c.site.fn ∧ s'.callers = c.site.callers := by
  obtain ⟨-, hheld, hrest⟩ := hsuspended
  obtain ⟨hsite, hcalling⟩ := hcalling
  obtain ⟨hfn, hcs⟩ := List.cons.inj (hcallers.symm.trans hsite)
  refine ⟨⟨?_, fun hentry => ?_, ?_, ?_⟩, hfn, hcs⟩
  · rw [hstack, hextra]
    exact hheld
  · cases hcontrol.symm.trans hentry
  · rw [hstack, hextra]
    exact hrest
  · rw [hcs]
    exact hcalling

theorem Framed.return_ (h : Framed s f calls) (hrecord : recordReturn calls = some (f', calls'))
    (hop : inst.opNum = .return_) {n : Nat} {w : Option Value} {env extra : Value} {extraArgs : Int}
    {rest : StackWords} {fn : Int} {callers : List Int}
    (hsize : n + f.base = s.machine.stack.length) (hnone : s.machine.extraArgs ≤ 0)
    (hdrop : s.machine.stack.drop n = w :: some env :: some extra :: rest)
    (hlong : extra.longVal = some extraArgs) (hcallers : s.callers = fn :: callers)
    (hs' : s' = { s with
      machine := { s.machine with stack := rest, env := env, extraArgs := extraArgs }
      fn := fn, callers := callers, control := .inside }) :
    ∃ c, calls = c :: calls' ∧ Framed s' f' calls' ∧ Returned c inst s s' := by
  cases calls with
  | nil => cases hrecord
  | cons c calls =>
      cases hrecord
      obtain ⟨extras, w', hlength, hwords⟩ := h.suspended.1
      obtain rfl : extras = [] := List.eq_nil_of_length_eq_zero (by omega)
      rw [rtake_eq_drop hsize, hdrop, List.nil_append] at hwords
      injection hwords with _ hwords
      injection hwords with henv hwords
      injection hwords with hextra hrest
      obtain rfl : env = c.start.machine.env := Option.some.inj henv
      obtain rfl : extra = .int c.start.machine.extraArgs := Option.some.inj hextra
      obtain rfl : c.start.machine.extraArgs = extraArgs := Option.some.inj hlong
      obtain ⟨hframed, hfn, hcs⟩ : Framed s' c.frame calls' ∧ s'.fn = c.site.fn ∧
          s'.callers = c.site.callers := by
        subst hs'
        exact Framed.back h.suspended h.calling rfl hcallers hrest rfl
      subst hs'
      exact ⟨c, rfl, hframed, hfn, hcs, hrest, rfl, rfl, .inl ⟨hop, rfl⟩⟩

theorem Machine.reserve_quiet (hquiet : rt.Quiet) {m m' : Machine} (h : m.reserve rt = some m') :
    m' = { m with scans := m.setupForGc.stack :: m.scans } := by
  rw [reserve, hquiet.collect] at h
  exact (Option.some.inj h).symm

/-- `GRAB` with too few arguments: the closure of the partial application is returned. -/
theorem Framed.partialCall (hquiet : rt.Quiet) (h : Framed s f calls) (hentry : s.control = .entry)
    (hrecord : recordReturn calls = some (f', calls')) (hop : inst.opNum = .grab) {m' : Machine}
    {fn : Int} {callers : List Int}
    (hrestart : s.machine.createRestartClosure rt (.restart s.fn) = some m')
    (hcallers : s.callers = fn :: callers)
    (hs' : s' = { s with machine := m', fn := fn, callers := callers, control := .inside }) :
    ∃ c, calls = c :: calls' ∧ Framed s' f' calls' ∧ Returned c inst s s' := by
  cases calls with
  | nil => cases hrecord
  | cons c calls =>
      cases hrecord
      obtain ⟨m₁, args, w, env, extra, extraArgs, rest, hreserve, hargs, hstack, hlong, rfl⟩ :=
        Machine.createRestartClosure_cases hrestart
      obtain rfl := Machine.reserve_quiet hquiet hreserve
      obtain ⟨extras, w', hlength, hwords⟩ := h.suspended.1
      have hbase := h.entry hentry (List.cons_ne_nil _ _)
      -- The first argument is the one word of the frame, the others are its extra arguments.
      have hdrop : s.machine.stack.drop args.length =
          w' :: some c.start.machine.env :: some (.int c.start.machine.extraArgs) :: c.stack := by
        rw [rtake_eq_drop (n := 1) (by omega)] at hwords
        rw [show args.length = 1 + extras.length by omega, ← List.drop_drop, hwords,
          List.drop_left]
      have hfound : s.machine.stack.drop args.length = w :: some env :: some extra :: rest := by
        have hstack' : s.machine.stack = args.map some ++ w :: some env :: some extra :: rest :=
          hstack
        rw [hstack', List.drop_left' (List.length_map _)]
      rw [hfound] at hdrop
      injection hdrop with _ hdrop
      injection hdrop with henv hdrop
      injection hdrop with hextra hrest
      obtain rfl : env = c.start.machine.env := Option.some.inj henv
      obtain rfl : extra = .int c.start.machine.extraArgs := Option.some.inj hextra
      obtain rfl : c.start.machine.extraArgs = extraArgs := Option.some.inj hlong
      obtain ⟨hframed, hfn, hcs⟩ : Framed s' c.frame calls' ∧ s'.fn = c.site.fn ∧
          s'.callers = c.site.callers := by
        subst hs'
        exact Framed.back h.suspended h.calling rfl hcallers hrest rfl
      subst hs'
      refine ⟨c, rfl, hframed, hfn, hcs, hrest, rfl, rfl, .inr ⟨hop, args, _, by omega, ?_, rfl, ?_⟩⟩
      · rw [hfound]
        exact hstack
      · exact List.getElem?_concat_length

/-! ### Runs -/

theorem recordCalls_inside {r r' : Frame × List Call} (hcontrol : s'.control = .inside)
    (hops : ∀ op ∈ [OpCode.grab, .return_, .stop, .pushRetAddr], inst.opNum ≠ op)
    (h : recordCalls inst s s' r = some r') : InFrame inst s.machine r.1 ∧ r' = r := by
  simp only [recordCalls, hcontrol] at h
  split at h
  · next hop => exact absurd hop (hops _ (by simp))
  · next hop => exact absurd hop (hops _ (by simp))
  · next hop => exact absurd hop (hops _ (by simp))
  · next hop => exact absurd hop (hops _ (by simp))
  · split at h
    · next hin => exact ⟨hin, (Option.some.inj h).symm⟩
    · cases h

theorem recordCalls_entry (r : Frame × List Call) (hcontrol : s'.control = .entry) :
    recordCalls inst s s' r = recordEntry inst s s' r.1 r.2 := by
  simp only [recordCalls, hcontrol]

theorem recordEntry_apply {r' : Frame × List Call} (hop : inst.opNum = .apply)
    (h : recordEntry inst s s' f calls = some r') :
    ∃ base p pending, ∃ n : Nat, f = ⟨base, p :: pending⟩ ∧ 0 < n ∧ inst.arg 0 = (n : Int) ∧
      n + p.retDepth = s.machine.stack.length ∧
      r' = (.entered s', ⟨p, s, n + 3, ⟨base, pending⟩⟩ :: calls) := by
  obtain ⟨base, pending⟩ := f
  simp only [recordEntry, hop] at h
  split at h
  · next p pending =>
      split at h
      · next hcond =>
          exact ⟨base, p, pending, (inst.arg 0).toNat, rfl, by omega, by omega, hcond.2,
            (Option.some.inj h).symm⟩
      · cases h
  · cases h

theorem recordEntry_return {r' : Frame × List Call} (hop : inst.opNum = .return_)
    (h : recordEntry inst s s' f calls = some r') :
    (inst.arg 0).toNat + f.base = s.machine.stack.length ∧ r' = (.entered s', calls) := by
  simp only [recordEntry, hop] at h
  split at h
  · next hsize => exact ⟨hsize, (Option.some.inj h).symm⟩
  · cases h

theorem recordEntry_framed {r' : Frame × List Call} {n : Nat} (hargs : inst.framedArgs = some n)
    (h : recordEntry inst s s' f calls = some r') :
    0 < n ∧ n + f.floor ≤ s.machine.stack.length ∧ r' = (.entered s', ⟨s, s, n, f⟩ :: calls) := by
  have hops : 0 < n ∧ inst.opNum ≠ .apply ∧ inst.opNum ≠ .return_ := by
    unfold ZInstruction.framedArgs at hargs
    split at hargs <;> cases hargs <;> simp [*]
  unfold recordEntry at h
  split at h
  · next hop => exact absurd hop hops.2.1
  · next hop => exact absurd hop hops.2.2
  · simp only [hargs] at h
    split at h
    · next hle => exact ⟨hops.1, hle, (Option.some.inj h).symm⟩
    · cases h

theorem recordEntry_appterm {r' : Frame × List Call} {n slotsize : Nat}
    (hoperands : inst.tailOperands = some (n, slotsize))
    (h : recordEntry inst s s' f calls = some r') :
    0 < n ∧ slotsize + f.base = s.machine.stack.length ∧ r' = (.entered s', calls) := by
  have hops : inst.framedArgs = none ∧ inst.opNum ≠ .apply ∧ inst.opNum ≠ .return_ := by
    unfold ZInstruction.tailOperands at hoperands
    split at hoperands
    · next hop => simp [ZInstruction.framedArgs, hop]
    · next hop => simp [ZInstruction.framedArgs, hop]
    · next hop => simp [ZInstruction.framedArgs, hop]
    · next hop => simp [ZInstruction.framedArgs, hop]
    · cases hoperands
  unfold recordEntry at h
  split at h
  · next hop => exact absurd hop hops.2.1
  · next hop => exact absurd hop hops.2.2
  · simp only [hoperands, hops.1] at h
    split at h
    · next hcond => exact ⟨hcond.1, hcond.2, (Option.some.inj h).symm⟩
    · cases h

theorem Exec.step_pushRetAddr (hop : inst.opNum = .pushRetAddr) (h : s.step rt inst = some s') :
    ∃ m, s.machine.pushRetAddr = some m ∧ s' = { s with machine := m, control := .inside } := by
  have hcalls : inst.runtimeCalls = some [.pushRetAddr] := by
    simp only [ZInstruction.runtimeCalls, hop]
  rw [step, Exec.exec_of_runtimeCalls hcalls, RuntimeCall.runAll_singleton] at h
  cases h
  exact ⟨_, rfl, rfl⟩

/-- A native call or tail call keeps the two stacks together. -/
theorem framed_entry (h : Framed s f calls) {m : Machine} {code : CodePtr}
    (hstep : Applies inst s.machine m code ∧ s.call m code = some s' ∨
      TailCalls inst s.machine m code ∧ s.enter m code = some s')
    (hrecord : recordCalls inst s s' (f, calls) = some (f', calls')) :
    Framed s' f' calls' ∧ s.callers.length ≤ s'.callers.length := by
  have hcontrol : s'.control = .entry := by
    rcases hstep with ⟨-, henter⟩ | ⟨-, henter⟩ <;> exact (Exec.enter_sameHandlers henter).2.2
  rw [recordCalls_entry _ hcontrol] at hrecord
  rcases hstep with ⟨happlies, henter⟩ | ⟨htail, henter⟩
  · have hcallers : s'.callers = s.fn :: s.callers := (Exec.enter_pushes henter).1
    refine ⟨?_, by rw [hcallers, List.length_cons]; exact Nat.le_succ _⟩
    cases happlies with
    | apply hop =>
        obtain ⟨base, p, pending, n, rfl, hpos, hn, hsize, heq⟩ := recordEntry_apply hop hrecord
        cases heq
        have hentering := h.entering_apply hpos hsize (m := { s.machine with
          extraArgs := inst.arg 0 - 1, env := s.machine.accu }) (congrArg (· - 1) hn) rfl
        exact hentering.enter ⟨rfl, h.calling⟩ henter
    | framed hargs hstack hsome hnone hchecked =>
        obtain ⟨hpos, hle, heq⟩ := recordEntry_framed hargs hrecord
        cases heq
        exact (h.entering_framed hpos hle hchecked).enter ⟨rfl, h.calling⟩ henter
  · have hcallers : s'.callers = s.callers := (Exec.enter_pushes henter).1
    refine ⟨?_, by rw [hcallers]⟩
    cases htail with
    | appterm hoperands hstack hle hsize hchecked =>
        obtain ⟨hpos, hframe, heq⟩ := recordEntry_appterm hoperands hrecord
        cases heq
        exact (h.entering_appterm hpos hframe hchecked).enter h.calling henter
    | @return_ n _ hop hn hle hpos =>
        obtain ⟨hsize, heq⟩ := recordEntry_return hop hrecord
        cases heq
        have hframe : n + f.base = s.machine.stack.length := by
          rw [← countArg_eq_some hn]
          exact hsize
        exact (h.entering_return hpos hframe rfl rfl).enter h.calling henter

theorem framed_inside (hquiet : rt.Quiet) (h : Framed s f calls) (hstep : ExecStep rt inst s s')
    (hcontrol : s'.control = .inside)
    (hops : ∀ op ∈ [OpCode.grab, .return_, .stop, .pushRetAddr], inst.opNum ≠ op)
    (hin : InFrame inst s.machine f) : Framed s' f calls ∧ s'.callers = s.callers := by
  have htrap : ¬inst.IsTrap → inst.takesInside = inst.touches := fun hnot =>
    if_neg fun hop => hnot (.inr hop)
  have hle := hin.1
  cases hstep with
  | straight hcs hassign heffect =>
      have hcs' := Exec.touches_of_runtimeCalls hcs
      have hnot : ¬inst.IsTrap := by
        intro h
        cases h.not_other.1.symm.trans hcs
      rw [htrap hnot, hcs'] at hle
      exact ⟨h.replace hquiet heffect.toReplaces hle rfl heffect.extraArgs rfl rfl, rfl⟩
  | assign hop hn hassign =>
      have hslot := hin.2 _ (by rw [ZInstruction.assigned, if_pos hop, hn]; rfl)
      exact ⟨h.assign hassign hslot.1 hslot.2, rfl⟩
  | branch =>
      have hsame : Replaces rt 0 0 s.machine s.machine := .of_eq rfl (SameHandlers.refl _) rfl
      exact ⟨h.replace hquiet hsame (by omega) rfl rfl rfl rfl, rfl⟩
  | grab hop | partialCall hop | return_ hop | stop hop => exact absurd hop (hops _ (by simp))
  | call happlies henter => cases hcontrol.symm.trans (Exec.enter_sameHandlers henter).2.2
  | tailCall htail henter => cases hcontrol.symm.trans (Exec.enter_sameHandlers henter).2.2
  | pushTrap hop hbuffer hpush =>
      obtain ⟨-, -, rfl⟩ := Machine.getNewBuffer_eq_some hbuffer
      cases hpush
      let pushed : StackWords := [none, some (.slot s.machine.camlTrapsp), some s.machine.env,
        some (.int s.machine.extraArgs)]
      have hpushed : Replaces rt 0 4 s.machine (s.machine.withStack (pushed ++ s.machine.stack)) :=
        .of_stack pushed (Nat.zero_le _) rfl ⟨rfl, rfl, rfl, rfl, rfl⟩ rfl
      exact ⟨h.replace hquiet hpushed (by omega) rfl rfl rfl rfl, rfl⟩
  | popTrap hop hremove hpop =>
      obtain ⟨context, -, rfl⟩ := Machine.removeExceptionContext_eq_some hremove
      obtain ⟨link, -, hfour, rfl⟩ := Machine.popTrap_eq_some hpop
      rw [ZInstruction.takesInside, if_pos hop] at hle
      have hpopped : Replaces rt 4 0 s.machine (s.machine.withStack (s.machine.stack.drop 4)) :=
        .of_stack [] hfour rfl ⟨rfl, rfl, rfl, rfl, rfl⟩ rfl
      exact ⟨h.replace hquiet hpopped hle rfl rfl rfl rfl, rfl⟩
  | land hraises hland =>
      obtain ⟨buf, m₂, m₃, -, -, -, -, rfl⟩ := Exec.land_eq_some hland
      cases hcontrol

/-- An instruction that can return from a function. -/
def ZInstruction.Leaves (inst : ZInstruction) : Prop :=
  inst.opNum = .grab ∨ inst.opNum = .return_ ∨ inst.opNum = .stop

theorem ExecStep.leave_cases (h : ExecStep rt inst s s') (hleaves : inst.Leaves)
    (hcontrol : s'.control = .inside) :
    inst.opNum = .stop ∨
      (inst.opNum = .grab ∧ inst.arg 0 ≤ s.machine.extraArgs ∧ s' = { s with
        machine := s.machine.substractExtraArgs (inst.arg 0), control := .inside }) ∨
      (∃ m' fn callers, inst.opNum = .grab ∧ s.machine.extraArgs < inst.arg 0 ∧
        s.machine.createRestartClosure rt (.restart s.fn) = some m' ∧ s.callers = fn :: callers ∧
        s' = { s with machine := m', fn := fn, callers := callers, control := .inside }) ∨
      ∃ (n : Nat) (w : Option Value) (env extra : Value) (extraArgs : Int) (rest : StackWords)
        (fn : Int) (callers : List Int), inst.opNum = .return_ ∧ (inst.arg 0).toNat = n ∧
        s.machine.extraArgs ≤ 0 ∧ s.machine.stack.drop n = w :: some env :: some extra :: rest ∧
        extra.longVal = some extraArgs ∧ s.callers = fn :: callers ∧
        s' = { s with
          machine := { s.machine with stack := rest, env := env, extraArgs := extraArgs }
          fn := fn, callers := callers, control := .inside } := by
  have hother : inst.runtimeCalls = none ∧ inst.isBranch = false ∧
      ∀ op ∈ [OpCode.assign, .pushTrap, .popTrap], inst.opNum ≠ op := by
    rcases hleaves with hop | hop | hop <;>
      simp [ZInstruction.runtimeCalls, ZInstruction.isBranch, ZInstruction.isJumpInst,
        ZInstruction.isSwitch, hop]
  cases h with
  | straight hcs => cases hother.1.symm.trans hcs
  | branch hbranch => cases hother.2.1.symm.trans hbranch
  | assign hop | pushTrap hop | popTrap hop => exact absurd hop (hother.2.2 _ (by simp))
  | call happlies henter =>
      cases hcontrol.symm.trans (Exec.enter_sameHandlers henter).2.2
  | tailCall htail henter =>
      cases hcontrol.symm.trans (Exec.enter_sameHandlers henter).2.2
  | land hraises hland =>
      obtain ⟨buf, m₂, m₃, -, -, -, -, rfl⟩ := Exec.land_eq_some hland
      cases hcontrol
  | stop hop => exact .inl hop
  | grab hop hle => exact .inr (.inl ⟨hop, hle, rfl⟩)
  | partialCall hop hlt hrestart hcallers =>
      exact .inr (.inr (.inl ⟨_, _, _, hop, hlt, hrestart, hcallers, rfl⟩))
  | return_ hop hn hle hneg hdrop hlong hcallers =>
      exact .inr (.inr (.inr ⟨_, _, _, _, _, _, _, _, hop, countArg_eq_some hn, hneg, hdrop, hlong,
        hcallers, rfl⟩))

/-- `GRAB` and `RETURN` keep the two stacks together, and they return to the state that the call
promises. -/
theorem framed_leave (hquiet : rt.Quiet) (h : Framed s f calls) (hstep : ExecStep rt inst s s')
    (hcontrol : s'.control = .inside) (hleaves : inst.Leaves)
    (hrecord : recordCalls inst s s' (f, calls) = some (f', calls')) :
    Framed s' f' calls' ∧
      (s'.callers.length < s.callers.length → ∃ c, calls = c :: calls' ∧ Returned c inst s s') := by
  rcases hstep.leave_cases hleaves hcontrol with hop | ⟨hop, hle, rfl⟩ |
    ⟨m', fn, callers, hop, hlt, hrestart, hcallers, hs'⟩ |
    ⟨n, w, env, extra, extraArgs, rest, fn, callers, hop, hn, hneg, hdrop, hlong, hcallers, hs'⟩
  · simp only [recordCalls, hcontrol, hop, reduceCtorEq] at hrecord
  · have hcheck : s.machine.checkGrab (inst.arg 0) = true := decide_eq_true hle
    simp only [recordCalls, hop, hcheck] at hrecord
    split at hrecord
    · next hentry =>
        cases hrecord
        exact ⟨h.grab hentry.2 hle, fun hless => absurd hless (Nat.lt_irrefl _)⟩
    · cases hrecord
  · have hcheck : ¬s.machine.checkGrab (inst.arg 0) = true := fun hcheck =>
      absurd (of_decide_eq_true hcheck) (Int.not_le.mpr hlt)
    simp only [recordCalls, hcontrol, hop, if_neg hcheck] at hrecord
    split at hrecord
    · next hentry =>
        obtain ⟨c, rfl, hframed, hreturned⟩ :=
          h.partialCall hquiet hentry.1 hrecord hop hrestart hcallers hs'
        exact ⟨hframed, fun _ => ⟨c, rfl, hreturned⟩⟩
    · cases hrecord
  · simp only [recordCalls, hcontrol, hop, hn] at hrecord
    split at hrecord
    · next hsize =>
        obtain ⟨c, rfl, hframed, hreturned⟩ :=
          h.return_ hrecord hop hsize hneg hdrop hlong hcallers hs'
        exact ⟨hframed, fun _ => ⟨c, rfl, hreturned⟩⟩
    · cases hrecord

/-- Every step of a balanced run keeps the two stacks together, and every native return goes to the
state that the call promises. -/
theorem framed_step (hquiet : rt.Quiet) (hkeep : rt.KeepsStack) (h : Framed s f calls)
    (hstep : s.step rt inst = some s')
    (hrecord : recordCalls inst s s' (f, calls) = some (f', calls')) :
    Framed s' f' calls' ∧
      (s'.callers.length < s.callers.length → ∃ c, calls = c :: calls' ∧ Returned c inst s s') := by
  have hexec := Exec.step_cases hkeep hstep
  cases hcontrol : s'.control with
  | handler b => simp only [recordCalls, hcontrol, reduceCtorEq] at hrecord
  | entry =>
      have hentry : ∃ m code, Applies inst s.machine m code ∧ s.call m code = some s' ∨
          TailCalls inst s.machine m code ∧ s.enter m code = some s' := by
        cases hexec with
        | call happlies henter => exact ⟨_, _, .inl ⟨happlies, henter⟩⟩
        | tailCall htail henter => exact ⟨_, _, .inr ⟨htail, henter⟩⟩
        | land hraises hland =>
            obtain ⟨buf, m₂, m₃, -, -, -, -, rfl⟩ := Exec.land_eq_some hland
            cases hcontrol
        | _ => cases hcontrol
      obtain ⟨m, code, hentry⟩ := hentry
      obtain ⟨hframed, hle⟩ := framed_entry h hentry hrecord
      exact ⟨hframed, fun hlt => absurd hlt (Nat.not_lt.mpr hle)⟩
  | inside =>
      by_cases hleaves : inst.Leaves
      · exact framed_leave hquiet h hexec hcontrol hleaves hrecord
      by_cases hpush : inst.opNum = .pushRetAddr
      · obtain ⟨m, hpushed, rfl⟩ := Exec.step_pushRetAddr hpush hstep
        simp only [recordCalls, hpush] at hrecord
        cases hrecord
        exact ⟨h.pushRetAddr hpushed, fun hlt => absurd hlt (Nat.lt_irrefl _)⟩
      have hops : ∀ op ∈ [OpCode.grab, .return_, .stop, .pushRetAddr], inst.opNum ≠ op := by
        unfold ZInstruction.Leaves at hleaves
        simp only [not_or] at hleaves
        simp [hleaves, hpush]
      obtain ⟨hin, heq⟩ := recordCalls_inside hcontrol hops hrecord
      cases heq
      obtain ⟨hframed, hcallers⟩ := framed_inside hquiet h hexec hcontrol hops hin
      exact ⟨hframed, fun hlt => absurd hlt (by rw [hcallers]; exact Nat.lt_irrefl _)⟩

/-- The call of a function of two arguments with two arguments, in which another function of two
arguments is called with one. -/
def nestedCalls : List ZInstruction :=
  [.blank .pushRetAddr, .blank .const1, .blank .pushConst2, .blank .push, .ofArgs .closure 0 7,
    .ofArgs .apply 2 0, .ofArgs .grab 1 0, .blank .acc0, .blank .push, .ofArgs .closure 0 8,
    .blank .apply1, .ofArgs .grab 1 0, .ofArgs .return_ 2 0]

end CamllVM
