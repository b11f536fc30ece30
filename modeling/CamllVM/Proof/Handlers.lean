import CamllVM.Proof.RaisePaths

/-!
# Exceptions reach the innermost handler

A handler consists of a context in `Buffers`, with the native frame that `__sigsetjmp` saved in it,
and of a trap frame on the stack. A run is recorded together with the list of its pending `PUSHTRAP`
instructions, each with the state before it. The record refuses runs that are not well bracketed.
The invariant `Handled` ties both stacks of handlers to this list.
-/

namespace CamllVM

open Runs

/-- A pending `PUSHTRAP`: the state before it and its handler. -/
structure Trap where
  before : Exec
  handler : Int

namespace Trap

/-- The distance of the trap frame from the stack base. -/
def depth (t : Trap) : Nat := t.before.machine.stack.length + 4

def frames (t : Trap) : List Int := t.before.fn :: t.before.callers

def jmpBuf (t : Trap) : JmpBuf := ⟨t.before.fn, t.before.callers, t.handler⟩

end Trap

/-- The top words of the stack that an instruction takes away or overwrites in a state. -/
def ZInstruction.takes (inst : ZInstruction) (m : Machine) : Nat :=
  match inst.opNum with
  | .grab => if m.checkGrab (inst.arg 0) then 0 else (1 + m.extraArgs).toNat + 3
  | .return_ => (inst.arg 0).toNat + if 0 < m.extraArgs then 0 else 3
  | _ => inst.touches

/-- The word in the middle of the stack that an instruction overwrites. -/
def ZInstruction.assigned (inst : ZInstruction) : Option Nat :=
  if inst.opNum = .assign then inst.countArg 0 else none

/-- An instruction leaves the words of the trap frames where they are. -/
def KeepsTraps (inst : ZInstruction) (m : Machine) (traps : List Trap) : Prop :=
  ∀ t ∈ traps, inst.takes m + t.depth ≤ m.stack.length ∧
    ∀ n ∈ inst.assigned,
      n + t.depth < m.stack.length ∨ m.stack.length ≤ n + t.before.machine.stack.length

instance (inst : ZInstruction) (m : Machine) (traps : List Trap) :
    Decidable (KeepsTraps inst m traps) :=
  inferInstanceAs (Decidable (∀ t ∈ traps, _ ∧ ∀ n ∈ inst.assigned, _ ∨ _))

/-- The record of the pending traps. Its conditions are those of well bracketed bytecode: `POPTRAP`
is executed when the innermost trap frame is on top of the stack, no other instruction takes away or
overwrites a word of a trap frame, and no function is left that has a trap. -/
def recordTraps (inst : ZInstruction) (s s' : Exec) (traps : List Trap) : Option (List Trap) :=
  match s'.control with
  | .handler _ => if KeepsTraps inst s.machine traps then some traps.tail else none
  | _ =>
      match inst.opNum with
      | .pushTrap => some (⟨s, inst.arg 0⟩ :: traps)
      | .popTrap =>
          if traps.head?.map Trap.depth = some s.machine.stack.length then some traps.tail else none
      | _ =>
          if KeepsTraps inst s.machine traps ∧ ∀ t ∈ traps, t.frames <:+ s'.fn :: s'.callers then
            some traps
          else
            none

/-! ### The invariant -/

/-- The context on top of a chain of `n` contexts. -/
def topContext : Nat → Option Nat
  | 0 => none
  | n + 1 => some n

/-- The `JmpBuf` of each context is the one of its `PUSHTRAP`. -/
def HoldsJmpBufs (jmpBufs : Nat → Option JmpBuf) : List Trap → Prop
  | [] => True
  | t :: traps => jmpBufs traps.length = some t.jmpBuf ∧ HoldsJmpBufs jmpBufs traps

/-- The contexts of the pending traps. -/
structure Chained (s : Exec) (traps : List Trap) : Prop where
  bound : traps.length ≤ Machine.numBuffers
  index : s.machine.currentBufferIndex = traps.length
  next : s.machine.nextExceptionContext = topContext traps.length
  buffers : ∀ i < traps.length, s.machine.buffers i = topContext i
  jmpBufs : HoldsJmpBufs s.jmpBufs traps

/-- The trap frame of a pending trap, in which a collection may have moved `Env`. -/
def HasFrame (stack : StackWords) (moves : List (Nat → Nat)) (t : Trap) : Prop :=
  ∃ w new rest, moves = new ++ t.before.machine.moves ∧
    stack.rtake t.depth = w :: some (.slot t.before.machine.camlTrapsp) ::
      some (t.before.machine.env.relocate (moveAll new)) ::
      some (.int t.before.machine.extraArgs) :: rest

/-- The trap frames of the pending traps: linked, one below the other, and pushed by native frames
one below the other. -/
def Linked (stack : StackWords) (moves : List (Nat → Nat)) : List Trap → Nat → Nat → List Int → Prop
  | [], trapsp, _, _ => trapsp = 0
  | t :: traps, trapsp, bound, frames =>
      trapsp = t.depth ∧ t.depth ≤ bound ∧ t.frames <:+ frames ∧ HasFrame stack moves t ∧
        Chained t.before traps ∧
        Linked stack moves traps t.before.machine.camlTrapsp t.before.machine.stack.length t.frames

/-- The external-raise pointer leads to the innermost context, if there is one. -/
def RaisesTo (traps : List Trap) (externalRaise : ExternalRaise) : Prop :=
  match traps with
  | [] => ∀ i, externalRaise ≠ .jmpBuf i
  | _ :: traps => externalRaise = .jmpBuf traps.length

/-- The contexts and the trap frames of a state are those of the pending traps. -/
structure Handled (s : Exec) (traps : List Trap) : Prop where
  chained : Chained s traps
  raises : RaisesTo traps s.machine.camlExternalRaise
  linked : Linked s.machine.stack s.machine.moves traps s.machine.camlTrapsp
    s.machine.stack.length (s.fn :: s.callers)

/-! ### The words of a trap frame -/

theorem rtake_append_of_le {α : Type} (front rest : List α) {d : Nat} (h : d ≤ rest.length) :
    (front ++ rest).rtake d = rest.rtake d := by
  rw [List.rtake_eq_reverse_take_reverse, List.rtake_eq_reverse_take_reverse, List.reverse_append,
    List.take_append_of_le_length (by rwa [List.length_reverse])]

theorem rtake_drop_of_le {α : Type} (l : List α) {k d : Nat} (h : k + d ≤ l.length) :
    (l.drop k).rtake d = l.rtake d := by
  rw [← rtake_append_of_le (l.take k) (l.drop k) (by rw [List.length_drop]; omega),
    List.take_append_drop]

theorem rtake_relocate (move : Nat → Nat) (stack : StackWords) (d : Nat) :
    List.rtake (stack.relocate move) d = StackWords.relocate move (stack.rtake d) := by
  rw [List.rtake, List.rtake, StackWords.length_relocate, StackWords.relocate_drop]

/-- A step that does not touch the trap frame moves its words with the collections. -/
theorem HasFrame.replaces {rt : Runtime} {k j : Nat} {m m' : Machine} {t : Trap}
    (h : HasFrame m.stack m.moves t) (hstep : Replaces rt k j m m')
    (hk : k + t.depth ≤ m.stack.length) : HasFrame m'.stack m'.moves t := by
  obtain ⟨w, new, rest, hmoves, hwords⟩ := h
  obtain ⟨new', left, hmoves', -, -, hstack⟩ := hstep.stack
  refine ⟨w.map (Value.relocate (moveAll new')), new' ++ new,
    StackWords.relocate (moveAll new') rest, ?_, ?_⟩
  · rw [hmoves', hmoves, List.append_assoc]
  · rw [hstack, rtake_append_of_le _ _ (by simp; omega), rtake_relocate,
      rtake_drop_of_le _ hk, hwords, moveAll_append]
    simp only [StackWords.relocate, List.map_cons, Option.map_some, Value.relocate_slot,
      Value.relocate_int, Value.relocate_relocate]

theorem HasFrame.set {stack : StackWords} {moves : List (Nat → Nat)} {t : Trap} {n : Nat} {v : Value}
    (h : HasFrame stack moves t) (hdepth : t.depth ≤ stack.length)
    (hn : n + t.depth < stack.length ∨ stack.length ≤ n + t.before.machine.stack.length) :
    HasFrame (stack.set n (some v)) moves t := by
  obtain ⟨w, new, rest, hmoves, hwords⟩ := h
  rcases hn with hlow | hhigh
  · refine ⟨w, new, rest, hmoves, ?_⟩
    rw [← hwords, List.rtake, List.rtake, List.length_set, List.drop_set_of_lt (by omega)]
  · have hindex : stack.length - t.depth + 4 ≤ n := by
      unfold Trap.depth at hdepth ⊢
      omega
    refine ⟨w, new, rest.set (n - (stack.length - t.depth) - 4) (some v), hmoves, ?_⟩
    rw [List.rtake] at hwords ⊢
    rw [List.length_set, List.drop_set, if_neg (by omega), hwords]
    obtain ⟨p, hp⟩ : ∃ p, n - (stack.length - t.depth) = p + 4 :=
      ⟨n - (stack.length - t.depth) - 4, by omega⟩
    rw [hp]
    rfl

/-! ### Preservation of the trap frames -/

theorem Linked.depth_le {stack : StackWords} {moves : List (Nat → Nat)} {traps : List Trap}
    {trapsp bound : Nat} {frames : List Int} (h : Linked stack moves traps trapsp bound frames) :
    ∀ t ∈ traps, t.depth ≤ bound := by
  induction traps generalizing trapsp bound frames with
  | nil => exact fun t ht => absurd ht List.not_mem_nil
  | cons t traps ih =>
      obtain ⟨-, hle, -, -, -, hrest⟩ := h
      intro t' ht'
      rcases List.mem_cons.mp ht' with rfl | ht'
      · exact hle
      · have hbelow := ih hrest t' ht'
        unfold Trap.depth at hle hbelow ⊢
        omega

theorem Linked.frames_suffix {stack : StackWords} {moves : List (Nat → Nat)} {traps : List Trap}
    {trapsp bound : Nat} {frames : List Int} (h : Linked stack moves traps trapsp bound frames) :
    ∀ t ∈ traps, t.frames <:+ frames := by
  induction traps generalizing trapsp bound frames with
  | nil => exact fun t ht => absurd ht List.not_mem_nil
  | cons t traps ih =>
      obtain ⟨-, -, hsuffix, -, -, hrest⟩ := h
      intro t' ht'
      rcases List.mem_cons.mp ht' with rfl | ht'
      · exact hsuffix
      · exact (ih hrest t' ht').trans hsuffix

/-- The trap frames depend only on their own words, the top of the stack and the native frames. -/
theorem Linked.congr {stack stack' : StackWords} {moves moves' : List (Nat → Nat)}
    {traps : List Trap} {trapsp bound bound' : Nat} {frames frames' : List Int}
    (h : Linked stack moves traps trapsp bound frames)
    (hframe : ∀ t ∈ traps, HasFrame stack moves t → HasFrame stack' moves' t)
    (hbound : ∀ t ∈ traps, t.depth ≤ bound') (hframes : ∀ t ∈ traps, t.frames <:+ frames') :
    Linked stack' moves' traps trapsp bound' frames' := by
  induction traps generalizing trapsp bound bound' frames frames' with
  | nil => exact h
  | cons t traps ih =>
      obtain ⟨htrapsp, -, -, hhas, hchained, hrest⟩ := h
      refine ⟨htrapsp, hbound t List.mem_cons_self, hframes t List.mem_cons_self,
        hframe t List.mem_cons_self hhas, hchained, ?_⟩
      exact ih hrest (fun t' ht' => hframe t' (List.mem_cons_of_mem t ht')) hrest.depth_le
        hrest.frames_suffix

/-! ### Preservation by a step -/

variable {rt : Runtime} {inst : ZInstruction} {s s' : Exec} {traps traps' : List Trap}

theorem takes_eq_touches {m : Machine} (hgrab : inst.opNum ≠ .grab)
    (hreturn : inst.opNum ≠ .return_) : inst.takes m = inst.touches := by
  unfold ZInstruction.takes
  split
  · next hop => exact absurd hop hgrab
  · next hop => exact absurd hop hreturn
  · rfl

theorem touches_le_takes (inst : ZInstruction) (m : Machine) : inst.touches ≤ inst.takes m := by
  have hzero : inst.opNum = .grab ∨ inst.opNum = .return_ → inst.touches = 0 := by
    rintro (hop | hop) <;>
      simp [ZInstruction.touches, ZInstruction.runtimeCalls, ZInstruction.framedArgs,
        ZInstruction.tailOperands, hop]
  by_cases hop : inst.opNum = .grab ∨ inst.opNum = .return_
  · rw [hzero hop]
    exact Nat.zero_le _
  · rw [takes_eq_touches (fun h => hop (.inl h)) fun h => hop (.inr h)]

theorem countArg_eq_some {j : Fin 4} {n : Nat} (h : inst.countArg j = some n) :
    (inst.arg j).toNat = n := by
  unfold ZInstruction.countArg at h
  split at h
  · exact Option.some.inj h
  · cases h

theorem TailCalls.replaces {m m₁ : Machine} {c : CodePtr} (h : TailCalls inst m m₁ c) :
    ∃ k j, k ≤ inst.takes m ∧ Replaces rt k j m m₁ := by
  cases h with
  | @appterm args slotsize _ _ hoperands hstack hle hsize hchecked =>
      obtain ⟨sp, threshold, rfl⟩ := hchecked
      have hgrab : inst.opNum ≠ .grab := by
        intro hop
        simp [ZInstruction.tailOperands, hop] at hoperands
      have hreturn : inst.opNum ≠ .return_ := by
        intro hop
        simp [ZInstruction.tailOperands, hop] at hoperands
      refine ⟨slotsize, _, ?_, .of_stack (args.map some) hsize rfl ⟨rfl, rfl, rfl, rfl, rfl⟩ rfl⟩
      rw [takes_eq_touches hgrab hreturn, Exec.touches_of_tailOperands hoperands]
  | @return_ n _ hop hn hle hpos =>
      refine ⟨n, _, ?_, .of_stack [] hle rfl ⟨rfl, rfl, rfl, rfl, rfl⟩ rfl⟩
      simp only [ZInstruction.takes, hop, if_pos hpos]
      exact Nat.le_of_eq (countArg_eq_some hn).symm

/-- A step that raises no exception replaces top words of the stack, or it is an assignment. -/
theorem ExecStep.replaces (h : ExecStep rt inst s s') (hkeeps : KeepsHandlers inst s s') :
    (∃ k j, k ≤ inst.takes s.machine ∧ Replaces rt k j s.machine s'.machine) ∨
      ∃ n, inst.assigned = some n ∧ s.machine.assign n = some s'.machine := by
  cases h with
  | straight hcs hassign heffect =>
      have hgrab : inst.opNum ≠ .grab := by
        intro hop
        simp [ZInstruction.runtimeCalls, hop] at hcs
      have hreturn : inst.opNum ≠ .return_ := by
        intro hop
        simp [ZInstruction.runtimeCalls, hop] at hcs
      refine .inl ⟨_, _, ?_, heffect.toReplaces⟩
      rw [takes_eq_touches hgrab hreturn, Exec.touches_of_runtimeCalls hcs]
  | assign hop hn hassign =>
      refine .inr ⟨_, ?_, hassign⟩
      rw [ZInstruction.assigned, if_pos hop, hn]
  | branch | grab | stop =>
      exact .inl ⟨0, 0, Nat.zero_le _, .of_eq rfl ⟨rfl, rfl, rfl, rfl, rfl⟩ rfl⟩
  | partialCall hop hlt hrestart hcallers =>
      refine .inl ⟨_, 0, ?_, Machine.replaces_createRestartClosure hrestart⟩
      have hcheck : ¬s.machine.checkGrab (inst.arg 0) = true := by
        simpa [Machine.checkGrab] using hlt
      simp only [ZInstruction.takes, hop, if_neg hcheck, Nat.le_refl]
  | call happlies hcall =>
      obtain ⟨j, happlied⟩ : ∃ j, Replaces rt _ j s.machine _ := happlies.replaces
      obtain ⟨j', hentered⟩ : ∃ j', Replaces rt 0 j' _ _ := Exec.enter_replaces hcall
      have hgrab : inst.opNum ≠ .grab := by
        intro hop
        cases happlies with
        | apply hop' => cases hop.symm.trans hop'
        | framed hargs => simp [ZInstruction.framedArgs, hop] at hargs
      have hreturn : inst.opNum ≠ .return_ := by
        intro hop
        cases happlies with
        | apply hop' => cases hop.symm.trans hop'
        | framed hargs => simp [ZInstruction.framedArgs, hop] at hargs
      refine .inl ⟨_, _, ?_, happlied.trans hentered⟩
      rw [takes_eq_touches hgrab hreturn, Nat.zero_sub]
      exact Nat.le_refl _
  | tailCall htail henter =>
      obtain ⟨k, j, hk, htailed⟩ : ∃ k j, k ≤ _ ∧ Replaces rt k j s.machine _ := htail.replaces
      obtain ⟨j', hentered⟩ : ∃ j', Replaces rt 0 j' _ _ := Exec.enter_replaces henter
      refine .inl ⟨_, _, ?_, htailed.trans hentered⟩
      rw [Nat.zero_sub]
      exact hk
  | @return_ n w env extra extraArgs rest _ _ hop hn hle hneg hdrop =>
      have hthree : s.machine.stack.drop (n + 3) = rest := by
        rw [← List.drop_drop, hdrop]
        rfl
      have hlength := congrArg List.length hdrop
      rw [List.length_drop] at hlength
      refine .inl ⟨n + 3, _, ?_, .of_stack [] (by simp at hlength; omega)
        (by rw [hthree]; rfl) ⟨rfl, rfl, rfl, rfl, rfl⟩ rfl⟩
      simp only [ZInstruction.takes, hop, if_neg (Int.not_lt.mpr hneg)]
      exact Nat.le_of_eq (congrArg (· + 3) (countArg_eq_some hn).symm)
  | pushTrap hop => exact absurd (.inl hop) hkeeps.notTrap
  | popTrap hop => exact absurd (.inr hop) hkeeps.notTrap
  | land hraises hland =>
      obtain ⟨buf, m₂, m₃, -, -, -, -, rfl⟩ := Exec.land_eq_some hland
      exact absurd rfl (hkeeps.control buf.handler)

theorem recordTraps_keeps (hkeeps : KeepsHandlers inst s s')
    (h : recordTraps inst s s' traps = some traps') :
    traps' = traps ∧ KeepsTraps inst s.machine traps ∧
      ∀ t ∈ traps, t.frames <:+ s'.fn :: s'.callers := by
  unfold recordTraps at h
  split at h
  · next b hb => exact absurd hb (hkeeps.control b)
  · split at h
    · next hop => exact absurd (.inl hop) hkeeps.notTrap
    · next hop => exact absurd (.inr hop) hkeeps.notTrap
    · split at h
      · next hcond => exact ⟨(Option.some.inj h).symm, hcond⟩
      · cases h

theorem Chained.congr (h : Chained s traps) (hsame : SameHandlers s.machine s'.machine)
    (hbufs : s'.jmpBufs = s.jmpBufs) : Chained s' traps := by
  refine ⟨h.bound, hsame.currentBufferIndex.trans h.index,
    hsame.nextExceptionContext.trans h.next, fun i hi => ?_, ?_⟩
  · rw [hsame.buffers]
    exact h.buffers i hi
  · rw [hbufs]
    exact h.jmpBufs

theorem HoldsJmpBufs.congr {jmpBufs jmpBufs' : Nat → Option JmpBuf} (h : HoldsJmpBufs jmpBufs traps)
    (heq : ∀ i < traps.length, jmpBufs' i = jmpBufs i) : HoldsJmpBufs jmpBufs' traps := by
  induction traps with
  | nil => trivial
  | cons t traps ih =>
      refine ⟨(heq _ (Nat.lt_succ_self _)).trans h.1, ih h.2 fun i hi => heq i ?_⟩
      exact Nat.lt_succ_of_lt hi

theorem Replaces.length_le {k j : Nat} {m m' : Machine} (h : Replaces rt k j m m') {d : Nat}
    (hd : k + d ≤ m.stack.length) : d ≤ m'.stack.length := by
  obtain ⟨new, left, -, -, -, hstack⟩ := h.stack
  rw [hstack, List.length_append, StackWords.length_relocate, List.length_drop]
  omega

theorem handled_keeps (hinv : Handled s traps) (h : ExecStep rt inst s s')
    (hkeeps : KeepsHandlers inst s s') (htraps : KeepsTraps inst s.machine traps)
    (hframes : ∀ t ∈ traps, t.frames <:+ s'.fn :: s'.callers) : Handled s' traps := by
  have hwords : ∀ t ∈ traps, t.depth ≤ s'.machine.stack.length ∧
      (HasFrame s.machine.stack s.machine.moves t →
        HasFrame s'.machine.stack s'.machine.moves t) := by
    intro t ht
    rcases h.replaces hkeeps with ⟨k, j, hk, hreplaces⟩ | ⟨n, hn, hassign⟩
    · have hdepth := (htraps t ht).1
      exact ⟨hreplaces.length_le (by omega), fun hframe => hframe.replaces hreplaces (by omega)⟩
    · obtain ⟨hlt, heq⟩ := Machine.assign_eq hassign
      have hdepth := hinv.linked.depth_le t ht
      rw [heq]
      exact ⟨by rw [List.length_set]; exact hdepth,
        fun hframe => hframe.set hdepth ((htraps t ht).2 n hn)⟩
  refine ⟨hinv.chained.congr hkeeps.machine hkeeps.jmpBufs, ?_, ?_⟩
  · rw [hkeeps.machine.camlExternalRaise]
    exact hinv.raises
  · rw [hkeeps.machine.camlTrapsp]
    exact hinv.linked.congr (fun t ht => (hwords t ht).2) (fun t ht => (hwords t ht).1) hframes

/-- `PUSHTRAP` adds a context and a trap frame. -/
theorem handled_pushTrap (hinv : Handled s traps) (handler : Int) {i : Nat} {m₁ m₂ : Machine}
    (hbuffer : s.machine.getNewBuffer = some (i, m₁)) (hpush : m₁.pushTrap = some m₂) :
    Handled { s with
      machine := m₂, control := .inside
      jmpBufs := fun k => if k = i then some ⟨s.fn, s.callers, handler⟩ else s.jmpBufs k }
      (⟨s, handler⟩ :: traps) := by
  obtain ⟨hi, hlt, rfl⟩ := Machine.getNewBuffer_eq_some hbuffer
  rw [Machine.pushTrap_eq] at hpush
  cases hpush
  rw [hinv.chained.index] at hi
  subst hi
  let pushed : StackWords := [none, some (.slot s.machine.camlTrapsp), some s.machine.env,
    some (.int s.machine.extraArgs)]
  have hpushed : Replaces .idle 0 4 s.machine (s.machine.withStack (pushed ++ s.machine.stack)) :=
    .of_stack pushed (Nat.zero_le _) rfl ⟨rfl, rfl, rfl, rfl, rfl⟩ rfl
  have hbuffers : ∀ j < traps.length + 1,
      (if j = traps.length then s.machine.nextExceptionContext else s.machine.buffers j) =
        topContext j := by
    intro j hj
    by_cases heq : j = traps.length
    · rw [if_pos heq, hinv.chained.next, heq]
    · rw [if_neg heq]
      exact hinv.chained.buffers j (by omega)
  have hlinked : Linked (pushed ++ s.machine.stack) s.machine.moves traps s.machine.camlTrapsp
      s.machine.stack.length (s.fn :: s.callers) := by
    refine hinv.linked.congr (fun t ht hframe => ?_) hinv.linked.depth_le hinv.linked.frames_suffix
    have hdepth := hinv.linked.depth_le t ht
    exact HasFrame.replaces hframe hpushed (by omega)
  refine ⟨⟨hlt, rfl, rfl, hbuffers, if_pos rfl, ?_⟩, rfl, rfl, Nat.le_refl _, List.suffix_refl _,
    ⟨none, [], s.machine.stack, rfl, ?_⟩, hinv.chained, hlinked⟩
  · exact hinv.chained.jmpBufs.congr fun j hj => if_neg (Nat.ne_of_lt hj)
  · rw [List.rtake, moveAll, Value.relocate_id]
    exact congrArg (List.drop · (pushed ++ s.machine.stack)) (Nat.sub_self _)

def Machine.withContexts (m : Machine) (n : Nat) : Machine :=
  { m with
    nextExceptionContext := topContext n
    currentBufferIndex := n
    camlExternalRaise := match topContext n with
      | some i => .jmpBuf i
      | none => .jmpBufOfNull }

theorem raisesTo_withContexts (m : Machine) (traps : List Trap) :
    RaisesTo traps (m.withContexts traps.length).camlExternalRaise := by
  cases traps with
  | nil => exact fun i => ExternalRaise.noConfusion
  | cons t traps => rfl

theorem Chained.removeExceptionContext {t : Trap} (h : Chained s (t :: traps)) {m : Machine}
    (hnext : m.nextExceptionContext = s.machine.nextExceptionContext)
    (hbuffers : m.buffers = s.machine.buffers)
    (hindex : m.currentBufferIndex = s.machine.currentBufferIndex) :
    m.removeExceptionContext = some (m.withContexts traps.length) := by
  have hcontext : m.nextExceptionContext = some traps.length := hnext.trans h.next
  have hbelow : m.buffers traps.length = topContext traps.length := by
    rw [hbuffers]
    exact h.buffers _ (Nat.lt_succ_self _)
  have hwrap : (m.currentBufferIndex + (2 ^ 64 - 1)) % 2 ^ 64 = traps.length := by
    have hbound := h.bound
    rw [hindex, h.index, List.length_cons]
    rw [List.length_cons, Machine.numBuffers] at hbound
    omega
  rw [Machine.removeExceptionContext, hcontext, Option.bind_eq_bind, Option.bind_some, hbelow, hwrap]
  rfl

theorem Chained.tail {t : Trap} (h : Chained s (t :: traps))
    (hnext : s'.machine.nextExceptionContext = topContext traps.length)
    (hindex : s'.machine.currentBufferIndex = traps.length)
    (hbuffers : s'.machine.buffers = s.machine.buffers) (hbufs : s'.jmpBufs = s.jmpBufs) :
    Chained s' traps := by
  refine ⟨Nat.le_of_succ_le h.bound, hindex, hnext, fun i hi => ?_, ?_⟩
  · rw [hbuffers]
    exact h.buffers i (Nat.lt_succ_of_lt hi)
  · rw [hbufs]
    exact h.jmpBufs.2

theorem recordTraps_popTrap {m : Machine} (hop : inst.opNum = .popTrap)
    (h : recordTraps inst s { s with machine := m, control := .inside } traps = some traps') :
    ∃ t, traps = t :: traps' ∧ s.machine.stack.length = t.depth := by
  simp only [recordTraps, hop] at h
  split at h
  · next htop =>
      cases traps with
      | nil => cases htop
      | cons t ts =>
          cases h
          exact ⟨t, rfl, (Option.some.inj htop).symm⟩
  · cases h

/-- `POPTRAP` removes the innermost context and the trap frame on top of the stack. -/
theorem handled_popTrap {t : Trap} (hinv : Handled s (t :: traps)) {m₁ m₂ : Machine}
    (hremove : s.machine.removeExceptionContext = some m₁) (hpop : m₁.popTrap = some m₂)
    (hdepth : s.machine.stack.length = t.depth) :
    Handled { s with machine := m₂, control := .inside } traps := by
  rw [hinv.chained.removeExceptionContext rfl rfl rfl] at hremove
  cases hremove
  obtain ⟨link, hlink, hfour, rfl⟩ := Machine.popTrap_eq_some hpop
  obtain ⟨-, -, hframes, ⟨w, new, rest, hmoves, hwords⟩, -, hrest⟩ := hinv.linked
  -- The trap frame is the top of the stack, so the link read by `POPTRAP` is its second word.
  rw [List.rtake, hdepth, Nat.sub_self, List.drop_zero] at hwords
  obtain rfl : t.before.machine.camlTrapsp = link := by
    have hslot : s.machine.slot 1 = some (.slot link) := hlink
    rw [Machine.slot, hwords] at hslot
    simpa using hslot
  have hpopped : Replaces .idle 4 0 s.machine (s.machine.withStack (s.machine.stack.drop 4)) :=
    .of_stack [] hfour rfl ⟨rfl, rfl, rfl, rfl, rfl⟩ rfl
  have hlength : (s.machine.stack.drop 4).length = t.before.machine.stack.length := by
    rw [List.length_drop, hdepth]
    rfl
  have hbelow : ∀ t' ∈ traps, t'.depth ≤ (s.machine.stack.drop 4).length := by
    rw [hlength]
    exact hrest.depth_le
  refine ⟨hinv.chained.tail rfl rfl rfl rfl, raisesTo_withContexts s.machine traps,
    hrest.congr ?_ hbelow fun t' ht' => (hrest.frames_suffix t' ht').trans hframes⟩
  intro t' ht' hframe
  have hle : 4 + t'.depth ≤ s.machine.stack.length := by
    have hle := hbelow t' ht'
    rw [hlength] at hle
    rw [hdepth, Nat.add_comm]
    exact Nat.add_le_add_right hle 4
  have hmoved := hframe.replaces hpopped hle
  exact hmoved

/-- The state in which a handler gets control: its own code goes on in the native frame of its
`PUSHTRAP`, with everything but the accumulator as it was before. -/
structure Restored (t : Trap) (exn : Value) (s : Exec) : Prop where
  control : s.control = .handler t.handler
  fn : s.fn = t.before.fn
  callers : s.callers = t.before.callers
  accu : s.machine.accu = exn
  stackPointer : s.machine.stack.length = t.before.machine.stack.length
  env : ∃ new, s.machine.moves = new ++ t.before.machine.moves ∧
    s.machine.env = t.before.machine.env.relocate (moveAll new)
  extraArgs : s.machine.extraArgs = t.before.machine.extraArgs
  camlTrapsp : s.machine.camlTrapsp = t.before.machine.camlTrapsp
  nextExceptionContext : s.machine.nextExceptionContext = t.before.machine.nextExceptionContext
  currentBufferIndex : s.machine.currentBufferIndex = t.before.machine.currentBufferIndex
  contexts : ∀ i < s.machine.currentBufferIndex,
    s.machine.buffers i = t.before.machine.buffers i ∧ s.jmpBufs i = t.before.jmpBufs i

theorem HoldsJmpBufs.unique {jmpBufs jmpBufs' : Nat → Option JmpBuf}
    (h : HoldsJmpBufs jmpBufs traps) (h' : HoldsJmpBufs jmpBufs' traps) :
    ∀ i < traps.length, jmpBufs i = jmpBufs' i := by
  induction traps with
  | nil => exact fun i hi => absurd hi (Nat.not_lt_zero i)
  | cons t traps ih =>
      intro i hi
      rcases Nat.lt_succ_iff_lt_or_eq.mp hi with hi | rfl
      · exact ih h.2 h'.2 i hi
      · exact h.1.trans h'.1.symm

/-- A jump to the innermost context lands in its handler, which finds the state of its `PUSHTRAP`
and the invariant for the remaining traps. -/
theorem land_restores {t : Trap} (hinv : Handled s (t :: traps)) {k j : Nat} {m : Machine}
    (hstep : Replaces rt k j s.machine m) (hk : k + t.depth ≤ s.machine.stack.length) :
    ∃ s', s.land traps.length m = some s' ∧ Restored t m.camlExnBucket s' ∧ Handled s' traps := by
  obtain ⟨htrapsp, -, hframes, hframe, hbefore, hrest⟩ := hinv.linked
  obtain ⟨w, new, rest, hmoves, hwords⟩ := hframe.replaces hstep hk
  have hlength := hstep.length_le hk
  let env := t.before.machine.env.relocate (moveAll new)
  let m₁ : Machine := { m with
    stack := rest
    env := env
    camlTrapsp := t.before.machine.camlTrapsp
    extraArgs := t.before.machine.extraArgs
    accu := m.camlExnBucket }
  have hdepth : m.camlTrapsp = t.depth := hstep.handlers.camlTrapsp.trans htrapsp
  have hsp : (m.setSp m.camlTrapsp).stack = w :: some (.slot t.before.machine.camlTrapsp) ::
      some env :: some (.int t.before.machine.extraArgs) :: rest := by
    rw [hdepth]
    unfold Machine.setSp
    rw [Nat.sub_eq_zero_of_le hlength]
    exact hwords
  have hvalue : m.getExceptionValue = some m₁ := by
    simp only [Machine.getExceptionValue, Machine.trapLink, Machine.slot, hsp, Machine.raiseSp]
    rfl
  have hremove : m₁.removeExceptionContext = some (m₁.withContexts traps.length) :=
    hinv.chained.removeExceptionContext hstep.handlers.nextExceptionContext hstep.handlers.buffers
      hstep.handlers.currentBufferIndex
  have hrestlength : rest.length = t.before.machine.stack.length := by
    have hsum := congrArg List.length hwords
    rw [List.rtake, List.length_drop] at hsum
    simp only [List.length_cons, Trap.depth] at hsum hlength
    omega
  refine ⟨{ s with
    machine := m₁.withContexts traps.length
    fn := t.before.fn
    callers := t.before.callers
    control := .handler t.handler }, ?_, ?_, ?_⟩
  · have hlive : t.jmpBuf.fn :: t.jmpBuf.callers <:+ s.fn :: s.callers := hframes
    rw [Exec.land, hinv.chained.jmpBufs.1, Option.bind_eq_bind, Option.bind_some, if_pos hlive,
      hvalue, Option.bind_eq_bind, Option.bind_some, hremove]
    rfl
  · refine ⟨rfl, rfl, rfl, rfl, hrestlength, ⟨new, hmoves, rfl⟩, rfl, rfl, hbefore.next.symm,
      hbefore.index.symm, fun i hi => ⟨?_, ?_⟩⟩
    · have hbuffers : m.buffers i = topContext i := by
        rw [hstep.handlers.buffers]
        exact hinv.chained.buffers i (Nat.lt_succ_of_lt hi)
      exact hbuffers.trans (hbefore.buffers i hi).symm
    · exact hinv.chained.jmpBufs.2.unique hbefore.jmpBufs i hi
  · refine ⟨hinv.chained.tail rfl rfl hstep.handlers.buffers rfl, raisesTo_withContexts m₁ traps,
      hrest.congr (fun t' ht' hframe' => ?_) ?_ hrest.frames_suffix⟩
    · have hle := hrest.depth_le t' ht'
      have hmoved := hframe'.replaces hstep (by unfold Trap.depth at hk hle ⊢; omega)
      have hpopped : Replaces .idle (m.stack.length - rest.length) 0 m (m.withStack rest) := by
        refine .of_stack [] (Nat.sub_le _ _) ?_ ⟨rfl, rfl, rfl, rfl, rfl⟩ rfl
        have hdrop : rest = (m.stack.rtake t.depth).drop 4 := by
          rw [hwords]
          rfl
        rw [List.nil_append, Machine.withStack_stack, hdrop, List.rtake, List.drop_drop,
          List.length_drop]
        congr 1
        unfold Trap.depth at hlength ⊢
        omega
      have hunlinked := hmoved.replaces hpopped (by unfold Trap.depth at hle hlength ⊢; omega)
      exact hunlinked
    · intro t' ht'
      exact Nat.le_trans (hrest.depth_le t' ht') (Nat.le_of_eq hrestlength.symm)

theorem raisesTo_context {t : Trap} {exn : Value} {i : Nat} {m : Machine}
    (hinv : Handled s (t :: traps)) (h : Raises rt inst s.machine exn i m) : i = traps.length := by
  have hnext : s.machine.nextExceptionContext = some traps.length := hinv.chained.next
  have hraise : s.machine.camlExternalRaise = .jmpBuf traps.length := hinv.raises
  cases h with
  | raise _ hcontext => exact Option.some.inj (hcontext.symm.trans hnext)
  | primitive _ _ _ _ _ hraised =>
      cases hraised with
      | longjmp hbuf => exact ExternalRaise.jmpBuf.inj (hbuf.symm.trans hraise)
  | overflow _ _ hraised =>
      cases hraised with
      | longjmp hbuf => exact ExternalRaise.jmpBuf.inj (hbuf.symm.trans hraise)

theorem not_raises_of_nil {exn : Value} {i : Nat} {m : Machine} (hinv : Handled s []) :
    ¬Raises rt inst s.machine exn i m := by
  intro h
  cases h with
  | raise _ hcontext => cases hinv.chained.next.symm.trans hcontext
  | primitive _ _ _ _ _ hraised =>
      cases hraised with
      | longjmp hbuf => exact hinv.raises _ hbuf
  | overflow _ _ hraised =>
      cases hraised with
      | longjmp hbuf => exact hinv.raises _ hbuf

theorem recordTraps_handler {b : Int} (hcontrol : s'.control = .handler b)
    (h : recordTraps inst s s' traps = some traps') :
    KeepsTraps inst s.machine traps ∧ traps' = traps.tail := by
  simp only [recordTraps, hcontrol] at h
  split at h
  · next htraps => exact ⟨htraps, (Option.some.inj h).symm⟩
  · cases h

/-- An exception goes to the innermost handler and restores its state. -/
theorem handled_land {exn : Value} {i : Nat} {m : Machine} (hinv : Handled s traps)
    (hraises : Raises rt inst s.machine exn i m) (hland : s.land i m = some s')
    (hrecord : recordTraps inst s s' traps = some traps') :
    Handled s' traps' ∧ ∃ t, traps.head? = some t ∧ Restored t exn s' := by
  obtain ⟨hexn, k, j, hk, hreplaces⟩ := hraises.replaces
  have hcontrol : ∃ b, s'.control = .handler b := by
    obtain ⟨buf, m₁, m₂, -, -, -, -, rfl⟩ := Exec.land_eq_some hland
    exact ⟨buf.handler, rfl⟩
  obtain ⟨b, hb⟩ := hcontrol
  obtain ⟨htraps, rfl⟩ := recordTraps_handler hb hrecord
  cases traps with
  | nil => exact absurd hraises (not_raises_of_nil hinv)
  | cons t ts =>
      have htakes := (htraps t List.mem_cons_self).1
      have hle := touches_le_takes inst s.machine
      obtain ⟨s₁, hland₁, hrestored, hrest⟩ := land_restores hinv hreplaces (by omega)
      rw [raisesTo_context hinv hraises, hland₁] at hland
      cases hland
      exact ⟨hrest, t, rfl, hexn ▸ hrestored⟩

/-- Every step of a well bracketed run preserves the invariant. -/
theorem handled_step (hinv : Handled s traps) (h : ExecStep rt inst s s')
    (hrecord : recordTraps inst s s' traps = some traps') : Handled s' traps' := by
  rcases h.keepsHandlers_or with hkeeps | ⟨i, m₁, m₂, hop, hbuffer, hpush, rfl⟩ |
    ⟨m₁, m₂, hop, hremove, hpop, rfl⟩ | ⟨exn, i, m₁, hraises, hland⟩
  · obtain ⟨rfl, htraps, hframes⟩ := recordTraps_keeps hkeeps hrecord
    exact handled_keeps hinv h hkeeps htraps hframes
  · simp only [recordTraps, hop] at hrecord
    cases hrecord
    exact handled_pushTrap hinv _ hbuffer hpush
  · obtain ⟨t, rfl, hdepth⟩ := recordTraps_popTrap hop hrecord
    exact handled_popTrap hinv hremove hpop hdepth
  · exact (handled_land hinv hraises hland hrecord).1

/-! ### Exceptions in a state -/

/-- The primitive that a call of the library calls in a state, its arguments and the machine then. -/
def RuntimeCall.callee (m : Machine) : RuntimeCall → Option (Int × PrimArgs × Machine)
  | cCall1 p => fixed 0 p
  | cCall2 p => fixed 1 p
  | cCall3 p => fixed 2 p
  | cCall4 p => fixed 3 p
  | cCall5 p => fixed 4 p
  | cCallN p nargs =>
      let m := (m.pushWord m.accu).setupForCCall
      some (p, .array (m.stack.drop 1) nargs, m)
  | _ => none
where
  fixed (extra : Nat) (p : Int) : Option (Int × PrimArgs × Machine) := do
    let args ← m.setupForCCall.slots 1 extra
    return (p, .direct (m.accu :: args), m.setupForCCall)

/-- The instruction raises an exception in a state: it is `RAISE`, or the call of a primitive that
ends with the exception. -/
inductive Throws (rt : Runtime) (inst : ZInstruction) (m : Machine) : Value → Prop
  | raise : inst.opNum = .raise → Throws rt inst m m.accu
  | primitive {c : RuntimeCall} {p : Int} {args : PrimArgs} {m₁ : Machine} {done : PrimEnd}
      {exn : Value} : inst.runtimeCalls = some [c] → c.callee m = some (p, args, m₁) →
      rt.primitive p args ⟨m₁.heap, m₁.camlExternSp, m₁.camlGlobalData⟩ = some done →
      done.result = .raise exn → Throws rt inst m exn

theorem primitive_raise {m : Machine} {p : Int} {args : PrimArgs} {done : PrimEnd} {exn : Value}
    (hdone : rt.primitive p args ⟨m.heap, m.camlExternSp, m.camlGlobalData⟩ = some done)
    (hraise : done.result = .raise exn) {i : Nat} (hbuf : m.camlExternalRaise = .jmpBuf i) :
    ∃ m₁, m.primitive rt p args = some (.jump (.longjmp i m₁)) ∧ m₁.camlExnBucket = exn := by
  have hbuf' : (m.scan.afterPrimitive done).camlExternalRaise = .jmpBuf i := hbuf
  obtain ⟨m₁, hjump, hexn⟩ : ∃ m₁,
      (m.scan.afterPrimitive done).camlRaise exn = some (.longjmp i m₁) ∧
        m₁.camlExnBucket = exn := by
    simp only [Machine.camlRaise, hbuf']
    exact ⟨_, rfl, rfl⟩
  have hdone' : rt.primitive p args ⟨m.scan.heap, m.scan.camlExternSp, m.scan.camlGlobalData⟩ =
      some done := hdone
  refine ⟨m₁, ?_, hexn⟩
  simp only [Machine.primitive, hdone', Option.bind_eq_bind, Option.bind_some, hraise, hjump,
    Option.map_some]

theorem RuntimeCall.run_throws {c : RuntimeCall} {m m₁ : Machine} {p : Int} {args : PrimArgs}
    {done : PrimEnd} {exn : Value} (hcallee : c.callee m = some (p, args, m₁))
    (hdone : rt.primitive p args ⟨m₁.heap, m₁.camlExternSp, m₁.camlGlobalData⟩ = some done)
    (hraise : done.result = .raise exn) {i : Nat} (hbuf : m.camlExternalRaise = .jmpBuf i) :
    ∃ m₂, c.run rt m = some (.jump (.longjmp i m₂)) ∧ m₂.camlExnBucket = exn := by
  have hfixed : ∀ extra p', callee.fixed m extra p' = some (p, args, m₁) →
      ∃ m₂, m.cCall rt extra p' = some (.jump (.longjmp i m₂)) ∧ m₂.camlExnBucket = exn := by
    intro extra p' h
    obtain ⟨words, hslots, heq⟩ := Option.bind_eq_some_iff.mp h
    cases heq
    obtain ⟨m₂, hjump, hexn⟩ := primitive_raise (m := m.setupForCCall) hdone hraise hbuf
    refine ⟨m₂, ?_, hexn⟩
    simp only [Machine.cCall, hslots, Option.bind_eq_bind, Option.bind_some]
    exact Option.bind_eq_some_iff.mpr ⟨_, hjump, rfl⟩
  cases c with
  | cCall1 p' | cCall2 p' | cCall3 p' | cCall4 p' | cCall5 p' => exact hfixed _ p' hcallee
  | cCallN p' nargs =>
      cases hcallee
      obtain ⟨m₂, hjump, hexn⟩ :=
        primitive_raise (m := (m.pushWord m.accu).setupForCCall) hdone hraise hbuf
      exact ⟨m₂, Option.bind_eq_some_iff.mpr ⟨_, hjump, rfl⟩, hexn⟩
  | _ => cases hcallee

/-- An exception in a state with a handler reaches the handler. -/
theorem exec_throws (hkeep : rt.KeepsStack) {t : Trap} {exn : Value}
    (hinv : Handled s (t :: traps)) (h : Throws rt inst s.machine exn) :
    ∃ s', s.exec rt inst = some (.running s') ∧ Restored t exn s' := by
  have hdepth : 0 + t.depth ≤ s.machine.stack.length := by
    rw [Nat.zero_add]
    exact hinv.linked.depth_le t List.mem_cons_self
  cases h with
  | raise hop =>
      have hnext : s.machine.nextExceptionContext = some traps.length := hinv.chained.next
      have hjump : s.machine.throwException s.machine.accu =
          .longjmp traps.length { s.machine with camlExnBucket := s.machine.accu } := by
        simp only [Machine.throwException, hnext]
      have hsame : Replaces rt 0 0 s.machine { s.machine with camlExnBucket := s.machine.accu } :=
        .of_eq rfl ⟨rfl, rfl, rfl, rfl, rfl⟩ rfl
      obtain ⟨s', hland, hrestored, -⟩ := land_restores hinv hsame hdepth
      refine ⟨s', ?_, hrestored⟩
      simp only [Exec.exec, hop, hjump, Exec.settle, hland, Option.map_some]
  | primitive hcalls hcallee hdone hraise =>
      obtain ⟨m₂, hrun, hexn⟩ := RuntimeCall.run_throws hcallee hdone hraise hinv.raises
      obtain ⟨_, _, _, _, _, -, -, -, hraised⟩ := RuntimeCall.run_raised hkeep hrun
      cases hraised with
      | longjmp _ _ hle hreplaces =>
          obtain rfl := Nat.eq_zero_of_le_zero hle
          obtain ⟨s', hland, hrestored, -⟩ := land_restores hinv hreplaces hdepth
          refine ⟨s', ?_, hexn ▸ hrestored⟩
          rw [Exec.exec_of_runtimeCalls hcalls, RuntimeCall.runAll_singleton, hrun, Option.bind_some,
            Exec.settle, hland]
          rfl

/-! ### Runs -/

/-- The contexts from one on, by their `Next` fields. -/
inductive ContextChain (buffers : Nat → Option Nat) : Option Nat → List Nat → Prop
  | nil : ContextChain buffers none []
  | cons {i : Nat} {contexts : List Nat} : ContextChain buffers (buffers i) contexts →
      ContextChain buffers (some i) (i :: contexts)

/-- The distances of the trap frames from the stack base, from one on, by their links. -/
inductive TrapChain (stack : StackWords) : Nat → List Nat → Prop
  | nil : TrapChain stack 0 []
  | cons {depth link : Nat} {depths : List Nat} :
      (stack.rtake depth)[1]? = some (some (.slot link)) → TrapChain stack link depths →
      TrapChain stack depth (depth :: depths)

/-- The chain of the contexts is `Buffers[CurrentBufferIndex - 1], ..., Buffers[0]`. In the same
order they belong to the trap frames linked from `caml_trapsp`. -/
structure Corresponds (s : Exec) (traps : List Trap) : Prop where
  contexts : ContextChain s.machine.buffers s.machine.nextExceptionContext
    (List.range s.machine.currentBufferIndex).reverse
  trapFrames : TrapChain s.machine.stack s.machine.camlTrapsp (traps.map Trap.depth)
  count : s.machine.currentBufferIndex = traps.length
  jmpBufs : HoldsJmpBufs s.jmpBufs traps

theorem contextChain_topContext {buffers : Nat → Option Nat} (n : Nat)
    (h : ∀ i < n, buffers i = topContext i) :
    ContextChain buffers (topContext n) (List.range n).reverse := by
  induction n with
  | zero => exact .nil
  | succ n ih =>
      rw [List.range_succ, List.reverse_append]
      refine .cons ?_
      rw [h n (Nat.lt_succ_self n)]
      exact ih fun i hi => h i (Nat.lt_succ_of_lt hi)

theorem Linked.trapChain {stack : StackWords} {moves : List (Nat → Nat)} {trapsp bound : Nat}
    {frames : List Int} (h : Linked stack moves traps trapsp bound frames) :
    TrapChain stack trapsp (traps.map Trap.depth) := by
  induction traps generalizing trapsp bound frames with
  | nil =>
      obtain rfl : trapsp = 0 := h
      exact .nil
  | cons t traps ih =>
      obtain ⟨rfl, -, -, ⟨w, new, rest, -, hwords⟩, -, hrest⟩ := h
      refine .cons ?_ (ih hrest)
      rw [hwords]
      rfl

theorem Handled.corresponds (h : Handled s traps) : Corresponds s traps := by
  refine ⟨?_, h.linked.trapChain, h.chained.index, h.chained.jmpBufs⟩
  rw [h.chained.next, h.chained.index]
  exact contextChain_topContext _ h.chained.buffers

/-- A `try` block inside another one, which raises an exception, and the handler of the inner block,
which raises one again. -/
def raiseAgain : List ZInstruction :=
  [.pushTrapTo 9, .pushTrapTo 5, .blank .const1, .blank .raise, .blank .const0]

end CamllVM
