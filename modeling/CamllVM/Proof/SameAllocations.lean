import CamllVM.Proof.SameOperations

/-!
# Allocation on states that are the same

The two runtimes may collect at different times and move the blocks to different places. Behind an
allocation the states are the same up to another renaming.
-/

namespace CamllVM

variable {P : Set Nat} {ρ : Naming P} {v v' : Value} {m m' : Machine} {rt rt' : Runtime}

/-- A collection moves the blocks that are found from its roots, and none of `P`. -/
def Runtime.Keeps (P : Set Nat) (rt : Runtime) : Prop :=
  ∀ m c, rt.collect m = some c → ∃ live, c.Relocates live m ∧ ∀ b ∈ P, b ∈ live ∧ c.move b = b

structure PrimState.Same (ρ : Naming P) (st st' : PrimState) : Prop where
  heap : st.heap.Same ρ st'.heap
  camlExternSp : st.camlExternSp.Same ρ st'.camlExternSp
  camlGlobalData : st.camlGlobalData.Same ρ st'.camlGlobalData

inductive PrimArgs.Same (ρ : Naming P) : PrimArgs → PrimArgs → Prop
  | direct {args args' : List Value} (h : List.Forall₂ (Value.Same ρ) args args') :
      Same ρ (.direct args) (.direct args')
  | array {words words' : StackWords} (nargs : Int) (h : words.Same ρ words') :
      Same ρ (.array words nargs) (.array words' nargs)

inductive Result.Same (ρ : Naming P) : Result Value → Result Value → Prop
  | ret {v v' : Value} (h : v.Same ρ v') : Same ρ (.ret v) (.ret v')
  | raise {exn exn' : Value} (h : exn.Same ρ exn') : Same ρ (.raise exn) (.raise exn')

/-- Runtimes that may differ in their collections. A primitive cannot tell the addresses of blocks
from others, and the exception of a stack that cannot grow is not in a block that is moved. -/
structure Runtime.Interchangeable (P : Set Nat) (rt rt' : Runtime) : Prop where
  keeps : rt.Keeps P
  keeps' : rt'.Keeps P
  primitive : ∀ (ρ : Naming P) prim args args' st st', PrimArgs.Same ρ args args' →
    PrimState.Same ρ st st' →
    Option.Rel (fun e e' => ∃ ρ' : Naming P, e.state.Same ρ' e'.state ∧ e.result.Same ρ' e'.result)
      (rt.primitive prim args st) (rt'.primitive prim args' st')
  camlReallocStack : rt'.camlReallocStack = rt.camlReallocStack
  overflow : ∀ n exn, rt.camlReallocStack n = .raise exn → exn.Within P

/-! ### Renamings -/

namespace Naming

def symm (ρ : Naming P) : Naming P where
  toPartialEquiv := ρ.toPartialEquiv.symm
  pinned b hb := by
    obtain ⟨hsource, hfix⟩ := ρ.pinned b hb
    have htarget : b ∈ ρ.target := hfix ▸ ρ.map_source hsource
    refine ⟨htarget, ?_⟩
    calc ρ.toPartialEquiv.symm b = ρ.toPartialEquiv.symm (ρ.toPartialEquiv b) := by rw [hfix]
      _ = b := ρ.left_inv hsource

/-- The first heap after a collection against the second one. -/
noncomputable def afterCollection (ρ : Naming P) {live : Set Nat} {move : Nat → Nat}
    (hinj : Set.InjOn move live) (hpinned : ∀ b ∈ P, b ∈ live ∧ move b = b) : Naming P where
  toPartialEquiv := (hinj.toPartialEquiv move live).symm.trans ρ.toPartialEquiv
  pinned b hb := by
    obtain ⟨hlive, hmove⟩ := hpinned b hb
    obtain ⟨hsource, hfix⟩ := ρ.pinned b hb
    have hleft : (hinj.toPartialEquiv move live).symm b = b := by
      calc (hinj.toPartialEquiv move live).symm b =
            (hinj.toPartialEquiv move live).symm (move b) := by rw [hmove]
        _ = b := (hinj.toPartialEquiv move live).left_inv hlive
    refine ⟨⟨⟨b, hlive, hmove⟩, ?_⟩, ?_⟩
    · show (hinj.toPartialEquiv move live).symm b ∈ ρ.source
      rwa [hleft]
    · show ρ.toPartialEquiv ((hinj.toPartialEquiv move live).symm b) = b
      rw [hleft, hfix]

end Naming

theorem Value.same_of_within (ρ : Naming P) (h : v.Within P) : v.Same ρ v := by
  cases v with
  | ptr b offset =>
      obtain ⟨hsource, hfix⟩ := ρ.pinned b h
      exact ⟨hsource, by rw [relocate]; exact congrArg (ptr · offset) hfix.symm⟩
  | _ => exact ⟨trivial, rfl⟩

theorem StackWords.Same.symm {ws ws' : StackWords} (h : ws.Same ρ ws') : ws'.Same ρ.symm ws :=
  List.Forall₂.flip (h.imp fun _ _ hw => Related.flip hw fun _ _ hv => Value.Moved.symm hv)

theorem Machine.Same.symm (h : m.Same ρ m') : m'.Same ρ.symm m where
  heap := Heap.Moved.symm h.heap
  accu := Value.Moved.symm h.accu
  env := Value.Moved.symm h.env
  extraArgs := h.extraArgs.symm
  stack := StackWords.Same.symm h.stack
  camlGlobalData := Value.Moved.symm h.camlGlobalData
  camlStackThreshold := h.camlStackThreshold.symm
  camlTrapsp := h.camlTrapsp.symm
  nextExceptionContext := h.nextExceptionContext.symm
  buffers := h.buffers.symm
  currentBufferIndex := h.currentBufferIndex.symm
  camlExternalRaise := h.camlExternalRaise.symm

/-! ### Collections -/

/-- A collection on the left. -/
theorem Machine.Same.reserve_left (hrt : rt.Keeps P) (h : m.Same ρ m') :
    ∃ (ρ₁ : Naming P) (m₁ : Machine), m.reserve rt = some m₁ ∧ m₁.Same ρ₁ m' := by
  unfold Machine.reserve
  split
  · exact ⟨ρ, _, rfl, { h with }⟩
  · next c hc =>
      obtain ⟨live, hrelocates, hpinned⟩ := hrt _ _ hc
      let κ : Renaming := hrelocates.heap.injective.toPartialEquiv c.move live
      have hκ : Heap.Moved κ.source κ m.heap c.heap := hrelocates.heap
      have hmoved : ∀ {v v' : Value}, v.Within live → v.Same ρ v' →
          (v.relocate c.move).Same (ρ.afterCollection hrelocates.heap.injective hpinned) v' :=
        fun hv hvv' => (Value.Moved.symm (hv.moved c.move : Value.Moved κ.source κ _ _)).trans hvv'
      have hwords : ∀ ws ws' : StackWords, (∀ v, some v ∈ ws → v.Within live) → ws.Same ρ ws' →
          (ws.relocate c.move).Same (ρ.afterCollection hrelocates.heap.injective hpinned) ws' := by
        intro ws ws' hlive hws
        induction hws with
        | nil => exact .nil
        | cons hw _ ih =>
            refine .cons ?_ (ih fun v hv => hlive v (List.mem_cons_of_mem _ hv))
            cases hw with
            | some hv => exact .some (hmoved (hlive _ List.mem_cons_self) hv)
            | none => exact .none
      refine ⟨_, _, rfl,
        { h with
          heap := hκ.symm.trans h.heap
          accu := hmoved (hrelocates.stack _ List.mem_cons_self) h.accu
          env := hmoved (hrelocates.stack _ (List.mem_cons_of_mem _ List.mem_cons_self)) h.env
          stack := hwords _ _ (fun v hv => ?_) h.stack
          camlGlobalData := hmoved hrelocates.camlGlobalData h.camlGlobalData }⟩
      exact hrelocates.stack v (List.mem_cons_of_mem _ (List.mem_cons_of_mem _ hv))

/-- The addresses of the new blocks are renamed into each other. -/
theorem Machine.Same.allocate (h : m.Same ρ m') (wosize tag : Nat) : ∃ ρ₁ : Naming P,
    (m.allocate wosize tag).1.Same ρ₁ (m'.allocate wosize tag).1 ∧
      (m.allocate wosize tag).2.Same ρ₁ (m'.allocate wosize tag).2 := by
  have hblock : Block.Moved ρ.source ρ.toPartialEquiv ⟨tag, List.replicate wosize none⟩
      ⟨tag, List.replicate wosize none⟩ := ⟨rfl, Related.replicate wosize .none⟩
  obtain ⟨hheap, hmove⟩ := h.heap.append hblock
  have hlive := Set.subset_insert m.heap.length ρ.source
  let ρ₁ : Naming P :=
    { toPartialEquiv := hheap.injective.toPartialEquiv _ _
      pinned := fun b hb => by
        obtain ⟨hsource, hfix⟩ := ρ.pinned b hb
        exact ⟨hlive hsource, (hmove hsource).symm.trans hfix⟩ }
  have hnew : (Value.ptr m.heap.length 0).Same ρ₁ _ := .ptr (Set.mem_insert _ _) 0
  refine ⟨ρ₁, ?_,
    { h with
      heap := hheap
      accu := h.accu.mono hlive hmove
      env := h.env.mono hlive hmove
      stack := wordsMoved_mono h.stack hlive hmove
      camlGlobalData := h.camlGlobalData.mono hlive hmove }⟩
  have heq : ρ₁.toPartialEquiv m.heap.length = m'.heap.length := Function.update_self ..
  rwa [heq] at hnew

namespace Machine

/-- A block and the state behind its allocation. -/
def Allocated (P : Set Nat) (p p' : Value × Machine) : Prop :=
  ∃ ρ : Naming P, p.1.Same ρ p'.1 ∧ p.2.Same ρ p'.2

namespace Same

theorem upTo (h : m.Same ρ m') : m.SameUpTo P m' := ⟨ρ, h⟩

theorem optionUpTo {x y : Option Machine} (h : Option.Rel (Same ρ) x y) :
    Option.Rel (SameUpTo P) x y := Related.mono h fun _ _ h => ⟨ρ, h⟩

variable (hrt : rt.Interchangeable P rt') (h : m.Same ρ m')

include hrt h

theorem reserve : Option.Rel (SameUpTo P) (m.reserve rt) (m'.reserve rt') := by
  obtain ⟨ρ₁, m₁, hreserve, h₁⟩ := h.reserve_left hrt.keeps
  obtain ⟨ρ₂, m₂, hreserve', h₂⟩ := h₁.symm.reserve_left hrt.keeps'
  rw [hreserve, hreserve']
  exact .some ⟨ρ₂.symm, h₂.symm⟩

theorem allocSmall (wosize tag : Nat) :
    Option.Rel (Allocated P) (m.allocSmall rt wosize tag) (m'.allocSmall rt' wosize tag) := by
  refine Related.bind (h.reserve hrt) ?_
  rintro m₁ m₁' ⟨ρ₁, h₁⟩
  exact .some (h₁.allocate wosize tag)

theorem allocBlock (wosize tag : Nat) :
    Option.Rel (Allocated P) (m.allocBlock rt wosize tag) (m'.allocBlock rt' wosize tag) :=
  Related.ite Iff.rfl (fun _ => h.allocSmall hrt wosize tag) fun _ => .some (h.allocate wosize tag)

theorem makeBlock1 (tag : Nat) :
    Option.Rel (SameUpTo P) (m.makeBlock1 rt tag) (m'.makeBlock1 rt' tag) := by
  refine Related.bind (h.allocSmall hrt 1 tag) ?_
  rintro ⟨block, m₁⟩ ⟨block', m₁'⟩ ⟨ρ₁, hblock, h₁⟩
  exact Related.bind (h₁.setField hblock 0 h₁.accu) fun _ _ h => .some (h.setAccu hblock).upTo

theorem makeBlock2 (tag : Nat) :
    Option.Rel (SameUpTo P) (m.makeBlock2 rt tag) (m'.makeBlock2 rt' tag) := by
  refine Related.bind (h.allocSmall hrt 2 tag) ?_
  rintro ⟨block, m₁⟩ ⟨block', m₁'⟩ ⟨ρ₁, hblock, h₁⟩
  exact Related.bind (h₁.setField hblock 0 h₁.accu) fun _ _ h => Related.bind (h.slot 0) fun _ _ hv =>
    Related.bind (h.setField hblock 1 hv) fun _ _ h => Related.bind (h.raiseSp 1) fun _ _ h =>
      .some (h.setAccu hblock).upTo

theorem makeBlock3 (tag : Nat) :
    Option.Rel (SameUpTo P) (m.makeBlock3 rt tag) (m'.makeBlock3 rt' tag) := by
  refine Related.bind (h.allocSmall hrt 3 tag) ?_
  rintro ⟨block, m₁⟩ ⟨block', m₁'⟩ ⟨ρ₁, hblock, h₁⟩
  exact Related.bind (h₁.setField hblock 0 h₁.accu) fun _ _ h => Related.bind (h.slot 0) fun _ _ hv =>
    Related.bind (h.setField hblock 1 hv) fun _ _ h => Related.bind (h.slot 1) fun _ _ hw =>
      Related.bind (h.setField hblock 2 hw) fun _ _ h => Related.bind (h.raiseSp 2) fun _ _ h =>
        .some (h.setAccu hblock).upTo

theorem makeBlock (tag wosize : Nat) :
    Option.Rel (SameUpTo P) (m.makeBlock rt tag wosize) (m'.makeBlock rt' tag wosize) := by
  refine Related.bind (h.allocBlock hrt wosize tag) ?_
  rintro ⟨block, m₁⟩ ⟨block', m₁'⟩ ⟨ρ₁, hblock, h₁⟩
  exact Related.bind (h₁.setField hblock 0 h₁.accu) fun _ _ h =>
    Related.bind (h.fillFromStack hblock 1 (wosize - 1)) fun _ _ h => .some (h.setAccu hblock).upTo

theorem makeFloatBlock (size : Nat) :
    Option.Rel (SameUpTo P) (m.makeFloatBlock rt size) (m'.makeFloatBlock rt' size) := by
  refine Related.bind (h.allocBlock hrt size doubleArrayTag) ?_
  rintro ⟨block, m₁⟩ ⟨block', m₁'⟩ ⟨ρ₁, hblock, h₁⟩
  refine Related.bind (h₁.heap.doubleVal h₁.accu) fun d d' hd => ?_
  obtain rfl := hd
  exact Related.bind (h₁.setField hblock 0 ⟨trivial, rfl⟩) fun _ _ h =>
    Related.bind (h.fillDoubles hblock 1 (size - 1)) fun _ _ h => .some (h.setAccu hblock).upTo

theorem getDoubleField (idx : Int) :
    Option.Rel (SameUpTo P) (m.getDoubleField rt idx) (m'.getDoubleField rt' idx) := by
  refine Related.bind (h.field h.accu idx) fun v v' hv => ?_
  obtain ⟨-, rfl⟩ := hv
  cases v with
  | raw d =>
      refine Related.bind (h.allocSmall hrt 1 doubleTag) ?_
      rintro ⟨block, m₁⟩ ⟨block', m₁'⟩ ⟨ρ₁, hblock, h₁⟩
      exact Related.bind (h₁.setField hblock 0 ⟨trivial, rfl⟩) fun _ _ h =>
        .some (h.setAccu hblock).upTo
  | _ => exact .none

omit hrt in
theorem pushIf (c : Prop) [Decidable c] :
    Same ρ (if c then m.pushWord m.accu else m) (if c then m'.pushWord m'.accu else m') := by
  split
  · exact h.pushWord h.accu
  · exact h

theorem closure (nvars : Nat) (code : CodePtr) :
    Option.Rel (SameUpTo P) (m.closure rt nvars code) (m'.closure rt' nvars code) := by
  refine Related.bind ((h.pushIf _).allocSmall hrt (1 + nvars) closureTag) ?_
  rintro ⟨block, m₁⟩ ⟨block', m₁'⟩ ⟨ρ₁, hblock, h₁⟩
  exact Related.bind ((h₁.setAccu hblock).setField hblock 0 ⟨trivial, rfl⟩) fun _ _ h =>
    Related.bind (h.copySlots hblock 1 0 nvars) fun _ _ h => optionUpTo (h.raiseSp nvars)

theorem closureRec (nfuncs nvars : Nat) (code : CodePtr) :
    Option.Rel (SameUpTo P) (m.closureRec rt nfuncs nvars code)
      (m'.closureRec rt' nfuncs nvars code) := by
  refine Related.bind ((h.pushIf _).allocSmall hrt (nfuncs * 2 - 1 + nvars) closureTag) ?_
  rintro ⟨block, m₁⟩ ⟨block', m₁'⟩ ⟨ρ₁, hblock, h₁⟩
  exact Related.bind ((h₁.setAccu hblock).copySlots hblock (nfuncs * 2 - 1) 0 nvars) fun _ _ h =>
    Related.bind (h.raiseSp nvars) fun _ _ h =>
      Related.bind (h.setField hblock 0 ⟨trivial, rfl⟩) fun _ _ h => .some (h.pushWord hblock).upTo

theorem createRestartClosure (code : CodePtr) :
    Option.Rel (SameUpTo P) (m.createRestartClosure rt code) (m'.createRestartClosure rt' code) := by
  unfold Machine.createRestartClosure
  rw [h.extraArgs]
  refine Related.bind (h.allocSmall hrt _ closureTag) ?_
  rintro ⟨block, m₁⟩ ⟨block', m₁'⟩ ⟨ρ₁, hblock, h₁⟩
  exact Related.bind ((h₁.setAccu hblock).setField hblock 1 h₁.env) fun _ _ h =>
    Related.bind (h.copySlots hblock 2 0 _) fun _ _ h =>
      Related.bind (h.setField hblock 0 ⟨trivial, rfl⟩) fun _ _ h =>
        Related.bind (h.raiseSp _) fun _ _ h => Related.bind (h.slot 1) fun _ _ henv =>
          Related.bind (h.slot 2) fun _ _ hv => Related.bindEq hv.longVal_eq fun _ =>
            Related.bind (h.raiseSp 3) fun _ _ h =>
              .some ⟨ρ₁, { h with env := henv, extraArgs := rfl }⟩

omit hrt in
theorem setClosureRecNestedClos (idx : Nat) (code : CodePtr) :
    Option.Rel (Same ρ) (m.setClosureRecNestedClos idx code)
      (m'.setClosureRecNestedClos idx code) :=
  Related.bind (h.setField h.accu _ ⟨trivial, rfl⟩) fun _ _ h =>
    Related.bind (h.setField h.accu _ ⟨trivial, rfl⟩) fun _ _ h =>
      Related.bind (h.accu.shiftPtr _) fun _ _ hptr => .some (h.pushWord hptr)

end Same

end Machine

end CamllVM
