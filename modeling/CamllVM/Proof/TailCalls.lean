import CamllVM.Proof.Renaming
import CamllVM.Proof.Returns

/-!
# Tail calls

A tail call puts its arguments before the extra arguments of the function that it ends. The call of
the same closure with a frame of its own comes back to that function first, whose `RETURN` then
applies the result to the extra arguments. Both ways lead to the same return, whatever the arities of
the functions on the way are.
-/

namespace CamllVM

/-- Values that are the same up to the addresses of blocks. -/
abbrev ValuesMoved (ρ : Renaming) : List Value → List Value → Prop :=
  List.Forall₂ (Value.Moved ρ.source ρ)

/-- What the body of a function does depends on nothing but its arguments and its environment, with
the memory that they lead to. It does not depend on the words below them, the extra arguments, the
callers and the addresses of blocks. -/
def Program.DependsOnArgs (P : Program) (rt : Runtime) : Prop :=
  ∀ (id : Int) (code : List ZInstruction) (last : ZInstruction) (args args' : List Value)
    (below below' : StackWords) (s s₁ s' : Exec) (vs : List Value) (new : List (Nat → Nat))
    (ρ : Renaming), P.path id code last → args.length = (P.callee id).arity → s.fn = id →
    s'.fn = id → BodyRun rt code last args below s s₁ vs new →
    s'.machine.stack = args'.map some ++ below' → ValuesMoved ρ args args' →
    s.machine.env.Moved ρ.source ρ s'.machine.env → s.machine.Alike ρ s'.machine →
    ∃ s₁' vs' new' ρ₁, BodyRun rt code last args' below' s' s₁' vs' new' ∧
      s₁.machine.Alike ρ₁ s₁'.machine ∧
      s₁.machine.accu.Moved ρ₁.source ρ₁ s₁'.machine.accu ∧ ValuesMoved ρ₁ vs vs' ∧
      Kept ρ ρ₁ new new' below below'

/-- Two machines apply closures of the same function to the same arguments, up to the addresses of
blocks. Some of the arguments may be remembered on one side and passed on the other one. -/
inductive SameCall (ρ : Renaming) (m m' : Machine) : List Value → List Value → Prop
  | same {args args' : List Value} : m.accu.Moved ρ.source ρ m'.accu → ValuesMoved ρ args args' →
      SameCall ρ m m' args args'
  | regrouped {id : Int} {f f' : Value} {ws ws' args args' : List Value} :
      Remembers m.heap id m.accu f ws → Remembers m'.heap id m'.accu f' ws' →
      f.Moved ρ.source ρ f' → ValuesMoved ρ (ws ++ args) (ws' ++ args') → args ≠ [] → args' ≠ [] →
      SameCall ρ m m' args args'

/-- Two returns with the same value up to the addresses of blocks. The words for the returns and those
below them that were the same are still the same. -/
structure SameEnd (ρ ρ₁ : Renaming) (new new' : List (Nat → Nat)) (ret ret' : RetFrame)
    (t t' : Exec) : Prop where
  alike : t.machine.Alike ρ₁ t'.machine
  accu : t.machine.accu.Moved ρ₁.source ρ₁ t'.machine.accu
  kept : Kept ρ ρ₁ new new' ret.words ret'.words

def Exec.pushArgs (s : Exec) (args : List Value) : Exec :=
  { s with machine := s.machine.withStack (args.map some ++ s.machine.stack) }

/-- All pointers that can be followed from the registers, the stack and the global data lead to blocks
of `live`. -/
def Machine.Rooted (live : Set Nat) (m : Machine) : Prop :=
  Collection.Relocates ⟨fun b => b, m.heap⟩ live m

/-- Two states are the same up to the addresses of blocks. -/
structure SameReturn (ρ : Renaming) (s s' : Exec) : Prop where
  alike : s.machine.Alike ρ s'.machine
  accu : s.machine.accu.Moved ρ.source ρ s'.machine.accu
  env : s.machine.env.Moved ρ.source ρ s'.machine.env
  stack : List.Forall₂ (WordMoved ρ.source ρ) s.machine.stack s'.machine.stack
  extraArgs : s'.machine.extraArgs = s.machine.extraArgs
  fn : s'.fn = s.fn
  callers : s'.callers = s.callers

variable {P : Program} {rt : Runtime} {inst inst' last : ZInstruction} {s s' s₁ s₂ t t' : Exec}
  {m m' m₁ : Machine} {ret ret' : RetFrame} {args args' as us us' vs ws : List Value}
  {f v v' : Value} {ρ ρ₁ : Renaming} {new new' : List (Nat → Nat)} {heap heap' : Heap}
  {id fn : Int} {callers : List Int} {locals : StackWords}

/-! ### Values and closures -/

theorem ValuesMoved.append {vs' : List Value} (h : ValuesMoved ρ us us') (h' : ValuesMoved ρ vs vs') :
    ValuesMoved ρ (us ++ vs) (us' ++ vs') := List.rel_append h h'

theorem ValuesMoved.symm (h : ValuesMoved ρ us us') : ValuesMoved ρ.symm us' us :=
  List.Forall₂.flip (h.imp fun _ _ hv => hv.symm)

theorem ValuesMoved.map_left {g : Value → Value} (h : ValuesMoved ρ us us')
    (hg : ∀ v ∈ us, ∀ v' : Value, v.Moved ρ.source ρ v' → (g v).Moved ρ₁.source ρ₁ v') :
    ValuesMoved ρ₁ (us.map g) us' := by
  induction h with
  | nil => exact .nil
  | cons hv _ ih =>
      refine .cons (hg _ List.mem_cons_self _ hv) (ih fun v hv => hg v (List.mem_cons_of_mem _ hv))

theorem ValuesMoved.split (h : ValuesMoved ρ (as ++ us) args') :
    ∃ as' us', args' = as' ++ us' ∧ ValuesMoved ρ as as' ∧ ValuesMoved ρ us us' := by
  refine ⟨args'.take as.length, args'.drop as.length, (List.take_append_drop _ _).symm, ?_, ?_⟩
  · have htake := List.forall₂_take as.length h
    rwa [List.take_left] at htake
  · have hdrop := List.forall₂_drop as.length h
    rwa [List.drop_left] at hdrop

theorem Heap.Moved.field_eq (h : Heap.Moved ρ.source ρ heap heap') (hv : v.Moved ρ.source ρ v')
    {i : Int} {w : Value} (hw : heap.field v i = some w) :
    w.Within ρ.source ∧ heap'.field v' i = some (w.relocate ρ) := by
  have hfield := h.field hv i
  rw [hw] at hfield
  generalize heap'.field v' i = w' at hfield
  cases hfield with
  | some hmoved => exact ⟨hmoved.within, congrArg some hmoved.eq⟩

theorem Remembers.moved (h : Remembers heap id v f ws) (hheap : Heap.Moved ρ.source ρ heap heap')
    (hv : v.Moved ρ.source ρ v') :
    ∃ f' ws', Remembers heap' id v' f' ws' ∧ f.Moved ρ.source ρ f' ∧ ValuesMoved ρ ws ws' := by
  cases ws with
  | nil =>
      obtain ⟨rfl, hcode⟩ := h
      exact ⟨v', [], ⟨rfl, (hheap.field_eq hv hcode).2⟩, hv, .nil⟩
  | cons w ws =>
      obtain ⟨hcode, hsize, henv, hargs⟩ := h
      obtain ⟨hwithin, henv'⟩ := hheap.field_eq hv henv
      refine ⟨f.relocate ρ, (w :: ws).map (Value.relocate ρ), ⟨(hheap.field_eq hv hcode).2, ?_, henv',
        fun i hi => ?_⟩, ⟨hwithin, rfl⟩, Related.map fun x hx => ⟨?_, rfl⟩⟩
      · rw [hheap.wosizeVal hv, hsize, List.length_cons, List.length_cons, List.length_map]
      · rw [← List.map_cons, List.length_map] at hi
        rw [(hheap.field_eq hv (hargs i hi)).2]
        simp only [← List.map_cons, List.getElem_map]
      · obtain ⟨i, hi, rfl⟩ := List.mem_iff_getElem.mp hx
        exact (hheap.field_eq hv (hargs i hi)).1

theorem Remembers.unique {id' : Int} {f' : Value} {ws' : List Value} (h : Remembers heap id v f ws)
    (h' : Remembers heap id' v f' ws') : id' = id ∧ f' = f ∧ ws' = ws := by
  cases ws with
  | nil =>
      obtain ⟨rfl, hcode⟩ := h
      cases ws' with
      | nil =>
          obtain ⟨rfl, hcode'⟩ := h'
          cases hcode.symm.trans hcode'
          exact ⟨rfl, rfl, rfl⟩
      | cons w' ws' => cases hcode.symm.trans h'.1
  | cons w ws =>
      obtain ⟨hcode, hsize, henv, hargs⟩ := h
      cases ws' with
      | nil =>
          obtain ⟨rfl, hcode'⟩ := h'
          cases hcode.symm.trans hcode'
      | cons w' ws' =>
          obtain ⟨hcode', hsize', henv', hargs'⟩ := h'
          cases hcode.symm.trans hcode'
          have hlength : (w' :: ws').length = (w :: ws).length :=
            Nat.add_right_cancel (Option.some.inj (hsize'.symm.trans hsize))
          refine ⟨rfl, Option.some.inj (henv'.symm.trans henv), List.ext_getElem hlength ?_⟩
          exact fun i hi hi' => Option.some.inj ((hargs' i hi).symm.trans (hargs i hi'))

theorem SameCall.remembers (h : SameCall ρ m m' args args') (halike : m.Alike ρ m')
    (hargs : args ≠ []) (hremembers : Remembers m.heap id m.accu f ws) :
    args' ≠ [] ∧ ∃ f' ws', Remembers m'.heap id m'.accu f' ws' ∧ f.Moved ρ.source ρ f' ∧
      ValuesMoved ρ (ws ++ args) (ws' ++ args') := by
  cases h with
  | same haccu hvalues =>
      obtain ⟨f', ws', hremembers', hf, hws⟩ := hremembers.moved halike.heap haccu
      refine ⟨fun hnil => hargs ?_, f', ws', hremembers', hf, hws.append hvalues⟩
      rw [hnil] at hvalues
      exact List.forall₂_nil_right_iff.mp hvalues
  | regrouped h₀ h₀' hf hvalues _ hargs' =>
      obtain ⟨rfl, rfl, rfl⟩ := h₀.unique hremembers
      exact ⟨hargs', _, _, h₀', hf, hvalues⟩

/-! ### Machines -/

theorem Machine.SameMemory.alike (h : m.SameMemory m₁) (halike : m.Alike ρ m') : m₁.Alike ρ m' where
  heap := h.heap ▸ halike.heap
  camlGlobalData := h.camlGlobalData ▸ halike.camlGlobalData
  handlers := by
    obtain ⟨h₁, h₂, h₃, h₄, h₅⟩ := h.handlers
    obtain ⟨h₁', h₂', h₃', h₄', h₅'⟩ := halike.handlers
    exact ⟨h₁'.trans h₁.symm, h₂'.trans h₂.symm, h₃'.trans h₃.symm, h₄'.trans h₄.symm,
      h₅'.trans h₅.symm⟩

theorem Machine.SameMemory.alike_both (h : m.SameMemory m₁) {m₁' : Machine} (h' : m'.SameMemory m₁')
    (halike : m.Alike ρ m') : m₁.Alike ρ m₁' :=
  (h'.alike (h.alike halike).symm).symm

theorem Machine.Alike.partiallyApplied_left (h : m.Alike ρ m') (code : CodePtr) (args : List Value)
    (env : Value) (extraArgs : Int) (rest : StackWords) :
    (m.partiallyApplied code args env extraArgs rest).Alike ρ m' where
  heap := h.heap.append_left _
  camlGlobalData := h.camlGlobalData
  handlers := by
    obtain ⟨h₁, h₂, h₃, h₄, h₅⟩ := h.handlers
    exact ⟨h₁, h₂, h₃, h₄, h₅⟩

theorem Machine.Alike.partiallyApplied (h : m.Alike ρ m') (henv : m.env.Moved ρ.source ρ m'.env)
    (hargs : ValuesMoved ρ args args') (code : CodePtr) (ret ret' : RetFrame) :
    ∃ ρ₁, (m.partiallyApplied code args ret.env ret.extraArgs ret.below).Alike ρ₁
        (m'.partiallyApplied code args' ret'.env ret'.extraArgs ret'.below) ∧
      (Value.ptr m.heap.length 0).Moved ρ₁.source ρ₁ (.ptr m'.heap.length 0) ∧
      ∀ v v' : Value, v.Moved ρ.source ρ v' → v.Moved ρ₁.source ρ₁ v' := by
  have hblock : Block.Moved ρ.source ρ ⟨closureTag, some (.code code) :: some m.env :: args.map some⟩
      ⟨closureTag, some (.code code) :: some m'.env :: args'.map some⟩ := by
    refine ⟨rfl, .cons (.some ⟨trivial, rfl⟩) (.cons (.some henv) ?_)⟩
    exact List.forall₂_map_left_iff.mpr (List.forall₂_map_right_iff.mpr
      (hargs.imp fun _ _ hv => .some hv))
  obtain ⟨hheap, hmove⟩ := h.heap.append hblock
  have hlive := Set.subset_insert m.heap.length ρ.source
  let ρ₁ : Renaming := hheap.injective.toPartialEquiv _ _
  obtain ⟨h₁, h₂, h₃, h₄, h₅⟩ := h.handlers
  refine ⟨ρ₁, ⟨hheap, h.camlGlobalData.mono hlive hmove, h₁, h₂, h₃, h₄, h₅⟩,
    ⟨Set.mem_insert _ _, ?_⟩, fun v v' hv => hv.mono hlive hmove⟩
  show Value.ptr m'.heap.length 0 = .ptr (Function.update ρ m.heap.length m'.heap.length _) 0
  rw [Function.update_self]

/-! ### Bodies on both sides -/

theorem mem_map_some_append {v : Value} {vs : List Value} (h : v ∈ vs) (words : StackWords) :
    some v ∈ vs.map some ++ words := List.mem_append_left _ (List.mem_map_of_mem h)

/-- If one side runs through the body of a function the other side does so too, with the same
arguments for the function and whatever is left. -/
theorem Passes.body_both (hgrows : rt.Grows) (hdepends : P.DependsOnArgs rt) {as' : List Value}
    {ws' : List Value} {f' : Value} {code : List ZInstruction} (halike : s.machine.Alike ρ s'.machine)
    (hpasses : Passes inst s.machine args ret) (hargs : args ≠ [])
    (hremembers : Remembers s.machine.heap id s.machine.accu f ws) (hsplit : ws ++ args = as ++ us)
    (harity : as.length = (P.callee id).arity) (hstep : s.step rt inst = some s₁)
    (hgrab : s₁.grab rt (P.callee id) = some s₂) (hpath : P.path id code last)
    (hbody : BodyRun rt code last as (us.map some ++ ret.words) s₂ t vs new)
    (hpasses' : Passes inst' s'.machine args' ret') (hargs' : args' ≠ [])
    (hremembers' : Remembers s'.machine.heap id s'.machine.accu f' ws')
    (hsplit' : ws' ++ args' = as' ++ us') (has : ValuesMoved ρ as as')
    (hf : f.Moved ρ.source ρ f') :
    ∃ s₁' s₂' t' vs' new' ρ₁, s'.step rt inst' = some s₁' ∧
      s₁'.grab rt (P.callee id) = some s₂' ∧
      BodyRun rt code last as' (us'.map some ++ ret'.words) s₂' t' vs' new' ∧
      Passes last t'.machine (vs' ++ us'.map (Value.relocate (moveAll new')))
        (ret'.relocate (moveAll new')) ∧
      t'.waiting last = s'.waiting inst' ∧ t.machine.Alike ρ₁ t'.machine ∧
      t.machine.accu.Moved ρ₁.source ρ₁ t'.machine.accu ∧ ValuesMoved ρ₁ vs vs' ∧
      Kept ρ ρ₁ new new' (us.map some ++ ret.words) (us'.map some ++ ret'.words) := by
  obtain ⟨s₁₀, s₂₀, hstep₀, hgrab₀, hin⟩ :=
    hpasses.enterBody hgrows hargs (P.callee_id id) hremembers hsplit harity
  obtain rfl : s₁ = s₁₀ := Option.some.inj (hstep.symm.trans hstep₀)
  obtain rfl : s₂ = s₂₀ := Option.some.inj (hgrab.symm.trans hgrab₀)
  obtain ⟨s₁', s₂', hstep', hgrab', hin'⟩ := hpasses'.enterBody hgrows hargs' (P.callee_id id)
    hremembers' hsplit' (has.length_eq.symm.trans harity)
  have henv : s₂.machine.env.Moved ρ.source ρ s₂'.machine.env := by
    rw [hin.env, hin'.env]
    exact hf
  obtain ⟨t', vs', new', ρ₁, hbody', halike₁, haccu, hvs, hkept⟩ :=
    hdepends id code last as as' _ _ s₂ t s₂' vs new ρ hpath harity (hin.fn.trans (P.callee_id id))
      (hin'.fn.trans (P.callee_id id)) hbody hin'.stack has henv
      (hin.memory.alike_both hin'.memory halike)
  exact ⟨s₁', s₂', t', vs', new', ρ₁, hstep', hgrab', hbody', hbody'.passes hin'.extraArgs,
    hbody'.waiting.trans hin'.callers, halike₁, haccu, hvs, hkept⟩

/-- If one side returns with a closure for too few arguments the other side does so too. -/
theorem Passes.partial_both (hgrows : rt.Grows) (hrt : rt.Relocates) {ws' : List Value} {f' : Value}
    (halike : s.machine.Alike ρ s'.machine) (hpasses : Passes inst s.machine args ret)
    (hargs : args ≠ []) (hremembers : Remembers s.machine.heap id s.machine.accu f ws)
    (hlt : (ws ++ args).length < (P.callee id).arity) (hstep : s.step rt inst = some s₁)
    (hgrab : s₁.grab rt (P.callee id) = some t) (hwaiting : s.waiting inst = t.fn :: t.callers)
    (hmoves : t.machine.moves = new ++ s.machine.moves)
    (hpasses' : Passes inst' s'.machine args' ret') (hargs' : args' ≠ [])
    (hremembers' : Remembers s'.machine.heap id s'.machine.accu f' ws')
    (hwaiting' : s'.waiting inst' = fn :: callers) (hf : f.Moved ρ.source ρ f')
    (hvalues : ValuesMoved ρ (ws ++ args) (ws' ++ args')) :
    ∃ new' t' ρ₁, Returns P rt s' inst' args' ret' new' t' ∧
      SameEnd ρ ρ₁ new new' ret ret' t t' := by
  have hlt' : (ws' ++ args').length < (P.callee id).arity := hvalues.length_eq ▸ hlt
  obtain ⟨s₁₀, hstep₀, hmemory, hmoves₁, henv, hstack, hreturn⟩ :=
    hpasses.enterPartial hgrows hargs (P.callee_id id) hremembers hlt hwaiting
  obtain rfl : s₁ = s₁₀ := Option.some.inj (hstep.symm.trans hstep₀)
  obtain ⟨s₁', hstep', hmemory', hmoves₁', henv', hstack', hreturn'⟩ :=
    hpasses'.enterPartial hgrows hargs' (P.callee_id id) hremembers' hlt' hwaiting'
  obtain ⟨m₁, m₁', new₀, new', ρ₁, hreserve, hreserve', hcollected, hcollected', halike₁, hkept⟩ :=
    (hmemory.alike_both hmemory' halike).reserve_both hrt
  obtain ⟨t₀, hgrab₀, -, -, -, hmachine⟩ := hreturn m₁ new₀ hreserve hcollected
  obtain rfl : t = t₀ := Option.some.inj (hgrab.symm.trans hgrab₀)
  obtain ⟨t', hgrab', hfn', hcallers', hreturned'⟩ := hreturn' m₁' new' hreserve' hcollected'
  obtain rfl : new = new₀ := by
    refine List.append_cancel_right (hmoves.symm.trans ?_)
    rw [hmachine, ← hmoves₁]
    exact hcollected.moves
  have hmoves' : t'.machine.moves = new' ++ s'.machine.moves := by
    rw [hreturned'.machine, ← hmoves₁']
    exact hcollected'.moves
  have henvs : m₁.env.Moved ρ₁.source ρ₁ m₁'.env := by
    rw [hcollected.env, hcollected'.env, henv, henv']
    refine hkept f f' ?_ ?_ hf
    · rw [← henv]
      exact List.mem_cons_of_mem _ List.mem_cons_self
    · rw [← henv']
      exact List.mem_cons_of_mem _ List.mem_cons_self
  have hkept' : Kept ρ ρ₁ new new' ((ws ++ args).map some ++ ret.words)
      ((ws' ++ args').map some ++ ret'.words) := by
    rw [← hstack, ← hstack']
    exact hkept.sub (fun v hv => List.mem_cons_of_mem _ (List.mem_cons_of_mem _ hv)) fun v hv =>
      List.mem_cons_of_mem _ (List.mem_cons_of_mem _ hv)
  obtain ⟨ρ₂, halike₂, haccu, hmono⟩ := halike₁.partiallyApplied henvs
    (hkept'.values hvalues (fun v hv => mem_map_some_append hv _) fun v hv => mem_map_some_append hv _)
    (.restart (P.callee id).id) (ret.relocate (moveAll new)) (ret'.relocate (moveAll new'))
  refine ⟨new', t', ρ₂, .partialCall hpasses' hargs' hremembers' hlt' hstep' hgrab'
    hreturned'.waiting hmoves', ?_, ?_, fun v v' hv hv' hmoved => hmono _ _ (hkept' v v'
      (List.mem_append_right _ hv) (List.mem_append_right _ hv') hmoved)⟩
  · rw [hmachine, hreturned'.machine]
    exact halike₂
  · rw [hmachine, hreturned'.machine]
    exact haccu

/-- The return with a closure for too few arguments on one side only. -/
theorem Passes.partial_left (hgrows : rt.Grows) (hrt : rt.Relocates)
    (hpasses : Passes inst s.machine args ret) (hargs : args ≠ [])
    (hremembers : Remembers s.machine.heap id s.machine.accu f ws)
    (hlt : (ws ++ args).length < (P.callee id).arity) (hwaiting : s.waiting inst = fn :: callers)
    (halike : s.machine.Alike ρ m') :
    ∃ s₁ t new ρ₁, s.step rt inst = some s₁ ∧ s₁.grab rt (P.callee id) = some t ∧
      s.waiting inst = t.fn :: t.callers ∧ t.machine.moves = new ++ s.machine.moves ∧
      t.machine.Alike ρ₁ m' ∧
      Remembers t.machine.heap id t.machine.accu (f.relocate (moveAll new))
        ((ws ++ args).map (Value.relocate (moveAll new))) ∧
      ∀ v v' : Value, some v ∈ some f :: ((ws ++ args).map some ++ ret.words) →
        v.Moved ρ.source ρ v' → (v.relocate (moveAll new)).Moved ρ₁.source ρ₁ v' := by
  obtain ⟨s₁, hstep, hmemory, hmoves, henv, hstack, hreturn⟩ :=
    hpasses.enterPartial hgrows hargs (P.callee_id id) hremembers hlt hwaiting
  obtain ⟨m₁, new, ρ₁, hreserve, hcollected, halike₁, hkept⟩ :=
    (hmemory.alike halike).reserve hrt
  obtain ⟨t, hgrab, -, -, hreturned⟩ := hreturn m₁ new hreserve hcollected
  have hne : (ws ++ args).map (Value.relocate (moveAll new)) ≠ [] := fun hnil =>
    hargs (List.append_eq_nil_iff.mp (List.map_eq_nil_iff.mp hnil)).2
  have hclosure := remembers_partiallyApplied m₁ id _ hne (ret.relocate (moveAll new)).env
    ret.extraArgs (ret.relocate (moveAll new)).below
  refine ⟨s₁, t, new, ρ₁, hstep, hgrab, hreturned.waiting, ?_, ?_, ?_, fun v v' hv hmoved => ?_⟩
  · rw [hreturned.machine, ← hmoves]
    exact hcollected.moves
  · rw [hreturned.machine]
    exact halike₁.partiallyApplied_left _ _ _ _ _
  · rw [hreturned.machine, P.callee_id, ← henv, ← hcollected.env]
    exact hclosure
  · refine hkept v v' (List.mem_cons_of_mem _ ?_) hmoved
    rw [← henv, ← hstack] at hv
    exact hv

/-! ### Whole runs on both sides -/

/-- A run can be repeated in a state that passes the same arguments, whatever stands below them. -/
theorem Returns.transfer (hgrows : rt.Grows) (hrt : rt.Relocates) (hdepends : P.DependsOnArgs rt)
    (h : Returns P rt s inst args ret new t) (halike : s.machine.Alike ρ s'.machine)
    (hcall : SameCall ρ s.machine s'.machine args args') (hpasses' : Passes inst' s'.machine args' ret')
    (hwaiting' : s'.waiting inst' = fn :: callers) :
    ∃ new' t' ρ₁, Returns P rt s' inst' args' ret' new' t' ∧
      SameEnd ρ ρ₁ new new' ret ret' t t' := by
  induction h generalizing s' inst' args' ret' ρ with
  | @value s t inst ret hpasses hstep hwaiting =>
      cases hcall with
      | same haccu hvalues =>
          obtain rfl := List.forall₂_nil_left_iff.mp hvalues
          have ht := Option.some.inj (hstep.symm.trans (hpasses.return_ hwaiting))
          refine ⟨[], _, ρ, .value hpasses' (hpasses'.return_ hwaiting') hwaiting', ?_, ?_,
            Kept.refl ρ _ _⟩
          · obtain ⟨hheap, hdata, h₁, h₂, h₃, h₄, h₅⟩ := halike
            rw [ht]
            exact ⟨hheap, hdata, h₁, h₂, h₃, h₄, h₅⟩
          · rw [ht]
            exact haccu
      | regrouped _ _ _ _ hne => exact absurd rfl hne
  | partialCall hpasses hargs hremembers hlt hstep hgrab hwaiting hmoves =>
      obtain ⟨hargs', f', ws', hremembers', hf, hvalues⟩ := hcall.remembers halike hargs hremembers
      exact hpasses.partial_both hgrows hrt halike hargs hremembers hlt hstep hgrab hwaiting hmoves
        hpasses' hargs' hremembers' hwaiting' hf hvalues
  | body hpasses hargs hremembers hsplit harity hstep hgrab hpath hbody hrest ih =>
      obtain ⟨hargs', f', ws', hremembers', hf, hvalues⟩ := hcall.remembers halike hargs hremembers
      rw [hsplit] at hvalues
      obtain ⟨as', us', hsplit', has, hus⟩ := hvalues.split
      obtain ⟨s₁', s₂', s₃', vs', new₁', ρ₁, hstep', hgrab', hbody', hpasses₁, hwaiting₁, halike₁,
        haccu, hvs, hkept⟩ := hpasses.body_both hgrows hdepends halike hargs hremembers hsplit harity
          hstep hgrab hpath hbody hpasses' hargs' hremembers' hsplit' has hf
      have hus₁ := hkept.values hus (fun v hv => mem_map_some_append hv _)
        fun v hv => mem_map_some_append hv _
      obtain ⟨new₂', t', ρ₂, hreturns, halike₂, haccu₂, hkept₂⟩ :=
        ih halike₁ (.same haccu (hvs.append hus₁)) hpasses₁ (hwaiting₁.trans hwaiting')
      refine ⟨new₂' ++ new₁', t', ρ₂, .body hpasses' hargs' hremembers' hsplit'
        (has.length_eq.symm.trans harity) hstep' hgrab' hpath hbody' hreturns, halike₂, haccu₂, ?_⟩
      exact (hkept.sub (fun v hv => List.mem_append_right _ hv) fun v hv =>
        List.mem_append_right _ hv).trans hkept₂

/-- The call of a closure comes back to the frame with the arguments `us`, and the result is applied
to them. A run that passes them with the others at once leads to the same return. -/
theorem Returns.merge_extra (hgrows : rt.Grows) (hrt : rt.Relocates) (hdepends : P.DependsOnArgs rt)
    {inst₂ : ZInstruction} {ret₀ : RetFrame} {new₂ : List (Nat → Nat)} {t₂ : Exec}
    (h : Returns P rt s inst args ret new t) (hargs : args ≠ []) (hus : us ≠ [])
    (habove : ret.Above locals us ret₀)
    (h₂ : Returns P rt t inst₂ (us.map (Value.relocate (moveAll new)))
      (ret₀.relocate (moveAll new)) new₂ t₂)
    (halike : s.machine.Alike ρ s'.machine)
    (haccu : s.machine.accu.Moved ρ.source ρ s'.machine.accu) (hvalues : ValuesMoved ρ args args')
    (hmoved : ValuesMoved ρ us us') (hpasses' : Passes inst' s'.machine (args' ++ us') ret')
    (hwaiting' : s'.waiting inst' = fn :: callers) :
    ∃ new' t' ρ₁, Returns P rt s' inst' (args' ++ us') ret' new' t' ∧
      SameEnd ρ ρ₁ (new₂ ++ new) new' ret₀ ret' t₂ t' := by
  induction h generalizing s' inst' args' us us' ret' ret₀ ρ locals with
  | value => exact absurd rfl hargs
  | @partialCall s s₁ t inst id f ws args ret new hpasses _ hremembers hlt hstep hgrab hwaiting
      hmoves =>
      obtain ⟨f', ws', hremembers', hf, hws⟩ := hremembers.moved halike.heap haccu
      obtain ⟨s₁₀, t₀, new₀, ρ₁, hstep₀, hgrab₀, -, hmoves₀, halike₁, hclosure, hkept⟩ :=
        hpasses.partial_left hgrows hrt hargs hremembers hlt hwaiting halike
      obtain rfl : s₁ = s₁₀ := Option.some.inj (hstep.symm.trans hstep₀)
      obtain rfl : t = t₀ := Option.some.inj (hgrab.symm.trans hgrab₀)
      obtain rfl : new = new₀ := List.append_cancel_right (hmoves.symm.trans hmoves₀)
      have hframe : ∀ v, some v ∈ us.map some ++ ret₀.words →
          some v ∈ some f :: ((ws ++ args).map some ++ ret.words) := fun v hv =>
        List.mem_cons_of_mem _ (List.mem_append_right _ (habove.mem hv))
      have hvalues₁ := (hws.append hvalues).map_left fun v hv v' =>
        hkept v v' (List.mem_cons_of_mem _ (mem_map_some_append hv _))
      have hmoved₁ := hmoved.map_left fun v hv v' => hkept v v' (hframe v (mem_map_some_append hv _))
      -- The closure and the frame hold together what the other side passes at once.
      have hcall : SameCall ρ₁ t.machine s'.machine (us.map (Value.relocate (moveAll new)))
          (args' ++ us') := by
        refine .regrouped hclosure hremembers' (hkept f f' List.mem_cons_self hf) ?_ ?_ ?_
        · rw [← List.append_assoc]
          exact hvalues₁.append hmoved₁
        · rwa [Ne, List.map_eq_nil_iff]
        · exact fun hnil => hus (List.forall₂_nil_right_iff.mp
            ((List.append_eq_nil_iff.mp hnil).2 ▸ hmoved))
      obtain ⟨new', t', ρ₂, hreturns, halike₂, haccu₂, hkept₂⟩ :=
        h₂.transfer hgrows hrt hdepends halike₁ hcall hpasses' hwaiting'
      refine ⟨new', t', ρ₂, hreturns, halike₂, haccu₂, fun v v' hv hv' hvv' => ?_⟩
      rw [moveAll_append, ← Value.relocate_relocate]
      exact hkept₂ _ v' (StackWords.mem_relocate hv) hv'
        (hkept v v' (hframe v (List.mem_append_right _ hv)) hvv')
  | @body s s₁ s₂ s₃ t inst last code id f ws args as us₀ vs ret new new' hpasses _ hremembers hsplit
      harity hstep hgrab hpath hbody hrest ih =>
      obtain ⟨f', ws', hremembers', hf, hws⟩ := hremembers.moved halike.heap haccu
      have hvalues₀ : ValuesMoved ρ (ws ++ args) (ws' ++ args') := hws.append hvalues
      rw [hsplit] at hvalues₀
      obtain ⟨as', us₀', hsplit', has, hus₀⟩ := hvalues₀.split
      have hargs' : args' ++ us' ≠ [] := fun hnil => hargs (List.forall₂_nil_right_iff.mp
        ((List.append_eq_nil_iff.mp hnil).1 ▸ hvalues))
      have hsplit₁ : ws' ++ (args' ++ us') = as' ++ (us₀' ++ us') := by
        rw [← List.append_assoc, hsplit', List.append_assoc]
      obtain ⟨s₁', s₂', s₃', vs', new₁', ρ₁, hstep', hgrab', hbody', hpasses₁, hwaiting₁, halike₁,
        haccu₁, hvs, hkept⟩ := hpasses.body_both hgrows hdepends halike hargs hremembers hsplit harity
          hstep hgrab hpath hbody hpasses' hargs' hremembers' hsplit₁ has hf
      have hframe : ∀ v, some v ∈ us.map some ++ ret₀.words →
          some v ∈ us₀.map some ++ ret.words := fun v hv =>
        List.mem_append_right _ (habove.mem hv)
      have hus₀₁ := hkept.values hus₀ (fun v hv => mem_map_some_append hv _)
        fun v hv => mem_map_some_append (List.mem_append_left _ hv) _
      have hus₁ := hkept.values hmoved (fun v hv => hframe v (mem_map_some_append hv _))
        fun v hv => mem_map_some_append (List.mem_append_right _ hv) _
      have hkept₀ : Kept ρ ρ₁ new new₁' ret₀.words ret'.words :=
        hkept.sub (fun v hv => hframe v (List.mem_append_right _ hv)) fun v hv =>
          List.mem_append_right _ hv
      have hrest' : ∃ new₂' t' ρ₂, Returns P rt s₃' last
          (vs' ++ (us₀' ++ us').map (Value.relocate (moveAll new₁')))
          (ret'.relocate (moveAll new₁')) new₂' t' ∧ SameEnd ρ₁ ρ₂ (new₂ ++ new') new₂'
            (ret₀.relocate (moveAll new)) (ret'.relocate (moveAll new₁')) t₂ t' := by
        rw [List.map_append, ← List.append_assoc] at hpasses₁ ⊢
        have hleft := hvs.append hus₀₁
        by_cases hnil : vs ++ us₀.map (Value.relocate (moveAll new)) = []
        · -- The callee returns a value on the left, and the frame is used up next.
          rw [hnil] at hrest hleft
          rw [List.forall₂_nil_left_iff.mp hleft, List.nil_append] at hpasses₁ ⊢
          obtain ⟨rfl, hpassesᵥ, hstepᵥ, hwaitingᵥ⟩ := hrest.value_inv
          obtain ⟨hmemory, haccuᵥ⟩ := hpassesᵥ.return_memory hstepᵥ hwaitingᵥ
          rw [List.append_nil]
          exact h₂.transfer hgrows hrt hdepends (hmemory.alike halike₁)
            (.same (haccuᵥ ▸ haccu₁) hus₁) hpasses₁ (hwaiting₁.trans hwaiting')
        · rw [map_relocate_append, RetFrame.relocate_append] at h₂
          exact ih hnil (by rwa [Ne, List.map_eq_nil_iff]) (habove.relocate _) h₂ halike₁ haccu₁ hleft
            hus₁ hpasses₁ (hwaiting₁.trans hwaiting')
      obtain ⟨new₂', t', ρ₂, hreturns, halike₂, haccu₂, hkept₂⟩ := hrest'
      refine ⟨new₂' ++ new₁', t', ρ₂, .body hpasses' hargs' hremembers' hsplit₁
        (has.length_eq.symm.trans harity) hstep' hgrab' hpath hbody' hreturns, halike₂, haccu₂, ?_⟩
      rw [← List.append_assoc]
      exact hkept₀.trans hkept₂

/-- Without extra arguments the function returns what the call has returned. -/
theorem Returns.merge (hgrows : rt.Grows) (hrt : rt.Relocates) (hdepends : P.DependsOnArgs rt)
    {inst₂ : ZInstruction} {ret₀ : RetFrame} {new₂ : List (Nat → Nat)} {t₂ : Exec}
    (h : Returns P rt s inst args ret new t) (hargs : args ≠ [])
    (habove : ret.Above locals us ret₀)
    (h₂ : Returns P rt t inst₂ (us.map (Value.relocate (moveAll new)))
      (ret₀.relocate (moveAll new)) new₂ t₂)
    (halike : s.machine.Alike ρ s'.machine)
    (haccu : s.machine.accu.Moved ρ.source ρ s'.machine.accu) (hvalues : ValuesMoved ρ args args')
    (hmoved : ValuesMoved ρ us us') (hpasses' : Passes inst' s'.machine (args' ++ us') ret')
    (hwaiting' : s'.waiting inst' = fn :: callers) :
    ∃ new' t' ρ₁, Returns P rt s' inst' (args' ++ us') ret' new' t' ∧
      SameEnd ρ ρ₁ (new₂ ++ new) new' ret₀ ret' t₂ t' := by
  cases hmoved with
  | cons hv hmoved =>
      exact h.merge_extra hgrows hrt hdepends hargs (List.cons_ne_nil _ _) habove h₂ halike haccu hvalues
        (.cons hv hmoved) hpasses' hwaiting'
  | nil =>
      rw [List.append_nil] at hpasses' ⊢
      obtain ⟨rfl, hpasses₂, hstep₂, hwaiting₂⟩ := h₂.value_inv
      obtain ⟨hmemory, haccu₂⟩ := hpasses₂.return_memory hstep₂ hwaiting₂
      obtain ⟨new', t', ρ₁, hreturns, halike₁, haccu₁, hkept⟩ :=
        h.transfer hgrows hrt hdepends halike (.same haccu hvalues) hpasses' hwaiting'
      refine ⟨new', t', ρ₁, hreturns, hmemory.alike halike₁, haccu₂ ▸ haccu₁, ?_⟩
      exact hkept.sub (fun v hv => habove.mem hv) fun v hv => hv

/-- The call with too few arguments, and the rest of them passed to the closure that it returns. -/
theorem Returns.split_partial (hgrows : rt.Grows) (hrt : rt.Relocates)
    (hdepends : P.DependsOnArgs rt) {inst₂ : ZInstruction} {ret₀ ret₀' : RetFrame} {fn₁ : Int}
    (h : Returns P rt s inst (args ++ us) ret₀ new t) (hargs : args ≠ []) (hus : us ≠ [])
    (hremembers : Remembers s.machine.heap id s.machine.accu f ws)
    (hlt : (ws ++ args).length < (P.callee id).arity) (halike : s.machine.Alike ρ s'.machine)
    (haccu : s.machine.accu.Moved ρ.source ρ s'.machine.accu) (hvalues : ValuesMoved ρ args args')
    (hmoved : ValuesMoved ρ us us') (hpasses' : Passes inst' s'.machine args' ret')
    (habove : ret'.Above locals us' ret₀') (hwaiting' : s'.waiting inst' = fn₁ :: fn :: callers)
    (hop : inst₂.opNum = .return_) (hn : inst₂.countArg 0 = some locals.length) :
    ∃ new₁ t₁ new₂ t₂ ρ₁, Returns P rt s' inst' args' ret' new₁ t₁ ∧
      Returns P rt t₁ inst₂ (us'.map (Value.relocate (moveAll new₁)))
        (ret₀'.relocate (moveAll new₁)) new₂ t₂ ∧
      SameEnd ρ ρ₁ new (new₂ ++ new₁) ret₀ ret₀' t t₂ := by
  obtain ⟨f', ws', hremembers', hf, hws⟩ := hremembers.moved halike.heap haccu
  have hwords := hws.append hvalues
  have hargs' : args' ≠ [] := fun hnil => hargs (List.forall₂_nil_right_iff.mp (hnil ▸ hvalues))
  have hlt' : (ws' ++ args').length < (P.callee id).arity := hwords.length_eq ▸ hlt
  obtain ⟨s₁', t₁, new₁, ρ₁, hstep', hgrab', hwaiting₁, hmoves₁, halike₁, hclosure, hkept⟩ :=
    hpasses'.partial_left hgrows hrt hargs' hremembers' hlt' hwaiting' halike.symm
  have hfirst : Returns P rt s' inst' args' ret' new₁ t₁ :=
    .partialCall hpasses' hargs' hremembers' hlt' hstep' hgrab' hwaiting₁ hmoves₁
  have hframe : ∀ v, some v ∈ us'.map some ++ ret₀'.words →
      some v ∈ some f' :: ((ws' ++ args').map some ++ ret'.words) := fun v hv =>
    List.mem_cons_of_mem _ (List.mem_append_right _ (habove.mem hv))
  have hwords₁ := (hwords.symm.map_left fun v hv v' =>
    hkept v v' (List.mem_cons_of_mem _ (mem_map_some_append hv _))).symm
  have hmoved₁ := (hmoved.symm.map_left fun v hv v' =>
    hkept v v' (hframe v (mem_map_some_append hv _))).symm
  have hcall : SameCall ρ₁.symm s.machine t₁.machine (args ++ us)
      (us'.map (Value.relocate (moveAll new₁))) := by
    refine .regrouped hremembers hclosure (hkept f' f List.mem_cons_self hf.symm).symm ?_ ?_ ?_
    · rw [← List.append_assoc]
      exact hwords₁.append hmoved₁
    · exact fun hnil => hus (List.append_eq_nil_iff.mp hnil).2
    · rw [Ne, List.map_eq_nil_iff]
      exact fun hnil => hus (List.forall₂_nil_right_iff.mp (hnil ▸ hmoved))
  have hcallers : t₁.waiting inst₂ = fn :: callers := by
    rw [Exec.waiting_return hop]
    exact (List.cons.inj (hwaiting₁.symm.trans hwaiting')).2
  obtain ⟨new₂, t₂, ρ₂, hreturns, halike₂, haccu₂, hkept₂⟩ :=
    h.transfer hgrows hrt hdepends halike₁.symm hcall
      ((hfirst.behind hgrows).1.passes habove hop hn) hcallers
  refine ⟨new₁, t₁, new₂, t₂, ρ₂, hfirst, hreturns, halike₂, haccu₂, fun v v' hv hv' hvv' => ?_⟩
  rw [moveAll_append, ← Value.relocate_relocate]
  exact hkept₂ v _ hv (StackWords.mem_relocate hv')
    (hkept v' v (hframe v' (List.mem_append_right _ hv')) hvv'.symm).symm

/-- The converse of `Returns.merge_extra`: a run that passes all arguments at once can be made in two steps,
with a frame in between. -/
theorem Returns.split_extra (hgrows : rt.Grows) (hrt : rt.Relocates) (hdepends : P.DependsOnArgs rt)
    {inst₂ : ZInstruction} {ret₀ ret₀' : RetFrame} {fn₁ : Int} {all : List Value}
    (h : Returns P rt s inst all ret₀ new t) (hall : all = args ++ us) (hargs : args ≠ [])
    (hus : us ≠ []) (halike : s.machine.Alike ρ s'.machine)
    (haccu : s.machine.accu.Moved ρ.source ρ s'.machine.accu) (hvalues : ValuesMoved ρ args args')
    (hmoved : ValuesMoved ρ us us') (hpasses' : Passes inst' s'.machine args' ret')
    (habove : ret'.Above locals us' ret₀') (hwaiting' : s'.waiting inst' = fn₁ :: fn :: callers)
    (hop : inst₂.opNum = .return_) (hn : inst₂.countArg 0 = some locals.length) :
    ∃ new₁ t₁ new₂ t₂ ρ₁, Returns P rt s' inst' args' ret' new₁ t₁ ∧
      Returns P rt t₁ inst₂ (us'.map (Value.relocate (moveAll new₁)))
        (ret₀'.relocate (moveAll new₁)) new₂ t₂ ∧
      SameEnd ρ ρ₁ new (new₂ ++ new₁) ret₀ ret₀' t t₂ := by
  induction h generalizing s' inst' args args' us us' ret' ret₀' ρ locals with
  | value => exact absurd (List.append_eq_nil_iff.mp hall.symm).1 hargs
  | @partialCall s s₁ t inst id f ws all ret₀ new hpasses hne hremembers hlt hstep hgrab hwaiting
      hmoves =>
      subst hall
      have hlt' : (ws ++ args).length < (P.callee id).arity := by
        rw [List.length_append, List.length_append] at hlt
        rw [List.length_append]
        omega
      exact Returns.split_partial hgrows hrt hdepends
        (.partialCall hpasses hne hremembers hlt hstep hgrab hwaiting hmoves) hargs hus hremembers
        hlt' halike haccu hvalues hmoved hpasses' habove hwaiting' hop hn
  | @body s s₁ s₂ s₃ t inst last code id f ws all as us₀ vs ret₀ new new' hpasses hne hremembers
      hsplit harity hstep hgrab hpath hbody hrest ih =>
      subst hall
      by_cases hlt : (ws ++ args).length < (P.callee id).arity
      · exact Returns.split_partial hgrows hrt hdepends (.body hpasses hne hremembers hsplit harity
          hstep hgrab hpath hbody hrest) hargs hus hremembers hlt halike haccu hvalues hmoved hpasses'
          habove hwaiting' hop hn
      obtain ⟨u₀, hsplit₀, rfl⟩ : ∃ u₀, ws ++ args = as ++ u₀ ∧ us₀ = u₀ ++ us := by
        rw [← List.append_assoc] at hsplit
        rcases List.append_eq_append_iff.mp hsplit with ⟨u₀, has, hus₀⟩ | ⟨u₀, hprefix, hus₀⟩
        · rw [has, List.length_append] at harity
          obtain rfl := List.eq_nil_of_length_eq_zero (l := u₀) (by omega)
          exact ⟨[], by rw [has, List.append_nil, List.append_nil], hus₀.symm⟩
        · exact ⟨u₀, hprefix, hus₀⟩
      obtain ⟨f', ws', hremembers', hf, hws⟩ := hremembers.moved halike.heap haccu
      have hwords : ValuesMoved ρ (ws ++ args) (ws' ++ args') := hws.append hvalues
      rw [hsplit₀] at hwords
      obtain ⟨as', u₀', hsplit', has, hu₀⟩ := hwords.split
      have hargs' : args' ≠ [] := fun hnil => hargs (List.forall₂_nil_right_iff.mp (hnil ▸ hvalues))
      obtain ⟨s₁', s₂', s₃', vs', new₁', ρ₁, hstep', hgrab', hbody', hpasses₁, hwaiting₁, halike₁,
        haccu₁, hvs, hkept⟩ := hpasses.body_both hgrows hdepends halike hne hremembers hsplit harity
          hstep hgrab hpath hbody hpasses' hargs' hremembers' hsplit' has hf
      have hu₁ := hkept.values hu₀ (fun v hv => mem_map_some_append (List.mem_append_left _ hv) _)
        fun v hv => mem_map_some_append hv _
      have hus₁ := hkept.values hmoved
        (fun v hv => mem_map_some_append (List.mem_append_right _ hv) _)
        fun v hv => List.mem_append_right _ (habove.mem (mem_map_some_append hv _))
      have hkept₀ : Kept ρ ρ₁ new new₁' ret₀.words ret₀'.words :=
        hkept.sub (fun v hv => List.mem_append_right _ hv) fun v hv =>
          List.mem_append_right _ (habove.mem (List.mem_append_right _ hv))
      have habove₁ := habove.relocate (moveAll new₁')
      have hn₁ : inst₂.countArg 0 = some (locals.relocate (moveAll new₁')).length := by
        rw [StackWords.length_relocate]
        exact hn
      have hwaiting₂ := hwaiting₁.trans hwaiting'
      have hrest' : ∃ new₁ t₁ new₂ t₂ ρ₂, Returns P rt s₃' last
          (vs' ++ u₀'.map (Value.relocate (moveAll new₁'))) (ret'.relocate (moveAll new₁')) new₁ t₁ ∧
          Returns P rt t₁ inst₂ ((us'.map (Value.relocate (moveAll new₁'))).map
            (Value.relocate (moveAll new₁))) ((ret₀'.relocate (moveAll new₁')).relocate (moveAll new₁))
            new₂ t₂ ∧ SameEnd ρ₁ ρ₂ new' (new₂ ++ new₁) (ret₀.relocate (moveAll new))
            (ret₀'.relocate (moveAll new₁')) t t₂ := by
        have hleft := hvs.append hu₁
        rw [List.map_append, ← List.append_assoc] at hrest ih
        by_cases hnil : vs ++ u₀.map (Value.relocate (moveAll new)) = []
        · -- The callee returns a value on both sides, and on the right the frame is used up next.
          rw [hnil] at hrest hleft
          rw [List.forall₂_nil_left_iff.mp hleft] at hpasses₁ ⊢
          have hstepᵥ : s₃'.step rt last = some _ := hpasses₁.return_ hwaiting₂
          have hfirst : Returns P rt s₃' last [] (ret'.relocate (moveAll new₁')) [] _ :=
            .value hpasses₁ hstepᵥ hwaiting₂
          obtain ⟨hmemory, haccuᵥ⟩ := hpasses₁.return_memory hstepᵥ hwaiting₂
          have hpasses₂ := (hfirst.behind hgrows).1.passes habove₁ hop hn₁
          rw [map_relocate_nil, RetFrame.relocate_nil] at hpasses₂
          obtain ⟨new₂, t₂, ρ₂, hreturns, halike₂, haccu₂, hkept₂⟩ :=
            hrest.transfer hgrows hrt hdepends (hmemory.alike halike₁.symm).symm
              (.same (haccuᵥ ▸ haccu₁) hus₁) hpasses₂ (Exec.waiting_return hop)
          refine ⟨[], _, new₂, t₂, ρ₂, hfirst, ?_, halike₂, haccu₂, ?_⟩
          · rw [map_relocate_nil, RetFrame.relocate_nil]
            exact hreturns
          · rw [List.append_nil]
            exact hkept₂
        · exact ih rfl hnil (by rwa [Ne, List.map_eq_nil_iff]) halike₁ haccu₁ hleft hus₁ hpasses₁
            habove₁ hwaiting₂ hn₁
      obtain ⟨new₁, t₁, new₂, t₂, ρ₂, hfirst, hsecond, halike₂, haccu₂, hkept₂⟩ := hrest'
      rw [← map_relocate_append, ← RetFrame.relocate_append] at hsecond
      refine ⟨new₁ ++ new₁', t₁, new₂, t₂, ρ₂, .body hpasses' hargs' hremembers' hsplit'
        (has.length_eq.symm.trans harity) hstep' hgrab' hpath hbody' hfirst, hsecond, halike₂, haccu₂,
        ?_⟩
      rw [← List.append_assoc]
      exact hkept₀.trans hkept₂

theorem Returns.split (hgrows : rt.Grows) (hrt : rt.Relocates) (hdepends : P.DependsOnArgs rt)
    {inst₂ : ZInstruction} {ret₀ ret₀' : RetFrame} {fn₁ : Int}
    (h : Returns P rt s inst (args ++ us) ret₀ new t) (hargs : args ≠ [])
    (halike : s.machine.Alike ρ s'.machine)
    (haccu : s.machine.accu.Moved ρ.source ρ s'.machine.accu) (hvalues : ValuesMoved ρ args args')
    (hmoved : ValuesMoved ρ us us') (hpasses' : Passes inst' s'.machine args' ret')
    (habove : ret'.Above locals us' ret₀') (hwaiting' : s'.waiting inst' = fn₁ :: fn :: callers)
    (hop : inst₂.opNum = .return_) (hn : inst₂.countArg 0 = some locals.length) :
    ∃ new₁ t₁ new₂ t₂ ρ₁, Returns P rt s' inst' args' ret' new₁ t₁ ∧
      Returns P rt t₁ inst₂ (us'.map (Value.relocate (moveAll new₁)))
        (ret₀'.relocate (moveAll new₁)) new₂ t₂ ∧
      SameEnd ρ ρ₁ new (new₂ ++ new₁) ret₀ ret₀' t t₂ := by
  cases hmoved with
  | cons hv hmoved =>
      exact h.split_extra hgrows hrt hdepends rfl hargs (List.cons_ne_nil _ _) halike haccu hvalues
        (.cons hv hmoved) hpasses' habove hwaiting' hop hn
  | nil =>
      rw [List.append_nil] at h
      obtain ⟨new₁, t₁, ρ₁, hreturns, halike₁, haccu₁, hkept⟩ :=
        h.transfer hgrows hrt hdepends halike (.same haccu hvalues) hpasses' hwaiting'
      obtain ⟨hbehind, hwaiting₁⟩ := hreturns.behind hgrows
      have hwaiting₂ : t₁.waiting inst₂ = fn :: callers := by
        rw [Exec.waiting_return hop]
        exact (List.cons.inj (hwaiting₁.symm.trans hwaiting')).2
      have hpasses₂ := hbehind.passes habove hop hn
      have hstep₂ : t₁.step rt inst₂ = some _ := hpasses₂.return_ hwaiting₂
      obtain ⟨hmemory, haccu₂⟩ := hpasses₂.return_memory hstep₂ hwaiting₂
      refine ⟨new₁, t₁, [], _, ρ₁, hreturns, .value hpasses₂ hstep₂ hwaiting₂,
        (hmemory.alike halike₁.symm).symm, haccu₂ ▸ haccu₁, ?_⟩
      exact hkept.sub (fun v hv => hv) fun v hv => habove.mem hv

/-! ### The two ways to call a closure at the end of a function -/

/-- The frames of the caller that have been kept on both sides. -/
theorem SameEnd.sameReturn {live : Set Nat}
    (h : SameEnd (.ofSet live) ρ new new' ret ret t t')
    (hret : ∀ v, some v ∈ ret.words → v.Within live)
    (hbehind : Behind (ret.relocate (moveAll new)) t.machine)
    (hbehind' : Behind (ret.relocate (moveAll new')) t'.machine)
    (hcallers : t'.fn :: t'.callers = t.fn :: t.callers) : SameReturn ρ t t' := by
  have hword : ∀ v : Value, some v ∈ ret.words →
      (v.relocate (moveAll new)).Moved ρ.source ρ (v.relocate (moveAll new')) := fun v hv =>
    h.kept v v hv hv ⟨hret v hv, (Value.relocate_id v).symm⟩
  obtain ⟨hfn, hcallers⟩ := List.cons.inj hcallers
  refine ⟨h.alike, h.accu, ?_, ?_, hbehind'.extraArgs.trans hbehind.extraArgs.symm, hfn, hcallers⟩
  · rw [hbehind.env, hbehind'.env]
    exact hword ret.env (List.mem_cons_of_mem _ List.mem_cons_self)
  · rw [hbehind.stack, hbehind'.stack]
    refine List.forall₂_map_left_iff.mpr (List.forall₂_map_right_iff.mpr
      (List.forall₂_same.mpr fun w hw => ?_))
    cases w with
    | none => exact .none
    | some v =>
        exact .some (hword v (List.mem_cons_of_mem _ (List.mem_cons_of_mem _
          (List.mem_cons_of_mem _ hw))))

theorem Exec.exec_short_tail {short long : ZInstruction} (u : Exec)
    (hops : (short.opNum, long.arg 0) ∈
      [(OpCode.appterm1, (1 : Int)), (.appterm2, 2), (.appterm3, 3)])
    (hop : long.opNum = .appterm) (hslotsize : long.arg 1 = short.arg 0) :
    u.exec rt short = u.exec rt long := by
  have hcount : ∀ n : Nat, long.arg 0 = n → long.countArg 0 = some n := fun n hn => by
    rw [ZInstruction.countArg, hn, if_pos (Int.natCast_nonneg n), Int.toNat_natCast]
  have hsize : long.countArg 1 = short.countArg 0 := by
    rw [ZInstruction.countArg, ZInstruction.countArg, hslotsize]
  simp only [List.mem_cons, Prod.mk.injEq, List.not_mem_nil, or_false] at hops
  rcases hops with ⟨hshort, hn⟩ | ⟨hshort, hn⟩ | ⟨hshort, hn⟩
  · simp only [exec, hshort, hop, hcount 1 hn, hsize, Machine.appterm1,
      Machine.apptermArgs_eq_appterm, Option.bind_eq_bind, Option.bind_some]
  · simp only [exec, hshort, hop, hcount 2 hn, hsize, Machine.appterm2,
      Machine.apptermArgs_eq_appterm, Option.bind_eq_bind, Option.bind_some]
  · simp only [exec, hshort, hop, hcount 3 hn, hsize, Machine.appterm3,
      Machine.apptermArgs_eq_appterm, Option.bind_eq_bind, Option.bind_some]

theorem Machine.pushRetAddr_eq (m : Machine) :
    m.pushRetAddr = some { m with
      stack := some .unit :: some m.env :: some (.int m.extraArgs) :: m.stack } := rfl

/-- A program with one function, which returns its argument. -/
def identityProgram : Program where
  callee id := ⟨id, 1, none, rfl, fun h => by cases h⟩
  callee_id _ := rfl
  path id code last := id = 7 ∧ code = [.blank .acc0] ∧ last = .ofArgs .return_ 1 0

theorem steps_acc0 {below : StackWords} (rt : Runtime) (hstack : s.machine.stack = some v :: below) :
    s.steps rt [.blank .acc0] =
      some { s with machine := { s.machine with accu := v }, control := .inside } := by
  have hacc : s.machine.acc 0 = some { s.machine with accu := v } := by
    simp [Machine.acc, Machine.slot, hstack]
  have hrun : (RuntimeCall.acc 0).run rt s.machine = some (.next { s.machine with accu := v }) := by
    rw [RuntimeCall.run, hacc]
    rfl
  rw [Exec.steps, Exec.step_of_run rfl hrun]
  rfl

theorem identityProgram_dependsOnArgs (rt : Runtime) : identityProgram.DependsOnArgs rt := by
  rintro _ _ _ args args' below below' s s₁ s' vs new ρ ⟨rfl, rfl, rfl⟩ harity _ _ hbody hstack'
    hvalues _ halike
  obtain ⟨v, rfl⟩ := List.length_eq_one_iff.mp harity
  obtain ⟨v', hv, rfl⟩ : ∃ v', v.Moved ρ.source ρ v' ∧ args' = [v'] := by
    cases hvalues with
    | cons hv hnil =>
        cases hnil with
        | nil => exact ⟨_, hv, rfl⟩
  have hs₁ := Option.some.inj (hbody.run.symm.trans (steps_acc0 rt hbody.stack))
  have hnew : new = [] := by
    have hmoves := hbody.moves
    rw [hs₁] at hmoves
    exact List.self_eq_append_left.mp hmoves
  obtain ⟨locals, -, hends⟩ := hbody.ends
  have hvs : vs = [] := by
    cases hends with
    | return_ => rfl
    | tailCall _ htail => cases htail
  subst hnew hvs
  refine ⟨_, [], [], ρ, ⟨hstack', steps_acc0 rt hstack', rfl, rfl, rfl, rfl, [some v'], ?_,
    .return_ rfl rfl⟩, ?_, ?_, .nil, Kept.refl ρ _ _⟩
  · rw [moveAll, StackWords.relocate_id]
    exact hstack'
  · obtain ⟨hheap, hdata, h₁, h₂, h₃, h₄, h₅⟩ := halike
    rw [hs₁]
    exact ⟨hheap, hdata, h₁, h₂, h₃, h₄, h₅⟩
  · rw [hs₁]
    exact hv

/-- The identity passes the arguments that are left to the one that it returns. -/
theorem identityProgram_returns (hgrows : rt.Grows) (hpasses : Passes inst s.machine (v :: us) ret)
    (hclosure : Remembers s.machine.heap 7 s.machine.accu f []) :
    ∃ s', Passes (.ofArgs .return_ 1 0) s'.machine us ret ∧
      s'.waiting (.ofArgs .return_ 1 0) = s.waiting inst ∧ s'.machine.heap = s.machine.heap ∧
      s'.machine.accu = v ∧
      ∀ new t, Returns identityProgram rt s' (.ofArgs .return_ 1 0) us ret new t →
        Returns identityProgram rt s inst (v :: us) ret new t := by
  obtain ⟨s₁, s₂, hstep, hgrab, hin⟩ : ∃ s₁ s₂, s.step rt inst = some s₁ ∧
      s₁.grab rt (identityProgram.callee 7) = some s₂ ∧
      InBody (identityProgram.callee 7) s inst f [v] us ret s₂ :=
    hpasses.enterBody hgrows (List.cons_ne_nil _ _) rfl hclosure rfl rfl
  let s₃ : Exec := { s₂ with machine := { s₂.machine with accu := v }, control := .inside }
  have hends : Ends (.ofArgs .return_ 1 0) [some v] [] := .return_ rfl rfl
  have hbody : BodyRun rt [.blank .acc0] (.ofArgs .return_ 1 0) [v] (us.map some ++ ret.words) s₂ s₃
      [] [] := by
    refine ⟨hin.stack, steps_acc0 rt hin.stack, rfl, rfl, rfl, rfl, [some v], ?_, hends⟩
    rw [moveAll, StackWords.relocate_id]
    exact hin.stack
  have hpasses₃ := hbody.passes hin.extraArgs
  rw [map_relocate_nil, RetFrame.relocate_nil, List.nil_append] at hpasses₃
  refine ⟨s₃, hpasses₃, hbody.waiting.trans hin.callers, hin.memory.heap, rfl, fun new t hrest => ?_⟩
  have hsplit : [] ++ v :: us = [v] ++ us := rfl
  rw [← List.append_nil new]
  refine .body hpasses (List.cons_ne_nil _ _) hclosure hsplit rfl hstep hgrab ⟨rfl, rfl, rfl⟩ hbody ?_
  rw [map_relocate_nil, RetFrame.relocate_nil]
  exact hrest

/-- A function with one slot and one extra argument, about to call the identity. -/
def identityCaller : Exec :=
  { Exec.start { Machine.start [⟨closureTag, [some (.code (.fn 7))]⟩] .unit 100 with
      accu := .ptr 0 0
      extraArgs := 1
      stack := [some (.int 9), some (.int 4), none, some (.raw 0), some (.int 0)] } with
    fn := 5
    callers := [3] }

/-- The identity is applied to itself, and the result to the extra argument. -/
theorem exists_identityCaller_returns :
    ∃ t, Returns identityProgram .idle (identityCaller.pushArgs [.ptr 0 0]) (.ofArgs .appterm 1 2)
      ([.ptr 0 0] ++ [.int 4]) ⟨none, .raw 0, 0, []⟩ [] t ∧ t.machine.accu = .int 4 := by
  have hgrows : Runtime.idle.Grows := fun n => ⟨n, rfl⟩
  have hends : Ends (.ofArgs .appterm 1 2) ([.ptr 0 0].map some ++ [some (.int 9)]) [.ptr 0 0] :=
    .tailCall (List.cons_ne_nil _ _) rfl rfl
  have hpasses : Passes (.ofArgs .appterm 1 2) (identityCaller.pushArgs [.ptr 0 0]).machine
      ([.ptr 0 0] ++ [.int 4]) ⟨none, .raw 0, 0, []⟩ := .last hends rfl rfl
  have hclosure : ∀ m : Machine, m.heap = [⟨closureTag, [some (.code (.fn 7))]⟩] →
      m.accu = .ptr 0 0 → Remembers m.heap 7 m.accu (.ptr 0 0) [] := fun m hheap haccu =>
    ⟨haccu, by rw [hheap]; rfl⟩
  obtain ⟨s₁, hpasses₁, hwaiting₁, hheap₁, haccu₁, hrun₁⟩ :=
    identityProgram_returns hgrows hpasses (hclosure _ rfl rfl)
  obtain ⟨s₂, hpasses₂, hwaiting₂, -, haccu₂, hrun₂⟩ :=
    identityProgram_returns hgrows hpasses₁ (hclosure _ hheap₁ haccu₁)
  have hwaiting := hwaiting₂.trans hwaiting₁
  have hstep : s₂.step .idle (.ofArgs .return_ 1 0) = some _ := hpasses₂.return_ hwaiting
  exact ⟨_, hrun₁ _ _ (hrun₂ _ _ (.value hpasses₂ hstep hwaiting)), haccu₂⟩

end CamllVM
