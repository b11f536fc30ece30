import CamllVM.Proof.Allocation
import CamllVM.Proof.Blocks

/-!
# Closures of recursive definitions

The block of a recursive definition has the code of its functions, with a header before each but the
first, and the captured values behind them. Every function finds the others and the values from the
address of its own code in the block.
-/

namespace CamllVM

/-- The values that are captured: the accumulator, if there are any, and the words on top of the
stack. -/
def Machine.Captures (m : Machine) (vs : List Value) (rest : StackWords) : Prop :=
  (vs = [] ∧ m.stack = rest) ∨ ∃ ws, vs = m.accu :: ws ∧ m.stack = ws.map some ++ rest

/-- The writes of `setClosureRecNestedClos` from function `idx` on. -/
def nestedLog (idx : Nat) : List CodePtr → List (Nat × Option Value)
  | [] => []
  | p :: ps =>
      (2 * idx - 1, some (.header (idx * 2) infixTag)) :: (2 * idx, some (.code p)) ::
        nestedLog (idx + 1) ps

/-- The writes to the block of a recursive definition, in their order. -/
def closureRecLog (p : CodePtr) (ps : List CodePtr) (vs : List Value) : List (Nat × Option Value) :=
  WriteLog.consecutive (2 * ps.length + 1) (vs.map some) ++ (0, some (.code p)) :: nestedLog 1 ps

/-- The number of words of the block. -/
def closureRecSize (ps : List CodePtr) (vs : List Value) : Nat := 2 * ps.length + 1 + vs.length

/-- The fields of the block behind all writes. -/
def closureRecFields (p : CodePtr) (ps : List CodePtr) (vs : List Value) : List (Option Value) :=
  WriteLog.write (List.replicate (closureRecSize ps vs) none) (closureRecLog p ps vs)

def recClosure (b i : Nat) : Value := .ptr b (2 * i : Nat)

/-- `m'` is the machine behind the definition of the functions `p :: ps`, which capture `vs`, on the
machine `m`. The block is `b`. -/
structure ClosuresBuilt (p : CodePtr) (ps : List CodePtr) (vs : List Value) (rest : StackWords)
    (b : Nat) (new : List (Nat → Nat)) (m m' : Machine) : Prop where
  moves : m'.moves = new ++ m.moves
  block : m'.heap[b]? =
    some ⟨closureTag, closureRecFields p ps (vs.map (Value.relocate (moveAll new)))⟩
  accu : m'.accu = recClosure b 0
  stack : m'.stack = ((List.range (ps.length + 1)).map fun i => some (recClosure b i)).reverse ++
    rest.relocate (moveAll new)

/-- With closure `i` in `Env`, `OFFSETCLOSURE` and `ENVACC` give the closures of the functions
`p :: ps` and the captured values `vs`. -/
structure SeesClosures (rt : Runtime) (p : CodePtr) (ps : List CodePtr) (vs : List Value) (b i : Nat)
    (s : Exec) : Prop where
  offsetClosure : ∀ (inst : ZInstruction) (j : Nat), j < ps.length + 1 →
    inst.opNum = .offsetClosure → inst.arg 0 = 2 * ((j : Int) - i) →
    s.step rt inst = some { s with
      machine := { s.machine with accu := recClosure b j }, control := .inside }
  code : ∀ j q, (p :: ps)[j]? = some q → s.machine.codeVal (recClosure b j) = some q
  envAcc : ∀ (inst : ZInstruction) (t : Nat) (v : Value), vs[t]? = some v →
    inst.opNum = .envAcc → inst.arg 0 = 2 * (ps.length + 1 : Nat) - 1 - 2 * (i : Int) + t →
    s.step rt inst = some { s with machine := { s.machine with accu := v }, control := .inside }

variable {rt : Runtime} {inst : ZInstruction} {s : Exec} {m m' : Machine} {p : CodePtr}
  {ps : List CodePtr} {vs : List Value} {rest : StackWords} {b : Nat} {new : List (Nat → Nat)}
  {fields : List (Option Value)}

/-! ### The log -/

theorem positions_nestedLog (idx : Nat) (hidx : 1 ≤ idx) (ps : List CodePtr) :
    WriteLog.positions (nestedLog idx ps) = List.range' (2 * idx - 1) (2 * ps.length) := by
  induction ps generalizing idx with
  | nil => rfl
  | cons p ps ih =>
      have hnext : 2 * (idx + 1) - 1 = 2 * idx - 1 + 1 + 1 := by omega
      have hhere : 2 * idx = 2 * idx - 1 + 1 := by omega
      calc WriteLog.positions (nestedLog idx (p :: ps))
          = (2 * idx - 1) :: 2 * idx :: WriteLog.positions (nestedLog (idx + 1) ps) := rfl
        _ = (2 * idx - 1) :: (2 * idx - 1 + 1) ::
              List.range' (2 * idx - 1 + 1 + 1) (2 * ps.length) := by
            rw [ih (idx + 1) (Nat.le_add_left 1 idx), hnext, ← hhere]
        _ = List.range' (2 * idx - 1) (2 * (p :: ps).length) := by
            rw [List.length_cons, Nat.mul_add, List.range'_succ, List.range'_succ]

/-- Every field is written, and none twice. -/
theorem positions_closureRecLog (p : CodePtr) (ps : List CodePtr) (vs : List Value) :
    (WriteLog.positions (closureRecLog p ps vs)).Perm (List.range (closureRecSize ps vs)) := by
  have hfirst : 0 :: List.range' 1 (2 * ps.length) = List.range (2 * ps.length + 1) := by
    rw [List.range_eq_range', List.range'_succ]
  have hpositions : WriteLog.positions (closureRecLog p ps vs) =
      List.range' (2 * ps.length + 1) vs.length ++ List.range (2 * ps.length + 1) := by
    rw [closureRecLog, WriteLog.positions, List.map_append, List.map_cons,
      ← WriteLog.positions, ← WriteLog.positions, WriteLog.positions_consecutive, List.length_map,
      positions_nestedLog 1 (Nat.le_refl 1), ← hfirst]
  have happend : List.range' 0 (2 * ps.length + 1) ++
      List.range' (0 + (2 * ps.length + 1)) vs.length = List.range' 0 (closureRecSize ps vs) :=
    List.range'_append_1
  rw [Nat.zero_add, ← List.range_eq_range', ← List.range_eq_range'] at happend
  rw [hpositions, ← happend]
  exact List.perm_append_comm

theorem mem_nestedLog (idx : Nat) {i : Nat} (h : ps[i]? = some p) :
    (2 * (idx + i), some (.code p)) ∈ nestedLog idx ps := by
  induction ps generalizing idx i with
  | nil => cases h
  | cons q ps ih =>
      cases i with
      | zero =>
          cases h
          exact List.mem_cons_of_mem _ List.mem_cons_self
      | succ i =>
          rw [Nat.add_comm i, ← Nat.add_assoc]
          exact List.mem_cons_of_mem _ (List.mem_cons_of_mem _ (ih (idx + 1) h))

theorem code_mem_closureRecLog (vs : List Value) {q : CodePtr} {i : Nat}
    (h : (p :: ps)[i]? = some q) : (2 * i, some (.code q)) ∈ closureRecLog p ps vs := by
  refine List.mem_append_right _ ?_
  cases i with
  | zero =>
      cases h
      exact List.mem_cons_self
  | succ i =>
      rw [Nat.add_comm i]
      exact List.mem_cons_of_mem _ (mem_nestedLog 1 h)

theorem captured_mem_closureRecLog (p : CodePtr) (ps : List CodePtr) {v : Value} {t : Nat}
    (h : vs[t]? = some v) : (2 * ps.length + 1 + t, some v) ∈ closureRecLog p ps vs := by
  refine List.mem_append_left _ (WriteLog.mem_consecutive _ ?_)
  rw [List.getElem?_map, h, Option.map_some]

theorem isSome_of_mem_nestedLog {idx k : Nat} {w : Option Value} (h : (k, w) ∈ nestedLog idx ps) :
    w.isSome := by
  induction ps generalizing idx with
  | nil => cases h
  | cons p ps ih =>
      rcases List.mem_cons.mp h with heq | h
      · cases heq
        rfl
      · rcases List.mem_cons.mp h with heq | h
        · cases heq
          rfl
        · exact ih h

theorem isSome_of_mem_fields {w : Option Value} (h : w ∈ closureRecFields p ps vs) : w.isSome := by
  have hpositions := positions_closureRecLog p ps vs
  rw [← List.length_replicate (a := (none : Option Value)) (n := closureRecSize ps vs)] at hpositions
  obtain ⟨k, hk⟩ := WriteLog.mem_of_mem_write hpositions h
  rcases List.mem_append.mp hk with hcaptured | hcode
  · obtain ⟨v, -, rfl⟩ := List.mem_map.mp (WriteLog.mem_of_mem_consecutive hcaptured)
    rfl
  · rcases List.mem_cons.mp hcode with heq | hnested
    · cases heq
      rfl
    · exact isSome_of_mem_nestedLog hnested

theorem getElem?_fields {k : Nat} {w : Option Value} (h : (k, w) ∈ closureRecLog p ps vs) :
    (closureRecFields p ps vs)[k]? = some w := by
  have hpositions := positions_closureRecLog p ps vs
  refine WriteLog.getElem?_write (hpositions.nodup_iff.mpr List.nodup_range) h ?_
  rw [List.length_replicate]
  exact List.mem_range.mp (hpositions.mem_iff.mp (List.mem_map_of_mem h))

namespace Machine

/-! ### The calls -/

theorem Captures.push (h : m.Captures vs rest) :
    (if 0 < vs.length then m.pushWord m.accu else m).stack = vs.map some ++ rest := by
  rcases h with ⟨rfl, hstack⟩ | ⟨ws, rfl, hstack⟩
  · exact hstack
  · rw [if_pos (by rw [List.length_cons]; exact Nat.succ_pos _), List.map_cons, List.cons_append,
      ← hstack]
    rfl

theorem setClosureRecNestedClos_eq (m : Machine) (heap : Heap) (tag : Nat) {idx : Nat}
    (hidx : 1 ≤ idx) (haccu : m.accu = recClosure heap.length 0)
    (hfit : 2 * idx < fields.length) (p : CodePtr) :
    (m.withHeap (heap ++ [⟨tag, fields⟩])).setClosureRecNestedClos idx p =
      some ((m.pushWord (recClosure heap.length idx)).withHeap (heap ++
        [⟨tag, WriteLog.write fields (nestedLog idx [p])⟩])) := by
  have hindex : (2 * (idx : Int) - 1) = ((2 * idx - 1 : Nat) : Int) := by omega
  have heven : 2 * (idx : Int) = ((2 * idx : Nat) : Int) := by omega
  have hheader := setField_withHeap m heap tag fields (i := 2 * idx - 1)
    (.header (idx * 2) infixTag) (by omega)
  have hcode := setField_withHeap m heap tag
    (fields.set (2 * idx - 1) (some (.header (idx * 2) infixTag))) (i := 2 * idx) (.code p)
    (by rwa [List.length_set])
  have haccu' : ∀ heap', (m.withHeap heap').accu = .ptr heap.length 0 := fun _ => haccu
  rw [setClosureRecNestedClos, haccu', hindex, hheader, Option.bind_eq_bind, Option.bind_some,
    haccu', heven, hcode, Option.bind_eq_bind, Option.bind_some, haccu', shiftPtr,
    Option.bind_some, Int.zero_add]
  rfl

theorem setClosureRecNestedCloses_eq (m : Machine) (heap : Heap) (tag : Nat)
    (fields : List (Option Value)) (ps : List CodePtr) {idx : Nat} (hidx : 1 ≤ idx) (haccu : m.accu = recClosure heap.length 0)
    (hfit : 2 * (idx + ps.length) ≤ fields.length + 1) :
    (m.withHeap (heap ++ [⟨tag, fields⟩])).setClosureRecNestedCloses idx ps =
      some ((m.withStack (((List.range' idx ps.length).map fun i =>
        some (recClosure heap.length i)).reverse ++ m.stack)).withHeap
          (heap ++ [⟨tag, WriteLog.write fields (nestedLog idx ps)⟩])) := by
  induction ps generalizing m fields idx with
  | nil => rfl
  | cons p ps ih =>
      rw [List.length_cons] at hfit
      have hrest := ih (m.pushWord (recClosure heap.length idx))
        (WriteLog.write fields (nestedLog idx [p])) (Nat.le_add_left 1 idx) haccu
        (by rw [WriteLog.length_write]; omega)
      rw [setClosureRecNestedCloses, setClosureRecNestedClos_eq m heap tag hidx haccu (by omega),
        Option.bind_eq_bind, Option.bind_some, hrest, List.length_cons, List.range'_succ,
        List.map_cons, List.reverse_cons, List.append_assoc]
      rfl

theorem closureRec_eq (rt : Runtime) (p : CodePtr) (ps : List CodePtr) (h : m.Captures vs rest) :
    ∃ (m₂ : Machine) (heap : Heap) (new : List (Nat → Nat)), m₂.moves = new ++ m.moves ∧
      m₂.accu = recClosure heap.length 0 ∧ m₂.stack = rest.relocate (moveAll new) ∧
      m.closureRec rt (ps.length + 1) vs.length p =
        some ((m₂.pushWord (recClosure heap.length 0)).withHeap (heap ++
          [⟨closureTag, WriteLog.write (List.replicate (closureRecSize ps vs) none)
            (WriteLog.consecutive (2 * ps.length + 1)
              ((vs.map (Value.relocate (moveAll new))).map some) ++ [(0, some (.code p))])⟩])) := by
  obtain ⟨m₁, new, hreserve, hcollected⟩ :=
    exists_reserve rt (if 0 < vs.length then m.pushWord m.accu else m)
  have hmoves : m₁.moves = new ++ m.moves := by
    rw [hcollected.moves]
    split <;> rfl
  have hstack : m₁.stack = (vs.map (Value.relocate (moveAll new))).map some ++
      rest.relocate (moveAll new) := by
    rw [hcollected.stack, h.push, StackWords.relocate_append, StackWords.relocate_map_some]
  obtain ⟨m₂, hm₂⟩ : ∃ m₂ : Machine, m₂ = { m₁ with accu := recClosure m₁.heap.length 0 } :=
    ⟨_, rfl⟩
  refine ⟨m₂.withStack (rest.relocate (moveAll new)), m₁.heap, new, by rw [hm₂]; exact hmoves,
    by rw [hm₂]; rfl, rfl, ?_⟩
  obtain ⟨fields, hfields⟩ : ∃ fields, fields = List.replicate (closureRecSize ps vs) none :=
    ⟨_, rfl⟩
  have hlength : fields.length = 2 * ps.length + 1 + vs.length := by
    rw [hfields, List.length_replicate, closureRecSize]
  have hsize : (ps.length + 1) * 2 - 1 + vs.length = closureRecSize ps vs := by
    rw [closureRecSize]
    omega
  have hfirst : (ps.length + 1) * 2 - 1 = 2 * ps.length + 1 := by omega
  have hcopy := copySlots_eq m₂ m₁.heap closureTag fields (i := 2 * ps.length + 1) (j := 0)
    (by rw [hm₂]; exact hstack) (by rw [hlength, List.length_map, Nat.add_zero])
  have hlog : WriteLog.write fields (WriteLog.consecutive (2 * ps.length + 1)
      ((vs.map (Value.relocate (moveAll new))).map some)) = _ := WriteLog.write_consecutive
    (by rw [hlength, List.length_map, List.length_map])
  rw [List.length_map, Nat.add_zero] at hcopy
  rw [List.length_map, List.length_map] at hlog
  rw [← hlog] at hcopy
  have hcode := setField_withHeap (m₂.withStack (rest.relocate (moveAll new))) m₁.heap closureTag
    (WriteLog.write fields (WriteLog.consecutive (2 * ps.length + 1)
      ((vs.map (Value.relocate (moveAll new))).map some)))
    (i := 0) (.code p) (by rw [WriteLog.length_write]; omega)
  have hdrop : ∀ heap, (m₂.withHeap heap).raiseSp vs.length =
      some ((m₂.withStack (rest.relocate (moveAll new))).withHeap heap) := by
    intro heap
    have hstack₂ : m₂.stack = m₁.stack := by rw [hm₂]
    have hvs : ((vs.map (Value.relocate (moveAll new))).map some).length = vs.length := by
      rw [List.length_map, List.length_map]
    rw [raiseSp, withHeap_stack, hstack₂, hstack, if_pos (by rw [List.length_append, hvs]; omega),
      ← hvs, List.drop_left]
    rfl
  rw [closureRec, allocSmall_eq hreserve, hsize, hfirst, ← hfields, WriteLog.write_append,
    Option.bind_eq_bind, Option.bind_some]
  rw [hm₂] at hcopy hdrop hcode ⊢
  refine Option.bind_eq_some_iff.mpr ⟨_, hcopy, ?_⟩
  refine Option.bind_eq_some_iff.mpr ⟨_, hdrop _, ?_⟩
  exact Option.bind_eq_some_iff.mpr ⟨_, hcode, rfl⟩

end Machine

/-- The calls of `CLOSUREREC` build the closures. -/
theorem exists_closuresBuilt (rt : Runtime) (p : CodePtr) (ps : List CodePtr)
    (h : m.Captures vs rest) :
    ∃ m' b new, (AllocOp.closureRec (ps.length + 1) vs.length p ps).run rt m = some m' ∧
      ClosuresBuilt p ps vs rest b new m m' := by
  obtain ⟨m₂, heap, new, hmoves, haccu, hstack, hrun⟩ := Machine.closureRec_eq rt p ps h
  have hnested := Machine.setClosureRecNestedCloses_eq
    (m₂.pushWord (recClosure heap.length 0)) heap closureTag
    (WriteLog.write (List.replicate (closureRecSize ps vs) none)
      (WriteLog.consecutive (2 * ps.length + 1)
        ((vs.map (Value.relocate (moveAll new))).map some) ++ [(0, some (.code p))])) ps
    (Nat.le_refl 1) haccu
    (by rw [WriteLog.length_write, List.length_replicate, closureRecSize]; omega)
  rw [AllocOp.run, hrun, Option.bind_eq_bind, Option.bind_some, hnested]
  refine ⟨_, heap.length, new, rfl, hmoves, ?_, haccu, ?_⟩
  · rw [Machine.withHeap_heap, List.getElem?_concat_length, ← WriteLog.write_append,
      List.append_assoc]
    simp only [closureRecFields, closureRecLog, closureRecSize, List.length_map,
      List.singleton_append]
  · rw [Machine.withHeap_stack, Machine.withStack_stack, List.range_eq_range', List.range'_succ,
      List.map_cons, List.reverse_cons, List.append_assoc, ← hstack]
    rfl

/-! ### The view from a closure -/

theorem field_of_log {i k : Nat} {offset : Int} {w : Value}
    (hblock : s.machine.heap[b]? = some ⟨closureTag, closureRecFields p ps vs⟩)
    (hlog : (k, some w) ∈ closureRecLog p ps vs) (hk : ((2 * i : Nat) : Int) + offset = k) :
    s.machine.heap.field (recClosure b i) offset = some w := by
  rw [recClosure, Heap.field, hk, if_pos (Int.natCast_nonneg k), Int.toNat_natCast, hblock,
    Option.bind_eq_bind, Option.bind_some, getElem?_fields hlog, Option.join_some]

theorem seesClosures (rt : Runtime) {i : Nat}
    (hblock : s.machine.heap[b]? = some ⟨closureTag, closureRecFields p ps vs⟩)
    (henv : s.machine.env = recClosure b i) : SeesClosures rt p ps vs b i s where
  offsetClosure inst j hj hop harg := by
    have hshift : Machine.shiftPtr s.machine.env (inst.arg 0) = some (recClosure b j) := by
      rw [henv, harg, recClosure, Machine.shiftPtr, recClosure]
      congr 2
      push_cast
      ring
    refine Exec.step_of_run (c := .offsetClosure (inst.arg 0)) ?_ ?_
    · simp only [ZInstruction.runtimeCalls, hop]
    · rw [RuntimeCall.run, Machine.offsetClosure, hshift]
      rfl
  code j q hq := by
    have hfield : s.machine.heap.field (recClosure b j) 0 = some (.code q) :=
      field_of_log hblock (code_mem_closureRecLog vs hq) (Int.add_zero _)
    rw [Machine.codeVal, hfield]
    rfl
  envAcc inst t v hv hop harg := by
    have hfield : s.machine.heap.field s.machine.env (inst.arg 0) = some v := by
      rw [henv]
      refine field_of_log hblock (captured_mem_closureRecLog p ps hv) ?_
      rw [harg]
      push_cast
      ring
    refine Exec.step_of_run (c := .envAcc (inst.arg 0)) ?_ ?_
    · simp only [ZInstruction.runtimeCalls, hop]
    · rw [RuntimeCall.run, Machine.envAcc, hfield]
      rfl

/-! ### The instruction -/

theorem runAll_nestedClosures (rt : Runtime) {ids tail : List Int} {i : Nat}
    (hfns : inst.closureRecFns = pad 32 ids) (hids : ids.length ≤ 32) (htail : ids.drop i = tail) :
    ∃ calls, inst.nestedClosures i tail.length = some calls ∧ ∀ m, RuntimeCall.runAll rt calls m =
      RuntimeCall.plain (m.setClosureRecNestedCloses i (tail.map .fn)) := by
  induction tail generalizing i with
  | nil => exact ⟨[], rfl, fun m => rfl⟩
  | cons id tail ih =>
      have hget : ids[i]? = some id := by
        rw [← Nat.add_zero i, ← List.getElem?_drop, htail]
        rfl
      have hlt : i < 32 := Nat.lt_of_lt_of_le (List.getElem?_eq_some_iff.mp hget).1 hids
      have hfn : inst.closureRecFns[i] = id := by
        simp only [hfns, pad_getElem, List.getD_eq_getElem?_getD, hget, Option.getD_some]
      have hnext : ids.drop (i + 1) = tail := by
        rw [← List.drop_drop, htail]
        rfl
      obtain ⟨calls, hcalls, hrun⟩ := ih hnext
      refine ⟨.setClosureRecNestedClos i (.fn id) :: calls, ?_, fun m => ?_⟩
      · rw [List.length_cons, ZInstruction.nestedClosures, dif_pos hlt, hcalls, hfn]
        rfl
      · rw [RuntimeCall.runAll, RuntimeCall.run, List.map_cons, Machine.setClosureRecNestedCloses]
        cases m.setClosureRecNestedClos i (.fn id) with
        | none => rfl
        | some m => exact hrun m

theorem runAll_closureRec {calls : List RuntimeCall} {fns : List CodePtr}
    (h : ∀ m, RuntimeCall.runAll rt calls m =
      RuntimeCall.plain (m.setClosureRecNestedCloses 1 fns))
    (nfuncs nvars : Nat) (p : CodePtr) (m : Machine) :
    RuntimeCall.runAll rt (.closureRec nfuncs nvars p :: calls) m =
      RuntimeCall.plain ((AllocOp.closureRec nfuncs nvars p fns).run rt m) := by
  rw [RuntimeCall.runAll, RuntimeCall.run, AllocOp.run]
  cases m.closureRec rt nfuncs nvars p with
  | none => rfl
  | some m => exact h m

/-- The calls of an instruction cannot raise an exception. -/
theorem Exec.step_of_runAll {calls : List RuntimeCall} {o : Option Machine}
    (hcalls : inst.runtimeCalls = some calls)
    (hrun : RuntimeCall.runAll rt calls s.machine = RuntimeCall.plain o) :
    s.step rt inst = o.map fun m => { s with machine := m, control := .inside } := by
  rw [step, exec_of_runtimeCalls hcalls, hrun]
  cases o <;> rfl

theorem exists_decoded_closureRec {prog : SymProgram} (hsize : 4 * prog.encode.length < 2 ^ 32)
    {insts : List ZInstruction}
    (hread : readInstructions .littleEndian prog.encode (4 * prog.encode.length) = some insts)
    {k : Nat} {v : Int} {fns : List (Fin prog.size)} {hpos hmax}
    (hk : prog.code[k]? = some (.closureRec v fns hpos hmax)) :
    ∃ inst, insts[k]? = some inst ∧ inst.opNum = .closureRec ∧
      inst.args = pad 4 [(fns.length : Int), v] ∧
      inst.closureRecFns = pad 32 (fns.map fun t : Fin prog.size => ((t : Nat) : Int)) := by
  obtain rfl := Option.some.inj ((prog.readInstructions_words hsize).symm.trans hread)
  obtain ⟨origIdx, hinst⟩ := getElem?_recordsFrom (fun t => ((t : Nat) : Int)) 0 0 hk
  exact ⟨_, hinst, rfl, rfl, rfl⟩

/-- A decoded `CLOSUREREC` makes the calls for the functions that its operands name. -/
theorem step_closureRec (rt : Runtime) {prog : SymProgram}
    (hsize : 4 * prog.encode.length < 2 ^ 32) {insts : List ZInstruction}
    (hread : readInstructions .littleEndian prog.encode (4 * prog.encode.length) = some insts)
    {k v : Nat} {t : Fin prog.size} {ts : List (Fin prog.size)} {hpos hmax}
    (hk : prog.code[k]? = some (.closureRec v (t :: ts) hpos hmax)) :
    ∃ inst, insts[k]? = some inst ∧ ∀ s : Exec, s.step rt inst =
      ((AllocOp.closureRec (ts.length + 1) v (.fn (t : Nat))
        (ts.map fun t : Fin prog.size => .fn (t : Nat))).run rt s.machine).map fun m =>
          { s with machine := m, control := .inside } := by
  obtain ⟨inst, hinst, hop, hargs, hfns⟩ := exists_decoded_closureRec hsize hread hk
  refine ⟨inst, hinst, fun s => ?_⟩
  obtain ⟨calls, hcalls, hrun⟩ := runAll_nestedClosures rt (i := 1) hfns
    (by rwa [List.length_map]) rfl
  have hfirst : inst.closureRecFns[0] = (t : Nat) := by
    simp only [hfns, pad_getElem]
    rfl
  rw [List.map_cons, List.drop_one, List.tail_cons, List.length_map] at hcalls
  rw [List.map_cons, List.drop_one, List.tail_cons, List.map_map] at hrun
  have hcall : inst.runtimeCalls =
      some (.closureRec (ts.length + 1) v (.fn (t : Nat)) :: calls) := by
    simp only [ZInstruction.runtimeCalls, hop, countArg_pad hargs 0 (ts.length + 1) rfl,
      countArg_pad hargs 1 v rfl, hfirst, Nat.add_sub_cancel, hcalls, Option.bind_eq_bind,
      Option.bind_some]
    rfl
  exact Exec.step_of_runAll hcall (runAll_closureRec hrun _ _ _ _)

/-- `CLOSUREREC` consumes the captured values, builds one block in which every field is written
once, and pushes the closures. Each of these finds all of them, and the captured values. -/
theorem closures_see_each_other :
    (∀ (rt : Runtime) (p : CodePtr) (ps : List CodePtr) (vs : List Value) (rest : StackWords)
      (m : Machine), m.Captures vs rest →
      ∃ m' b new, (AllocOp.closureRec (ps.length + 1) vs.length p ps).run rt m = some m' ∧
        ClosuresBuilt p ps vs rest b new m m' ∧
        (WriteLog.positions (closureRecLog p ps vs)).Perm
          (List.range (2 * (ps.length + 1) - 1 + vs.length)) ∧
        (∀ w ∈ closureRecFields p ps (vs.map (Value.relocate (moveAll new))), w.isSome) ∧
        ∀ (rt' : Runtime) (s : Exec) (i : Nat), i < ps.length + 1 →
          s.machine.env = recClosure b i → s.machine.heap[b]? = m'.heap[b]? →
          SeesClosures rt' p ps (vs.map (Value.relocate (moveAll new))) b i s) ∧
    ∀ (rt : Runtime) (prog : SymProgram) (insts : List ZInstruction),
      4 * prog.encode.length < 2 ^ 32 →
      readInstructions .littleEndian prog.encode (4 * prog.encode.length) = some insts →
      ∀ (k v : Nat) (t : Fin prog.size) (ts : List (Fin prog.size)) (hpos) (hmax),
        prog.code[k]? = some (.closureRec v (t :: ts) hpos hmax) →
        ∃ inst, insts[k]? = some inst ∧ ∀ s : Exec, s.step rt inst =
          ((AllocOp.closureRec (ts.length + 1) v (.fn (t : Nat))
            (ts.map fun t : Fin prog.size => .fn (t : Nat))).run rt s.machine).map fun m =>
              { s with machine := m, control := .inside } := by
  constructor
  · intro rt p ps vs rest m hcaptures
    obtain ⟨m', b, new, hrun, hbuilt⟩ := exists_closuresBuilt rt p ps hcaptures
    refine ⟨m', b, new, hrun, hbuilt, positions_closureRecLog p ps vs, ?_, ?_⟩
    · exact fun w hw => isSome_of_mem_fields hw
    · intro rt' s i _ henv hblock
      exact seesClosures rt' (hblock.trans hbuilt.block) henv
  · intro rt prog insts hsize hread k v t ts hpos hmax hk
    exact step_closureRec rt hsize hread hk

/-- A captured value above another word. -/
def capturing : Machine :=
  { Machine.start [] .unit 100 with accu := .int 7, stack := [some (.int 1)] }

theorem closures_see_each_other_twoFunctions :
    (∃ m' b new, (AllocOp.closureRec 2 1 (.fn 3) [.fn 5]).run .idle capturing = some m' ∧
      ClosuresBuilt (.fn 3) [.fn 5] [.int 7] [some (.int 1)] b new capturing m') ∧
    ∃ inst, jumpsAndTables.decoded[4]? = some inst ∧ ∀ s : Exec, s.step .idle inst =
      ((AllocOp.closureRec 2 0 (.fn 1) [.fn 1]).run .idle s.machine).map fun m =>
        { s with machine := m, control := .inside } := by
  constructor
  · obtain ⟨m', b, new, hrun, hbuilt, -⟩ := closures_see_each_other.1 .idle (.fn 3) [.fn 5] [.int 7]
      [some (.int 1)] capturing (.inr ⟨[], rfl, rfl⟩)
    exact ⟨m', b, new, hrun, hbuilt⟩
  · exact closures_see_each_other.2 .idle jumpsAndTables _ (by decide)
      (jumpsAndTables.readInstructions_words (by decide)) 4 0
      (⟨1, by decide⟩ : Fin 8) [(⟨1, by decide⟩ : Fin 8)] (by decide) (by decide) rfl

end CamllVM
