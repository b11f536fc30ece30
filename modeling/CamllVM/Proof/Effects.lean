import CamllVM.RuntimeCall

/-!
# What a runtime call does to the stack

Every runtime call but `assign` replaces the top words of the stack and leaves the words below them,
`Env`, `extra_args` and the exception handlers alone, except that a collection moves what the words
point at. `Effect rt k j m m'` says this for a call that touches the top `k` words and leaves `j`
words in their place. Effects are composed by `Effect.trans`.
-/

namespace CamllVM

/-- No collection takes place, a primitive returns, and the stack can always grow. -/
structure Runtime.Quiet (rt : Runtime) : Prop where
  collect : ∀ m, rt.collect m = none
  primitive : ∀ p args st done, rt.primitive p args st = some done →
    done.move = id ∧ ∃ v, done.result = .ret v
  realloc : ∀ n, ∃ threshold, rt.camlReallocStack n = .ret threshold

/-- A primitive changes the words of the stack of its caller only as far as a collection does. -/
def Runtime.KeepsStack (rt : Runtime) : Prop :=
  ∀ p args st done, rt.primitive p args st = some done →
    done.state.camlExternSp = st.camlExternSp.relocate done.move

theorem Runtime.idle_primitive {p : Int} {args : PrimArgs} {st : PrimState} {done : PrimEnd} :
    Runtime.idle.primitive p args st ≠ some done := by
  rw [idle]
  exact Option.some_ne_none done |>.symm

theorem Runtime.idle_quiet : Runtime.idle.Quiet where
  collect _ := rfl
  primitive _ _ _ _ h := absurd h idle_primitive
  realloc n := ⟨n, rfl⟩

theorem Runtime.idle_keepsStack : Runtime.idle.KeepsStack :=
  fun _ _ _ _ h => absurd h idle_primitive

/-- Every word has been written since the stack pointer was last moved over it. -/
def StackWords.Written (stack : StackWords) : Prop := ∀ w ∈ stack, w.isSome

/-- The stack, and the stack at every point at which it may have been scanned, is written. -/
structure Machine.NoStale (m : Machine) : Prop where
  stack : m.stack.Written
  scans : ∀ stack ∈ m.scans, stack.Written

/-- The variables of the exception handling. -/
structure SameHandlers (m m' : Machine) : Prop where
  camlTrapsp : m'.camlTrapsp = m.camlTrapsp
  nextExceptionContext : m'.nextExceptionContext = m.nextExceptionContext
  buffers : m'.buffers = m.buffers
  currentBufferIndex : m'.currentBufferIndex = m.currentBufferIndex
  camlExternalRaise : m'.camlExternalRaise = m.camlExternalRaise

/-- The step from `m` to `m'` has replaced the top `k` words of the stack by `j` words. -/
structure Replaces (rt : Runtime) (k j : Nat) (m m' : Machine) : Prop where
  handlers : SameHandlers m m'
  touched : k ≤ m.stack.length
  stack : ∃ new left, m'.moves = new ++ m.moves ∧ (rt.Quiet → moveAll new = id) ∧
    left.length = j ∧ m'.stack = left ++ StackWords.relocate (moveAll new) (m.stack.drop k)

/-- The step has also kept the registers of the function and written the words it has left. -/
structure Effect (rt : Runtime) (k j : Nat) (m m' : Machine) : Prop
    extends Replaces rt k j m m' where
  env : ∃ new, m'.moves = new ++ m.moves ∧ m'.env = m.env.relocate (moveAll new)
  extraArgs : m'.extraArgs = m.extraArgs
  noStale : m.NoStale → m'.NoStale

namespace StackWords

theorem Written.relocate {stack : StackWords} (h : stack.Written) (move : Nat → Nat) :
    (stack.relocate move).Written := by
  intro w hw
  obtain ⟨w', hw', rfl⟩ := List.mem_map.mp hw
  rw [Option.isSome_map]
  exact h w' hw'

theorem Written.append {s t : StackWords} (hs : s.Written) (ht : t.Written) :
    StackWords.Written (s ++ t) := fun w hw =>
  (List.mem_append.mp hw).elim (hs w) (ht w)

theorem Written.drop {stack : StackWords} (h : stack.Written) (n : Nat) :
    StackWords.Written (stack.drop n) := fun w hw => h w (List.mem_of_mem_drop hw)

theorem Written.cons {stack : StackWords} (h : stack.Written) (v : Value) :
    StackWords.Written (some v :: stack) := by
  intro w hw
  rcases List.mem_cons.mp hw with rfl | hw
  · rfl
  · exact h w hw

theorem Written.set {stack : StackWords} (h : stack.Written) (n : Nat) (v : Value) :
    StackWords.Written (stack.set n (some v)) := by
  intro w hw
  rcases List.mem_or_eq_of_mem_set hw with hw | rfl
  · exact h w hw
  · rfl

theorem written_map_some (vs : List Value) : StackWords.Written (vs.map some) := by
  intro w hw
  obtain ⟨v, -, rfl⟩ := List.mem_map.mp hw
  rfl

end StackWords

theorem SameHandlers.refl (m : Machine) : SameHandlers m m := ⟨rfl, rfl, rfl, rfl, rfl⟩

theorem SameHandlers.trans {a b c : Machine} (hab : SameHandlers a b) (hbc : SameHandlers b c) :
    SameHandlers a c :=
  ⟨hbc.1.trans hab.1, hbc.2.trans hab.2, hbc.3.trans hab.3, hbc.4.trans hab.4, hbc.5.trans hab.5⟩

variable {rt : Runtime} {k j k' j' : Nat} {a b c m m' : Machine}

theorem Replaces.trans (hab : Replaces rt k j a b) (hbc : Replaces rt k' j' b c) :
    Replaces rt (k + (k' - j)) (j' + (j - k')) a c := by
  obtain ⟨new, left, hmoves, hquiet, hlength, hstack⟩ := hab.stack
  obtain ⟨new', left', hmoves', hquiet', hlength', hstack'⟩ := hbc.stack
  have htouched := hbc.touched
  rw [hstack, List.length_append, StackWords.length_relocate, List.length_drop, hlength] at htouched
  have hk := hab.touched
  refine ⟨hab.handlers.trans hbc.handlers, by omega, new' ++ new,
    left' ++ StackWords.relocate (moveAll new') (left.drop k'), ?_, ?_, ?_, ?_⟩
  · rw [hmoves', hmoves, List.append_assoc]
  · intro hrt
    rw [moveAll_append, hquiet hrt, hquiet' hrt]
    rfl
  · rw [List.length_append, StackWords.length_relocate, List.length_drop, hlength, hlength']
  · rw [hstack', hstack, List.drop_append, StackWords.relocate_append, List.append_assoc, hlength,
      ← StackWords.relocate_drop, StackWords.relocate_relocate, List.drop_drop, moveAll_append]

theorem Replaces.of_eq (hstack : m'.stack = m.stack) (hhandlers : SameHandlers m m')
    (hmoves : m'.moves = m.moves) : Replaces rt 0 0 m m' :=
  ⟨hhandlers, Nat.zero_le _, [], [], hmoves, fun _ => rfl, rfl, by simp [hstack, moveAll]⟩

/-- A step that writes the words `left` in the place of the top `k` words. -/
theorem Replaces.of_stack (left : StackWords) (hk : k ≤ m.stack.length)
    (hstack : m'.stack = left ++ m.stack.drop k) (hhandlers : SameHandlers m m')
    (hmoves : m'.moves = m.moves) : Replaces rt k left.length m m' :=
  ⟨hhandlers, hk, [], left, hmoves, fun _ => rfl, rfl, by simp [hstack, moveAll]⟩

namespace Effect

theorem trans (hab : Effect rt k j a b) (hbc : Effect rt k' j' b c) :
    Effect rt (k + (k' - j)) (j' + (j - k')) a c := by
  obtain ⟨new, hmoves, henv⟩ := hab.env
  obtain ⟨new', hmoves', henv'⟩ := hbc.env
  refine ⟨hab.toReplaces.trans hbc.toReplaces, ⟨new' ++ new, ?_, ?_⟩,
    hbc.extraArgs.trans hab.extraArgs, fun ha => hbc.noStale (hab.noStale ha)⟩
  · rw [hmoves', hmoves, List.append_assoc]
  · rw [henv', henv, Value.relocate_relocate, moveAll_append]

/-- A step without a collection that writes words in the place of the top `k` words. -/
theorem of_stack (left : StackWords) (hk : k ≤ m.stack.length)
    (hstack : m'.stack = left ++ m.stack.drop k) (henv : m'.env = m.env)
    (hextra : m'.extraArgs = m.extraArgs) (hhandlers : SameHandlers m m')
    (hscans : m'.scans = m.scans) (hmoves : m'.moves = m.moves) (hleft : left.Written) :
    Effect rt k left.length m m' :=
  ⟨.of_stack left hk hstack hhandlers hmoves, ⟨[], hmoves, by simp [henv, moveAll]⟩, hextra,
    fun hm => ⟨by rw [hstack]; exact hleft.append (hm.stack.drop k), by rw [hscans]; exact hm.scans⟩⟩

theorem of_accu_heap (v : Value) (heap : Heap) :
    Effect rt 0 0 m { m with accu := v, heap := heap } :=
  of_stack [] (Nat.zero_le _) rfl rfl rfl ⟨rfl, rfl, rfl, rfl, rfl⟩ rfl rfl
    fun _ hw => absurd hw List.not_mem_nil

theorem refl (m : Machine) : Effect rt 0 0 m m := of_accu_heap m.accu m.heap

theorem accu (h : Effect rt k j m m') (v : Value) : Effect rt k j m { m' with accu := v } := by
  simpa using h.trans (of_accu_heap v m'.heap)

end Effect

/-! ### The operations that the library is made of -/

namespace Machine

variable {v w : Value} {n : Nat}

theorem effect_raiseSp (h : m.raiseSp n = some m') : Effect rt n 0 m m' := by
  unfold raiseSp at h
  split at h
  · next hle =>
      cases h
      exact Effect.of_stack [] hle rfl rfl rfl ⟨rfl, rfl, rfl, rfl, rfl⟩ rfl rfl
        fun _ hw => absurd hw List.not_mem_nil
  · cases h

theorem effect_pushWord (m : Machine) (v : Value) : Effect rt 0 1 m (m.pushWord v) :=
  Effect.of_stack [some v] (Nat.zero_le _) rfl rfl rfl ⟨rfl, rfl, rfl, rfl, rfl⟩ rfl rfl
    (StackWords.written_map_some [v])

theorem effect_setField {i : Int} (h : m.setField v i w = some m') : Effect rt 0 0 m m' := by
  simp only [setField, Option.bind_eq_bind, Option.bind_eq_some_iff] at h
  obtain ⟨heap, -, h⟩ := h
  cases h
  exact Effect.of_accu_heap m.accu heap

theorem effect_reserve (h : m.reserve rt = some m') : Effect rt 0 0 m m' := by
  have hsetup : m.NoStale → ∀ stack ∈ m.setupForGc.stack :: m.scans, stack.Written := by
    intro hm stack hmem
    rcases List.mem_cons.mp hmem with rfl | hmem
    · exact StackWords.Written.cons (hm.stack.cons m.env) m.accu
    · exact hm.scans stack hmem
  unfold reserve at h
  split at h
  · cases h
    exact ⟨.of_eq rfl ⟨rfl, rfl, rfl, rfl, rfl⟩ rfl, ⟨[], rfl, by simp [moveAll]⟩, rfl,
      fun hm => ⟨hm.stack, hsetup hm⟩⟩
  · next c hc =>
      cases h
      refine ⟨⟨⟨rfl, rfl, rfl, rfl, rfl⟩, Nat.zero_le _, [c.move], [], rfl, fun hrt => ?_, rfl, rfl⟩,
        ⟨[c.move], rfl, rfl⟩, rfl, fun hm => ⟨hm.stack.relocate c.move, hsetup hm⟩⟩
      rw [hrt.collect] at hc
      cases hc

theorem effect_allocate (m : Machine) (wosize tag : Nat) :
    Effect rt 0 0 m (m.allocate wosize tag).2 := Effect.of_accu_heap m.accu _

theorem effect_allocSmall {block : Value} {wosize tag : Nat}
    (h : m.allocSmall rt wosize tag = some (block, m')) : Effect rt 0 0 m m' := by
  simp only [allocSmall, Option.bind_eq_bind, Option.bind_eq_some_iff] at h
  obtain ⟨m₁, hreserve, h⟩ := h
  cases h
  exact (effect_reserve hreserve).trans (effect_allocate m₁ wosize tag)

/-! ### Fields and blocks -/

theorem effect_getField {idx : Int} (h : m.getField idx = some m') : Effect rt 0 0 m m' := by
  simp only [getField, Option.bind_eq_bind, Option.bind_eq_some_iff] at h
  obtain ⟨v, -, h⟩ := h
  cases h
  exact (Effect.refl m).accu v

theorem effect_storeField {idx : Int} (h : m.storeField idx = some m') : Effect rt 1 0 m m' := by
  simp only [storeField, Option.bind_eq_bind, Option.bind_eq_some_iff] at h
  obtain ⟨v, -, m₁, hraise, m₂, hset, h⟩ := h
  cases h
  exact ((effect_raiseSp hraise).trans (effect_setField hset)).accu _

theorem effect_fillFromStack {block : Value} {i : Nat}
    (h : m.fillFromStack block i n = some m') : Effect rt n 0 m m' := by
  induction n generalizing m i with
  | zero => cases h; exact Effect.refl _
  | succ n ih =>
      simp only [fillFromStack, Option.bind_eq_bind, Option.bind_eq_some_iff] at h
      obtain ⟨v, -, m₁, hset, m₂, hraise, h⟩ := h
      have heffect := ((effect_setField hset).trans (effect_raiseSp hraise)).trans (ih h)
      simpa [Nat.add_comm] using heffect

theorem effect_makeBlock1 {tag : Nat} (h : m.makeBlock1 rt tag = some m') : Effect rt 0 0 m m' := by
  simp only [makeBlock1, Option.bind_eq_bind, Option.bind_eq_some_iff] at h
  obtain ⟨⟨block, m₁⟩, halloc, m₂, hset, h⟩ := h
  cases h
  exact ((effect_allocSmall halloc).trans (effect_setField hset)).accu _

theorem effect_makeBlock2 {tag : Nat} (h : m.makeBlock2 rt tag = some m') : Effect rt 1 0 m m' := by
  simp only [makeBlock2, Option.bind_eq_bind, Option.bind_eq_some_iff] at h
  obtain ⟨⟨block, m₁⟩, halloc, m₂, hset, v, -, m₃, hset', m₄, hraise, h⟩ := h
  cases h
  exact ((((effect_allocSmall halloc).trans (effect_setField hset)).trans
    (effect_setField hset')).trans (effect_raiseSp hraise)).accu _

theorem effect_makeBlock3 {tag : Nat} (h : m.makeBlock3 rt tag = some m') : Effect rt 2 0 m m' := by
  simp only [makeBlock3, Option.bind_eq_bind, Option.bind_eq_some_iff] at h
  obtain ⟨⟨block, m₁⟩, halloc, m₂, hset, v, -, m₃, hset', v', -, m₄, hset'', m₅, hraise, h⟩ := h
  cases h
  exact (((((effect_allocSmall halloc).trans (effect_setField hset)).trans
    (effect_setField hset')).trans (effect_setField hset'')).trans (effect_raiseSp hraise)).accu _

theorem effect_allocBlock {block : Value} {wosize tag : Nat}
    (h : m.allocBlock rt wosize tag = some (block, m')) : Effect rt 0 0 m m' := by
  unfold allocBlock at h
  split at h
  · exact effect_allocSmall h
  · cases h
    exact effect_allocate m wosize tag

theorem effect_makeBlock {tag wosize : Nat} (h : m.makeBlock rt tag wosize = some m') :
    Effect rt (wosize - 1) 0 m m' := by
  simp only [makeBlock, Option.bind_eq_bind, Option.bind_eq_some_iff] at h
  obtain ⟨⟨block, m₁⟩, halloc, m₂, hset, m₃, hfill, h⟩ := h
  cases h
  have heffect := (((effect_allocBlock halloc).trans (effect_setField hset)).trans
    (effect_fillFromStack hfill)).accu block
  simpa using heffect

theorem effect_fillDoubles {block : Value} {i : Nat} (h : m.fillDoubles block i n = some m') :
    Effect rt n 0 m m' := by
  induction n generalizing m i with
  | zero => cases h; exact Effect.refl _
  | succ n ih =>
      simp only [fillDoubles, Option.bind_eq_bind, Option.bind_eq_some_iff] at h
      obtain ⟨v, -, d, -, m₁, hset, m₂, hraise, h⟩ := h
      have heffect := ((effect_setField hset).trans (effect_raiseSp hraise)).trans (ih h)
      simpa [Nat.add_comm] using heffect

theorem effect_makeFloatBlock {size : Nat} (h : m.makeFloatBlock rt size = some m') :
    Effect rt (size - 1) 0 m m' := by
  simp only [makeFloatBlock, Option.bind_eq_bind, Option.bind_eq_some_iff] at h
  obtain ⟨⟨block, m₁⟩, halloc, d, -, m₂, hset, m₃, hfill, h⟩ := h
  cases h
  have heffect := (((effect_allocBlock halloc).trans (effect_setField hset)).trans
    (effect_fillDoubles hfill)).accu block
  simpa using heffect

theorem effect_storeDoubleField {idx : Int} (h : m.storeDoubleField idx = some m') :
    Effect rt 1 0 m m' := by
  simp only [storeDoubleField, Option.bind_eq_bind, Option.bind_eq_some_iff] at h
  obtain ⟨v, -, d, -, m₁, hset, hraise⟩ := h
  exact ((effect_setField hset).accu .unit).trans (effect_raiseSp hraise)

theorem effect_getDoubleField {idx : Int} (h : m.getDoubleField rt idx = some m') :
    Effect rt 0 0 m m' := by
  simp only [getDoubleField, Option.bind_eq_bind, Option.bind_eq_some_iff] at h
  obtain ⟨v, -, h⟩ := h
  split at h
  · simp only [Option.bind_eq_some_iff] at h
    obtain ⟨⟨block, m₁⟩, halloc, m₂, hset, h⟩ := h
    cases h
    exact ((effect_allocSmall halloc).trans (effect_setField hset)).accu _
  · cases h

theorem effect_getGlobal {idx : Int} (h : m.getGlobal idx = some m') : Effect rt 0 0 m m' := by
  simp only [getGlobal, Option.bind_eq_bind, Option.bind_eq_some_iff] at h
  obtain ⟨v, -, h⟩ := h
  cases h
  exact (Effect.refl m).accu v

theorem effect_setGlobal {idx : Int} (h : m.setGlobal idx = some m') : Effect rt 0 0 m m' :=
  effect_setField h

/-! ### Vectors, strings and objects -/

theorem effect_vectLength (h : m.vectLength = some m') : Effect rt 0 0 m m' := by
  simp only [vectLength, Option.bind_eq_bind, Option.bind_eq_some_iff] at h
  obtain ⟨size, -, h⟩ := h
  cases h
  exact (Effect.refl m).accu _

theorem effect_getVectItem (h : m.getVectItem = some m') : Effect rt 1 0 m m' := by
  simp only [getVectItem, Option.bind_eq_bind, Option.bind_eq_some_iff] at h
  obtain ⟨v, -, i, -, w, -, m₁, hraise, h⟩ := h
  cases h
  exact (effect_raiseSp hraise).accu w

theorem effect_setVectItem (h : m.setVectItem = some m') : Effect rt 2 0 m m' := by
  simp only [setVectItem, Option.bind_eq_bind, Option.bind_eq_some_iff] at h
  obtain ⟨v, -, i, -, w, -, m₁, hraise, m₂, hset, h⟩ := h
  cases h
  exact ((effect_raiseSp hraise).trans (effect_setField hset)).accu _

theorem effect_getStringChar (h : m.getStringChar = some m') : Effect rt 1 0 m m' := by
  simp only [getStringChar, Option.bind_eq_bind, Option.bind_eq_some_iff] at h
  obtain ⟨v, -, i, -, c, -, m₁, hraise, h⟩ := h
  cases h
  exact (effect_raiseSp hraise).accu _

theorem effect_setStringChar (h : m.setStringChar = some m') : Effect rt 2 0 m m' := by
  simp only [setStringChar, Option.bind_eq_bind, Option.bind_eq_some_iff] at h
  obtain ⟨v, -, i, -, w, -, c, -, heap, -, m₁, hraise, h⟩ := h
  cases h
  exact ((Effect.of_accu_heap m.accu heap).trans (effect_raiseSp hraise)).accu _

theorem effect_getMethod (h : m.getMethod = some m') : Effect rt 0 0 m m' := by
  simp only [getMethod, Option.bind_eq_bind, Option.bind_eq_some_iff] at h
  obtain ⟨v, -, meths, -, i, -, w, -, h⟩ := h
  cases h
  exact (Effect.refl m).accu w

theorem effect_getDynMet (h : m.getDynMet = some m') : Effect rt 0 0 m m' := by
  simp only [getDynMet, Option.bind_eq_bind, Option.bind_eq_some_iff] at h
  obtain ⟨v, -, meths, -, hi, -, w, -, tag, -, li, -, v', -, h⟩ := h
  cases h
  exact (Effect.refl m).accu v'

theorem effect_getPubMet {met : Int} (h : m.getPubMet met = some m') : Effect rt 0 1 m m' :=
  ((effect_pushWord m m.accu).accu (.int met)).trans (effect_getDynMet h)

theorem effect_offsetRef {offset : Int} (h : m.offsetRef offset = some m') :
    Effect rt 0 0 m m' := by
  simp only [offsetRef, Option.bind_eq_bind, Option.bind_eq_some_iff] at h
  obtain ⟨v, -, w, -, m₁, hset, h⟩ := h
  cases h
  exact (effect_setField hset).accu _

/-! ### The stack and arithmetic -/

theorem effect_acc (h : m.acc n = some m') : Effect rt 0 0 m m' := by
  simp only [acc, Option.bind_eq_bind, Option.bind_eq_some_iff] at h
  obtain ⟨v, -, h⟩ := h
  cases h
  exact (Effect.refl m).accu v

theorem effect_envAcc {i : Int} (h : m.envAcc i = some m') : Effect rt 0 0 m m' := by
  simp only [envAcc, Option.bind_eq_bind, Option.bind_eq_some_iff] at h
  obtain ⟨v, -, h⟩ := h
  cases h
  exact (Effect.refl m).accu v

/-- `assign` is the one call that writes a word below others and leaves these alone. -/
theorem assign_eq (h : m.assign n = some m') :
    n < m.stack.length ∧ m' = { m with accu := .unit, stack := m.stack.set n (some m.accu) } := by
  simp only [assign, setSlot, Option.bind_eq_bind, Option.bind_eq_some_iff] at h
  obtain ⟨m₁, hset, h⟩ := h
  split at hset
  · next hlt =>
      cases hset
      cases h
      exact ⟨hlt, rfl⟩
  · cases hset

theorem effect_wordOp {f : BitVec 64 → BitVec 64 → Option Value} (h : wordOp f m = some m') :
    Effect rt 1 0 m m' := by
  simp only [wordOp, Option.bind_eq_bind, Option.bind_eq_some_iff] at h
  obtain ⟨a, -, v, -, b, -, w, -, m₁, hraise, h⟩ := h
  cases h
  exact (effect_raiseSp hraise).accu w

theorem effect_negInt (h : m.negInt = some m') : Effect rt 0 0 m m' := by
  simp only [negInt, Option.bind_eq_bind, Option.bind_eq_some_iff] at h
  obtain ⟨a, -, h⟩ := h
  cases h
  exact (Effect.refl m).accu _

theorem effect_offsetInt {i : Int} (h : m.offsetInt i = some m') : Effect rt 0 0 m m' := by
  simp only [offsetInt, Option.bind_eq_bind, Option.bind_eq_some_iff] at h
  obtain ⟨a, -, h⟩ := h
  cases h
  exact (Effect.refl m).accu _

theorem effect_boolNot (h : m.boolNot = some m') : Effect rt 0 0 m m' := by
  simp only [boolNot, Option.bind_eq_bind, Option.bind_eq_some_iff] at h
  obtain ⟨a, -, h⟩ := h
  cases h
  exact (Effect.refl m).accu _

theorem effect_cmpEq (h : m.cmpEq = some m') : Effect rt 1 0 m m' := by
  simp only [cmpEq, Option.bind_eq_bind, Option.bind_eq_some_iff] at h
  obtain ⟨b, -, m₁, hraise, h⟩ := h
  cases h
  exact (effect_raiseSp hraise).accu _

theorem effect_cmpNeq (h : m.cmpNeq = some m') : Effect rt 1 0 m m' := by
  simp only [cmpNeq, Option.bind_eq_bind, Option.bind_eq_some_iff] at h
  obtain ⟨b, -, m₁, hraise, h⟩ := h
  cases h
  exact (effect_raiseSp hraise).accu _

theorem effect_pushRetAddr (h : m.pushRetAddr = some m') : Effect rt 0 3 m m' := by
  simp only [pushRetAddr, lowerSp, setSlot, Option.bind_eq_bind] at h
  cases h
  exact ((effect_pushWord m (.int m.extraArgs)).trans (effect_pushWord _ m.env)).trans
    (effect_pushWord _ .unit)

/-! ### Closures -/

theorem effect_copySlots {block : Value} {i j : Nat} (h : m.copySlots block i j n = some m') :
    Effect rt 0 0 m m' := by
  induction n generalizing m j with
  | zero => cases h; exact Effect.refl _
  | succ n ih =>
      simp only [copySlots, Option.bind_eq_bind, Option.bind_eq_some_iff] at h
      obtain ⟨v, -, m₁, hset, h⟩ := h
      exact (effect_setField hset).trans (ih h)

/-- The first captured variable is in the accumulator and is pushed before the allocation. -/
theorem effect_pushIf (m : Machine) (n : Nat) :
    Effect rt 0 (min n 1) m (if 0 < n then m.pushWord m.accu else m) := by
  cases n with
  | zero => exact Effect.refl m
  | succ n =>
      rw [if_pos (Nat.succ_pos n), Nat.min_eq_right (Nat.succ_le_succ (Nat.zero_le n))]
      exact effect_pushWord m m.accu

theorem effect_closure {c : CodePtr} (h : m.closure rt n c = some m') :
    Effect rt (n - 1) 0 m m' := by
  simp only [closure, Option.bind_eq_bind, Option.bind_eq_some_iff] at h
  obtain ⟨⟨block, m₁⟩, halloc, m₂, hset, m₃, hcopy, hraise⟩ := h
  have heffect := ((((effect_pushIf m n).trans (effect_allocSmall halloc)).accu block).trans
    (effect_setField hset)).trans ((effect_copySlots hcopy).trans (effect_raiseSp hraise))
  have hk : n - min n 1 = n - 1 := by omega
  have hj : min n 1 - n = 0 := by omega
  simpa [hk, hj] using heffect

theorem effect_closureRec {nfuncs nvars : Nat} {c : CodePtr}
    (h : m.closureRec rt nfuncs nvars c = some m') : Effect rt (nvars - 1) 1 m m' := by
  simp only [closureRec, Option.bind_eq_bind, Option.bind_eq_some_iff] at h
  obtain ⟨⟨block, m₁⟩, halloc, m₂, hcopy, m₃, hraise, m₄, hset, h⟩ := h
  cases h
  have heffect := ((((effect_pushIf m nvars).trans (effect_allocSmall halloc)).accu block).trans
    (effect_copySlots hcopy)).trans (((effect_raiseSp hraise).trans (effect_setField hset)).trans
      (effect_pushWord m₄ block))
  have hk : nvars - min nvars 1 = nvars - 1 := by omega
  have hj : min nvars 1 - nvars = 0 := by omega
  simpa [hk, hj] using heffect

theorem effect_setClosureRecNestedClos {idx : Nat} {c : CodePtr}
    (h : m.setClosureRecNestedClos idx c = some m') : Effect rt 0 1 m m' := by
  simp only [setClosureRecNestedClos, Option.bind_eq_bind, Option.bind_eq_some_iff] at h
  obtain ⟨m₁, hset, m₂, hset', v, -, h⟩ := h
  cases h
  exact ((effect_setField hset).trans (effect_setField hset')).trans (effect_pushWord m₂ v)

theorem effect_offsetClosure {offset : Int} (h : m.offsetClosure offset = some m') :
    Effect rt 0 0 m m' := by
  simp only [offsetClosure, Option.bind_eq_bind, Option.bind_eq_some_iff] at h
  obtain ⟨v, -, h⟩ := h
  cases h
  exact (Effect.refl m).accu v

/-! ### Exceptions and calls of C primitives -/

/-- The jump that an exception of the runtime makes in a state: the end of the process if the
external-raise pointer is null, else a jump to its context in a state that keeps all words but, at
most, the top `k`. -/
inductive Raised (rt : Runtime) (k : Nat) (exn : Value) (m : Machine) : Jump → Prop
  | exit : m.camlExternalRaise = .null → Raised rt k exn m .exit
  | longjmp {i k' j : Nat} {m' : Machine} : m.camlExternalRaise = .jmpBuf i →
      m'.camlExnBucket = exn → k' ≤ k → Replaces rt k' j m m' → Raised rt k exn m (.longjmp i m')

theorem Raised.mono {k k' : Nat} {exn : Value} {j : Jump} (h : Raised rt k exn m j) (hk : k ≤ k') :
    Raised rt k' exn m j := by
  cases h with
  | exit hnull => exact .exit hnull
  | longjmp hbuf hexn hle hreplaces => exact .longjmp hbuf hexn (Nat.le_trans hle hk) hreplaces

theorem Raised.after {k j k' : Nat} {exn : Value} {m₁ : Machine} {jump : Jump}
    (hstep : Replaces rt k j m m₁) (h : Raised rt k' exn m₁ jump) :
    Raised rt (k + (k' - j)) exn m jump := by
  cases h with
  | exit hnull => exact .exit (hstep.handlers.camlExternalRaise.symm.trans hnull)
  | longjmp hbuf hexn hle hreplaces =>
      exact .longjmp (hstep.handlers.camlExternalRaise.symm.trans hbuf) hexn (by omega)
        (hstep.trans hreplaces)

theorem camlRaise_cases {exn : Value} {j : Jump} (h : m.camlRaise exn = some j) :
    (m.camlExternalRaise = .null ∧ j = .exit) ∨
      ∃ i, m.camlExternalRaise = .jmpBuf i ∧
        j = .longjmp i { m with camlExnBucket := exn, stack := m.camlExternSp } := by
  simp only [camlRaise] at h
  split at h
  · next hnull => exact .inl ⟨hnull, (Option.some.inj h).symm⟩
  · next i hbuf => exact .inr ⟨i, hbuf, (Option.some.inj h).symm⟩
  · cases h

theorem primitive_cases {p : Int} {args : PrimArgs} {o : Outcome Machine}
    (h : m.primitive rt p args = some o) :
    ∃ done, rt.primitive p args ⟨m.heap, m.camlExternSp, m.camlGlobalData⟩ = some done ∧
      ((∃ v, done.result = .ret v ∧ o = .next { m.scan.afterPrimitive done with accu := v }) ∨
        ∃ exn j, done.result = .raise exn ∧
          (m.scan.afterPrimitive done).camlRaise exn = some j ∧ o = .jump j) := by
  simp only [primitive, Option.bind_eq_bind, Option.bind_eq_some_iff] at h
  obtain ⟨done, hdone, h⟩ := h
  refine ⟨done, hdone, ?_⟩
  split at h
  · next v hret =>
      cases h
      exact .inl ⟨v, hret, rfl⟩
  · next exn hraise =>
      obtain ⟨j, hj, rfl⟩ := Option.map_eq_some_iff.mp h
      exact .inr ⟨exn, j, hraise, hj, rfl⟩

theorem effect_primitive (hkeep : rt.KeepsStack) {p : Int} {args : PrimArgs} {m₁ m₂ : Machine}
    (h : m.setupForCCall.primitive rt p args = some (.next m₁))
    (hrestore : m₁.restoreAfterCCall = some m₂) : Effect rt 0 0 m m₂ := by
  obtain ⟨done, hdone, ⟨v, -, ho⟩ | ⟨exn, j, -, -, ho⟩⟩ := primitive_cases h
  · cases ho
    have hsp : done.state.camlExternSp = StackWords.relocate done.move (some m.env :: m.stack) :=
      hkeep _ _ _ _ hdone
    simp only [restoreAfterCCall, slot, raiseSp, afterPrimitive, hsp] at hrestore
    cases hrestore
    refine ⟨⟨⟨rfl, rfl, rfl, rfl, rfl⟩, Nat.zero_le _, [done.move], [], rfl, fun hrt => ?_, rfl, ?_⟩,
      ⟨[done.move], rfl, rfl⟩, rfl, fun hm => ⟨?_, ?_⟩⟩
    · exact (hrt.primitive _ _ _ _ hdone).1
    · rfl
    · exact hm.stack.relocate done.move
    · intro stack hmem
      rcases List.mem_cons.mp hmem with rfl | hmem
      · exact hm.stack.cons m.env
      · exact hm.scans stack hmem
  · cases ho

theorem raised_primitive (hkeep : rt.KeepsStack) {p : Int} {args : PrimArgs} {j : Jump}
    (h : m.setupForCCall.primitive rt p args = some (.jump j)) :
    ∃ exn st done, rt.primitive p args st = some done ∧ done.result = .raise exn ∧
      Raised rt 0 exn m j := by
  obtain ⟨done, hdone, ⟨v, -, ho⟩ | ⟨exn, j', hraise, hj, ho⟩⟩ := primitive_cases h
  · cases ho
  · cases ho
    refine ⟨exn, _, done, hdone, hraise, ?_⟩
    have hsp : done.state.camlExternSp = StackWords.relocate done.move (some m.env :: m.stack) :=
      hkeep _ _ _ _ hdone
    rcases camlRaise_cases hj with ⟨hnull, rfl⟩ | ⟨i, hbuf, rfl⟩
    · exact .exit hnull
    · have hreplaces : Replaces rt 0 1 m
          { m.setupForCCall.scan.afterPrimitive done with
            camlExnBucket := exn, stack := done.state.camlExternSp } :=
        ⟨⟨rfl, rfl, rfl, rfl, rfl⟩, Nat.zero_le _, [done.move], [some (m.env.relocate done.move)],
          rfl, fun hrt => (hrt.primitive _ _ _ _ hdone).1, rfl, hsp⟩
      exact .longjmp hbuf rfl (Nat.le_refl 0) hreplaces

theorem effect_cCall (hkeep : rt.KeepsStack) {extra : Nat} {p : Int}
    (h : m.cCall rt extra p = some (.next m')) : Effect rt extra 0 m m' := by
  simp only [cCall, Option.bind_eq_bind, Option.bind_eq_some_iff] at h
  obtain ⟨args, -, o, hprim, h⟩ := h
  cases o with
  | jump j => cases h
  | next m₁ =>
      obtain ⟨m₃, h, heq⟩ := Option.map_eq_some_iff.mp h
      cases heq
      obtain ⟨m₂, hrestore, hraise⟩ := Option.bind_eq_some_iff.mp h
      simpa using (effect_primitive hkeep hprim hrestore).trans (effect_raiseSp hraise)

theorem raised_cCall (hkeep : rt.KeepsStack) {extra : Nat} {p : Int} {j : Jump}
    (h : m.cCall rt extra p = some (.jump j)) :
    ∃ exn args st done, rt.primitive p args st = some done ∧ done.result = .raise exn ∧
      Raised rt 0 exn m j := by
  simp only [cCall, Option.bind_eq_bind, Option.bind_eq_some_iff] at h
  obtain ⟨args, -, o, hprim, h⟩ := h
  cases o with
  | next m₁ =>
      obtain ⟨m₃, -, heq⟩ := Option.map_eq_some_iff.mp h
      cases heq
  | jump j' =>
      cases h
      obtain ⟨exn, st, done, hdone, hraise, hraised⟩ := raised_primitive hkeep hprim
      exact ⟨exn, _, st, done, hdone, hraise, hraised⟩

theorem effect_cCallN (hkeep : rt.KeepsStack) {p nargs : Int}
    (h : m.cCallN rt p nargs = some (.next m')) :
    Effect rt (nargs.toNat - 1) (1 - nargs.toNat) m m' := by
  simp only [cCallN, Option.bind_eq_bind, Option.bind_eq_some_iff] at h
  obtain ⟨o, hprim, h⟩ := h
  cases o with
  | jump j => cases h
  | next m₁ =>
      obtain ⟨m₃, h, heq⟩ := Option.map_eq_some_iff.mp h
      cases heq
      obtain ⟨m₂, hrestore, h⟩ := Option.bind_eq_some_iff.mp h
      split at h
      · have heffect := ((effect_pushWord m m.accu).trans
          (effect_primitive hkeep hprim hrestore)).trans (effect_raiseSp h)
        simpa using heffect
      · cases h

theorem raised_cCallN (hkeep : rt.KeepsStack) {p nargs : Int} {j : Jump}
    (h : m.cCallN rt p nargs = some (.jump j)) :
    ∃ exn args st done, rt.primitive p args st = some done ∧ done.result = .raise exn ∧
      Raised rt 0 exn m j := by
  simp only [cCallN, Option.bind_eq_bind, Option.bind_eq_some_iff] at h
  obtain ⟨o, hprim, h⟩ := h
  cases o with
  | next m₁ =>
      obtain ⟨m₃, -, heq⟩ := Option.map_eq_some_iff.mp h
      cases heq
  | jump j' =>
      cases h
      obtain ⟨exn, st, done, hdone, hraise, hraised⟩ := raised_primitive hkeep hprim
      exact ⟨exn, _, st, done, hdone, hraise,
        Raised.after (effect_pushWord m m.accu).toReplaces hraised⟩

end Machine

namespace RuntimeCall

open Machine

/-- The number of top words of the stack that a call takes away or overwrites. -/
def touches : RuntimeCall → Nat
  | pop n => n
  | addInt | subInt | mulInt | divInt | modInt | andInt | orInt | xorInt | lslInt | lsrInt | asrInt
  | geInt | ltInt | leInt | ultInt | ugeInt | gtInt | cmpNeq | cmpEq => 1
  | setField _ | storeDoubleField _ | getVectItem | getStringChar => 1
  | setVectItem | setStringChar => 2
  | makeBlock2 _ => 1
  | makeBlock3 _ => 2
  | makeBlock _ n | makeFloatBlock n | closure n _ | closureRec _ n _ => n - 1
  | cCall2 _ => 1
  | cCall3 _ => 2
  | cCall4 _ => 3
  | cCall5 _ => 4
  | cCallN _ nargs => nargs.toNat - 1
  | _ => 0

/-- The number of words that it leaves in their place. -/
def leaves : RuntimeCall → Nat
  | push | getPubMet _ | closureRec .. | setClosureRecNestedClos .. => 1
  | pushRetAddr => 3
  | cCallN _ nargs => 1 - nargs.toNat
  | _ => 0

def prim : RuntimeCall → Option Int
  | cCall1 p | cCall2 p | cCall3 p | cCall4 p | cCall5 p | cCallN p _ => some p
  | _ => none

theorem of_plain {o : Option Machine} (h : plain o = some (.next m')) : o = some m' := by
  obtain ⟨m₁, ho, heq⟩ := Option.map_eq_some_iff.mp h
  cases heq
  exact ho

theorem run_effect (hkeep : rt.KeepsStack) {c : RuntimeCall} (hassign : ∀ n, c ≠ assign n)
    (h : c.run rt m = some (.next m')) : Effect rt c.touches c.leaves m m' := by
  cases c with
  | constInt ci => cases of_plain h; exact (Effect.refl m).accu ci
  | push => cases of_plain h; exact effect_pushWord m m.accu
  | pop n => exact effect_raiseSp (of_plain h)
  | pushRetAddr => exact effect_pushRetAddr (of_plain h)
  | acc n => exact effect_acc (of_plain h)
  | envAcc n => exact effect_envAcc (of_plain h)
  | addInt | subInt | mulInt | divInt | modInt | andInt | orInt | xorInt | lslInt | lsrInt | asrInt
  | geInt | ltInt | leInt | ultInt | ugeInt | gtInt => exact effect_wordOp (of_plain h)
  | negInt => exact effect_negInt (of_plain h)
  | offsetInt n => exact effect_offsetInt (of_plain h)
  | boolNot => exact effect_boolNot (of_plain h)
  | isInt => cases of_plain h; exact (Effect.refl m).accu _
  | offsetRef offset => exact effect_offsetRef (of_plain h)
  | cmpNeq => exact effect_cmpNeq (of_plain h)
  | cmpEq => exact effect_cmpEq (of_plain h)
  | assign n => exact absurd rfl (hassign n)
  | getGlobal idx => exact effect_getGlobal (of_plain h)
  | setGlobal idx => exact effect_setGlobal (of_plain h)
  | getField idx => exact effect_getField (of_plain h)
  | setField idx => exact effect_storeField (of_plain h)
  | getAtom idx => cases of_plain h; exact (Effect.refl m).accu _
  | makeBlock1 tag => exact effect_makeBlock1 (of_plain h)
  | makeBlock2 tag => exact effect_makeBlock2 (of_plain h)
  | makeBlock3 tag => exact effect_makeBlock3 (of_plain h)
  | makeBlock tag wosize => exact effect_makeBlock (of_plain h)
  | makeFloatBlock size => exact effect_makeFloatBlock (of_plain h)
  | storeDoubleField idx => exact effect_storeDoubleField (of_plain h)
  | getDoubleField idx => exact effect_getDoubleField (of_plain h)
  | vectLength => exact effect_vectLength (of_plain h)
  | getVectItem => exact effect_getVectItem (of_plain h)
  | setVectItem => exact effect_setVectItem (of_plain h)
  | getStringChar => exact effect_getStringChar (of_plain h)
  | setStringChar => exact effect_setStringChar (of_plain h)
  | closureRec nfuncs nvars code => exact effect_closureRec (of_plain h)
  | setClosureRecNestedClos idx code => exact effect_setClosureRecNestedClos (of_plain h)
  | closure nvars code => exact effect_closure (of_plain h)
  | offsetClosure offset => exact effect_offsetClosure (of_plain h)
  | getMethod => exact effect_getMethod (of_plain h)
  | getPubMet met => exact effect_getPubMet (of_plain h)
  | getDynMet => exact effect_getDynMet (of_plain h)
  | cCall1 p | cCall2 p | cCall3 p | cCall4 p | cCall5 p => exact effect_cCall hkeep h
  | cCallN p nargs => exact effect_cCallN hkeep h

theorem plain_ne_jump {o : Option Machine} {j : Jump} : plain o ≠ some (.jump j) := by
  cases o <;> simp [plain]

theorem run_raised (hkeep : rt.KeepsStack) {c : RuntimeCall} {j : Jump}
    (h : c.run rt m = some (.jump j)) :
    ∃ p exn args st done, c.prim = some p ∧ rt.primitive p args st = some done ∧
      done.result = .raise exn ∧ Raised rt 0 exn m j := by
  cases c with
  | cCall1 p | cCall2 p | cCall3 p | cCall4 p | cCall5 p =>
      obtain ⟨exn, args, st, done, hraised⟩ := raised_cCall hkeep h
      exact ⟨p, exn, args, st, done, rfl, hraised⟩
  | cCallN p nargs =>
      obtain ⟨exn, args, st, done, hraised⟩ := raised_cCallN hkeep h
      exact ⟨p, exn, args, st, done, rfl, hraised⟩
  | _ => exact absurd h plain_ne_jump

/-- The top words that a sequence of calls touches, and the words that it leaves there. -/
def reach : List RuntimeCall → Nat × Nat
  | [] => (0, 0)
  | c :: cs => (c.touches + ((reach cs).1 - c.leaves), (reach cs).2 + (c.leaves - (reach cs).1))

theorem runAll_effect (hkeep : rt.KeepsStack) {cs : List RuntimeCall}
    (hassign : ∀ n, assign n ∉ cs) (h : runAll rt cs m = some (.next m')) :
    Effect rt (reach cs).1 (reach cs).2 m m' := by
  induction cs generalizing m with
  | nil => cases h; exact Effect.refl _
  | cons c cs ih =>
      simp only [runAll, Option.bind_eq_bind, Option.bind_eq_some_iff] at h
      obtain ⟨o, hrun, h⟩ := h
      have hhead : ∀ n, c ≠ assign n := by
        rintro n rfl
        exact hassign n List.mem_cons_self
      cases o with
      | next m₁ =>
          have htail := ih (fun n hmem => hassign n (List.mem_cons_of_mem c hmem)) h
          exact (run_effect hkeep hhead hrun).trans htail
      | jump j => cases h

theorem runAll_raised (hkeep : rt.KeepsStack) {cs : List RuntimeCall}
    (hassign : ∀ n, assign n ∉ cs) {jump : Jump} (h : runAll rt cs m = some (.jump jump)) :
    ∃ c ∈ cs, ∃ p exn args st done, c.prim = some p ∧ rt.primitive p args st = some done ∧
      done.result = .raise exn ∧ Raised rt (reach cs).1 exn m jump := by
  induction cs generalizing m with
  | nil => cases h
  | cons c cs ih =>
      simp only [runAll, Option.bind_eq_bind, Option.bind_eq_some_iff] at h
      obtain ⟨o, hrun, h⟩ := h
      have hhead : ∀ n, c ≠ assign n := by
        rintro n rfl
        exact hassign n List.mem_cons_self
      cases o with
      | jump j =>
          cases h
          obtain ⟨p, exn, args, st, done, hprim, hdone, hraise, hraised⟩ := run_raised hkeep hrun
          exact ⟨c, List.mem_cons_self, p, exn, args, st, done, hprim, hdone, hraise,
            hraised.mono (Nat.zero_le _)⟩
      | next m₁ =>
          obtain ⟨c', hc', p, exn, args, st, done, hprim, hdone, hraise, hraised⟩ :=
            ih (fun n hmem => hassign n (List.mem_cons_of_mem c hmem)) h
          have hreplaces := (run_effect hkeep hhead hrun).toReplaces
          exact ⟨c', List.mem_cons_of_mem c hc', p, exn, args, st, done, hprim, hdone, hraise,
            .after hreplaces hraised⟩

end RuntimeCall

end CamllVM
