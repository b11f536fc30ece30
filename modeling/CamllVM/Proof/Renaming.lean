import CamllVM.Proof.Allocation
import CamllVM.Proof.Calls

/-!
# Machines that are the same up to the addresses of blocks

One machine may have allocated or collected more than another one and still go through the same
computation. A renaming is a partial equivalence between the addresses of the live blocks of the two.
-/

namespace CamllVM

abbrev Renaming := PartialEquiv Nat Nat

/-- The memory and the handlers are the same up to the addresses of blocks. -/
structure Machine.Alike (ρ : Renaming) (m m' : Machine) : Prop where
  heap : Heap.Moved ρ.source ρ m.heap m'.heap
  camlGlobalData : m.camlGlobalData.Moved ρ.source ρ m'.camlGlobalData
  handlers : SameHandlers m m'

/-- Words that are related by `ρ` are related by `ρ₁` after the collections `new` and `new'`. -/
def Kept (ρ ρ₁ : Renaming) (new new' : List (Nat → Nat)) (ws ws' : StackWords) : Prop :=
  ∀ v v', some v ∈ ws → some v' ∈ ws' → v.Moved ρ.source ρ v' →
    (v.relocate (moveAll new)).Moved ρ₁.source ρ₁ (v'.relocate (moveAll new'))

/-- A collection moves the blocks that are found from its roots. -/
def Runtime.Relocates (rt : Runtime) : Prop :=
  ∀ m c, rt.collect m = some c → ∃ live, c.Relocates live m

variable {rt : Runtime} {ρ ρ' ρ₁ : Renaming} {v v' w : Value} {heap heap' heap'' : Heap}
  {m m' m'' : Machine} {new new' : List (Nat → Nat)} {ws ws' : StackWords}

/-! ### Words and heaps -/

theorem Value.Moved.symm (h : v.Moved ρ.source ρ v') : v'.Moved ρ.symm.source ρ.symm v := by
  obtain ⟨hwithin, rfl⟩ := h
  cases v with
  | ptr b offset => exact ⟨ρ.map_source hwithin, by rw [relocate, relocate, ρ.left_inv hwithin]⟩
  | _ => exact ⟨trivial, rfl⟩

theorem Value.Moved.trans (h : v.Moved ρ.source ρ w) (h' : w.Moved ρ'.source ρ' v') :
    v.Moved (ρ.trans ρ').source (ρ.trans ρ') v' := by
  obtain ⟨hwithin, rfl⟩ := h
  obtain ⟨hwithin', rfl⟩ := h'
  cases v with
  | ptr b offset => exact ⟨⟨hwithin, hwithin'⟩, rfl⟩
  | _ => exact ⟨trivial, rfl⟩

theorem Heap.Moved.symm (h : Heap.Moved ρ.source ρ heap heap') :
    Heap.Moved ρ.symm.source ρ.symm heap' heap where
  injective := ρ.symm.injOn
  block := fun b hb => by
    obtain ⟨block, block', hget, hget', htag, hfields⟩ := h.block (ρ.symm b) (ρ.map_target hb)
    rw [ρ.right_inv hb] at hget'
    refine ⟨block', block, hget', hget, htag.symm, List.Forall₂.flip (hfields.imp fun _ _ hw => ?_)⟩
    exact Related.flip hw fun _ _ hv => hv.symm

theorem Heap.Moved.trans (h : Heap.Moved ρ.source ρ heap heap')
    (h' : Heap.Moved ρ'.source ρ' heap' heap'') :
    Heap.Moved (ρ.trans ρ').source (ρ.trans ρ') heap heap'' where
  injective := (ρ.trans ρ').injOn
  block := fun b hb => by
    obtain ⟨block, block₁, hget, hget₁, htag, hfields⟩ := h.block b hb.1
    obtain ⟨block₂, block', hget₂, hget', htag', hfields'⟩ := h'.block (ρ b) hb.2
    obtain rfl : block₁ = block₂ := Option.some.inj (hget₁.symm.trans hget₂)
    refine ⟨block, block', hget, hget', htag'.trans htag, ?_⟩
    exact Related.forall₂_comp hfields hfields' fun _ _ _ hw hw' =>
      Related.comp hw hw' fun _ _ _ hv hv' => hv.trans hv'

theorem Heap.headerVal_inside (heap : Heap) {b : Nat} {offset : Int} (hne : offset ≠ 0) :
    heap.headerVal (.ptr b offset) = (heap.field (.ptr b offset) (-1)).bind fun
      | .header wosize tag => some (wosize, tag)
      | _ => none := by
  unfold headerVal
  split
  · next heq => cases heq
  · next heq =>
      cases heq
      exact absurd rfl hne
  · next heq =>
      cases heq
      rfl
  · next h => exact absurd rfl (h b offset)

theorem Heap.Moved.wosizeVal (h : Heap.Moved ρ.source ρ heap heap') (hv : v.Moved ρ.source ρ v') :
    heap'.wosizeVal v' = heap.wosizeVal v := by
  have hfield := h.field hv (-1)
  obtain ⟨hwithin, rfl⟩ := hv
  cases v with
  | ptr b offset =>
      by_cases hzero : offset = 0
      · obtain ⟨block, block', hget, hget', -, hfields⟩ := h.block b hwithin
        subst hzero
        simp [Heap.wosizeVal, Heap.headerVal, Value.relocate, hget, hget', hfields.length_eq]
      · rw [Value.relocate] at hfield ⊢
        rw [Heap.wosizeVal, Heap.wosizeVal, heap.headerVal_inside hzero, heap'.headerVal_inside hzero]
        generalize heap.field (.ptr b offset) (-1) = x at hfield ⊢
        generalize heap'.field (.ptr (ρ b) offset) (-1) = x' at hfield ⊢
        cases hfield with
        | @some w w' hw =>
            obtain ⟨-, rfl⟩ := hw
            cases w <;> rfl
        | none => rfl
  | _ => rfl

namespace Machine.Alike

theorem symm (h : Alike ρ m m') : Alike ρ.symm m' m where
  heap := h.heap.symm
  camlGlobalData := h.camlGlobalData.symm
  handlers := ⟨h.handlers.1.symm, h.handlers.2.symm, h.handlers.3.symm, h.handlers.4.symm,
    h.handlers.5.symm⟩

end Machine.Alike

/-! ### Collections -/

theorem Machine.Alike.reserve (hrt : rt.Relocates) (h : Alike ρ m m') :
    ∃ m₁ new ρ₁, m.reserve rt = some m₁ ∧ Collected new m m₁ ∧ Alike ρ₁ m₁ m' ∧
      ∀ v v', some v ∈ m.setupForGc.stack → v.Moved ρ.source ρ v' →
        (v.relocate (moveAll new)).Moved ρ₁.source ρ₁ v' := by
  obtain ⟨h₁, h₂, h₃, h₄, h₅⟩ := h.handlers
  unfold Machine.reserve
  split
  · obtain ⟨hmoves, hstack, haccu, henv, hextra, hheap⟩ := Collected.refl m
    refine ⟨_, [], ρ, rfl, ⟨hmoves, hstack, haccu, henv, hextra, hheap⟩,
      ⟨h.heap, h.camlGlobalData, ⟨h₁, h₂, h₃, h₄, h₅⟩⟩, fun v v' _ hv => ?_⟩
    rwa [moveAll, Value.relocate_id]
  · next c hc =>
      obtain ⟨live, hheap, -, -, hstack, hdata⟩ := hrt _ _ hc
      let κ : Renaming := hheap.injective.toPartialEquiv c.move live
      have hκ : Heap.Moved κ.source κ m.heap c.heap := hheap
      have hmoved : ∀ v : Value, v.Within live →
          (v.relocate c.move).Moved κ.symm.source κ.symm v := fun v hv =>
        Value.Moved.symm (ρ := κ) (hv.moved c.move)
      refine ⟨_, [c.move], κ.symm.trans ρ, rfl, ⟨rfl, rfl, rfl, rfl, rfl, fun h => by cases h⟩,
        ⟨hκ.symm.trans h.heap, (hmoved _ hdata).trans h.camlGlobalData, ⟨h₁, h₂, h₃, h₄, h₅⟩⟩,
        fun v v' hv hvv' => (hmoved v (hstack v hv)).trans hvv'⟩

theorem Machine.Alike.reserve_both (hrt : rt.Relocates) (h : Alike ρ m m') :
    ∃ m₁ m₁' new new' ρ₁, m.reserve rt = some m₁ ∧ m'.reserve rt = some m₁' ∧ Collected new m m₁ ∧
      Collected new' m' m₁' ∧ Alike ρ₁ m₁ m₁' ∧
      Kept ρ ρ₁ new new' m.setupForGc.stack m'.setupForGc.stack := by
  obtain ⟨m₁, new, ρ₁, hreserve, hcollected, halike, hkept⟩ := h.reserve hrt
  obtain ⟨m₁', new', ρ₂, hreserve', hcollected', halike', hkept'⟩ := halike.symm.reserve hrt
  refine ⟨m₁, m₁', new, new', ρ₂.symm, hreserve, hreserve', hcollected, hcollected', halike'.symm,
    fun v v' hv hv' hmoved => ?_⟩
  exact (hkept' v' _ hv' (hkept v v' hv hmoved).symm).symm

/-! ### Words that are kept -/

theorem StackWords.mem_relocate {move : Nat → Nat} (h : some v ∈ ws) :
    some (v.relocate move) ∈ ws.relocate move := List.mem_map_of_mem h

namespace Kept

variable {ρ₂ : Renaming} {new₁ new₁' : List (Nat → Nat)} {ws₁ ws₁' : StackWords}

theorem refl (ρ : Renaming) (ws ws' : StackWords) : Kept ρ ρ [] [] ws ws' := fun v v' _ _ hv => by
  rwa [moveAll, Value.relocate_id, Value.relocate_id]

theorem sub (h : Kept ρ ρ₁ new new' ws ws') (hws : ∀ v, some v ∈ ws₁ → some v ∈ ws)
    (hws' : ∀ v, some v ∈ ws₁' → some v ∈ ws') : Kept ρ ρ₁ new new' ws₁ ws₁' :=
  fun v v' hv hv' => h v v' (hws v hv) (hws' v' hv')

theorem trans (h : Kept ρ ρ₁ new new' ws ws')
    (h₁ : Kept ρ₁ ρ₂ new₁ new₁' (ws.relocate (moveAll new)) (ws'.relocate (moveAll new'))) :
    Kept ρ ρ₂ (new₁ ++ new) (new₁' ++ new') ws ws' := fun v v' hv hv' hmoved => by
  rw [moveAll_append, moveAll_append, ← Value.relocate_relocate, ← Value.relocate_relocate]
  exact h₁ _ _ (StackWords.mem_relocate hv) (StackWords.mem_relocate hv') (h v v' hv hv' hmoved)

theorem values {us us' : List Value} (h : Kept ρ ρ₁ new new' ws ws')
    (hus : List.Forall₂ (Value.Moved ρ.source ρ) us us') (hws : ∀ v ∈ us, some v ∈ ws)
    (hws' : ∀ v ∈ us', some v ∈ ws') :
    List.Forall₂ (Value.Moved ρ₁.source ρ₁) (us.map (Value.relocate (moveAll new)))
      (us'.map (Value.relocate (moveAll new'))) := by
  induction hus with
  | nil => exact .nil
  | cons hv _ ih =>
      refine .cons (h _ _ (hws _ List.mem_cons_self) (hws' _ List.mem_cons_self) hv)
        (ih (fun v hv => ?_) fun v hv => ?_)
      · exact hws v (List.mem_cons_of_mem _ hv)
      · exact hws' v (List.mem_cons_of_mem _ hv)

end Kept

end CamllVM
