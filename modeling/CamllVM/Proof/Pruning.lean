import CamllVM.GenFunction
import CamllVM.Lib.Support

/-!
# Pruning computes the unsupported blocks

A round of `removeUnusedBlocks` takes out blocks that are unsupported and leaves a graph in which
the unsupported blocks are the other ones. The last round leaves every block but the first with a
predecessor.
-/

namespace CamllVM

open Support

namespace GenFunction

def Edge (f : GenFunction) (j k : Int) : Prop := j ∈ f.blocks ∧ k ∈ (f.block j).nextBlocks

/-- The keys are those of a map, pointers lead to blocks of the function, and the predecessors are
the transpose of the successors, with multiplicity. -/
structure Consistent (f : GenFunction) : Prop where
  sorted : f.blocks.Pairwise (· < ·)
  next_mem : ∀ k ∈ f.blocks, ∀ n ∈ (f.block k).nextBlocks, n ∈ f.blocks
  previous_mem : ∀ k ∈ f.blocks, ∀ p ∈ (f.block k).previousBlocks, p ∈ f.blocks
  transpose : ∀ j ∈ f.blocks, ∀ k ∈ f.blocks,
    (f.block k).previousBlocks.count j = (f.block j).nextBlocks.count k

/-- What `removeUnusedBlocks` makes of a function whose first block is `first`. -/
structure Pruned (f : GenFunction) (first : Int) (f' : GenFunction) : Prop where
  blocks : f'.blocks.Sublist f.blocks
  removed : IsLeast
    {X : Set Int | ∀ k ∈ f.blocks, k ≠ first →
      (∀ j ∈ (f.block k).previousBlocks, j ∈ X) → k ∈ X}
    {k | k ∈ f.blocks ∧ k ∉ f'.blocks}
  reachable : ∀ k, Relation.ReflTransGen f.Edge first k → k ∈ f'.blocks
  successors : ∀ k ∈ f'.blocks, ∀ n ∈ (f.block k).nextBlocks, n ∈ f'.blocks
  predecessor : ∀ k ∈ f'.blocks, k ≠ first →
    ∃ j ∈ (f'.block k).previousBlocks, j ∈ f'.blocks
  kept : ∀ k ∈ f'.blocks, f'.block k =
    { f.block k with
      previousBlocks := (f.block k).previousBlocks.filter (· ∈ f'.blocks) }
  consistent : f'.Consistent
  again : f'.removeUnusedBlocks = f'

variable {f f' : GenFunction} {first j k : Int}

theorem Consistent.mem_previous (h : f.Consistent) (hj : j ∈ f.blocks) (hk : k ∈ f.blocks) :
    j ∈ (f.block k).previousBlocks ↔ k ∈ (f.block j).nextBlocks := by
  rw [← List.count_pos_iff, ← List.count_pos_iff, h.transpose j hj k hk]

theorem Consistent.edge_iff (h : f.Consistent) (hk : k ∈ f.blocks) :
    f.Edge j k ↔ j ∈ (f.block k).previousBlocks := by
  constructor
  · rintro ⟨hj, hnext⟩
    exact (h.mem_previous hj hk).mpr hnext
  · intro hprevious
    have hj := h.previous_mem k hk j hprevious
    exact ⟨hj, (h.mem_previous hj hk).mp hprevious⟩

/-! ### The edits of one round -/

theorem removeEdges_block (k : Int) (nexts : List Int) (s : GenFunction × Bool) (j : Int) :
    (removeEdges k nexts s).1.block j =
      { s.1.block j with
        previousBlocks :=
          (s.1.block j).previousBlocks.filter fun p => !(p == k && nexts.contains j) } := by
  induction nexts generalizing s with
  | nil => simp [removeEdges]
  | cons next nexts ih =>
      rw [removeEdges, ih]
      by_cases hj : j = next
      · subst hj
        simp only [modify, Function.update_self, List.filter_filter, GenBlock.mk.injEq, and_true]
        congr 1
        funext p
        by_cases hp : p = k
        · simp [hp]
        · simp [bne, beq_false_of_ne hp]
      · simp [modify, hj]

theorem eraseBlocks_block (ks : List Int) (s : GenFunction × Bool) (j : Int) :
    (eraseBlocks ks s).1.block j =
      { s.1.block j with
        previousBlocks := (s.1.block j).previousBlocks.filter fun p =>
          !(ks.contains p && (s.1.block p).nextBlocks.contains j) } := by
  induction ks generalizing s with
  | nil => simp [eraseBlocks]
  | cons k ks ih =>
      rw [eraseBlocks, ih]
      simp only [removeEdges_block, List.filter_filter, GenBlock.mk.injEq, and_true]
      congr 1
      funext p
      by_cases hp : p = k
      · subst hp
        simpa using Or.inr
      · simp [beq_false_of_ne hp, hp]

/-- No predecessor list has become empty since a state in which the lists were `previous`, unless
`restart` is set. -/
def Watched (previous : Int → List Int) (s : GenFunction × Bool) : Prop :=
  s.2 = false → ∀ j, (s.1.block j).previousBlocks = [] → previous j = []

theorem watched_removeEdges {previous : Int → List Int} {k : Int} {nexts : List Int}
    {s : GenFunction × Bool} (h : Watched previous s) : Watched previous (removeEdges k nexts s) := by
  induction nexts generalizing s with
  | nil => exact h
  | cons next nexts ih =>
      refine ih fun hrestart j hj => ?_
      obtain ⟨hs, hnext⟩ := Bool.or_eq_false_iff.mp hrestart
      by_cases hjn : j = next
      · subst hjn
        rw [hj] at hnext
        cases hnext
      · simp only [modify, Function.update_of_ne hjn] at hj
        exact h hs j hj

theorem watched_eraseBlocks {previous : Int → List Int} {ks : List Int} {s : GenFunction × Bool}
    (h : Watched previous s) : Watched previous (eraseBlocks ks s) := by
  induction ks generalizing s with
  | nil => exact h
  | cons k ks ih =>
      exact ih (s := ({ (removeEdges k (s.1.block k).nextBlocks s).1 with
        blocks := _ }, _)) (watched_removeEdges h)

/-! ### One round -/

theorem Consistent.nodup (h : f.Consistent) : f.blocks.Nodup := h.sorted.imp ne_of_lt

theorem mem_toRemoveBlocks (h : f.Consistent) (hfirst : f.blocks.head? = some first) :
    k ∈ f.toRemoveBlocks ↔ k ∈ f.blocks ∧ k ≠ first ∧ (f.block k).previousBlocks = [] := by
  obtain ⟨rest, hblocks⟩ := List.head?_eq_some_iff.mp hfirst
  have hnodup := h.nodup
  rw [hblocks] at hnodup
  have hnot : first ∉ rest := (List.nodup_cons.mp hnodup).1
  rw [toRemoveBlocks, List.mem_reverse, List.mem_filter, hblocks, List.drop_one, List.tail_cons,
    List.isEmpty_iff, List.mem_cons]
  constructor
  · rintro ⟨hk, hempty⟩
    exact ⟨.inr hk, fun heq => hnot (heq ▸ hk), hempty⟩
  · rintro ⟨hk, hne, hempty⟩
    exact ⟨hk.resolve_left hne, hempty⟩

theorem not_mem_toRemoveBlocks_of_edge (h : f.Consistent) (hfirst : f.blocks.head? = some first)
    (hedge : f.Edge j k) : k ∉ f.toRemoveBlocks := by
  intro hk
  obtain ⟨hmem, -, hempty⟩ := (mem_toRemoveBlocks h hfirst).mp hk
  have hprevious := (h.edge_iff hmem).mp hedge
  rw [hempty] at hprevious
  cases hprevious

/-- The function after one round. -/
def round (f : GenFunction) : GenFunction := (eraseBlocks f.toRemoveBlocks (f, false)).1

theorem round_blocks (f : GenFunction) :
    f.round.blocks = f.blocks.filter (· ∉ f.toRemoveBlocks) := eraseBlocks_blocks _ _

theorem mem_round_blocks : k ∈ f.round.blocks ↔ k ∈ f.blocks ∧ k ∉ f.toRemoveBlocks := by
  rw [round_blocks, List.mem_filter, decide_eq_true_iff]

theorem round_head (h : f.Consistent) (hfirst : f.blocks.head? = some first) :
    f.round.blocks.head? = some first := by
  have hnot : first ∉ f.toRemoveBlocks := fun hmem =>
    ((mem_toRemoveBlocks h hfirst).mp hmem).2.1 rfl
  obtain ⟨rest, hblocks⟩ := List.head?_eq_some_iff.mp hfirst
  rw [round_blocks, hblocks, List.filter_cons, if_pos (decide_eq_true hnot)]
  rfl

theorem round_block (h : f.Consistent) (hj : j ∈ f.blocks) : f.round.block j =
    { f.block j with
      previousBlocks := (f.block j).previousBlocks.filter (· ∉ f.toRemoveBlocks) } := by
  rw [round, eraseBlocks_block]
  simp only [GenBlock.mk.injEq, and_true]
  refine List.filter_congr fun p hp => ?_
  have hedge := (h.edge_iff hj).mpr hp
  simp [hedge.2]

theorem round_consistent (h : f.Consistent) (hfirst : f.blocks.head? = some first) :
    f.round.Consistent where
  sorted := by
    rw [round_blocks]
    exact h.sorted.filter _
  next_mem := by
    intro k hk n hn
    obtain ⟨hmem, -⟩ := mem_round_blocks.mp hk
    rw [round_block h hmem] at hn
    exact mem_round_blocks.mpr
      ⟨h.next_mem k hmem n hn, not_mem_toRemoveBlocks_of_edge h hfirst ⟨hmem, hn⟩⟩
  previous_mem := by
    intro k hk p hp
    obtain ⟨hmem, -⟩ := mem_round_blocks.mp hk
    rw [round_block h hmem] at hp
    obtain ⟨hp, hnot⟩ := List.mem_filter.mp hp
    exact mem_round_blocks.mpr ⟨h.previous_mem k hmem p hp, of_decide_eq_true hnot⟩
  transpose := by
    intro j hj k hk
    obtain ⟨hjmem, hjnot⟩ := mem_round_blocks.mp hj
    obtain ⟨hkmem, -⟩ := mem_round_blocks.mp hk
    rw [round_block h hjmem, round_block h hkmem]
    calc ((f.block k).previousBlocks.filter (· ∉ f.toRemoveBlocks)).count j
        = (f.block k).previousBlocks.count j := List.count_filter (decide_eq_true hjnot)
      _ = (f.block j).nextBlocks.count k := h.transpose j hjmem k hkmem

theorem round_edge (h : f.Consistent) :
    f.round.Edge = fun j k => j ∉ {k | k ∈ f.toRemoveBlocks} ∧ f.Edge j k := by
  funext j k
  apply propext
  rw [Edge, mem_round_blocks]
  constructor
  · rintro ⟨⟨hj, hnot⟩, hnext⟩
    rw [round_block h hj] at hnext
    exact ⟨hnot, hj, hnext⟩
  · rintro ⟨hnot, hj, hnext⟩
    rw [round_block h hj]
    exact ⟨⟨hj, hnot⟩, hnext⟩

/-- The unsupported blocks are those that the round takes out and those that it leaves. -/
theorem unsupported_iff_round (h : f.Consistent) (hfirst : f.blocks.head? = some first) :
    Unsupported f.Edge first k ↔ k ∈ f.toRemoveBlocks ∨ Unsupported f.round.Edge first k := by
  rw [round_edge h]
  refine unsupported_iff_erase (S := {k | k ∈ f.toRemoveBlocks}) fun k hk => ?_
  obtain ⟨hmem, hne, hempty⟩ := (mem_toRemoveBlocks h hfirst).mp hk
  refine .intro hne fun j hedge => ?_
  rw [h.edge_iff hmem, hempty] at hedge
  cases hedge

theorem round_toRemoveBlocks (h : f.Consistent) (hfirst : f.blocks.head? = some first)
    (hrestart : (eraseBlocks f.toRemoveBlocks (f, false)).2 = false) :
    f.round.toRemoveBlocks = [] := by
  have hwatched : Watched (fun j => (f.block j).previousBlocks)
      (eraseBlocks f.toRemoveBlocks (f, false)) :=
    watched_eraseBlocks fun _ _ hj => hj
  refine List.eq_nil_iff_forall_not_mem.mpr fun k hk => ?_
  obtain ⟨hmem, hne, hempty⟩ :=
    (mem_toRemoveBlocks (round_consistent h hfirst) (round_head h hfirst)).mp hk
  obtain ⟨hmem, hnot⟩ := mem_round_blocks.mp hmem
  exact hnot ((mem_toRemoveBlocks h hfirst).mpr ⟨hmem, hne, hwatched hrestart k hempty⟩)

/-! ### All rounds -/

/-- What the rounds from `f` on lead to. -/
structure Rounds (f : GenFunction) (first : Int) (f' : GenFunction) : Prop where
  sublist : f'.blocks.Sublist f.blocks
  mem_iff : ∀ k ∈ f.blocks, k ∈ f'.blocks ↔ ¬Unsupported f.Edge first k
  kept : ∀ k ∈ f'.blocks, f'.block k =
    { f.block k with previousBlocks := (f.block k).previousBlocks.filter (· ∈ f'.blocks) }
  head : f'.blocks.head? = some first
  consistent : f'.Consistent
  finished : f'.toRemoveBlocks = []

theorem not_unsupported_of_finished (h : f.Consistent) (hfirst : f.blocks.head? = some first)
    (hfinished : f.toRemoveBlocks = []) (hk : k ∈ f.blocks) : ¬Unsupported f.Edge first k := by
  refine not_unsupported_of_pred (X := {k | k ∈ f.blocks}) (fun k hk hne => ?_) hk
  have hnot : k ∉ f.toRemoveBlocks := by
    rw [hfinished]
    exact List.not_mem_nil
  have hsome : (f.block k).previousBlocks ≠ [] := fun hempty =>
    hnot ((mem_toRemoveBlocks h hfirst).mpr ⟨hk, hne, hempty⟩)
  obtain ⟨j, hj⟩ := List.exists_mem_of_ne_nil _ hsome
  exact ⟨j, h.previous_mem k hk j hj, (h.edge_iff hk).mpr hj⟩

theorem rounds_of_finished (h : f.Consistent) (hfirst : f.blocks.head? = some first)
    (hfinished : f.toRemoveBlocks = []) : Rounds f first f where
  sublist := List.Sublist.refl _
  mem_iff := fun k hk => ⟨fun _ => not_unsupported_of_finished h hfirst hfinished hk, fun _ => hk⟩
  kept := by
    intro k hk
    have hall : (f.block k).previousBlocks.filter (· ∈ f.blocks) = (f.block k).previousBlocks :=
      List.filter_eq_self.mpr fun p hp => decide_eq_true (h.previous_mem k hk p hp)
    rw [hall]
  head := hfirst
  consistent := h
  finished := hfinished

theorem rounds_of_round (h : f.Consistent) (hfirst : f.blocks.head? = some first)
    (hrounds : Rounds f.round first f') : Rounds f first f' where
  sublist := by
    have hsub := hrounds.sublist
    rw [round_blocks] at hsub
    exact hsub.trans List.filter_sublist
  mem_iff := by
    intro k hk
    rw [unsupported_iff_round h hfirst, not_or]
    constructor
    · intro hmem
      have hround := hrounds.sublist.subset hmem
      exact ⟨(mem_round_blocks.mp hround).2, (hrounds.mem_iff k hround).mp hmem⟩
    · rintro ⟨hnot, hsupported⟩
      exact (hrounds.mem_iff k (mem_round_blocks.mpr ⟨hk, hnot⟩)).mpr hsupported
  kept := by
    intro k hk
    have hround := hrounds.sublist.subset hk
    rw [hrounds.kept k hk, round_block h (mem_round_blocks.mp hround).1]
    simp only [List.filter_filter, GenBlock.mk.injEq, and_true]
    refine List.filter_congr fun p _ => ?_
    by_cases hp : p ∈ f'.blocks
    · simp [hp, (mem_round_blocks.mp (hrounds.sublist.subset hp)).2]
    · simp [hp]
  head := hrounds.head
  consistent := hrounds.consistent
  finished := hrounds.finished

theorem removeUnusedBlocks_eq (f : GenFunction) : f.removeUnusedBlocks =
    if (eraseBlocks f.toRemoveBlocks (f, false)).2 then f.round.removeUnusedBlocks else f.round := by
  rw [removeUnusedBlocks]
  split
  · next f' heq => rw [round, heq, if_pos rfl]
  · next f' heq => rw [round, heq, if_neg Bool.false_ne_true]

theorem removeUnusedBlocks_rounds (h : f.Consistent) (hfirst : f.blocks.head? = some first) :
    Rounds f first f.removeUnusedBlocks := by
  induction f using removeUnusedBlocks.induct with
  | case1 f f' heq ih =>
      obtain rfl : f.round = f' := congrArg Prod.fst heq
      rw [removeUnusedBlocks_eq, heq, if_pos rfl]
      exact rounds_of_round h hfirst (ih (round_consistent h hfirst) (round_head h hfirst))
  | case2 f f' heq =>
      rw [removeUnusedBlocks_eq, heq, if_neg Bool.false_ne_true]
      exact rounds_of_round h hfirst (rounds_of_finished (round_consistent h hfirst)
        (round_head h hfirst) (round_toRemoveBlocks h hfirst (congrArg Prod.snd heq)))

theorem removeUnusedBlocks_of_finished (hfinished : f.toRemoveBlocks = []) :
    f.removeUnusedBlocks = f := by
  rw [removeUnusedBlocks_eq, round, hfinished]
  rfl

theorem Consistent.head_eq (h : f.Consistent) (hmem : first ∈ f.blocks)
    (hmin : ∀ k ∈ f.blocks, first ≤ k) : f.blocks.head? = some first := by
  cases hblocks : f.blocks with
  | nil =>
      rw [hblocks] at hmem
      cases hmem
  | cons k rest =>
      have hsorted := h.sorted
      rw [hblocks] at hsorted hmem hmin
      rcases List.mem_cons.mp hmem with rfl | hrest
      · rfl
      · have hlt := (List.pairwise_cons.mp hsorted).1 first hrest
        have hle := hmin k List.mem_cons_self
        omega

/-- The blocks that have been taken out are the least set that is closed under taking out. -/
theorem Rounds.isLeast (h : f.Consistent) (hrounds : Rounds f first f') : IsLeast
    {X : Set Int | ∀ k ∈ f.blocks, k ≠ first →
      (∀ j ∈ (f.block k).previousBlocks, j ∈ X) → k ∈ X}
    {k | k ∈ f.blocks ∧ k ∉ f'.blocks} := by
  have hremoved : ∀ k ∈ f.blocks, k ∉ f'.blocks ↔ Unsupported f.Edge first k := by
    intro k hk
    rw [hrounds.mem_iff k hk, not_not]
  constructor
  · intro k hk hne hall
    refine ⟨hk, (hremoved k hk).mpr (.intro hne fun j hedge => ?_)⟩
    have hj := hall j ((h.edge_iff hk).mp hedge)
    exact (hremoved j hj.1).mp hj.2
  · rintro X hX k ⟨hk, hnot⟩
    have hclosed : k ∈ {k | k ∈ f.blocks → k ∈ X} := by
      refine Unsupported.mem_of_closed (fun v hne hpred hv => ?_) ((hremoved k hk).mp hnot)
      exact hX v hv hne fun j hj => hpred j ((h.edge_iff hv).mpr hj) (h.previous_mem v hv j hj)
    exact hclosed hk

/-- `removeUnusedBlocks` takes out the least set of blocks that only blocks of the set lead to, and
keeps the graph consistent. -/
theorem removeUnusedBlocks_pruned (h : f.Consistent) (hmem : first ∈ f.blocks)
    (hmin : ∀ k ∈ f.blocks, first ≤ k) : Pruned f first f.removeUnusedBlocks := by
  have hrounds := removeUnusedBlocks_rounds h (h.head_eq hmem hmin)
  have hsupported : ∀ k ∈ f.removeUnusedBlocks.blocks, ¬Unsupported f.Edge first k := fun k hk =>
    (hrounds.mem_iff k (hrounds.sublist.subset hk)).mp hk
  have hsuccessors : ∀ k ∈ f.removeUnusedBlocks.blocks, ∀ n ∈ (f.block k).nextBlocks,
      n ∈ f.removeUnusedBlocks.blocks := by
    intro k hk n hn
    have hkmem := hrounds.sublist.subset hk
    exact (hrounds.mem_iff n (h.next_mem k hkmem n hn)).mpr
      (not_unsupported_succ (hsupported k hk) ⟨hkmem, hn⟩)
  refine ⟨hrounds.sublist, hrounds.isLeast h, fun k hreach => ?_, hsuccessors, fun k hk hne => ?_,
    hrounds.kept, hrounds.consistent, removeUnusedBlocks_of_finished hrounds.finished⟩
  · have hk : k ∈ f.blocks := by
      induction hreach with
      | refl => exact hmem
      | tail _ hedge ih => exact h.next_mem _ hedge.1 _ hedge.2
    exact (hrounds.mem_iff k hk).mpr (not_unsupported_of_reachable hreach)
  · obtain ⟨j, hedge, hj⟩ := exists_supported_pred (hsupported k hk) hne
    have hkept := (hrounds.mem_iff j hedge.1).mpr hj
    have hprevious := (h.edge_iff (hrounds.sublist.subset hk)).mp hedge
    refine ⟨j, ?_, hkept⟩
    rw [hrounds.kept k hk]
    exact List.mem_filter.mpr ⟨hprevious, decide_eq_true hkept⟩

/-- A loop of the blocks 0 and 1. Only block 2 leads to block 3, and nothing leads to block 2. -/
def twoDeadBlocks : GenFunction where
  id := 0
  arity := 0
  blocks := [0, 1, 2, 3]
  block := fun k =>
    if k = 0 then ⟨[1], [1], some 1, none, []⟩
    else if k = 1 then ⟨[3, 0], [0], some 0, none, []⟩
    else if k = 2 then ⟨[], [3], some 3, none, []⟩
    else if k = 3 then ⟨[2], [1], some 1, none, []⟩
    else .empty
  firstBlock := some 0

theorem removeUnusedBlocks_pruned_twoDeadBlocks :
    Pruned twoDeadBlocks 0 twoDeadBlocks.removeUnusedBlocks :=
  removeUnusedBlocks_pruned ⟨by decide, by decide, by decide, by decide⟩ (by decide) (by decide)

end GenFunction

end CamllVM
