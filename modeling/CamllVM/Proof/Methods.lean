import CamllVM.Exec
import CamllVM.Lib.BinarySearch

/-!
# Method lookup

A method table has the number of its methods as an integer, whose word is the index of the last tag,
then every method with its tag behind it. The search keeps to the indices of the tags.
-/

namespace CamllVM

/-- `meths` is a table of `n` methods in the order of their tags. -/
structure MethodTable (heap : Heap) (meths : Value) (n : Nat) (tags : Nat → BitVec 64)
    (methods : Nat → Value) : Prop where
  pos : 1 ≤ n
  lt : n < 2 ^ 29
  count : (heap.field meths 0).bind Value.toWord = some (BitVec.ofInt 64 (2 * n + 1))
  method : ∀ j < n, heap.field meths (2 + 2 * j) = some (methods j)
  tag : ∀ j < n, (heap.field meths (3 + 2 * j)).bind Value.toWord = some (tags j)
  increasing : ∀ j k, j < k → k < n → (tags j).slt (tags k)

namespace Machine

/-- The intervals `li`, `hi` of the rounds of `searchMethod`. Each round reads the word at the middle
and no other. -/
def searchRounds (heap : Heap) (meths : Value) (tag : BitVec 64) (li hi : Int) : List (Int × Int) :=
  if li < hi then
    (li, hi) ::
      match (heap.field meths (middle li hi)).bind Value.toWord with
      | none => []
      | some word =>
          if tag.slt word then
            if _h : middle li hi - 2 < hi then searchRounds heap meths tag li (middle li hi - 2)
            else []
          else
            if _h : li < middle li hi then searchRounds heap meths tag (middle li hi) hi
            else []
  else
    []
termination_by (hi - li).toNat

variable {heap heap' : Heap} {meths : Value} {tag : BitVec 64} {li hi : Int}

/-- The words read at the middles determine the search. -/
theorem searchMethod_congr (h : ∀ r ∈ searchRounds heap meths tag li hi,
      heap'.field meths (middle r.1 r.2) = heap.field meths (middle r.1 r.2)) :
    searchMethod heap' meths tag li hi = searchMethod heap meths tag li hi := by
  have hfirst : ∀ {li hi : Int}, li < hi → (∀ r ∈ searchRounds heap meths tag li hi,
      heap'.field meths (middle r.1 r.2) = heap.field meths (middle r.1 r.2)) →
      heap'.field meths (middle li hi) = heap.field meths (middle li hi) := by
    intro li hi hlt h
    refine h (li, hi) ?_
    rw [searchRounds, if_pos hlt]
    exact List.mem_cons_self
  fun_induction searchMethod heap meths tag li hi with
  | case1 li hi hlt hnone => rw [searchMethod, if_pos hlt, hfirst hlt h, hnone]
  | case2 li hi hlt word hword hslt hnarrow ih =>
      have hnow := hfirst hlt h
      rw [searchRounds, if_pos hlt, hword] at h
      simp only [hslt, if_true, dif_pos hnarrow] at h
      rw [searchMethod, if_pos hlt, hnow, hword]
      simp only [hslt, if_true, dif_pos hnarrow]
      exact ih fun r hr => h r (List.mem_cons_of_mem _ hr)
  | case3 li hi hlt word hword hslt hnarrow =>
      rw [searchMethod, if_pos hlt, hfirst hlt h, hword]
      simp only [hslt, if_true, dif_neg hnarrow]
  | case4 li hi hlt word hword hslt hnarrow ih =>
      have hnow := hfirst hlt h
      rw [searchRounds, if_pos hlt, hword] at h
      simp only [hslt, Bool.false_eq_true, if_false, dif_pos hnarrow] at h
      rw [searchMethod, if_pos hlt, hnow, hword]
      simp only [hslt, Bool.false_eq_true, if_false, dif_pos hnarrow]
      exact ih fun r hr => h r (List.mem_cons_of_mem _ hr)
  | case5 li hi hlt word hword hslt hnarrow =>
      rw [searchMethod, if_pos hlt, hfirst hlt h, hword]
      simp only [hslt, Bool.false_eq_true, if_false, dif_neg hnarrow]
  | case6 li hi hge => rw [searchMethod, if_neg hge]

theorem middle_odd (a b : Nat) :
    middle (3 + 2 * a) (3 + 2 * b) = 3 + 2 * ((a + b + 1) / 2 : Nat) := by
  rw [middle]
  split <;> omega

/-- The search over the words of the table is the search over its methods. -/
theorem search_odd {above : Nat → Prop} [DecidablePred above] {a b : Nat}
    (htag : ∀ c, a < c → c ≤ b → ∃ word,
      (heap.field meths (3 + 2 * c)).bind Value.toWord = some word ∧ (tag.slt word ↔ above c)) :
    searchMethod heap meths tag (3 + 2 * a) (3 + 2 * b) =
        some (3 + 2 * (BinarySearch.search above a b : Nat)) ∧
      searchRounds heap meths tag (3 + 2 * a) (3 + 2 * b) =
        (BinarySearch.rounds above a b).map fun r => (3 + 2 * (r.1 : Int), 3 + 2 * (r.2 : Int)) := by
  fun_induction BinarySearch.search above a b with
  | case1 a b hlt habove ih =>
      have hlt' : (3 + 2 * a : Int) < 3 + 2 * b := by omega
      obtain ⟨word, hword, hslt⟩ := htag ((a + b + 1) / 2) (by omega) (by omega)
      have hbelow : tag.slt word = true := hslt.mpr habove
      have hhi : (3 + 2 * ((a + b + 1) / 2 : Nat) - 2 : Int) = 3 + 2 * ((a + b + 1) / 2 - 1 : Nat) := by
        omega
      obtain ⟨hsearch, hrounds⟩ := ih fun c hc hc' => htag c hc (by omega)
      constructor
      · rw [searchMethod, if_pos hlt', middle_odd, hword]
        simp only [hbelow, if_true, hhi]
        rw [dif_pos (by omega), hsearch]
      · rw [searchRounds, if_pos hlt', middle_odd, hword, BinarySearch.rounds, if_pos hlt,
          if_pos habove, List.map_cons]
        simp only [hbelow, if_true, hhi]
        rw [dif_pos (by omega), hrounds]
  | case2 a b hlt habove ih =>
      have hlt' : (3 + 2 * a : Int) < 3 + 2 * b := by omega
      obtain ⟨word, hword, hslt⟩ := htag ((a + b + 1) / 2) (by omega) (by omega)
      have hbelow : ¬tag.slt word = true := fun h => habove (hslt.mp h)
      obtain ⟨hsearch, hrounds⟩ := ih fun c hc hc' => htag c (by omega) hc'
      constructor
      · rw [searchMethod, if_pos hlt', middle_odd, hword]
        simp only [hbelow, Bool.false_eq_true, if_false]
        rw [dif_pos (by omega), hsearch]
      · rw [searchRounds, if_pos hlt', middle_odd, hword, BinarySearch.rounds, if_pos hlt,
          if_neg habove, List.map_cons]
        simp only [hbelow, Bool.false_eq_true, if_false]
        rw [dif_pos (by omega), hrounds]
  | case3 a b hge =>
      have hge' : ¬(3 + 2 * a : Int) < 3 + 2 * b := by omega
      rw [searchMethod, if_neg hge', searchRounds, if_neg hge', BinarySearch.rounds, if_neg hge]
      exact ⟨rfl, rfl⟩

end Machine

namespace MethodTable

variable {rt : Runtime} {inst : ZInstruction} {s : Exec} {m : Machine} {heap : Heap}
  {meths obj : Value} {n j : Nat} {tags : Nat → BitVec 64} {methods : Nat → Value}

theorem slt_iff (h : MethodTable heap meths n tags methods) {k : Nat} (hj : j < n) (hk : k < n) :
    (tags j).slt (tags k) = true ↔ j < k := by
  constructor
  · intro hslt
    by_contra hge
    rcases Nat.lt_or_eq_of_le (Nat.not_lt.mp hge) with hlt | rfl
    · have hslt' := h.increasing k j hlt hj
      rw [BitVec.slt_iff_toInt_lt] at hslt hslt'
      omega
    · rw [BitVec.slt_iff_toInt_lt] at hslt
      exact Int.lt_irrefl _ hslt
  · exact fun hlt => h.increasing j k hlt hk

theorem last (h : MethodTable heap meths n tags methods) :
    (3 + 2 * (n - 1 : Nat) : Int) = 2 * n + 1 := by
  have hpos := h.pos
  omega

theorem search (h : MethodTable heap meths n tags methods) (hj : j < n) :
    Machine.searchMethod heap meths (tags j) 3 (2 * n + 1) = some (3 + 2 * (j : Int)) ∧
      ∀ r ∈ Machine.searchRounds heap meths (tags j) 3 (2 * n + 1),
        0 ≤ r.1 + r.2 ∧ r.1 + r.2 < 2 ^ 31 ∧ ∃ k < n, Machine.middle r.1 r.2 = 3 + 2 * (k : Nat) := by
  have htag : ∀ c, 0 < c → c ≤ n - 1 → ∃ word,
      (heap.field meths (3 + 2 * c)).bind Value.toWord = some word ∧
        ((tags j).slt word ↔ j < c) := by
    intro c hc hc'
    have hlt : c < n := by omega
    exact ⟨tags c, h.tag c hlt, h.slt_iff hj hlt⟩
  have hfound : BinarySearch.search (fun c => j < c) 0 (n - 1) = j :=
    BinarySearch.search_eq (fun _ _ _ => Iff.rfl) (Nat.zero_le j) (by omega)
  obtain ⟨hsearch, hrounds⟩ := Machine.search_odd htag
  rw [h.last, Nat.cast_zero, Int.mul_zero, Int.add_zero] at hsearch hrounds
  rw [hfound] at hsearch
  refine ⟨hsearch, fun r hr => ?_⟩
  rw [hrounds] at hr
  obtain ⟨q, hq, rfl⟩ := List.mem_map.mp hr
  obtain ⟨hlow, hlt, hhigh⟩ := BinarySearch.mem_rounds hq
  have hpos := h.pos
  have hbound := h.lt
  refine ⟨by omega, by omega, (q.1 + q.2 + 1) / 2, by omega, Machine.middle_odd q.1 q.2⟩

theorem getDynMet_eq (h : MethodTable m.heap meths n tags methods) (hj : j < n)
    (hobj : m.slot 0 = some obj) (hmeths : m.heap.field obj 0 = some meths)
    (htag : m.accu.toWord = some (tags j)) :
    m.getDynMet = some { m with accu := methods j } := by
  obtain ⟨count, hcount, hword⟩ := Option.bind_eq_some_iff.mp h.count
  have hpos := h.pos
  have hbound := h.lt
  have hhi : toInt32 (BitVec.ofInt 64 (2 * n + 1)).toInt = 2 * n + 1 := by
    rw [BitVec.toInt_ofInt, Int.bmod_eq_of_le (by norm_num; omega) (by norm_num; omega)]
    exact toInt32_of_small (by omega) (by omega)
  have hmethod : m.heap.field meths (3 + 2 * (j : Int) - 1) = some (methods j) := by
    rw [← h.method j hj]
    congr 1
    ring
  simp only [Machine.getDynMet, hobj, hmeths, hcount, hword, htag, hhi, (h.search hj).1, hmethod,
    Option.bind_eq_bind, Option.bind_some]
  rfl

end MethodTable

/-- `GETDYNMET` and `GETPUBMET` find the method of a tag that is in the table. The search reads tags
only, and its sums are in the range of an `int`. -/
theorem method_lookup {heap : Heap} {meths : Value} {n j : Nat} {tags : Nat → BitVec 64}
    {methods : Nat → Value} (h : MethodTable heap meths n tags methods) (hj : j < n) :
    (∃ li, Machine.searchMethod heap meths (tags j) 3 (2 * n + 1) = some li) ∧
    (∀ r ∈ Machine.searchRounds heap meths (tags j) 3 (2 * n + 1),
      0 ≤ r.1 + r.2 ∧ r.1 + r.2 < 2 ^ 31 ∧ ∃ k < n, Machine.middle r.1 r.2 = 3 + 2 * (k : Nat)) ∧
    (∀ heap', (∀ k < n, Heap.field heap' meths (3 + 2 * (k : Nat)) = heap.field meths (3 + 2 * k)) →
      Machine.searchMethod heap' meths (tags j) 3 (2 * n + 1) =
        Machine.searchMethod heap meths (tags j) 3 (2 * n + 1)) ∧
    (∀ (rt : Runtime) (inst : ZInstruction) (s : Exec) (obj : Value), inst.opNum = .getDynMet →
      s.machine.heap = heap → s.machine.slot 0 = some obj → heap.field obj 0 = some meths →
      s.machine.accu.toWord = some (tags j) →
      s.step rt inst =
        some { s with machine := { s.machine with accu := methods j }, control := .inside }) ∧
    (∀ (rt : Runtime) (inst : ZInstruction) (s : Exec), inst.opNum = .getPubMet →
      s.machine.heap = heap → heap.field s.machine.accu 0 = some meths →
      (Value.int (inst.arg 0)).toWord = some (tags j) →
      s.step rt inst = some { s with
        machine := { s.machine with accu := methods j, stack := some s.machine.accu :: s.machine.stack }
        control := .inside }) := by
  obtain ⟨hsearch, hreads⟩ := h.search hj
  refine ⟨⟨_, hsearch⟩, hreads, ?_, ?_, ?_⟩
  · intro heap' hsame
    refine Machine.searchMethod_congr fun r hr => ?_
    obtain ⟨-, -, k, hk, hmiddle⟩ := hreads r hr
    rw [hmiddle, hsame k hk]
  · rintro rt inst s obj hop rfl hobj hmeths htag
    refine Exec.step_of_run (c := .getDynMet) ?_ ?_
    · simp only [ZInstruction.runtimeCalls, hop]
    · rw [RuntimeCall.run, h.getDynMet_eq hj hobj hmeths htag]
      rfl
  · rintro rt inst s hop rfl hmeths htag
    have hpushed : (s.machine.pushWord s.machine.accu).heap = s.machine.heap := rfl
    refine Exec.step_of_run (c := .getPubMet (inst.arg 0)) ?_ ?_
    · simp only [ZInstruction.runtimeCalls, hop]
    · rw [RuntimeCall.run, Machine.getPubMet, MethodTable.getDynMet_eq (m := {
        s.machine.pushWord s.machine.accu with accu := .int (inst.arg 0) }) h hj rfl hmeths htag]
      rfl

/-- An object with a table of two methods, whose tags are -3 and 4. -/
def objectHeap : Heap :=
  [⟨248, [some (.ptr 1 0)]⟩,
    ⟨0, [some (.int 2), some (.int 0), some (.code (.fn 10)), some (.int (-3)),
      some (.code (.fn 20)), some (.int 4)]⟩]

def objectTags (j : Nat) : BitVec 64 := if j = 0 then BitVec.ofInt 64 (-5) else 9

def objectMethods (j : Nat) : Value := if j = 0 then .code (.fn 10) else .code (.fn 20)

theorem methodTable_object : MethodTable objectHeap (.ptr 1 0) 2 objectTags objectMethods where
  pos := by decide
  lt := by decide
  count := rfl
  method := by
    intro j hj
    interval_cases j <;> rfl
  tag := by
    intro j hj
    interval_cases j <;> rfl
  increasing := by
    intro j k hjk hk
    obtain ⟨rfl, rfl⟩ : j = 0 ∧ k = 1 := by omega
    decide

theorem method_lookup_object :
    (Exec.start { Machine.start objectHeap .unit 100 with accu := .ptr 0 0 }).step .idle
        (.ofArgs .getPubMet 4 0) =
      some { Exec.start { Machine.start objectHeap .unit 100 with
          accu := .code (.fn 20), stack := [some (.ptr 0 0)] } with control := .inside } :=
  (@method_lookup objectHeap (.ptr 1 0) 2 1 objectTags objectMethods methodTable_object
    (by decide)).2.2.2.2 .idle _ _ rfl rfl rfl rfl

end CamllVM
