import Sserialize.Containers.HuffmanTreeCreate

namespace Sserialize.HuffmanTree

open PrefixCode

variable {TValue : Type}

def Node.weight (count : TValue → Nat) (node : Node TValue) : Nat :=
  (node.paths.map fun entry => count entry.1).sum

def Node.weightedLength (count : TValue → Nat) (node : Node TValue) : Nat :=
  (node.paths.map fun entry => count entry.1 * entry.2.length).sum

variable (count : TValue → Nat)

theorem weight_endNode (symbol : TValue) : (Node.endNode symbol).weight count = count symbol := by
  simp [Node.weight, Node.paths]

theorem weightedLength_endNode (symbol : TValue) : (Node.endNode symbol).weightedLength count = 0 := by
  simp [Node.weightedLength, Node.paths]

theorem sum_pathsChildren (children : List (Node TValue)) (i : Nat) :
    ((pathsChildren children i).map fun entry => count entry.1).sum =
        (children.map fun node => node.weight count).sum ∧
      ((pathsChildren children i).map fun entry => count entry.1 * entry.2.length).sum =
        (children.map fun node => node.weightedLength count).sum +
          (children.map fun node => node.weight count).sum := by
  induction children generalizing i with
  | nil => exact ⟨rfl, rfl⟩
  | cons node children ih =>
    obtain ⟨hweight, hlength⟩ := ih (i + 1)
    have hnode : (node.paths.map fun entry => count entry.1 * (entry.2.length + 1)).sum =
        node.weightedLength count + node.weight count := by
      simp only [Nat.mul_succ]
      rw [List.sum_map_add, Node.weightedLength, Node.weight]
    rw [pathsChildren, List.map_append, List.map_append, List.sum_append, List.sum_append,
      hweight, hlength, List.map_map, List.map_map, List.map_cons, List.sum_cons, List.map_cons,
      List.sum_cons]
    refine ⟨rfl, ?_⟩
    have hcomp : ((fun entry : TValue × List Nat => count entry.1 * entry.2.length) ∘
        fun entry : TValue × List Nat => (entry.1, i :: entry.2)) =
          fun entry : TValue × List Nat => count entry.1 * (entry.2.length + 1) := rfl
    rw [hcomp, hnode]
    omega

theorem weight_innerNode (children : List (Node TValue)) :
    (Node.innerNode children).weight count = (children.map fun node => node.weight count).sum :=
  (sum_pathsChildren count children 0).1

theorem weightedLength_innerNode (children : List (Node TValue)) :
    (Node.innerNode children).weightedLength count =
      (children.map fun node => node.weightedLength count).sum +
        (children.map fun node => node.weight count).sum :=
  (sum_pathsChildren count children 0).2

def queueWeights (queue : List (Entry TValue)) : List Nat := queue.map fun e => e.1.1

def queueLength (count : TValue → Nat) (queue : List (Entry TValue)) : Nat :=
  (queue.map fun e => e.2.weightedLength count).sum

variable {queue : List (Entry TValue)}

theorem Sorted.le {e : Entry TValue} (h : Sorted (e :: queue)) :
    ∀ w ∈ queueWeights queue, e.1.1 ≤ w := by
  intro w hw
  obtain ⟨other, hother, rfl⟩ := List.mem_map.mp hw
  have hlt := keyLt_iff.mp (List.rel_of_pairwise_cons h hother)
  omega

theorem MergeRun.merges {digits number : Nat} {e : Entry TValue}
    (h : MergeRun digits 2 number queue e)
    (hweights : ∀ entry ∈ queue, entry.1.1 = entry.2.weight count)
    (htotal : (queueWeights queue).sum < 2 ^ digits) :
    ∃ c, Merges (queueWeights queue : Multiset Nat) c ∧
      e.2.weightedLength count = queueLength count queue + c := by
  induction h with
  | done _ e => exact ⟨0, .single e.1.1, by simp [queueLength]⟩
  | step number queue e hmore hnumbers hsorted _ ih =>
    match queue, hmore with
    | a :: b :: rest, _ =>
      have hperm := mergedQueue_perm digits 2 hnumbers
      simp only [List.take_succ_cons, List.take_zero, List.drop_succ_cons, List.drop_zero,
        List.map_cons, List.map_nil, List.sum_cons, List.sum_nil, Nat.add_zero] at hperm
      simp only [queueWeights, List.map_cons, List.sum_cons] at htotal
      rw [List.forall_mem_cons, List.forall_mem_cons] at hweights
      obtain ⟨ha, hb, hrest⟩ := hweights
      rw [Nat.mod_eq_of_lt (show a.1.1 + b.1.1 < 2 ^ digits by omega)] at hperm
      have hsum := (hperm.map fun e => e.1.1).sum_nat
      simp only [List.map_cons, List.sum_cons] at hsum
      obtain ⟨c, hmerges, hlength⟩ := ih (by
          intro entry hentry
          rw [hperm.mem_iff, List.mem_cons] at hentry
          rcases hentry with rfl | hentry
          · simp [weight_innerNode, ha, hb]
          · exact hrest entry hentry) (by
          rw [queueWeights, hsum]
          omega)
      have hqueue : (queueWeights (mergedQueue digits 2 (number + 1) (a :: b :: rest)) :
          Multiset Nat) = (a.1.1 + b.1.1) ::ₘ (queueWeights rest : Multiset Nat) := by
        rw [Multiset.cons_coe, Multiset.coe_eq_coe]
        exact hperm.map fun e => e.1.1
      rw [hqueue] at hmerges
      have hab : a.1.1 ≤ b.1.1 := hsorted.le b.1.1 (List.mem_cons_self)
      have hbrest : ∀ w ∈ (queueWeights rest : Multiset Nat), b.1.1 ≤ w := fun w hw =>
        Sorted.le (List.pairwise_cons.mp hsorted).2 w (Multiset.mem_coe.mp hw)
      refine ⟨a.1.1 + b.1.1 + c, .merge hab hbrest hmerges, ?_⟩
      have hlengths := (hperm.map fun e => e.2.weightedLength count).sum_nat
      simp only [List.map_cons, List.sum_cons, weightedLength_innerNode, List.map_nil,
        List.sum_nil, ← ha, ← hb] at hlengths
      rw [hlength, queueLength, hlengths, queueLength, List.map_cons, List.map_cons,
        List.sum_cons, List.sum_cons]
      omega

theorem length_queueSymbols_insertEntry (e : Entry TValue) (queue : List (Entry TValue)) :
    (queueSymbols (insertEntry e queue)).length ≤
      e.2.symbols.length + (queueSymbols queue).length := by
  rcases insertEntry_perm_or e queue with hperm | hsame
  · have hlen := (hperm.flatMap_right fun e => e.2.symbols).length_eq
    rw [List.flatMap_cons, List.length_append] at hlen
    exact Nat.le_of_eq hlen
  · rw [hsame]
    exact Nat.le_add_left _ _

theorem mergeLoop_symbols (digits alphabetSize rounds : Nat) {s s' : CreateState TValue}
    (h : Holds s queue) (hloop : mergeLoop digits alphabetSize rounds s = some s') :
    ∃ queue', Holds s' queue' ∧ (queueSymbols queue').length ≤ (queueSymbols queue).length := by
  induction rounds generalizing s queue with
  | zero =>
    rw [mergeLoop] at hloop
    split at hloop
    · cases hloop
    · exact ⟨queue, Option.some.inj hloop ▸ h, Nat.le_refl _⟩
  | succ rounds ih =>
    rw [mergeLoop] at hloop
    split at hloop
    · obtain ⟨queue', h', hle⟩ := ih (holds_mergeNodes digits alphabetSize h) hloop
      refine ⟨queue', h', hle.trans ?_⟩
      refine (length_queueSymbols_insertEntry _ _).trans (Nat.le_of_eq ?_)
      dsimp only
      rw [symbols_innerNode, List.flatMap_map, queueSymbols, queueSymbols, ← List.length_append,
        ← List.flatMap_append, List.take_append_drop]
    · exact ⟨queue, Option.some.inj hloop ▸ h, Nat.le_refl _⟩

variable {probs : List (TValue × Nat)}

theorem symbolQueue_equal {freq : Nat} (number : Nat) (hprobs : ∀ prob ∈ probs, prob.2 = freq)
    (hqueue : ∀ e ∈ queue, e.1.1 = freq ∧ e.1.2 < 2 ^ 32 ∧ e.2.symbols.length = 1) :
    ∀ e ∈ symbolQueue probs number queue,
      e.1.1 = freq ∧ e.1.2 < 2 ^ 32 ∧ e.2.symbols.length = 1 := by
  induction probs generalizing number queue with
  | nil => exact hqueue
  | cons prob probs ih =>
    obtain ⟨symbol, freq'⟩ := prob
    rw [List.forall_mem_cons] at hprobs
    refine ih _ hprobs.2 fun e he => ?_
    rcases insertEntry_perm_or ((freq', u32 (number + 1)), Node.endNode symbol) queue with
      hperm | hsame
    · rw [hperm.mem_iff, List.mem_cons] at he
      rcases he with rfl | he
      · exact ⟨hprobs.1, u32_lt _, rfl⟩
      · exact hqueue e he
    · exact hqueue e (hsame ▸ he)

theorem create_equal_counts (freq : Nat) {digits alphabetBitLength : Nat}
    (hprobs : ∀ prob ∈ probs, prob.2 = freq) {root : Node TValue}
    (hcreate : create digits alphabetBitLength probs = some root) : root.symbols.length ≤ 2 ^ 32 := by
  have hsymbols := holds_insertSymbols probs (holds_start : Holds (.start : CreateState TValue) [])
  have hstart : (CreateState.start : CreateState TValue).nodeCounter = 0 := rfl
  rw [hstart] at hsymbols
  have hkeys := symbolQueue_equal 0 hprobs
    (show ∀ e ∈ ([] : List (Entry TValue)), _ by simp)
  generalize symbolQueue probs 0 ([] : List (Entry TValue)) = queue at hsymbols hkeys
  rw [create, Option.bind_eq_bind, Option.bind_eq_some_iff] at hcreate
  obtain ⟨s', hloop, hroot⟩ := hcreate
  rw [Option.bind_eq_bind, Option.bind_eq_some_iff] at hroot
  obtain ⟨ptr, hptr, hnode⟩ := hroot
  obtain rfl := Option.some.inj hnode
  obtain ⟨queue', hholds, hle⟩ := mergeLoop_symbols digits _ _ hsymbols hloop
  have hfirst : ptr.node.symbols.length ≤ (queueSymbols queue').length := by
    obtain ⟨rest, hrest⟩ : ∃ rest, s'.tree = ptr :: rest := by
      cases htree : s'.tree with
      | nil =>
        rw [htree] at hptr
        cases hptr
      | cons first rest =>
        rw [htree] at hptr
        exact ⟨rest, by rw [Option.some.inj hptr]⟩
    rw [← hholds.entries, hrest, List.map_cons, queueSymbols, List.flatMap_cons, List.length_append]
    exact Nat.le_add_right _ _
  have hones : (queueSymbols queue).length = queue.length := by
    have hone : queue.map (fun e => e.2.symbols.length) = queue.map fun _ => 1 :=
      List.map_congr_left fun e he => (hkeys e he).2.2
    rw [queueSymbols, List.length_flatMap, hone, List.map_const', List.sum_replicate,
      smul_eq_mul, Nat.mul_one]
  have hnumbers : (queue.map fun e => e.1.2).Nodup := by
    rw [List.Nodup, List.pairwise_map]
    refine hsymbols.sorted.imp_of_mem ?_
    intro a b ha hb hlt
    rw [keyLt_iff, (hkeys a ha).1, (hkeys b hb).1] at hlt
    omega
  have hsub : (queue.map fun e => e.1.2) ⊆ List.range (2 ^ 32) := by
    intro number hnumber
    obtain ⟨e, he, rfl⟩ := List.mem_map.mp hnumber
    exact List.mem_range.mpr (hkeys e he).2.1
  have hcard := (List.subperm_of_subset hnumbers hsub).length_le
  rw [List.length_map, List.length_range] at hcard
  omega

variable [DecidableEq TValue]

def frequency (probs : List (TValue × Nat)) (symbol : TValue) : Nat :=
  (OrderedMap.lookup symbol probs).getD 0

theorem frequency_of_mem (hsymbols : (probs.map Prod.fst).Nodup) {prob : TValue × Nat}
    (hprob : prob ∈ probs) : frequency probs prob.1 = prob.2 := by
  induction probs with
  | nil => cases hprob
  | cons first probs ih =>
    rw [List.map_cons, List.nodup_cons] at hsymbols
    rw [List.mem_cons] at hprob
    rw [frequency, OrderedMap.lookup, List.find?_cons]
    rcases hprob with rfl | hprob
    · simp
    · have hne : first.1 ≠ prob.1 := fun heq => hsymbols.1 (heq ▸ List.mem_map_of_mem hprob)
      rw [decide_eq_false hne]
      exact ih hsymbols.2 hprob

omit [DecidableEq TValue] in
/-- The code with these words, one for each symbol of the table, has at least the length that
merging costs. -/
theorem le_code_of_merges {c : Nat}
    (h : Merges ((probs.map Prod.snd : List Nat) : Multiset Nat) c) (code : TValue → List Bool)
    (hcode : PrefixFree ((probs.map Prod.fst).map code)) :
    c ≤ (probs.map fun prob => prob.2 * (code prob.1).length).sum := by
  have hkraft := hcode.kraft
  rw [List.map_map, List.map_map, Fintype.card_bool] at hkraft
  have hle := h.le_weightedLength
    ((probs.map fun prob => (prob.2, (code prob.1).length) : List (Nat × Nat)) :
      Multiset (Nat × Nat))
    (by
      rw [Multiset.map_coe, List.map_map]
      rfl)
    (fun _ _ => Nat.zero_le _)
    (by
      rw [kraftSum, Multiset.map_coe, Multiset.sum_coe, List.map_map]
      push_cast at hkraft
      exact hkraft)
  rw [weightedLength, Multiset.map_coe, Multiset.sum_coe, List.map_map] at hle
  refine hle.trans (Nat.le_of_eq ?_)
  congr 1
  refine List.map_congr_left fun prob _ => ?_
  rw [Function.comp_apply, smul_eq_mul, Nat.mul_comm]

/-- A prefix free code of the symbols, and none with a smaller sum of count times length. -/
structure Optimal (probs : List (TValue × Nat)) (root : Node TValue) : Prop where
  prefixFree : PrefixFree root.words
  symbols : root.symbols.Perm (probs.map Prod.fst)
  binary : ∀ word ∈ root.words, ∀ c ∈ word, c < 2
  minimal : ∀ code : TValue → List Bool, PrefixFree ((probs.map Prod.fst).map code) →
    root.weightedLength (frequency probs) ≤
      (probs.map fun prob => prob.2 * (code prob.1).length).sum

/-- With the binary alphabet `create` is optimal as long as the sum of the counts fits into the type
of the frequencies and there is a node number for every node. -/
theorem huffman_optimal (digits : Nat) (probs : List (TValue × Nat)) (hne : probs ≠ [])
    (hsymbols : (probs.map Prod.fst).Nodup) (htotal : (probs.map Prod.snd).sum < 2 ^ digits)
    (hcount : probs.length ≤ 2 ^ 31) :
    ∃ root, create digits 1 probs = some root ∧ Optimal probs root := by
  obtain ⟨root, key, queue, hcreate, hrun, hperm⟩ := create_run digits (Nat.le_refl 1) hne hcount
  obtain ⟨root', hcreate', hwf, hroot⟩ := create_symbols digits (Nat.le_refl 1) hne hcount
  obtain rfl : root = root' := Option.some.inj (hcreate.symm.trans hcreate')
  have hfreqs : (queueWeights queue).Perm (probs.map Prod.snd) := by
    have hmap := hperm.map Prod.fst
    rw [List.map_map, List.map_map] at hmap
    exact hmap
  have hleaf : ∀ entry ∈ queue, ∃ prob ∈ probs, entry.1.1 = prob.2 ∧
      entry.2 = .endNode prob.1 := by
    intro entry hentry
    have hmem := hperm.mem_iff.mp (List.mem_map_of_mem hentry)
    obtain ⟨prob, hprob, heq⟩ := List.mem_map.mp hmem
    obtain ⟨hfreq, hnode⟩ := Prod.mk.inj heq
    exact ⟨prob, hprob, hfreq.symm, hnode.symm⟩
  obtain ⟨c, hmerges, hlength⟩ := hrun.merges (frequency probs) (by
      intro entry hentry
      obtain ⟨prob, hprob, hfreq, hnode⟩ := hleaf entry hentry
      rw [hfreq, hnode, weight_endNode, frequency_of_mem hsymbols hprob])
    (by rwa [hfreqs.sum_nat])
  have hzero : queueLength (frequency probs) queue = 0 := by
    refine List.sum_eq_zero fun x hx => ?_
    obtain ⟨entry, hentry, rfl⟩ := List.mem_map.mp hx
    obtain ⟨prob, -, -, hnode⟩ := hleaf entry hentry
    rw [hnode, weightedLength_endNode]
  rw [Multiset.coe_eq_coe.mpr hfreqs] at hmerges
  refine ⟨root, hcreate, root.prefixFree, hroot, ?_, ?_⟩
  · intro word hword c hc
    obtain ⟨entry, hentry, rfl⟩ := List.mem_map.mp hword
    exact hwf.char_lt entry hentry c hc
  · intro code hcode
    rw [hlength, hzero, Nat.zero_add]
    exact le_code_of_merges hmerges code hcode

theorem huffman_optimal_three :
    ∃ root, create 32 1 [((4 : Nat), 5), (6, 2), (9, 1)] = some root ∧
      Optimal [(4, 5), (6, 2), (9, 1)] root :=
  huffman_optimal 32 [(4, 5), (6, 2), (9, 1)] (by decide) (by decide) (by decide) (by decide)

/-- A sum that is cut off comes too early, and a symbol whose number comes twice is lost. -/
theorem huffman_not_optimal :
    (¬ ∃ root, create 32 1
        [((0 : Nat), 100 * 2 ^ 24), (1, 156 * 2 ^ 24), (2, 200 * 2 ^ 24), (3, 210 * 2 ^ 24)] =
          some root ∧
        Optimal [(0, 100 * 2 ^ 24), (1, 156 * 2 ^ 24), (2, 200 * 2 ^ 24), (3, 210 * 2 ^ 24)]
          root) ∧
      ¬ ∃ root, create 64 1 ((List.range (2 ^ 32 + 1)).map fun symbol => (symbol, 1)) =
          some root ∧
        Optimal ((List.range (2 ^ 32 + 1)).map fun symbol => (symbol, 1)) root := by
  constructor
  · rintro ⟨root, hcreate, hoptimal⟩
    obtain rfl : Node.innerNode [.innerNode [.innerNode [.endNode 0, .endNode 1], .endNode 2],
      .endNode 3] = root := Option.some.inj hcreate
    have hle := hoptimal.minimal
      (fun symbol => [decide (symbol % 2 = 1), decide (symbol / 2 = 1)]) (by
        simp [PrefixFree])
    revert hle
    decide
  · rintro ⟨root, hcreate, hoptimal⟩
    have hle := create_equal_counts 1 (by simp) hcreate
    have hlen := hoptimal.symbols.length_eq
    rw [List.length_map, List.length_map, List.length_range] at hlen
    omega

end Sserialize.HuffmanTree
