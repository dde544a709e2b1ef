import Sserialize.Containers.HuffmanTreeCode

namespace Sserialize.HuffmanTree

open PrefixCode
open Function (update_self update_of_ne)

variable {TValue : Type}

theorem keyLt_iff {a b : Nat × Nat} : keyLt a b = true ↔ a.1 < b.1 ∨ a.1 = b.1 ∧ a.2 < b.2 := by
  simp [keyLt]

theorem keyLt_trans {a b c : Nat × Nat} (hab : keyLt a b = true) (hbc : keyLt b c = true) :
    keyLt a c = true := by
  rw [keyLt_iff] at *
  omega

theorem keyLt_or {a b : Nat × Nat} (hne : a.2 ≠ b.2) : keyLt a b = true ∨ keyLt b a = true := by
  rw [keyLt_iff, keyLt_iff]
  omega

abbrev Entry (TValue : Type) := (Nat × Nat) × Node TValue

def entryOf (lt : FreqTable) (ptr : NodePtr TValue) : Entry TValue := (lt ptr.addr, ptr.node)

def insertEntry (e : Entry TValue) : List (Entry TValue) → List (Entry TValue)
  | [] => [e]
  | other :: queue =>
    if keyLt e.1 other.1 then e :: other :: queue
    else if keyLt other.1 e.1 then other :: insertEntry e queue
    else other :: queue

variable (lt : FreqTable)

theorem insertNode_cons (ptr other : NodePtr TValue) (tree : List (NodePtr TValue)) :
    insertNode lt ptr (other :: tree) =
      if nodePtrComparator lt ptr other then ptr :: other :: tree
      else if nodePtrComparator lt other ptr then other :: insertNode lt ptr tree
      else other :: tree := rfl

theorem insertEntry_cons (e other : Entry TValue) (queue : List (Entry TValue)) :
    insertEntry e (other :: queue) =
      if keyLt e.1 other.1 then e :: other :: queue
      else if keyLt other.1 e.1 then other :: insertEntry e queue
      else other :: queue := rfl

theorem map_insertNode (ptr : NodePtr TValue) (tree : List (NodePtr TValue)) :
    (insertNode lt ptr tree).map (entryOf lt) =
      insertEntry (entryOf lt ptr) (tree.map (entryOf lt)) := by
  have hcmp : ∀ a b : NodePtr TValue,
      nodePtrComparator lt a b = keyLt (entryOf lt a).1 (entryOf lt b).1 := fun _ _ => rfl
  induction tree with
  | nil => rfl
  | cons other tree ih =>
    rw [insertNode_cons, List.map_cons, insertEntry_cons, hcmp, hcmp]
    by_cases hlt : keyLt (entryOf lt ptr).1 (entryOf lt other).1 = true
    · rw [if_pos hlt, if_pos hlt, List.map_cons, List.map_cons]
    · rw [if_neg hlt, if_neg hlt]
      by_cases hgt : keyLt (entryOf lt other).1 (entryOf lt ptr).1 = true
      · rw [if_pos hgt, if_pos hgt, List.map_cons, ih]
      · rw [if_neg hgt, if_neg hgt, List.map_cons]

theorem insertNode_perm_or (ptr : NodePtr TValue) (tree : List (NodePtr TValue)) :
    (insertNode lt ptr tree).Perm (ptr :: tree) ∨ insertNode lt ptr tree = tree := by
  induction tree with
  | nil => exact .inl (List.Perm.refl _)
  | cons other tree ih =>
    rw [insertNode_cons]
    split
    · exact .inl (List.Perm.refl _)
    · split
      · rcases ih with ih | ih
        · exact .inl ((ih.cons other).trans (List.Perm.swap ptr other tree))
        · exact .inr (by rw [ih])
      · exact .inr rfl

variable {queue : List (Entry TValue)} {e : Entry TValue}

theorem insertEntry_perm (hne : ∀ other ∈ queue, other.1.2 ≠ e.1.2) :
    (insertEntry e queue).Perm (e :: queue) := by
  induction queue with
  | nil => exact List.Perm.refl _
  | cons other queue ih =>
    rw [List.forall_mem_cons] at hne
    rw [insertEntry_cons]
    by_cases hlt : keyLt e.1 other.1 = true
    · rw [if_pos hlt]
    · have hgt : keyLt other.1 e.1 = true := (keyLt_or hne.1).resolve_right hlt
      rw [if_neg hlt, if_pos hgt]
      exact ((ih hne.2).cons other).trans (List.Perm.swap e other queue)

theorem insertEntry_perm_or (e : Entry TValue) (queue : List (Entry TValue)) :
    (insertEntry e queue).Perm (e :: queue) ∨ insertEntry e queue = queue := by
  induction queue with
  | nil => exact .inl (List.Perm.refl _)
  | cons other queue ih =>
    rw [insertEntry_cons]
    split
    · exact .inl (List.Perm.refl _)
    · split
      · rcases ih with ih | ih
        · exact .inl ((ih.cons other).trans (List.Perm.swap e other queue))
        · exact .inr (by rw [ih])
      · exact .inr rfl

def Sorted (queue : List (Entry TValue)) : Prop := queue.Pairwise fun a b => keyLt a.1 b.1 = true

theorem insertEntry_sorted (e : Entry TValue) (hsorted : Sorted queue) :
    Sorted (insertEntry e queue) := by
  induction queue with
  | nil => exact List.pairwise_singleton _ _
  | cons other queue ih =>
    obtain ⟨hfirst, hrest⟩ := List.pairwise_cons.mp hsorted
    rw [insertEntry_cons]
    by_cases hlt : keyLt e.1 other.1 = true
    · rw [if_pos hlt]
      refine List.pairwise_cons.mpr ⟨?_, hsorted⟩
      rw [List.forall_mem_cons]
      exact ⟨hlt, fun x hx => keyLt_trans hlt (hfirst x hx)⟩
    · rw [if_neg hlt]
      by_cases hgt : keyLt other.1 e.1 = true
      · rw [if_pos hgt]
        refine List.pairwise_cons.mpr ⟨?_, ih hrest⟩
        intro x hx
        rcases insertEntry_perm_or e queue with hperm | hsame
        · rw [hperm.mem_iff, List.mem_cons] at hx
          rcases hx with rfl | hx
          · exact hgt
          · exact hfirst x hx
        · exact hfirst x (hsame ▸ hx)
      · rw [if_neg hgt]
        exact hsorted

structure Holds (s : CreateState TValue) (queue : List (Entry TValue)) : Prop where
  entries : s.tree.map (entryOf s.freLookUpTable) = queue
  addrs : (s.tree.map NodePtr.addr).Nodup
  addr_lt : ∀ ptr ∈ s.tree, ptr.addr < s.allocated
  sorted : Sorted queue

variable {s : CreateState TValue}

theorem Holds.length_eq (h : Holds s queue) : s.tree.length = queue.length := by
  rw [← h.entries, List.length_map]

variable {tree : List (NodePtr TValue)}

theorem holds_insert {lt : FreqTable} {key : Nat × Nat} (node : Node TValue) (number : Nat)
    (hentries : tree.map (entryOf lt) = queue) (haddrs : (tree.map NodePtr.addr).Nodup)
    (haddr : ∀ ptr ∈ tree, ptr.addr < s.allocated) (hsorted : Sorted queue)
    (hnew : lt s.allocated = key) :
    Holds { freLookUpTable := lt,
            tree := insertNode lt { addr := s.allocated, node := node } tree,
            nodeCounter := number, allocated := s.allocated + 1 }
      (insertEntry (key, node) queue) := by
  have hor := insertNode_perm_or lt { addr := s.allocated, node := node } tree
  refine ⟨?_, ?_, ?_, insertEntry_sorted _ hsorted⟩
  · rw [map_insertNode, hentries, entryOf]
    dsimp only
    rw [hnew]
  · rcases hor with hor | hor
    · rw [(hor.map _).nodup_iff, List.map_cons, List.nodup_cons]
      refine ⟨?_, haddrs⟩
      intro hmem
      obtain ⟨ptr, hptr, heq⟩ := List.mem_map.mp hmem
      have hlt := haddr ptr hptr
      dsimp only at heq
      omega
    · rw [hor]
      exact haddrs
  · intro ptr hptr
    dsimp only at hptr ⊢
    rcases hor with hor | hor
    · rw [hor.mem_iff, List.mem_cons] at hptr
      rcases hptr with rfl | hptr
      · exact Nat.lt_succ_self _
      · exact (haddr ptr hptr).trans (Nat.lt_succ_self _)
    · rw [hor] at hptr
      exact (haddr ptr hptr).trans (Nat.lt_succ_self _)

theorem map_entryOf_congr {lt' : FreqTable} (h : ∀ ptr ∈ tree, lt' ptr.addr = lt ptr.addr) :
    tree.map (entryOf lt') = tree.map (entryOf lt) := by
  refine List.map_congr_left fun ptr hptr => ?_
  rw [entryOf, entryOf, h ptr hptr]

theorem holds_start : Holds (CreateState.start : CreateState TValue) [] :=
  ⟨rfl, List.nodup_nil, by simp [CreateState.start], List.Pairwise.nil⟩

def symbolQueue : List (TValue × Nat) → Nat → List (Entry TValue) → List (Entry TValue)
  | [], _, queue => queue
  | (symbol, freq) :: probs, number, queue =>
    symbolQueue probs (u32 (number + 1))
      (insertEntry ((freq, u32 (number + 1)), .endNode symbol) queue)

variable (probs : List (TValue × Nat))

theorem holds_insertSymbols (h : Holds s queue) :
    Holds (insertSymbols probs s) (symbolQueue probs s.nodeCounter queue) := by
  induction probs generalizing s queue with
  | nil => exact h
  | cons prob probs ih =>
    obtain ⟨symbol, freq⟩ := prob
    have hentries : s.tree.map (entryOf (s.freLookUpTable.put s.allocated
        (freq, u32 (s.nodeCounter + 1)))) = queue := by
      rw [map_entryOf_congr s.freLookUpTable, h.entries]
      intro ptr hptr
      exact update_of_ne (Nat.ne_of_lt (h.addr_lt ptr hptr)) _ _
    exact ih (holds_insert _ (u32 (s.nodeCounter + 1)) hentries h.addrs h.addr_lt h.sorted
      (update_self _ _ _))

theorem nodeCounter_insertSymbols (hcount : s.nodeCounter + probs.length < 2 ^ 32) :
    (insertSymbols probs s).nodeCounter = s.nodeCounter + probs.length := by
  induction probs generalizing s with
  | nil => rfl
  | cons prob probs ih =>
    rw [List.length_cons] at hcount ⊢
    have hu32 : u32 (s.nodeCounter + 1) = s.nodeCounter + 1 := u32_of_lt (by omega)
    rw [insertSymbols, ih]
    · dsimp only [CreateState.newNode]
      omega
    · dsimp only [CreateState.newNode]
      omega

theorem takeChildren_spec (digits alphabetSize inAddr : Nat) (tree : List (NodePtr TValue))
    (lt : FreqTable) (children : List (Node TValue)) (hfresh : inAddr ∉ tree.map NodePtr.addr)
    (haddrs : (tree.map NodePtr.addr).Nodup) (hfreq : (lt inAddr).1 < 2 ^ digits) :
    ∃ lt', takeChildren digits alphabetSize inAddr tree lt children =
        (children ++ (tree.take (alphabetSize - children.length)).map NodePtr.node, lt',
          tree.drop (alphabetSize - children.length)) ∧
      lt' inAddr = (((lt inAddr).1 +
        ((tree.take (alphabetSize - children.length)).map fun ptr => (lt ptr.addr).1).sum) %
          2 ^ digits, (lt inAddr).2) ∧
      ∀ ptr ∈ tree.drop (alphabetSize - children.length), lt' ptr.addr = lt ptr.addr := by
  induction tree generalizing lt children with
  | nil =>
    refine ⟨lt, ?_, ?_, ?_⟩
    · simp [takeChildren]
    · simp [Nat.mod_eq_of_lt hfreq]
    · simp
  | cons node tree ih =>
    rw [List.map_cons, List.mem_cons, not_or] at hfresh
    rw [List.map_cons, List.nodup_cons] at haddrs
    rw [takeChildren]
    by_cases hmore : children.length < alphabetSize
    · obtain ⟨k, hk⟩ : ∃ k, alphabetSize - children.length = k + 1 :=
        ⟨alphabetSize - children.length - 1, by omega⟩
      rw [if_pos hmore, hk, List.take_succ_cons, List.drop_succ_cons, List.map_cons,
        List.map_cons, List.sum_cons]
      dsimp only
      generalize hput : (lt.put inAddr (((lt inAddr).1 + (lt node.addr).1) % 2 ^ digits,
        (lt inAddr).2)).erase node.addr = lt₁
      have hin : lt₁ inAddr = (((lt inAddr).1 + (lt node.addr).1) % 2 ^ digits, (lt inAddr).2) := by
        rw [← hput, FreqTable.erase, update_of_ne hfresh.1, FreqTable.put,
          update_self]
      have hother : ∀ ptr ∈ tree, lt₁ ptr.addr = lt ptr.addr := by
        intro ptr hptr
        have hne : ptr.addr ≠ node.addr := by
          intro heq
          exact haddrs.1 (heq ▸ List.mem_map_of_mem hptr)
        have hneIn : ptr.addr ≠ inAddr := by
          intro heq
          exact hfresh.2 (heq ▸ List.mem_map_of_mem hptr)
        rw [← hput, FreqTable.erase, update_of_ne hne, FreqTable.put,
          update_of_ne hneIn]
      obtain ⟨lt', htake, hsum, hrest⟩ := ih lt₁ (children ++ [node.node]) hfresh.2 haddrs.2
        (by rw [hin]; exact Nat.mod_lt _ (Nat.two_pow_pos _))
      have hlen : alphabetSize - (children ++ [node.node]).length = k := by
        rw [List.length_append, List.length_singleton]
        omega
      rw [hlen] at htake hsum hrest
      refine ⟨lt', ?_, ?_, ?_⟩
      · rw [htake, List.append_assoc, List.singleton_append]
      · have hmap : ((tree.take k).map fun ptr => (lt₁ ptr.addr).1) =
            (tree.take k).map fun ptr => (lt ptr.addr).1 :=
          List.map_congr_left fun ptr hptr => by rw [hother ptr (List.mem_of_mem_take hptr)]
        rw [hsum, hin, hmap]
        dsimp only
        rw [Nat.mod_add_mod, Nat.add_assoc]
      · intro ptr hptr
        rw [hrest ptr hptr, hother ptr (List.mem_of_mem_drop hptr)]
    · have hzero : alphabetSize - children.length = 0 := by omega
      rw [if_neg hmore, hzero]
      refine ⟨lt, ?_, ?_, fun _ _ => rfl⟩
      · simp
      · simp [Nat.mod_eq_of_lt hfreq]

def mergedQueue (digits alphabetSize number : Nat) (queue : List (Entry TValue)) :
    List (Entry TValue) :=
  insertEntry ((((queue.take alphabetSize).map fun e => e.1.1).sum % 2 ^ digits, number),
    .innerNode ((queue.take alphabetSize).map Prod.snd)) (queue.drop alphabetSize)

variable (digits alphabetSize : Nat)

theorem holds_mergeNodes (h : Holds s queue) :
    Holds (mergeNodes digits alphabetSize s)
      (mergedQueue digits alphabetSize (u32 (s.nodeCounter + 1)) queue) := by
  have hfresh : s.allocated ∉ s.tree.map NodePtr.addr := by
    intro hmem
    obtain ⟨ptr, hptr, heq⟩ := List.mem_map.mp hmem
    have hlt := h.addr_lt ptr hptr
    omega
  generalize hlt₀ : s.freLookUpTable.put s.allocated (0, u32 (s.nodeCounter + 1)) = lt₀
  have hin : lt₀ s.allocated = (0, u32 (s.nodeCounter + 1)) := by
    rw [← hlt₀, FreqTable.put, update_self]
  have hother : ∀ ptr ∈ s.tree, lt₀ ptr.addr = s.freLookUpTable ptr.addr := by
    intro ptr hptr
    rw [← hlt₀, FreqTable.put, update_of_ne (Nat.ne_of_lt (h.addr_lt ptr hptr))]
  obtain ⟨lt', htake, hsum, hrest⟩ := takeChildren_spec digits alphabetSize s.allocated s.tree lt₀
    [] hfresh h.addrs (by rw [hin]; exact Nat.two_pow_pos _)
  rw [List.length_nil, Nat.sub_zero] at htake hsum hrest
  have hentries : (s.tree.drop alphabetSize).map (entryOf lt') = queue.drop alphabetSize := by
    rw [map_entryOf_congr s.freLookUpTable, List.map_drop, h.entries]
    intro ptr hptr
    rw [hrest ptr hptr, hother ptr (List.mem_of_mem_drop hptr)]
  have hnodes : (s.tree.take alphabetSize).map NodePtr.node =
      (queue.take alphabetSize).map Prod.snd := by
    rw [← h.entries, ← List.map_take, List.map_map]
    rfl
  have hfreqs : ((s.tree.take alphabetSize).map fun ptr => (lt₀ ptr.addr).1) =
      (queue.take alphabetSize).map fun e => e.1.1 := by
    rw [← h.entries, ← List.map_take, List.map_map]
    exact List.map_congr_left fun ptr hptr => by
      rw [hother ptr (List.mem_of_mem_take hptr)]
      rfl
  have hstep := holds_insert (.innerNode ((queue.take alphabetSize).map Prod.snd))
    (u32 (s.nodeCounter + 1)) hentries
    (by
      rw [List.map_drop]
      exact h.addrs.sublist (List.drop_sublist _ _))
    (fun ptr hptr => h.addr_lt ptr (List.mem_of_mem_drop hptr))
    (h.sorted.sublist (List.drop_sublist _ _)) hsum
  rw [hin, hfreqs, Nat.zero_add] at hstep
  rw [mergeNodes]
  dsimp only [CreateState.newNode]
  rw [hlt₀, htake]
  dsimp only
  rw [List.nil_append, hnodes]
  exact hstep

theorem nodeCounter_mergeNodes (s : CreateState TValue) :
    (mergeNodes digits alphabetSize s).nodeCounter = u32 (s.nodeCounter + 1) := rfl

theorem mergedQueue_perm {number : Nat} (hnumbers : ∀ e ∈ queue, e.1.2 ≤ number) :
    (mergedQueue digits alphabetSize (number + 1) queue).Perm
      (((((queue.take alphabetSize).map fun e => e.1.1).sum % 2 ^ digits, number + 1),
        .innerNode ((queue.take alphabetSize).map Prod.snd)) :: queue.drop alphabetSize) := by
  refine insertEntry_perm fun other hother => ?_
  have hle := hnumbers other (List.mem_of_mem_drop hother)
  dsimp only
  omega

/-- The loop takes a queue to its last entry, with so many nodes numbered before. -/
inductive MergeRun (digits alphabetSize : Nat) :
    Nat → List (Entry TValue) → Entry TValue → Prop
  | done (number : Nat) (e : Entry TValue) : MergeRun digits alphabetSize number [e] e
  | step (number : Nat) (queue : List (Entry TValue)) (e : Entry TValue) (hmore : 1 < queue.length)
      (hnumbers : ∀ e ∈ queue, e.1.2 ≤ number) (hsorted : Sorted queue)
      (h : MergeRun digits alphabetSize (number + 1)
        (mergedQueue digits alphabetSize (number + 1) queue) e) :
      MergeRun digits alphabetSize number queue e

theorem Holds.run_of_one {digits alphabetSize : Nat} (h : Holds s queue) (hne : queue ≠ [])
    (hone : ¬ s.tree.length > 1) :
    ∃ e, Holds s [e] ∧ MergeRun digits alphabetSize s.nodeCounter queue e := by
  have hpos := List.length_pos_of_ne_nil hne
  rw [h.length_eq] at hone
  obtain ⟨e, rfl⟩ := List.length_eq_one_iff.mp (show queue.length = 1 by omega)
  exact ⟨e, h, .done s.nodeCounter e⟩

theorem mergeLoop_run (digits : Nat) {alphabetSize : Nat} (halphabet : 2 ≤ alphabetSize)
    (rounds : Nat) (h : Holds s queue) (hne : queue ≠ []) (hrounds : queue.length ≤ rounds + 1)
    (hnumbers : ∀ e ∈ queue, e.1.2 ≤ s.nodeCounter)
    (hcount : s.nodeCounter + queue.length ≤ 2 ^ 32) :
    ∃ s' e, mergeLoop digits alphabetSize rounds s = some s' ∧ Holds s' [e] ∧
      MergeRun digits alphabetSize s.nodeCounter queue e := by
  induction rounds generalizing s queue with
  | zero =>
    have hone : ¬ s.tree.length > 1 := by
      rw [h.length_eq]
      omega
    obtain ⟨e, hs, hrun⟩ := h.run_of_one hne hone
    exact ⟨s, e, by rw [mergeLoop, if_neg hone], hs, hrun⟩
  | succ rounds ih =>
    by_cases hmore : s.tree.length > 1
    · have hqueue := h.length_eq ▸ hmore
      have hu32 : u32 (s.nodeCounter + 1) = s.nodeCounter + 1 := u32_of_lt (by omega)
      have hstep := holds_mergeNodes digits alphabetSize h
      have hcounter := nodeCounter_mergeNodes digits alphabetSize s
      rw [hu32] at hstep hcounter
      have hperm := mergedQueue_perm digits alphabetSize hnumbers
      have hlen := hperm.length_eq
      rw [List.length_cons, List.length_drop] at hlen
      have hpos : 0 < (mergedQueue digits alphabetSize (s.nodeCounter + 1) queue).length := by
        omega
      have hnumbers' : ∀ e ∈ mergedQueue digits alphabetSize (s.nodeCounter + 1) queue,
          e.1.2 ≤ s.nodeCounter + 1 := by
        intro e he
        rw [hperm.mem_iff, List.mem_cons] at he
        rcases he with rfl | he
        · exact Nat.le_refl _
        · exact (hnumbers e (List.mem_of_mem_drop he)).trans (Nat.le_succ _)
      obtain ⟨s', e, hloop, hs', hrun⟩ := ih hstep (List.ne_nil_of_length_pos hpos) (by omega)
        (by rwa [hcounter]) (by rw [hcounter]; omega)
      refine ⟨s', e, ?_, hs', ?_⟩
      · rw [mergeLoop, if_pos hmore]
        exact hloop
      · rw [hcounter] at hrun
        exact .step s.nodeCounter queue e hqueue hnumbers h.sorted hrun
    · obtain ⟨e, hs, hrun⟩ := h.run_of_one hne hmore
      exact ⟨s, e, by rw [mergeLoop, if_neg hmore], hs, hrun⟩

theorem symbolQueue_perm {number : Nat} (hnumbers : ∀ e ∈ queue, e.1.2 ≤ number)
    (hcount : number + probs.length < 2 ^ 32) :
    ((symbolQueue probs number queue).map fun e => (e.1.1, e.2)).Perm
        (probs.map (fun prob => (prob.2, .endNode prob.1)) ++ queue.map fun e => (e.1.1, e.2)) ∧
      ∀ e ∈ symbolQueue probs number queue, e.1.2 ≤ number + probs.length := by
  induction probs generalizing number queue with
  | nil => exact ⟨List.Perm.refl _, hnumbers⟩
  | cons prob probs ih =>
    obtain ⟨symbol, freq⟩ := prob
    rw [List.length_cons] at hcount ⊢
    have hperm : (insertEntry ((freq, number + 1), .endNode symbol) queue).Perm
        (((freq, number + 1), .endNode symbol) :: queue) := by
      refine insertEntry_perm fun other hother => ?_
      have hle := hnumbers other hother
      dsimp only
      omega
    have hnumbers' : ∀ e ∈ insertEntry ((freq, number + 1), .endNode symbol) queue,
        e.1.2 ≤ number + 1 := by
      intro e he
      rw [hperm.mem_iff, List.mem_cons] at he
      rcases he with rfl | he
      · exact Nat.le_refl _
      · exact (hnumbers e he).trans (Nat.le_succ _)
    obtain ⟨hrest, hbound⟩ := ih hnumbers' (by omega)
    rw [symbolQueue, u32_of_lt (show number + 1 < 2 ^ 32 by omega), List.map_cons,
      List.cons_append]
    refine ⟨?_, fun e he => (hbound e he).trans (by omega)⟩
    refine hrest.trans ?_
    refine ((hperm.map fun e => (e.1.1, e.2)).append_left _).trans ?_
    exact List.perm_middle

variable {alphabetBitLength : Nat}

theorem create_run (digits : Nat) (hbits : 1 ≤ alphabetBitLength) {probs : List (TValue × Nat)}
    (hne : probs ≠ []) (hcount : probs.length ≤ 2 ^ 31) :
    ∃ root key queue, create digits alphabetBitLength probs = some root ∧
      MergeRun digits (2 ^ alphabetBitLength) probs.length queue (key, root) ∧
      (queue.map fun e => (e.1.1, e.2)).Perm
        (probs.map fun prob => (prob.2, .endNode prob.1)) := by
  have hsymbols := holds_insertSymbols probs holds_start
  have hcounter := nodeCounter_insertSymbols probs
    (show (CreateState.start : CreateState TValue).nodeCounter + probs.length < 2 ^ 32 by
      dsimp only [CreateState.start]
      omega)
  obtain ⟨hperm, hnumbers⟩ := symbolQueue_perm probs
    (show ∀ e ∈ ([] : List (Entry TValue)), e.1.2 ≤ 0 by simp)
    (by omega)
  rw [List.map_nil, List.append_nil] at hperm
  have hlen := hperm.length_eq
  rw [List.length_map, List.length_map] at hlen
  have hpos := List.length_pos_of_ne_nil hne
  have hstart : (CreateState.start : CreateState TValue).nodeCounter = 0 := rfl
  rw [hstart] at hsymbols hcounter
  rw [Nat.zero_add] at hcounter hnumbers
  have halphabet : 2 ≤ 2 ^ alphabetBitLength := Nat.pow_le_pow_right (show 0 < 2 by decide) hbits
  obtain ⟨s', e, hloop, hs', hrun⟩ := mergeLoop_run digits halphabet probs.length
    hsymbols (List.ne_nil_of_length_pos (by omega)) (by omega) (by rwa [hcounter])
    (by rw [hcounter]; omega)
  obtain ⟨ptr, hptr⟩ := List.length_eq_one_iff.mp hs'.length_eq
  have hentry := hs'.entries
  rw [hptr, List.map_singleton, List.cons.injEq] at hentry
  rw [hcounter] at hrun
  refine ⟨ptr.node, e.1, symbolQueue probs 0 [], ?_, ?_, hperm⟩
  · rw [create, hloop]
    simp only [Option.bind_eq_bind, Option.bind_some, hptr, List.head?_cons, Option.pure_def]
  · have hnode : ptr.node = e.2 := congrArg Prod.snd hentry.1
    rw [hnode]
    exact hrun

variable (children : List (Node TValue))

theorem map_fst_pathsChildren (i : Nat) :
    (pathsChildren children i).map Prod.fst = children.flatMap Node.symbols := by
  induction children generalizing i with
  | nil => rfl
  | cons node children ih =>
    rw [pathsChildren, List.map_append, ih, List.map_map, List.flatMap_cons]
    rfl

theorem symbols_innerNode : (Node.innerNode children).symbols = children.flatMap Node.symbols :=
  map_fst_pathsChildren children 0

def queueSymbols (queue : List (Entry TValue)) : List TValue := queue.flatMap fun e => e.2.symbols

theorem MergeRun.symbols {digits alphabetSize number : Nat}
    (h : MergeRun digits alphabetSize number queue e) : e.2.symbols.Perm (queueSymbols queue) := by
  induction h with
  | done _ e => simp [queueSymbols]
  | step number queue e _ hnumbers _ _ ih =>
    refine ih.trans ?_
    refine ((mergedQueue_perm _ _ hnumbers).flatMap_right _).trans ?_
    rw [List.flatMap_cons, symbols_innerNode, List.flatMap_map, ← List.flatMap_append,
      List.take_append_drop]
    exact List.Perm.refl _

theorem MergeRun.wf {digits alphabetSize number : Nat} (halphabet : 1 ≤ alphabetSize)
    (h : MergeRun digits alphabetSize number queue e)
    (hqueue : ∀ entry ∈ queue, entry.2.Wf alphabetSize) : e.2.Wf alphabetSize := by
  induction h with
  | done _ e => exact hqueue e List.mem_cons_self
  | step number queue _ hmore hnumbers _ _ ih =>
    refine ih fun entry hentry => ?_
    rw [(mergedQueue_perm _ _ hnumbers).mem_iff, List.mem_cons] at hentry
    rcases hentry with rfl | hentry
    · refine .innerNode _ ?_ ?_ ?_
      · refine List.ne_nil_of_length_pos ?_
        rw [List.length_map, List.length_take]
        omega
      · rw [List.length_map, List.length_take]
        exact Nat.min_le_left _ _
      · intro node hnode
        obtain ⟨entry, hentry, rfl⟩ := List.mem_map.mp hnode
        exact hqueue entry (List.mem_of_mem_take hentry)
    · exact hqueue entry (List.mem_of_mem_drop hentry)

theorem create_symbols (digits : Nat) (hbits : 1 ≤ alphabetBitLength)
    {probs : List (TValue × Nat)} (hne : probs ≠ []) (hcount : probs.length ≤ 2 ^ 31) :
    ∃ root, create digits alphabetBitLength probs = some root ∧
      root.Wf (2 ^ alphabetBitLength) ∧ root.symbols.Perm (probs.map Prod.fst) := by
  obtain ⟨root, key, queue, hcreate, hrun, hperm⟩ := create_run digits hbits hne hcount
  refine ⟨root, hcreate, hrun.wf (Nat.two_pow_pos _) ?_, hrun.symbols.trans ?_⟩
  · intro entry hentry
    have hmem := hperm.mem_iff.mp (List.mem_map_of_mem hentry)
    obtain ⟨prob, -, heq⟩ := List.mem_map.mp hmem
    rw [← (Prod.mk.inj heq).2]
    exact .endNode prob.1
  · have hmap := hperm.flatMap_right fun e : Nat × Node TValue => e.2.symbols
    rw [List.flatMap_map, List.flatMap_map] at hmap
    rw [List.map_eq_flatMap]
    exact hmap

/-- The code of an alphabet is prefix free, and `codePointMap` lists its symbols with their root
paths when these fit into 32 bits. -/
theorem create_code [DecidableEq TValue] (digits : Nat)
    (hbits : 1 ≤ alphabetBitLength ∧ alphabetBitLength < 32)
    {probs : List (TValue × Nat)} (hne : probs ≠ []) (hsymbols : (probs.map Prod.fst).Nodup)
    (hcount : probs.length ≤ 2 ^ 31) :
    ∃ root, create digits alphabetBitLength probs = some root ∧ PrefixFree root.words ∧
      root.symbols.Perm (probs.map Prod.fst) ∧
      ((∀ entry ∈ root.paths, alphabetBitLength * entry.2.length ≤ 32) →
        codePointMap alphabetBitLength root =
          root.paths.map fun entry => (entry.1, .ofPath alphabetBitLength entry.2)) := by
  obtain ⟨root, hcreate, hwf, hperm⟩ := create_symbols digits hbits.1 hne hcount
  exact ⟨root, hcreate, root.prefixFree, hperm,
    codePointMap_eq alphabetBitLength root hwf (hperm.nodup_iff.mpr hsymbols)⟩

theorem create_code_three :
    ∃ root, create 32 1 [((7 : Nat), 2), (9, 1), (4, 1)] = some root ∧ PrefixFree root.words ∧
      root.symbols.Perm [7, 9, 4] ∧
      codePointMap 1 root = [(7, ⟨0, 1⟩), (9, ⟨2, 2⟩), (4, ⟨3, 2⟩)] := by
  obtain ⟨root, hcreate, hfree, hsymbols, hcode⟩ := create_code 32 (show 1 ≤ 1 ∧ 1 < 32 by decide)
    (show [((7 : Nat), 2), (9, 1), (4, 1)] ≠ [] by decide) (by decide) (by decide)
  refine ⟨root, hcreate, hfree, hsymbols, ?_⟩
  obtain rfl := Option.some.inj hcreate
  exact hcode (by decide)

/-- Every inner node has two children. -/
inductive Full : Node TValue → Prop
  | endNode (value : TValue) : Full (.endNode value)
  | innerNode {a b : Node TValue} (ha : Full a) (hb : Full b) : Full (.innerNode [a, b])

theorem MergeRun.full {digits number : Nat} (h : MergeRun digits 2 number queue e)
    (hqueue : ∀ entry ∈ queue, Full entry.2) : Full e.2 := by
  induction h with
  | done _ e => exact hqueue e List.mem_cons_self
  | step number queue _ hmore hnumbers _ _ ih =>
    refine ih fun entry hentry => ?_
    rw [(mergedQueue_perm _ _ hnumbers).mem_iff, List.mem_cons] at hentry
    match queue, hmore with
    | a :: b :: rest, _ =>
      rcases hentry with rfl | hentry
      · exact .innerNode (hqueue a (by simp)) (hqueue b (by simp))
      · exact hqueue entry (List.mem_of_mem_drop hentry)

theorem Full.exists_word {node : Node TValue} (h : Full node) {bits : List Nat}
    (hbits : ∀ bit ∈ bits, bit < 2) (hdepth : node.depth ≤ bits.length + 1) :
    ∃ word ∈ node.words, word <+: bits := by
  induction h generalizing bits with
  | endNode value => exact ⟨[], by simp [Node.words, Node.paths], List.nil_prefix⟩
  | @innerNode a b _ _ iha ihb =>
    simp only [Node.depth, depthChildren, Nat.max_zero, Nat.add_le_add_iff_right] at hdepth
    obtain ⟨ha, hb⟩ := max_le_iff.mp hdepth
    have hpos : 1 ≤ a.depth := by cases a <;> simp [Node.depth]
    obtain ⟨bit, rest, rfl⟩ := List.exists_cons_of_length_pos (hpos.trans ha)
    rw [List.length_cons] at ha hb
    rw [List.forall_mem_cons] at hbits
    obtain ⟨hbit, hrest⟩ := hbits
    obtain rfl | rfl : bit = 0 ∨ bit = 1 := by omega
    · obtain ⟨word, hword, hprefix⟩ := iha hrest ha
      refine ⟨0 :: word, ?_, List.cons_prefix_cons.mpr ⟨rfl, hprefix⟩⟩
      simp_all [Node.words, Node.paths, pathsChildren]
    · obtain ⟨word, hword, hprefix⟩ := ihb hrest hb
      refine ⟨1 :: word, ?_, List.cons_prefix_cons.mpr ⟨rfl, hprefix⟩⟩
      simp_all [Node.words, Node.paths, pathsChildren]

/-- The binary code is complete: all bits that are enough for the longest word begin with exactly
one word. -/
theorem create_complete (digits : Nat) {probs : List (TValue × Nat)} (hne : probs ≠ [])
    (hcount : probs.length ≤ 2 ^ 31) :
    ∃ root, create digits 1 probs = some root ∧ ∀ bits : List Nat, (∀ bit ∈ bits, bit < 2) →
      root.depth ≤ bits.length + 1 → ∃! word, word ∈ root.words ∧ word <+: bits := by
  obtain ⟨root, key, queue, hcreate, hrun, hperm⟩ := create_run digits (Nat.le_refl 1) hne hcount
  refine ⟨root, hcreate, fun bits hbits hdepth => ?_⟩
  have hfull : Full root := hrun.full fun entry hentry => by
    have hmem := hperm.mem_iff.mp (List.mem_map_of_mem hentry)
    obtain ⟨prob, -, heq⟩ := List.mem_map.mp hmem
    rw [← (Prod.mk.inj heq).2]
    exact .endNode prob.1
  obtain ⟨word, hword, hprefix⟩ := hfull.exists_word hbits hdepth
  refine ⟨word, ⟨hword, hprefix⟩, fun other ⟨hother, hprefix'⟩ => ?_⟩
  rcases List.prefix_or_prefix_of_prefix hprefix' hprefix with h | h
  · exact root.prefixFree.eq_of_isPrefix hother hword h
  · exact (root.prefixFree.eq_of_isPrefix hword hother h).symm

theorem create_complete_two :
    ∃ root, create 32 1 [((7 : Nat), 2), (9, 1)] = some root ∧
      ∃! word, word ∈ root.words ∧ word <+: List.replicate root.depth 0 :=
  have ⟨root, hcreate, hword⟩ :=
    create_complete 32 (show [((7 : Nat), 2), (9, 1)] ≠ [] by decide) (by decide)
  ⟨root, hcreate, hword _ (by simp) (by simp)⟩

end Sserialize.HuffmanTree
