import Sserialize.Containers.UnicodeTrieFind

namespace Sserialize

open PrefixTree TrieHeap

namespace UnicodeTrie

variable {V : Type} (fresh : V) {t : UnicodeTrie V} {ps : Nat → List Char}

def lastStored (ops : List (List Char × Option V)) (s : List Char) : Option V :=
  ops.foldl (fun v op => if op.1 = s then op.2.or v else v) none

/-- The parent pointers and the keys of all nodes that can be reached. -/
structure Consistent (t : UnicodeTrie V) : Prop where
  root : ∀ r, t.root = some r → (t.heap.node r).parent = none
  parent : ∀ i s, t.IsPath i s → ∀ key c, (key, c) ∈ (t.heap.node i).children →
    (t.heap.node c).parent = some i
  keyed : ∀ i s, t.IsPath i s → ∀ key c, (key, c) ∈ (t.heap.node i).children →
    ∃ cp cps, key = cp.val.toNat ∧ (t.heap.node c).str = Utf8.encode (cp :: cps)
  distinct : ∀ i s, t.IsPath i s → (OrderedMap.keys (t.heap.node i).children).Nodup

structure Holds (t : UnicodeTrie V) (ps : Nat → List Char) (ops : List (List Char × Option V)) :
    Prop where
  root : t.root = some 0
  wf : Wf t.heap ps
  paths : ∀ p, Path t.heap ps p ↔ p = [] ∨ Closure (ops.map Prod.fst) p
  stored : ∀ s v, lastStored ops s = some v →
    ∃ i, i < t.heap.size ∧ ps i = s ∧ (t.heap.node i).value = v

theorem isPath_iff (hroot : t.root = some 0) (hw : Wf t.heap ps) (i : Nat) (b : Bytes) :
    t.IsPath i b ↔ i < t.heap.size ∧ b = Utf8.encode (ps i) := by
  constructor
  · intro hpath
    induction hpath with
    | root hr =>
      obtain rfl := Option.some.inj (hroot.symm.trans hr)
      exact ⟨hw.pos, by rw [hw.root_str, hw.root_path, Utf8.encode_nil]⟩
    | child _ hmem ih =>
      obtain ⟨hlt, rfl⟩ := ih
      obtain ⟨-, hi, c, cs, -, hchild⟩ := hw.down _ hlt _ _ hmem
      exact ⟨hi, by rw [hchild.str, hchild.path, Utf8.encode_append]⟩
  · rintro ⟨hi, rfl⟩
    induction hn : (ps i).length using Nat.strong_induction_on generalizing i with
    | _ n ih =>
    subst hn
    by_cases hi0 : i = 0
    · subst hi0
      rw [hw.root_path, Utf8.encode_nil, ← hw.root_str]
      exact .root hroot
    · obtain ⟨q, c, cs, hq, hchild⟩ := hw.up i (Nat.pos_of_ne_zero hi0) hi
      have hqpath := ih _ hchild.length_lt q hq rfl
      rw [hchild.path, Utf8.encode_append, ← hchild.str]
      exact .child hqpath hchild.key

theorem consistent_of_wf (hroot : t.root = some 0) (hw : Wf t.heap ps) : Consistent t where
  root r hr := by
    obtain rfl := Option.some.inj (hroot.symm.trans hr)
    exact hw.root_parent
  parent i s hpath key c hmem := by
    obtain ⟨-, -, cp, cps, -, hchild⟩ := hw.down i ((isPath_iff hroot hw i s).mp hpath).1 key c hmem
    exact hchild.parent
  keyed i s hpath key c hmem := by
    obtain ⟨-, -, cp, cps, hkey, hchild⟩ :=
      hw.down i ((isPath_iff hroot hw i s).mp hpath).1 key c hmem
    exact ⟨cp, cps, hkey, hchild.str⟩
  distinct i s hpath := (hw.sorted i ((isPath_iff hroot hw i s).mp hpath).1).nodup

variable {h : TrieHeap V}

theorem closed_of_paths {L : List (List Char)} (hpaths : ∀ p, Path h ps p ↔ p = [] ∨ Closure L p) :
    Closed h ps := by
  intro p q hp hq
  rw [hpaths] at hp hq ⊢
  rcases hp with rfl | hp
  · exact .inl rfl
  rcases hq with rfl | hq
  · exact .inl (lcp_nil p)
  · exact .inr (closure_lcp hp hq)

theorem closure_insert {L : List (List Char)} {s : List Char} (p : List Char) :
    (p = [] ∨ Closure L p) ∨ p = s ∨ (∃ q, (q = [] ∨ Closure L q) ∧ p = lcp s q) ↔
      p = [] ∨ Closure (L ++ [s]) p := by
  have hs : s ∈ L ++ [s] := List.mem_append_right L (List.mem_singleton_self s)
  have hmono : ∀ q, Closure L q → Closure (L ++ [s]) q := by
    rintro q ⟨a, ha, b, hb, rfl⟩
    exact ⟨a, List.mem_append_left _ ha, b, List.mem_append_left _ hb, rfl⟩
  constructor
  · rintro ((hp | hp) | rfl | ⟨q, rfl | hq, rfl⟩)
    · exact .inl hp
    · exact .inr (hmono p hp)
    · exact .inr (closure_of_mem hs)
    · exact .inl (lcp_nil s)
    · exact .inr (closure_lcp (closure_of_mem hs) (hmono q hq))
  · rintro (hp | ⟨a, ha, b, hb, rfl⟩)
    · exact .inl (.inl hp)
    rw [List.mem_append, List.mem_singleton] at ha hb
    rcases ha with ha | ha
    · rcases hb with hb | hb
      · exact .inl (.inr ⟨a, ha, b, hb, rfl⟩)
      · rw [hb]
        exact .inr (.inr ⟨a, .inr (closure_of_mem ha), lcp_comm a s⟩)
    · rw [ha]
      rcases hb with hb | hb
      · exact .inr (.inr ⟨b, .inr (closure_of_mem hb), rfl⟩)
      · rw [hb]
        exact .inr (.inl (lcp_self s))

theorem wf_root : Wf ((new fresh).heap.alloc ⟨[], none, [], fresh⟩) fun _ => [] := by
  have hnode : ((new fresh).heap.alloc ⟨[], none, [], fresh⟩).node 0 = ⟨[], none, [], fresh⟩ := by
    simp [new, alloc]
  have hsize : ((new fresh).heap.alloc ⟨[], none, [], fresh⟩).size = 1 := rfl
  refine ⟨Nat.one_pos, by rw [hnode], by rw [hnode], rfl, ?_, ?_, ?_⟩
  · intro i hpos hi
    omega
  · intro q hq key i hmem
    obtain rfl : q = 0 := by omega
    rw [hnode] at hmem
    cases hmem
  · intro q hq
    obtain rfl : q = 0 := by omega
    rw [hnode]
    exact List.Pairwise.nil

theorem wf_store (hw : Wf h ps) (i : Nat) (v : V) : Wf (h.modify i fun n => { n with value := v }) ps := by
  have hnode : ∀ j, ((h.modify i fun n => { n with value := v }).node j).str = (h.node j).str ∧
      ((h.modify i fun n => { n with value := v }).node j).parent = (h.node j).parent ∧
      ((h.modify i fun n => { n with value := v }).node j).children = (h.node j).children := by
    intro j
    by_cases heq : j = i
    · subst heq
      simp [TrieHeap.modify]
    · simp [TrieHeap.modify, Function.update_of_ne heq]
  have hedge : ∀ q j c cs, IsChild h ps q j c cs →
      IsChild (h.modify i fun n => { n with value := v }) ps q j c cs := by
    intro q j c cs hchild
    exact ⟨by rw [(hnode q).2.2]; exact hchild.key, (hnode j).2.1.trans hchild.parent,
      (hnode j).1.trans hchild.str, hchild.path⟩
  refine ⟨hw.pos, (hnode 0).1.trans hw.root_str, (hnode 0).2.1.trans hw.root_parent, hw.root_path,
    ?_, ?_, ?_⟩
  · intro j hpos hj
    obtain ⟨q, c, cs, hq, hchild⟩ := hw.up j hpos hj
    exact ⟨q, c, cs, hq, hedge q j c cs hchild⟩
  · intro q hq key j hmem
    rw [(hnode q).2.2] at hmem
    obtain ⟨hpos, hj, c, cs, hkey, hchild⟩ := hw.down q hq key j hmem
    exact ⟨hpos, hj, c, cs, hkey, hedge q j c cs hchild⟩
  · intro q hq
    rw [(hnode q).2.2]
    exact hw.sorted q hq

variable {ops : List (List Char × Option V)} {fuel : Nat}

theorem nodeAt_spec {t : UnicodeTrie V} (ht : (t = new fresh ∧ ops = []) ∨ ∃ ps, Holds t ps ops)
    (s : List Char) (hfuel : s.length + 1 < fuel) :
    ∃ t' ps' i, nodeAt fresh fuel t (Utf8.encode s) = some (.ok (t', i)) ∧ t'.root = some 0 ∧
      Wf t'.heap ps' ∧ i < t'.heap.size ∧ ps' i = s ∧
      (∀ p, Path t'.heap ps' p ↔ p = [] ∨ Closure (ops.map Prod.fst ++ [s]) p) ∧
      ∀ u v, lastStored ops u = some v →
        ∃ j, j < t'.heap.size ∧ ps' j = u ∧ (t'.heap.node j).value = v := by
  obtain ⟨h, ps, hw, hrun, hpaths, hstored⟩ : ∃ h ps, Wf h ps ∧
      nodeAt fresh fuel t (Utf8.encode s) =
        (h.nodeAtLoop fresh fuel 0 (Utf8.encode s)).map (fun run => do
          let moved ← run
          return (⟨moved.1, some 0⟩, moved.2)) ∧
      (∀ p, Path h ps p ↔ p = [] ∨ Closure (ops.map Prod.fst) p) ∧
      ∀ u v, lastStored ops u = some v → ∃ j, j < h.size ∧ ps j = u ∧ (h.node j).value = v := by
    rcases ht with ⟨rfl, rfl⟩ | ⟨ps, hroot, hw, hpaths, hstored⟩
    · refine ⟨_, fun _ => [], wf_root fresh, rfl, fun p => ?_, fun u v hv => by cases hv⟩
      constructor
      · rintro ⟨i, -, rfl⟩
        exact .inl rfl
      · rintro (rfl | ⟨a, ha, -⟩)
        · exact ⟨0, Nat.one_pos, rfl⟩
        · cases ha
    · refine ⟨t.heap, ps, hw, ?_, hpaths, hstored⟩
      rw [nodeAt, hroot]
  have hlength : s.length + (if ([] : List Char) = [] then 1 else 0) < fuel := by
    rw [if_pos rfl]
    exact hfuel
  obtain ⟨h', ps', i, hloop, hinserted⟩ :=
    nodeAtLoop_spec fresh hw (closed_of_paths hpaths) (Position.root hw s) hlength
  rw [hloop] at hrun
  refine ⟨⟨h', some 0⟩, ps', i, hrun, rfl, hinserted.wf, hinserted.lt, hinserted.path, fun p => ?_,
    fun u v hv => ?_⟩
  · rw [← closure_insert p]
    exact (hinserted.paths p).trans
      (or_congr (hpaths p) (or_congr_right (exists_congr fun q => and_congr_left' (hpaths q))))
  · obtain ⟨j, hj, hpath, hvalue⟩ := hstored u v hv
    obtain ⟨k, hk, hpath', hvalue'⟩ := hinserted.keeps j hj
    exact ⟨k, hk, hpath'.trans hpath, hvalue'.trans hvalue⟩

theorem lastStored_append (ops : List (List Char × Option V)) (op : List Char × Option V)
    (s : List Char) : lastStored (ops ++ [op]) s =
      if op.1 = s then op.2.or (lastStored ops s) else lastStored ops s := by
  rw [lastStored, List.foldl_append]
  rfl

theorem insert_spec {t : UnicodeTrie V} (ht : (t = new fresh ∧ ops = []) ∨ ∃ ps, Holds t ps ops)
    (s : List Char) (v : Option V) (hfuel : s.length + 1 < fuel) :
    ∃ t' ps', insert fresh fuel t (Utf8.encode s) v = some (.ok t') ∧
      Holds t' ps' (ops ++ [(s, v)]) := by
  obtain ⟨t', ps', i, hrun, hroot, hw, hi, hpath, hpaths, hstored⟩ := nodeAt_spec fresh ht s hfuel
  refine ⟨{ t' with heap := t'.heap.modify i fun n => { n with value := v.getD n.value } }, ps', ?_,
    hroot, ?_, ?_, ?_⟩
  · rw [insert, hrun]
    rfl
  · have hstore := wf_store hw i (v.getD (t'.heap.node i).value)
    exact hstore
  · intro p
    rw [List.map_append]
    exact hpaths p
  · intro u w hlast
    rw [lastStored_append] at hlast
    have hvalue : ∀ j, ((t'.heap.modify i fun n => { n with value := v.getD n.value }).node j).value =
        if j = i then v.getD (t'.heap.node i).value else (t'.heap.node j).value := by
      intro j
      by_cases heq : j = i
      · subst heq
        simp [TrieHeap.modify]
      · simp [TrieHeap.modify, heq]
    have hkeep : ∀ x, lastStored ops u = some x → (u = s → v = none) →
        ∃ j, j < t'.heap.size ∧ ps' j = u ∧
          ((t'.heap.modify i fun n => { n with value := v.getD n.value }).node j).value = x := by
      intro x hx hnone
      obtain ⟨j, hj, hju, hjx⟩ := hstored u x hx
      refine ⟨j, hj, hju, ?_⟩
      rw [hvalue]
      by_cases heq : j = i
      · rw [if_pos heq, hnone (hju.symm.trans (heq ▸ hpath)), Option.getD_none, ← heq, hjx]
      · rw [if_neg heq, hjx]
    dsimp only at hlast
    by_cases hsu : s = u
    · subst hsu
      rw [if_pos rfl] at hlast
      cases v with
      | none => exact hkeep w hlast fun _ => rfl
      | some x =>
        obtain rfl : x = w := Option.some.inj hlast
        exact ⟨i, hi, hpath, by rw [hvalue, if_pos rfl, Option.getD_some]⟩
    · rw [if_neg hsu] at hlast
      exact hkeep w hlast fun hus => absurd hus.symm hsu

theorem insertAll_holds (done : List (List Char × Option V)) {t : UnicodeTrie V}
    (ht : (t = new fresh ∧ done = []) ∨ ∃ ps, Holds t ps done)
    (hfuel : ∀ op ∈ ops, op.1.length + 1 < fuel) :
    ∃ t', insertAll fresh fuel t (ops.map fun op => (Utf8.encode op.1, op.2)) = some (.ok t') ∧
      ((t' = new fresh ∧ done ++ ops = []) ∨ ∃ ps', Holds t' ps' (done ++ ops)) := by
  induction ops generalizing done t with
  | nil => exact ⟨t, rfl, by rwa [List.append_nil]⟩
  | cons op ops ih =>
    obtain ⟨t₁, ps₁, hrun, hholds⟩ :=
      insert_spec fresh ht op.1 op.2 (hfuel op List.mem_cons_self)
    obtain ⟨t', hrest, hend⟩ := ih _ (.inr ⟨ps₁, hholds⟩) fun x hx =>
      hfuel x (List.mem_cons_of_mem _ hx)
    refine ⟨t', ?_, ?_⟩
    · rw [List.map_cons, insertAll, hrun]
      exact hrest
    · rwa [List.append_assoc, List.singleton_append] at hend

structure IsTrieOf (t : UnicodeTrie V) (ops : List (List Char × Option V)) : Prop where
  /-- The paths are the empty string, the strings and the longest common prefixes of pairs. -/
  paths : ∀ b, (∃ i, t.IsPath i b) ↔
    ∃ s, b = Utf8.encode s ∧ (s = [] ∨ Closure (ops.map Prod.fst) s)
  consistent : Consistent t
  /-- `at(s)` is the value that was stored last for `s`. -/
  stored : ∀ s v, lastStored ops s = some v → ∀ fuel, s.length + 1 < fuel →
    ∃ t' i, nodeAt fresh fuel t (Utf8.encode s) = some (.ok (t', i)) ∧
      (t'.heap.node i).value = v
  /-- `findNode(s, false)` is the node with the path `s`. -/
  find : ∀ s fuel, s.length + 1 < fuel →
    ∃ r, findNode fuel t (Utf8.encode s) false = some (.ok r) ∧
      ((∃ i, r = some i) ↔ ∃ i, t.IsPath i (Utf8.encode s)) ∧
      ∀ i, r = some i → t.IsPath i (Utf8.encode s)
  /-- `findNode(s, true)` is the node with the shortest path that starts with `s`. -/
  findPrefix : ∀ s fuel, s.length + 1 < fuel →
    ∃ r, findNode fuel t (Utf8.encode s) true = some (.ok r) ∧
      ((∃ i, r = some i) ↔ ∃ op ∈ ops, Utf8.encode s <+: Utf8.encode op.1) ∧
      ∀ i, r = some i → ∃ b, t.IsPath i b ∧ Utf8.encode s <+: b ∧
        ∀ j b', t.IsPath j b' → Utf8.encode s <+: b' → b.length ≤ b'.length

theorem Holds.findNode {t : UnicodeTrie V} (ht : Holds t ps ops) (s : List Char)
    (prefixMatch : Bool) (hfuel : s.length + 1 < fuel) :
    ∃ r, UnicodeTrie.findNode fuel t (Utf8.encode s) prefixMatch = some (.ok r) ∧
      Found t.heap ps s prefixMatch r := by
  have hlength : s.length + (if ([] : List Char) = [] then 1 else 0) < fuel := by
    rw [if_pos rfl]
    exact hfuel
  obtain ⟨r, hrun, hfound⟩ := findLoop_spec ht.wf prefixMatch (Position.root ht.wf s) hlength
  refine ⟨r, ?_, hfound⟩
  rw [UnicodeTrie.findNode, ht.root]
  dsimp only
  rw [ht.wf.root_str, ← Utf8.encode_nil, hrun]

theorem exists_path_iff (hne : ops ≠ [])
    (hpaths : ∀ p, Path h ps p ↔ p = [] ∨ Closure (ops.map Prod.fst) p) (s : List Char) :
    (∃ p, Path h ps p ∧ s <+: p) ↔ ∃ op ∈ ops, s <+: op.1 := by
  constructor
  · rintro ⟨p, hp, hpre⟩
    rcases (hpaths p).mp hp with rfl | ⟨a, ha, b, -, rfl⟩
    · obtain ⟨op, hop⟩ := List.exists_mem_of_ne_nil ops hne
      rw [List.prefix_nil] at hpre
      exact ⟨op, hop, hpre ▸ List.nil_prefix⟩
    · obtain ⟨op, hop, rfl⟩ := List.mem_map.mp ha
      exact ⟨op, hop, hpre.trans (lcp_prefix_left _ b)⟩
  · rintro ⟨op, hop, hpre⟩
    exact ⟨op.1, (hpaths op.1).mpr (.inr (closure_of_mem (List.mem_map_of_mem hop))), hpre⟩

theorem Holds.isTrieOf {t : UnicodeTrie V} (hne : ops ≠ []) (ht : Holds t ps ops) :
    IsTrieOf fresh t ops where
  paths b := by
    constructor
    · rintro ⟨i, hi⟩
      obtain ⟨hlt, rfl⟩ := (isPath_iff ht.root ht.wf i b).mp hi
      exact ⟨ps i, rfl, (ht.paths _).mp ⟨i, hlt, rfl⟩⟩
    · rintro ⟨s, rfl, hs⟩
      obtain ⟨i, hlt, rfl⟩ := (ht.paths s).mpr hs
      exact ⟨i, (isPath_iff ht.root ht.wf i _).mpr ⟨hlt, rfl⟩⟩
  consistent := consistent_of_wf ht.root ht.wf
  stored s v hv fuel hfuel := by
    obtain ⟨t', ps', i, hrun, -, hw, hi, hpath, -, hstored⟩ :=
      nodeAt_spec fresh (.inr ⟨ps, ht⟩) s hfuel
    obtain ⟨j, hj, hpath', hvalue⟩ := hstored s v hv
    obtain rfl := hw.path_injective hj hi (hpath'.trans hpath.symm)
    exact ⟨t', j, hrun, hvalue⟩
  find s fuel hfuel := by
    obtain ⟨r, hrun, hfound⟩ := ht.findNode s false hfuel
    have hpath : ∀ i, r = some i → t.IsPath i (Utf8.encode s) := by
      intro i hi
      obtain ⟨hlt, -, hs, -⟩ := hfound.some i hi
      exact (isPath_iff ht.root ht.wf i _).mpr ⟨hlt, by rw [hs rfl]⟩
    refine ⟨r, hrun, ⟨?_, ?_⟩, hpath⟩
    · rintro ⟨i, hi⟩
      exact ⟨i, hpath i hi⟩
    · rintro ⟨i, hi⟩
      obtain ⟨hlt, hs⟩ := (isPath_iff ht.root ht.wf i _).mp hi
      have hs' := Utf8.encode_injective hs
      cases r with
      | some j => exact ⟨j, rfl⟩
      | none => exact absurd hs'.symm (hfound.none rfl i hlt (by rw [hs'])).2
  findPrefix s fuel hfuel := by
    obtain ⟨r, hrun, hfound⟩ := ht.findNode s true hfuel
    refine ⟨r, hrun, ?_, ?_⟩
    · simp only [encode_isPrefix]
      rw [← exists_path_iff hne ht.paths s]
      constructor
      · rintro ⟨i, hi⟩
        obtain ⟨hlt, hpre, -⟩ := hfound.some i hi
        exact ⟨ps i, ⟨i, hlt, rfl⟩, hpre⟩
      · rintro ⟨p, ⟨i, hlt, rfl⟩, hpre⟩
        cases r with
        | some j => exact ⟨j, rfl⟩
        | none => exact absurd (hfound.none rfl i hlt hpre).1 Bool.noConfusion
    · intro i hi
      obtain ⟨hlt, hpre, -, hshort⟩ := hfound.some i hi
      refine ⟨_, (isPath_iff ht.root ht.wf i _).mpr ⟨hlt, rfl⟩, encode_isPrefix.mpr hpre, ?_⟩
      intro j b' hj hb'
      obtain ⟨hjlt, rfl⟩ := (isPath_iff ht.root ht.wf j b').mp hj
      exact (encode_isPrefix.mpr (hshort j hjlt (encode_isPrefix.mp hb'))).length_le

/-- Insertions of valid strings build their trie. -/
theorem insertAll_isTrieOf (ops : List (List Char × Option V)) (hne : ops ≠ []) {fuel : Nat}
    (hfuel : ∀ op ∈ ops, op.1.length + 1 < fuel) :
    ∃ t, insertAll fresh fuel (new fresh) (ops.map fun op => (Utf8.encode op.1, op.2)) =
      some (.ok t) ∧ IsTrieOf fresh t ops := by
  obtain ⟨t, hrun, hend⟩ := insertAll_holds fresh [] (.inl ⟨rfl, rfl⟩) hfuel
  refine ⟨t, hrun, ?_⟩
  rcases hend with ⟨-, hnil⟩ | ⟨ps, ht⟩
  · exact absurd hnil hne
  · exact ht.isTrieOf fresh hne

theorem insertAll_isTrieOf_three :
    ∃ t, insertAll 0 5 (new 0) ([(['a', 'b'], some 1), (['a'], none), (['ä'], some 2)].map
        fun op => (Utf8.encode op.1, op.2)) = some (.ok t) ∧
      IsTrieOf 0 t [(['a', 'b'], some 1), (['a'], none), (['ä'], some 2)] :=
  insertAll_isTrieOf 0 _ (List.cons_ne_nil _ _) (by decide)

/-- There is no root before the first insertion, and a search string that ends within a code point
is not searched for. -/
theorem not_isTrieOf_nil :
    ¬ ((∃ i, (new 0).IsPath i []) ↔
      ∃ s, [] = Utf8.encode s ∧ (s = [] ∨ Closure [] s)) ∧
    ∃ t, insertAll 0 5 (new 0) [(Utf8.encode ['ä'], none)] = some (.ok t) ∧
      [0xc3] <+: Utf8.encode ['ä'] ∧ findNode 5 t [0xc3] true = some (.error .notEnoughRoom) := by
  constructor
  · intro hiff
    obtain ⟨i, hi⟩ := hiff.mpr ⟨[], rfl, .inl rfl⟩
    generalize hb : ([] : Bytes) = b at hi
    clear hb
    induction hi with
    | root hr => cases hr
    | child _ _ ih => exact ih
  · exact ⟨_, rfl, ⟨[0xa4], rfl⟩, rfl⟩

end UnicodeTrie

end Sserialize
