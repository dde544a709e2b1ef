import Sserialize.Containers.UnicodeTrie

namespace Sserialize

open PrefixTree

namespace TrieHeap

open Function (update update_self update_of_ne)

variable {V : Type} {h : TrieHeap V} {ps : Nat → List Char} {fresh : V}

section AddChild

variable {cur key : Nat} {str : Bytes}

theorem addChild_cur (hcur : cur < h.size) :
    (h.addChild fresh cur key str).node cur =
      { h.node cur with children := SortedMap.assign key h.size (h.node cur).children } := by
  have hne : cur ≠ h.size := Nat.ne_of_lt hcur
  simp [addChild, modify, alloc, update_of_ne hne]

theorem addChild_new (hcur : cur < h.size) :
    (h.addChild fresh cur key str).node h.size = ⟨str, some cur, [], fresh⟩ := by
  have hne : h.size ≠ cur := Nat.ne_of_gt hcur
  simp [addChild, modify, alloc, update_of_ne hne]

theorem addChild_of_ne {i : Nat} (hi : i ≠ cur) (hi' : i ≠ h.size) :
    (h.addChild fresh cur key str).node i = h.node i := by
  simp [addChild, modify, alloc, update_of_ne hi, update_of_ne hi']

theorem addChild_old (fresh : V) (key : Nat) (str : Bytes) (hcur : cur < h.size) {i : Nat}
    (hi : i < h.size) :
    ((h.addChild fresh cur key str).node i).str = (h.node i).str ∧
      ((h.addChild fresh cur key str).node i).parent = (h.node i).parent ∧
      ((h.addChild fresh cur key str).node i).value = (h.node i).value := by
  by_cases heq : i = cur
  · subst heq
    rw [addChild_cur hcur]
    exact ⟨rfl, rfl, rfl⟩
  · rw [addChild_of_ne heq (Nat.ne_of_lt hi)]
    exact ⟨rfl, rfl, rfl⟩

theorem mem_children_addChild (hw : Wf h ps) (hcur : cur < h.size) {q : Nat} (hq : q < h.size)
    (hkey : ∀ i, (key, i) ∉ (h.node cur).children) (x : Nat × Nat) :
    x ∈ ((h.addChild fresh cur key str).node q).children ↔
      x ∈ (h.node q).children ∨ (q = cur ∧ x = (key, h.size)) := by
  by_cases heq : q = cur
  · subst heq
    rw [addChild_cur hcur, SortedMap.mem_assign (hw.sorted q hq)]
    constructor
    · rintro (rfl | ⟨hx, -⟩)
      · exact .inr ⟨rfl, rfl⟩
      · exact .inl hx
    · rintro (hx | ⟨-, rfl⟩)
      · refine .inr ⟨hx, fun hxkey => hkey x.2 ?_⟩
        rw [← hxkey]
        exact hx
      · exact .inl rfl
  · rw [addChild_of_ne heq (Nat.ne_of_lt hq)]
    exact (or_iff_left fun hx => heq hx.1).symm

theorem isChild_addChild (fresh : V) (hw : Wf h ps) (hcur : cur < h.size) {c₀ : Char}
    (cs₀ : List Char) (hkey : ∀ i, (c₀.val.toNat, i) ∉ (h.node cur).children) :
    (∀ q i c cs, q < h.size → i < h.size → IsChild h ps q i c cs →
      IsChild (h.addChild fresh cur c₀.val.toNat (Utf8.encode (c₀ :: cs₀)))
        (update ps h.size (ps cur ++ c₀ :: cs₀)) q i c cs) ∧
    IsChild (h.addChild fresh cur c₀.val.toNat (Utf8.encode (c₀ :: cs₀)))
      (update ps h.size (ps cur ++ c₀ :: cs₀)) cur h.size c₀ cs₀ := by
  constructor
  · intro q i c cs hq hi hchild
    obtain ⟨hstr, hparent, -⟩ :=
      addChild_old fresh c₀.val.toNat (Utf8.encode (c₀ :: cs₀)) hcur hi
    refine ⟨?_, hparent.trans hchild.parent, hstr.trans hchild.str, ?_⟩
    · exact (mem_children_addChild hw hcur hq hkey _).mpr (.inl hchild.key)
    · rw [update_of_ne (Nat.ne_of_lt hi), update_of_ne (Nat.ne_of_lt hq)]
      exact hchild.path
  · refine ⟨?_, ?_, ?_, ?_⟩
    · exact (mem_children_addChild hw hcur hcur hkey _).mpr (.inr ⟨rfl, rfl⟩)
    · rw [addChild_new hcur]
    · rw [addChild_new hcur]
    · rw [update_self, update_of_ne (Nat.ne_of_lt hcur)]

theorem Wf.addChild (fresh : V) (hw : Wf h ps) (hcur : cur < h.size) {c₀ : Char}
    (cs₀ : List Char) (hkey : ∀ i, (c₀.val.toNat, i) ∉ (h.node cur).children) :
    Wf (h.addChild fresh cur c₀.val.toNat (Utf8.encode (c₀ :: cs₀)))
      (update ps h.size (ps cur ++ c₀ :: cs₀)) := by
  obtain ⟨hold, hnew⟩ := isChild_addChild fresh hw hcur cs₀ hkey
  have hroot := addChild_old fresh c₀.val.toNat (Utf8.encode (c₀ :: cs₀)) hcur hw.pos
  have hsize : (h.addChild fresh cur c₀.val.toNat (Utf8.encode (c₀ :: cs₀))).size = h.size + 1 :=
    rfl
  refine ⟨?_, hroot.1.trans hw.root_str, hroot.2.1.trans hw.root_parent, ?_, ?_, ?_, ?_⟩
  · omega
  · rw [update_of_ne (Nat.ne_of_lt hw.pos), hw.root_path]
  · intro i hpos hi
    by_cases heq : i = h.size
    · subst heq
      exact ⟨cur, c₀, cs₀, by omega, hnew⟩
    · have hi' : i < h.size := by omega
      obtain ⟨q, c, cs, hq, hchild⟩ := hw.up i hpos hi'
      exact ⟨q, c, cs, by omega, hold q i c cs hq hi' hchild⟩
  · intro q hq key i hmem
    by_cases heq : q = h.size
    · subst heq
      rw [addChild_new hcur] at hmem
      cases hmem
    · have hq' : q < h.size := by omega
      rcases (mem_children_addChild hw hcur hq' hkey _).mp hmem with hmem | ⟨rfl, hx⟩
      · obtain ⟨hpos, hi, c, cs, hkeyeq, hchild⟩ := hw.down q hq' key i hmem
        exact ⟨hpos, by omega, c, cs, hkeyeq, hold q i c cs hq' hi hchild⟩
      · obtain ⟨rfl, rfl⟩ := Prod.mk.inj hx
        exact ⟨hw.pos, by omega, c₀, cs₀, rfl, hnew⟩
  · intro q hq
    by_cases heq : q = h.size
    · subst heq
      rw [addChild_new hcur]
      exact List.Pairwise.nil
    · have hq' : q < h.size := by omega
      by_cases hqcur : q = cur
      · subst hqcur
        rw [addChild_cur hcur]
        exact SortedMap.sorted_assign (hw.sorted q hq') _ _
      · rw [addChild_of_ne hqcur heq]
        exact hw.sorted q hq'

end AddChild

theorem reparent_node (p : Nat) (children : List (Nat × Nat)) (h : TrieHeap V) (i : Nat) :
    (h.reparent p children).node i =
      if i ∈ children.map Prod.snd then { h.node i with parent := some p } else h.node i := by
  induction children generalizing h with
  | nil => rfl
  | cons x children ih =>
    rw [reparent, List.foldl_cons]
    have hrest := ih (h.modify x.2 fun n => { n with parent := some p })
    rw [reparent] at hrest
    rw [hrest, List.map_cons]
    by_cases heq : i = x.2
    · subst heq
      simp [modify]
    · have hmem : i ∈ x.2 :: children.map Prod.snd ↔ i ∈ children.map Prod.snd := by
        rw [List.mem_cons, or_iff_right heq]
      simp only [modify, update_of_ne heq, hmem]

theorem reparent_size (p : Nat) (children : List (Nat × Nat)) (h : TrieHeap V) :
    (h.reparent p children).size = h.size := by
  induction children generalizing h with
  | nil => rfl
  | cons x children ih =>
    rw [reparent, List.foldl_cons]
    exact ih (h.modify x.2 fun n => { n with parent := some p })

section Split

variable {cur : Nat}

theorem splitNode_size (fresh : V) (cur key : Nat) (cRest : Bytes) :
    (h.splitNode fresh cur key cRest).size = h.size + 1 :=
  reparent_size _ _ _

theorem splitNode_cur (fresh : V) (key : Nat) (cRest : Bytes) (hcur : cur < h.size)
    (hself : cur ∉ (h.node cur).children.map Prod.snd) :
    (h.splitNode fresh cur key cRest).node cur =
      ⟨(h.node cur).str.take ((h.node cur).str.length - cRest.length), (h.node cur).parent,
        [(key, h.size)], fresh⟩ := by
  have hne : cur ≠ h.size := Nat.ne_of_lt hcur
  simp only [splitNode, modify, update_self, reparent_node, if_neg hself, alloc,
    update_of_ne hne]

theorem splitNode_new (fresh : V) (key : Nat) (cRest : Bytes) (hcur : cur < h.size)
    (hold : h.size ∉ (h.node cur).children.map Prod.snd) :
    (h.splitNode fresh cur key cRest).node h.size =
      ⟨cRest, some cur, (h.node cur).children, (h.node cur).value⟩ := by
  have hne : h.size ≠ cur := Nat.ne_of_gt hcur
  simp only [splitNode, modify, update_of_ne hne, reparent_node, if_neg hold, alloc,
    update_self]

theorem splitNode_old (fresh : V) (key : Nat) (cRest : Bytes) {i : Nat} (hi : i ≠ h.size)
    (hne : i ≠ cur) :
    (h.splitNode fresh cur key cRest).node i =
      if i ∈ (h.node cur).children.map Prod.snd then { h.node i with parent := some h.size }
      else h.node i := by
  simp only [splitNode, modify, update_of_ne hne, reparent_node, alloc,
    update_of_ne hi]

theorem Wf.splitNode (fresh : V) (hw : Wf h ps) {q : Nat} (hq : q < h.size) (hcur : cur < h.size)
    {c d : Char} {cs ds : List Char} (hedge : IsChild h ps q cur c (cs ++ d :: ds)) :
    Wf (h.splitNode fresh cur d.val.toNat (Utf8.encode (d :: ds)))
      (update (update ps h.size (ps cur)) cur (ps q ++ c :: cs)) := by
  have hbelow : ∀ i, i ∈ (h.node cur).children.map Prod.snd →
      ∃ e es, i < h.size ∧ IsChild h ps cur i e es := by
    intro i hi
    obtain ⟨x, hx, rfl⟩ := List.mem_map.mp hi
    obtain ⟨-, hlt, e, es, -, hchild⟩ := hw.down cur hcur x.1 x.2 hx
    exact ⟨e, es, hlt, hchild⟩
  have hself : cur ∉ (h.node cur).children.map Prod.snd := by
    intro hmem
    obtain ⟨e, es, -, hchild⟩ := hbelow cur hmem
    exact Nat.lt_irrefl _ hchild.length_lt
  have hnew : h.size ∉ (h.node cur).children.map Prod.snd := by
    intro hmem
    obtain ⟨e, es, hlt, -⟩ := hbelow h.size hmem
    exact Nat.lt_irrefl _ hlt
  have hqcur : q ≠ cur := by
    rintro rfl
    exact Nat.lt_irrefl _ hedge.length_lt
  have hcurpos : 0 < cur := by
    refine Nat.pos_of_ne_zero ?_
    rintro rfl
    have hlt := hedge.length_lt
    rw [hw.root_path, List.length_nil] at hlt
    omega
  have hne : cur ≠ h.size := Nat.ne_of_lt hcur
  have htake : (h.node cur).str.take
      ((h.node cur).str.length - (Utf8.encode (d :: ds)).length) = Utf8.encode (c :: cs) := by
    rw [hedge.str, ← List.cons_append, Utf8.encode_append, List.length_append,
      Nat.add_sub_cancel, List.take_left]
  have hncur := splitNode_cur fresh d.val.toNat (Utf8.encode (d :: ds)) hcur hself
  have hnnew := splitNode_new fresh d.val.toNat (Utf8.encode (d :: ds)) hcur hnew
  have hnold : ∀ i, i ≠ h.size → i ≠ cur → _ := fun i hi hic =>
    splitNode_old fresh d.val.toNat (Utf8.encode (d :: ds)) (i := i) hi hic
  have hsize := splitNode_size (h := h) fresh cur d.val.toNat (Utf8.encode (d :: ds))
  rw [htake] at hncur
  generalize h.splitNode fresh cur d.val.toNat (Utf8.encode (d :: ds)) = h'
    at hncur hnnew hnold hsize ⊢
  obtain ⟨ps', hps'⟩ : ∃ ps', update (update ps h.size (ps cur)) cur
      (ps q ++ c :: cs) = ps' := ⟨_, rfl⟩
  have hpcur : ps' cur = ps q ++ c :: cs := by rw [← hps', update_self]
  have hpnew : ps' h.size = ps cur := by
    rw [← hps', update_of_ne hne.symm, update_self]
  have hpold : ∀ i, i ≠ h.size → i ≠ cur → ps' i = ps i := by
    intro i hi hic
    rw [← hps', update_of_ne hic, update_of_ne hi]
  rw [hps']
  have hchildren : ∀ i, i ≠ h.size → i ≠ cur → (h'.node i).children = (h.node i).children ∧
      (h'.node i).str = (h.node i).str := by
    intro i hi hic
    rw [hnold i hi hic]
    split
    · exact ⟨rfl, rfl⟩
    · exact ⟨rfl, rfl⟩
  -- the four kinds of edges
  have htop : IsChild h' ps' q cur c cs := by
    have hqold := hchildren q (Nat.ne_of_lt hq) hqcur
    refine ⟨by rw [hqold.1]; exact hedge.key, by rw [hncur]; exact hedge.parent, by rw [hncur], ?_⟩
    rw [hpcur, hpold q (Nat.ne_of_lt hq) hqcur]
  have hmid : IsChild h' ps' cur h.size d ds := by
    refine ⟨by rw [hncur]; exact List.mem_singleton_self _, by rw [hnnew], by rw [hnnew], ?_⟩
    rw [hpnew, hpcur, hedge.path, List.append_assoc, List.cons_append]
  have hlow : ∀ i e es, i < h.size → IsChild h ps cur i e es → IsChild h' ps' h.size i e es := by
    intro i e es hi hchild
    have hic : i ≠ cur := by
      rintro rfl
      exact Nat.lt_irrefl _ hchild.length_lt
    have hmem : i ∈ (h.node cur).children.map Prod.snd := List.mem_map_of_mem hchild.key
    refine ⟨by rw [hnnew]; exact hchild.key, ?_, ?_, ?_⟩
    · rw [hnold i (Nat.ne_of_lt hi) hic, if_pos hmem]
    · rw [(hchildren i (Nat.ne_of_lt hi) hic).2]
      exact hchild.str
    · rw [hpold i (Nat.ne_of_lt hi) hic, hpnew]
      exact hchild.path
  have hrest : ∀ p i e es, p < h.size → i < h.size → p ≠ cur → i ≠ cur → IsChild h ps p i e es →
      IsChild h' ps' p i e es := by
    intro p i e es hp hi hpc hic hchild
    have hnot : i ∉ (h.node cur).children.map Prod.snd := by
      intro hmem
      obtain ⟨e', es', -, hchild'⟩ := hbelow i hmem
      exact hpc (Option.some.inj (hchild.parent.symm.trans hchild'.parent))
    have hpold' := hchildren p (Nat.ne_of_lt hp) hpc
    refine ⟨by rw [hpold'.1]; exact hchild.key, ?_, ?_, ?_⟩
    · rw [hnold i (Nat.ne_of_lt hi) hic, if_neg hnot]
      exact hchild.parent
    · rw [(hchildren i (Nat.ne_of_lt hi) hic).2]
      exact hchild.str
    · rw [hpold i (Nat.ne_of_lt hi) hic, hpold p (Nat.ne_of_lt hp) hpc]
      exact hchild.path
  have hzero : (0 : Nat) ∉ (h.node cur).children.map Prod.snd := by
    intro hmem
    obtain ⟨e, es, -, hchild⟩ := hbelow 0 hmem
    have hlt := hchild.length_lt
    rw [hw.root_path, List.length_nil] at hlt
    omega
  have hroot : h'.node 0 = h.node 0 := by
    rw [hnold 0 (Nat.ne_of_lt hw.pos) (Nat.ne_of_lt hcurpos), if_neg hzero]
  refine ⟨by omega, by rw [hroot]; exact hw.root_str, by rw [hroot]; exact hw.root_parent, ?_, ?_,
    ?_, ?_⟩
  · rw [hpold 0 (Nat.ne_of_lt hw.pos) (Nat.ne_of_lt hcurpos)]
    exact hw.root_path
  · intro i hpos hi
    by_cases hisize : i = h.size
    · subst hisize
      exact ⟨cur, d, ds, by omega, hmid⟩
    have hi' : i < h.size := by omega
    by_cases hic : i = cur
    · subst hic
      exact ⟨q, c, cs, by omega, htop⟩
    obtain ⟨p, e, es, hp, hchild⟩ := hw.up i hpos hi'
    by_cases hpc : p = cur
    · subst hpc
      exact ⟨h.size, e, es, by omega, hlow i e es hi' hchild⟩
    · exact ⟨p, e, es, by omega, hrest p i e es hp hi' hpc hic hchild⟩
  · intro p hp key i hmem
    by_cases hpsize : p = h.size
    · subst hpsize
      rw [hnnew] at hmem
      obtain ⟨hpos, hi, e, es, hkey, hchild⟩ := hw.down cur hcur key i hmem
      exact ⟨hpos, by omega, e, es, hkey, hlow i e es hi hchild⟩
    by_cases hpc : p = cur
    · subst hpc
      rw [hncur] at hmem
      obtain ⟨rfl, rfl⟩ := Prod.mk.inj (List.mem_singleton.mp hmem)
      exact ⟨hw.pos, by omega, d, ds, rfl, hmid⟩
    have hp' : p < h.size := by omega
    rw [(hchildren p hpsize hpc).1] at hmem
    obtain ⟨hpos, hi, e, es, hkey, hchild⟩ := hw.down p hp' key i hmem
    by_cases hic : i = cur
    · subst hic
      obtain rfl : p = q := Option.some.inj (hchild.parent.symm.trans hedge.parent)
      have hce : e = c ∧ es = cs ++ d :: ds := by
        have heq := hchild.path.symm.trans hedge.path
        exact List.cons_eq_cons.mp (List.append_cancel_left heq)
      obtain ⟨rfl, -⟩ := hce
      exact ⟨hpos, by omega, e, cs, hkey, htop⟩
    · exact ⟨hpos, by omega, e, es, hkey, hrest p i e es hp' hi hpc hic hchild⟩
  · intro p hp
    by_cases hpsize : p = h.size
    · subst hpsize
      rw [hnnew]
      exact hw.sorted cur hcur
    by_cases hpc : p = cur
    · subst hpc
      rw [hncur]
      exact List.pairwise_singleton _ _
    · rw [(hchildren p hpsize hpc).1]
      exact hw.sorted p (by omega)

end Split

end TrieHeap

end Sserialize
