import Sserialize.Spatial.HCQRSpatialGridItems

namespace Sserialize.HCQRSpatialGrid

variable {sp : Space} {Pixel : Nat → Prop}

/-- The node `r` has the items `P` below the pixel `c`; it may only be missing if `must` does not
hold of `c`. -/
structure NodeOk (sp : Space) (Pixel must : Nat → Prop) (P : Nat → Nat → Prop) (c : Nat)
    (dest : List ItemIndex) (r : Option TreeNode) : Prop where
  valid : ∀ t ∈ r, t.pixelId = c ∧ Valid sp Pixel dest t
  present : must c → ∃ t, r = some t
  items : ∀ q, Finest sp Pixel q → sp.sg.Covers c q → ∀ id,
    (∃ t ∈ r, ItemAt sp dest t q id) ↔ P q id

structure NodesOk (sp : Space) (Pixel must : Nat → Prop) (P : Nat → Nat → Prop) (S : Nat → Prop)
    (dest : List ItemIndex) (ts : List TreeNode) : Prop where
  pixel : ∀ t ∈ ts, S t.pixelId
  valid : ∀ t ∈ ts, Valid sp Pixel dest t
  sorted : ts.Pairwise fun a b => a.pixelId < b.pixelId
  present : ∀ c, S c → must c → ∃ t ∈ ts, t.pixelId = c
  items : ∀ c q, Finest sp Pixel q → sp.sg.Covers c q → ∀ id,
    (∃ t ∈ ts, t.pixelId = c ∧ ItemAt sp dest t q id) ↔ S c ∧ P q id

def YieldsNode (sp : Space) (Pixel must : Nat → Prop) (P : Nat → Nat → Prop) (c : Nat)
    (x : Op (Option TreeNode)) : Prop :=
  ∀ dest, ∃ r dest', x dest = .ok (r, dest') ∧ dest <+: dest' ∧ NodeOk sp Pixel must P c dest' r

def YieldsNodes (sp : Space) (Pixel must : Nat → Prop) (P : Nat → Nat → Prop) (S : Nat → Prop)
    (xs : Op (List TreeNode)) : Prop :=
  ∀ dest, ∃ ts dest', xs dest = .ok (ts, dest') ∧ dest <+: dest' ∧
    NodesOk sp Pixel must P S dest' ts

variable {must : Nat → Prop} {P : Nat → Nat → Prop} {S : Nat → Prop}

theorem YieldsNode.congr {must' : Nat → Prop} {P' : Nat → Nat → Prop} {c : Nat}
    {x : Op (Option TreeNode)} (h : YieldsNode sp Pixel must P c x) (hmust : must' c → must c)
    (hP : ∀ q, Finest sp Pixel q → sp.sg.Covers c q → ∀ id, P q id ↔ P' q id) :
    YieldsNode sp Pixel must' P' c x := by
  intro dest
  obtain ⟨r, dest', hx, hprefix, hr⟩ := h dest
  refine ⟨r, dest', hx, hprefix, hr.valid, fun hc => hr.present (hmust hc), ?_⟩
  intro q hq hcov id
  rw [hr.items q hq hcov, hP q hq hcov]

theorem YieldsNodes.congr {S' : Nat → Prop} {xs : Op (List TreeNode)}
    (h : YieldsNodes sp Pixel must P S xs) (hS : ∀ c, S c ↔ S' c) :
    YieldsNodes sp Pixel must P S' xs := by
  obtain rfl : S = S' := funext fun c => propext (hS c)
  exact h

theorem yieldsNode_noNode {c : Nat} (hmust : ¬ must c)
    (hP : ∀ q, Finest sp Pixel q → sp.sg.Covers c q → ∀ id, ¬ P q id) :
    YieldsNode sp Pixel must P c noNode := by
  intro dest
  refine ⟨none, dest, rfl, List.prefix_refl dest, ?_, fun hc => absurd hc hmust, ?_⟩
  · intro t ht
    cases ht
  · intro q hq hcov id
    refine iff_of_false ?_ (hP q hq hcov id)
    rintro ⟨t, ht, -⟩
    cases ht

theorem yieldsNodes_nil (hS : ∀ c, ¬ S c) :
    YieldsNodes sp Pixel must P S fun dest => .ok ([], dest) := by
  intro dest
  refine ⟨[], dest, rfl, List.prefix_refl dest, ?_, ?_, List.Pairwise.nil, ?_, ?_⟩
  · exact fun t ht => absurd ht List.not_mem_nil
  · exact fun t ht => absurd ht List.not_mem_nil
  · exact fun c hc => absurd hc (hS c)
  · intro c q _ _ id
    refine iff_of_false ?_ fun h => hS c h.1
    rintro ⟨t, ht, -⟩
    cases ht

theorem YieldsNode.push {c : Nat} {x : Op (Option TreeNode)} {xs : Op (List TreeNode)}
    (hx : YieldsNode sp Pixel must P c x) (hxs : YieldsNodes sp Pixel must P S xs)
    (hlt : ∀ d, S d → c < d) :
    YieldsNodes sp Pixel must P (fun d => d = c ∨ S d) (pushNode x xs) := by
  intro dest
  obtain ⟨r, dest₁, hxdest, hprefix₁, hr⟩ := hx dest
  obtain ⟨ts, dest₂, hxsdest, hprefix₂, hts⟩ := hxs dest₁
  have hvalid : ∀ t ∈ r.toList, t.pixelId = c ∧ Valid sp Pixel dest₂ t := by
    intro t ht
    obtain ⟨hpixel, hvalid⟩ := hr.valid t (Option.mem_toList.mp ht)
    exact ⟨hpixel, hvalid.mono hprefix₂⟩
  refine ⟨r.toList ++ ts, dest₂, ?_, hprefix₁.trans hprefix₂, ?_, ?_, ?_, ?_, ?_⟩
  · rw [pushNode, hxdest, ok_bind]
    dsimp only
    rw [hxsdest]
    rfl
  · intro t ht
    rcases List.mem_append.mp ht with ht | ht
    · exact .inl (hvalid t ht).1
    · exact .inr (hts.pixel t ht)
  · intro t ht
    rcases List.mem_append.mp ht with ht | ht
    · exact (hvalid t ht).2
    · exact hts.valid t ht
  · refine List.pairwise_append.mpr ⟨?_, hts.sorted, ?_⟩
    · cases r with
      | none => exact List.Pairwise.nil
      | some t => exact List.pairwise_singleton _ _
    · intro a ha b hb
      rw [(hvalid a ha).1]
      exact hlt _ (hts.pixel b hb)
  · rintro d (rfl | hd) hmust
    · obtain ⟨t, rfl⟩ := hr.present hmust
      exact ⟨t, List.mem_append_left _ (List.mem_singleton_self t),
        (hvalid t (List.mem_singleton_self t)).1⟩
    · obtain ⟨t, ht, hpixel⟩ := hts.present d hd hmust
      exact ⟨t, List.mem_append_right _ ht, hpixel⟩
  · intro d q hq hcov id
    constructor
    · rintro ⟨t, ht, rfl, hitem⟩
      rcases List.mem_append.mp ht with ht | ht
      · have hmem := Option.mem_toList.mp ht
        obtain ⟨hpixel, hvalid₁⟩ := hr.valid t hmem
        rw [hpixel] at hcov ⊢
        rw [itemAt_mono hvalid₁ hprefix₂] at hitem
        exact ⟨.inl rfl, (hr.items q hq hcov id).mp ⟨t, hmem, hitem⟩⟩
      · have hmem := (hts.items t.pixelId q hq hcov id).mp ⟨t, ht, rfl, hitem⟩
        exact ⟨.inr hmem.1, hmem.2⟩
    · rintro ⟨rfl | hd, hid⟩
      · obtain ⟨t, ht, hitem⟩ := (hr.items q hq hcov id).mpr hid
        obtain ⟨hpixel, hvalid₁⟩ := hr.valid t ht
        exact ⟨t, List.mem_append_left _ (Option.mem_toList.mpr ht), hpixel,
          (itemAt_mono hvalid₁ hprefix₂).mpr hitem⟩
      · obtain ⟨t, ht, hpixel, hitem⟩ := (hts.items d q hq hcov id).mpr ⟨hd, hid⟩
        exact ⟨t, List.mem_append_right _ ht, hpixel, hitem⟩

theorem eachNode_yields {cs : List TreeNode} {each : ∀ c ∈ cs, Op (Option TreeNode)}
    (hsorted : cs.Pairwise fun a b => a.pixelId < b.pixelId)
    (heach : ∀ c hc, YieldsNode sp Pixel must P c.pixelId (each c hc)) :
    YieldsNodes sp Pixel must P (· ∈ cs.map TreeNode.pixelId) (eachNode cs each) := by
  induction cs with
  | nil => exact yieldsNodes_nil fun c => List.not_mem_nil
  | cons c cs ih =>
    obtain ⟨hlt, hsorted⟩ := List.pairwise_cons.mp hsorted
    have hrest := ih hsorted fun d hd => heach d (List.mem_cons_of_mem _ hd)
    rw [eachNode]
    refine ((heach c List.mem_cons_self).push hrest ?_).congr ?_
    · intro d hd
      obtain ⟨e, he, rfl⟩ := List.mem_map.mp hd
      exact hlt e he
    · intro d
      rw [List.map_cons, List.mem_cons]

theorem mergePids_yields {virt : Nat → Op (Option TreeNode)} {pids : List Nat}
    {cs : List TreeNode} {each : ∀ c ∈ cs, Op (Option TreeNode)}
    (hpids : pids.Pairwise (· < ·)) (hsorted : cs.Pairwise fun a b => a.pixelId < b.pixelId)
    (hsub : ∀ c ∈ cs, c.pixelId ∈ pids)
    (hvirt : ∀ pid ∈ pids, pid ∉ cs.map TreeNode.pixelId →
      YieldsNode sp Pixel must P pid (virt pid))
    (heach : ∀ c hc, YieldsNode sp Pixel must P c.pixelId (each c hc)) :
    YieldsNodes sp Pixel must P (· ∈ pids) (mergePids virt cs pids each) := by
  induction pids generalizing cs with
  | nil =>
    rw [mergePids]
    exact yieldsNodes_nil fun c => List.not_mem_nil
  | cons pid pids ih =>
    obtain ⟨hlt, hpids⟩ := List.pairwise_cons.mp hpids
    have hcons : ∀ d, (d = pid ∨ d ∈ pids) ↔ d ∈ pid :: pids := fun d => List.mem_cons.symm
    cases cs with
    | nil =>
      rw [mergePids]
      have hrest := ih hpids List.Pairwise.nil (fun c hc => absurd hc List.not_mem_nil)
        (fun d hd _ => hvirt d (List.mem_cons_of_mem _ hd) List.not_mem_nil) heach
      exact ((hvirt pid List.mem_cons_self List.not_mem_nil).push hrest hlt).congr hcons
    | cons c cs =>
      obtain ⟨hltc, hsortedc⟩ := List.pairwise_cons.mp hsorted
      rw [mergePids]
      split
      · rename_i hpidlt
        have hne : ∀ d ∈ c :: cs, pid < d.pixelId := by
          intro d hd
          rcases List.mem_cons.mp hd with rfl | hd
          · exact hpidlt
          · exact Nat.lt_trans hpidlt (hltc d hd)
        have hrest := ih hpids hsorted
          (fun d hd => (List.mem_cons.mp (hsub d hd)).resolve_left (Nat.ne_of_gt (hne d hd)))
          (fun d hd => hvirt d (List.mem_cons_of_mem _ hd)) heach
        have hnot : pid ∉ (c :: cs).map TreeNode.pixelId := by
          intro hmem
          obtain ⟨d, hd, heq⟩ := List.mem_map.mp hmem
          exact Nat.ne_of_gt (hne d hd) heq
        exact ((hvirt pid List.mem_cons_self hnot).push hrest hlt).congr hcons
      · rename_i hpidlt
        have heq : c.pixelId = pid := by
          rcases List.mem_cons.mp (hsub c List.mem_cons_self) with heq | hmem
          · exact heq
          · exact absurd (hlt _ hmem) hpidlt
        have hsub' : ∀ d ∈ cs, d.pixelId ∈ pids := by
          intro d hd
          have hltd := hltc d hd
          rcases List.mem_cons.mp (hsub d (List.mem_cons_of_mem _ hd)) with heqd | hmem
          · omega
          · exact hmem
        have hrest := ih hpids hsortedc hsub'
          (fun d hd hnot => hvirt d (List.mem_cons_of_mem _ hd) fun hmem => by
            rw [List.map_cons, List.mem_cons] at hmem
            rcases hmem with heqd | hmem
            · exact Nat.ne_of_gt (hlt d hd) (heqd.trans heq)
            · exact hnot hmem)
          fun d hd => heach d (List.mem_cons_of_mem _ hd)
        have hc := heach c List.mem_cons_self
        rw [heq] at hc
        exact (hc.push hrest hlt).congr hcons

theorem mergeNodes_yields (onlyFirst onlySecond : TreeNode → Op (Option TreeNode))
    {fs ss : List TreeNode} (both : ∀ f ∈ fs, ∀ s ∈ ss, Op (Option TreeNode))
    (hfs : fs.Pairwise fun a b => a.pixelId < b.pixelId)
    (hss : ss.Pairwise fun a b => a.pixelId < b.pixelId)
    (hfirst : ∀ f ∈ fs, f.pixelId ∉ ss.map TreeNode.pixelId →
      YieldsNode sp Pixel must P f.pixelId (onlyFirst f))
    (hsecond : ∀ s ∈ ss, s.pixelId ∉ fs.map TreeNode.pixelId →
      YieldsNode sp Pixel must P s.pixelId (onlySecond s))
    (hboth : ∀ f hf s hs, f.pixelId = s.pixelId →
      YieldsNode sp Pixel must P f.pixelId (both f hf s hs)) :
    YieldsNodes sp Pixel must P
      (fun c => c ∈ fs.map TreeNode.pixelId ∨ c ∈ ss.map TreeNode.pixelId)
      (mergeNodes onlyFirst onlySecond fs ss both) := by
  induction fs generalizing ss with
  | nil =>
    rw [mergeNodes]
    refine (eachNode_yields hss fun s hs => hsecond s hs List.not_mem_nil).congr fun c => ?_
    simp
  | cons f fs ihf =>
    obtain ⟨hltf, hfs'⟩ := List.pairwise_cons.mp hfs
    induction ss with
    | nil =>
      rw [mergeNodes]
      refine (eachNode_yields hfs fun f hf => hfirst f hf List.not_mem_nil).congr fun c => ?_
      simp
    | cons s ss ihs =>
      obtain ⟨hlts, hss'⟩ := List.pairwise_cons.mp hss
      have hnotMem : ∀ (p : Nat) (t : TreeNode) (ts : List TreeNode), p < t.pixelId →
          (∀ u ∈ ts, t.pixelId < u.pixelId) → p ∉ (t :: ts).map TreeNode.pixelId := by
        intro p t ts hp hts hmem
        obtain ⟨u, hu, rfl⟩ := List.mem_map.mp hmem
        rcases List.mem_cons.mp hu with rfl | hu
        · exact Nat.lt_irrefl _ hp
        · exact Nat.lt_asymm hp (hts u hu)
      rw [mergeNodes]
      split
      · rename_i hlt
        have hrest := ihf (fun x hx y hy => both x (List.mem_cons_of_mem _ hx) y hy) hfs' hss
          (fun x hx => hfirst x (List.mem_cons_of_mem _ hx))
          (fun y hy hnot => hsecond y hy fun hmem => by
            rw [List.map_cons, List.mem_cons] at hmem
            rcases hmem with heq | hmem
            · refine hnotMem f.pixelId s ss hlt hlts (List.mem_map.mpr ⟨y, hy, heq⟩)
            · exact hnot hmem)
          (fun x hx y hy => hboth x (List.mem_cons_of_mem _ hx) y hy)
        have hf := hfirst f List.mem_cons_self (hnotMem _ s ss hlt hlts)
        refine (hf.push hrest ?_).congr ?_
        · rintro d (hd | hd)
          · obtain ⟨x, hx, rfl⟩ := List.mem_map.mp hd
            exact hltf x hx
          · obtain ⟨y, hy, rfl⟩ := List.mem_map.mp hd
            rcases List.mem_cons.mp hy with rfl | hy
            · exact hlt
            · exact Nat.lt_trans hlt (hlts y hy)
        · intro d
          simp only [List.map_cons, List.mem_cons, or_assoc]
      split
      · rename_i hnlt hgt
        have hrest := ihs (fun x hx y hy => both x hx y (List.mem_cons_of_mem _ hy)) hss'
          (fun x hx hnot => hfirst x hx fun hmem => by
            rw [List.map_cons, List.mem_cons] at hmem
            rcases hmem with heq | hmem
            · exact hnotMem s.pixelId f fs hgt hltf (List.mem_map.mpr ⟨x, hx, heq⟩)
            · exact hnot hmem)
          (fun y hy => hsecond y (List.mem_cons_of_mem _ hy))
          (fun x hx y hy => hboth x hx y (List.mem_cons_of_mem _ hy))
        have hs := hsecond s List.mem_cons_self (hnotMem _ f fs hgt hltf)
        refine (hs.push hrest ?_).congr ?_
        · rintro d (hd | hd)
          · obtain ⟨x, hx, rfl⟩ := List.mem_map.mp hd
            rcases List.mem_cons.mp hx with rfl | hx
            · exact hgt
            · exact Nat.lt_trans hgt (hltf x hx)
          · obtain ⟨y, hy, rfl⟩ := List.mem_map.mp hd
            exact hlts y hy
        · intro d
          simp only [List.map_cons, List.mem_cons]
          tauto
      · rename_i hnlt hngt
        have heq : f.pixelId = s.pixelId := by omega
        have hrest := ihf
          (fun x hx y hy => both x (List.mem_cons_of_mem _ hx) y (List.mem_cons_of_mem _ hy))
          hfs' hss'
          (fun x hx hnot => hfirst x (List.mem_cons_of_mem _ hx) fun hmem => by
            rw [List.map_cons, List.mem_cons] at hmem
            have hlt := hltf x hx
            rcases hmem with heqs | hmem
            · omega
            · exact hnot hmem)
          (fun y hy hnot => hsecond y (List.mem_cons_of_mem _ hy) fun hmem => by
            rw [List.map_cons, List.mem_cons] at hmem
            have hlt := hlts y hy
            rcases hmem with heqf | hmem
            · omega
            · exact hnot hmem)
          (fun x hx y hy =>
            hboth x (List.mem_cons_of_mem _ hx) y (List.mem_cons_of_mem _ hy))
        refine ((hboth f List.mem_cons_self s List.mem_cons_self heq).push hrest ?_).congr ?_
        · rintro d (hd | hd)
          · obtain ⟨x, hx, rfl⟩ := List.mem_map.mp hd
            exact hltf x hx
          · obtain ⟨y, hy, rfl⟩ := List.mem_map.mp hd
            have hlt := hlts y hy
            omega
        · intro d
          simp only [List.map_cons, List.mem_cons, heq]
          tauto

end Sserialize.HCQRSpatialGrid
