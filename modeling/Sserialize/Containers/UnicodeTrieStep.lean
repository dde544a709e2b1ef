import Sserialize.Containers.UnicodeTrieInsert

namespace Sserialize

open PrefixTree

namespace TrieHeap

open Function (update update_self update_of_ne)

variable {V : Type} {h h' : TrieHeap V} {ps ps' : Nat → List Char} (fresh : V)

def Path (h : TrieHeap V) (ps : Nat → List Char) (p : List Char) : Prop :=
  ∃ i, i < h.size ∧ ps i = p

def Keeps (h : TrieHeap V) (ps : Nat → List Char) (h' : TrieHeap V) (ps' : Nat → List Char) :
    Prop :=
  ∀ i, i < h.size → ∃ j, j < h'.size ∧ ps' j = ps i ∧ (h'.node j).value = (h.node i).value

theorem Keeps.refl (h : TrieHeap V) (ps : Nat → List Char) : Keeps h ps h ps :=
  fun i hi => ⟨i, hi, rfl, rfl⟩

theorem Keeps.trans {h'' : TrieHeap V} {ps'' : Nat → List Char} (hkeep : Keeps h ps h' ps')
    (hkeep' : Keeps h' ps' h'' ps'') : Keeps h ps h'' ps'' := by
  intro i hi
  obtain ⟨j, hj, hpath, hvalue⟩ := hkeep i hi
  obtain ⟨k, hk, hpath', hvalue'⟩ := hkeep' j hj
  exact ⟨k, hk, hpath'.trans hpath, hvalue'.trans hvalue⟩

/-- The node `i` is the one of `s`, and nothing but the paths for `s` is new. -/
structure Inserted (h : TrieHeap V) (ps : Nat → List Char) (s : List Char) (h' : TrieHeap V)
    (ps' : Nat → List Char) (i : Nat) : Prop where
  wf : Wf h' ps'
  lt : i < h'.size
  path : ps' i = s
  paths : ∀ p, Path h' ps' p ↔ Path h ps p ∨ p = s ∨ ∃ q, Path h ps q ∧ p = lcp s q
  keeps : Keeps h ps h' ps'

theorem path_addChild (cur key : Nat) (str : Bytes) (s p : List Char) :
    Path (h.addChild fresh cur key str) (update ps h.size s) p ↔ Path h ps p ∨ p = s := by
  constructor
  · rintro ⟨i, hi, rfl⟩
    by_cases heq : i = h.size
    · exact .inr (by rw [heq, update_self])
    · have hi' : i < h.size + 1 := hi
      exact .inl ⟨i, by omega, by rw [update_of_ne heq]⟩
  · rintro (⟨i, hi, rfl⟩ | rfl)
    · exact ⟨i, Nat.lt_succ_of_lt hi, update_of_ne (Nat.ne_of_lt hi) _ _⟩
    · exact ⟨h.size, Nat.lt_succ_self _, update_self _ _ _⟩

variable {cur : Nat}

theorem keeps_addChild (hcur : cur < h.size) (key : Nat) (str : Bytes) (s : List Char) :
    Keeps h ps (h.addChild fresh cur key str) (update ps h.size s) := by
  intro i hi
  exact ⟨i, Nat.lt_succ_of_lt hi, update_of_ne (Nat.ne_of_lt hi) _ _,
    (addChild_old fresh key str hcur hi).2.2⟩

section Split

variable {q cur : Nat} {c d : Char} {cs ds : List Char}

theorem path_splitNode (ps : Nat → List Char) (hcur : cur < h.size) (key : Nat) (cRest : Bytes) (u p : List Char) :
    Path (h.splitNode fresh cur key cRest)
      (update (update ps h.size (ps cur)) cur u) p ↔ Path h ps p ∨ p = u := by
  have hsize := splitNode_size (h := h) fresh cur key cRest
  have hne : h.size ≠ cur := Nat.ne_of_gt hcur
  constructor
  · rintro ⟨i, hi, rfl⟩
    by_cases hic : i = cur
    · exact .inr (by rw [hic, update_self])
    rw [update_of_ne hic]
    by_cases heq : i = h.size
    · exact .inl ⟨cur, hcur, by rw [heq, update_self]⟩
    · exact .inl ⟨i, by omega, by rw [update_of_ne heq]⟩
  · rintro (⟨i, hi, rfl⟩ | rfl)
    · by_cases hic : i = cur
      · refine ⟨h.size, by omega, ?_⟩
        rw [update_of_ne hne, update_self, hic]
      · refine ⟨i, by omega, ?_⟩
        rw [update_of_ne hic, update_of_ne (Nat.ne_of_lt hi)]
    · exact ⟨cur, by omega, update_self _ _ _⟩

theorem keeps_splitNode (hw : Wf h ps) (hcur : cur < h.size) (key : Nat) (cRest : Bytes)
    (u : List Char) :
    Keeps h ps (h.splitNode fresh cur key cRest)
      (update (update ps h.size (ps cur)) cur u) := by
  have hsize := splitNode_size (h := h) fresh cur key cRest
  have hne : h.size ≠ cur := Nat.ne_of_gt hcur
  have hnew : h.size ∉ (h.node cur).children.map Prod.snd := by
    intro hmem
    obtain ⟨x, hx, heq⟩ := List.mem_map.mp hmem
    obtain ⟨-, hlt, -⟩ := hw.down cur hcur x.1 x.2 hx
    exact Nat.ne_of_lt hlt heq
  intro i hi
  by_cases hic : i = cur
  · refine ⟨h.size, by omega, ?_, ?_⟩
    · rw [update_of_ne hne, update_self, hic]
    · rw [splitNode_new fresh key cRest hcur hnew, hic]
  · refine ⟨i, by omega, ?_, ?_⟩
    · rw [update_of_ne hic, update_of_ne (Nat.ne_of_lt hi)]
    · rw [splitNode_old fresh key cRest (Nat.ne_of_lt hi) hic]
      split
      · rfl
      · rfl

end Split

def Closed (h : TrieHeap V) (ps : Nat → List Char) : Prop :=
  ∀ p q, Path h ps p → Path h ps q → Path h ps (lcp p q)

theorem lcp_paths (hclosed : Closed h ps) {v u r : List Char} (hv : Path h ps v) (huv : u <+: v)
    (hnext : ∀ q e es, Path h ps q → r = e :: es → ¬ u ++ [e] <+: q) {q : List Char}
    (hq : Path h ps q) :
    lcp (u ++ r) q = u ∨ lcp (u ++ r) q = u ++ r ∨ Path h ps (lcp (u ++ r) q) := by
  have hus : u <+: u ++ r := List.prefix_append u r
  by_cases huq : u <+: q
  · have hle : u <+: lcp (u ++ r) q := prefix_lcp hus huq
    by_cases heq : lcp (u ++ r) q = u
    · exact .inl heq
    · exfalso
      obtain ⟨e, he⟩ := exists_next hle heq
      have hs := he.trans (lcp_prefix_left (u ++ r) q)
      rw [List.prefix_append_right_inj] at hs
      cases r with
      | nil => exact absurd (List.prefix_nil.mp hs) (List.cons_ne_nil e [])
      | cons f fs =>
        obtain ⟨rfl, -⟩ := List.cons_prefix_cons.mp hs
        exact hnext q e fs hq rfl (he.trans (lcp_prefix_right _ q))
  · rw [lcp_of_not_isPrefix hus huq, ← lcp_of_not_isPrefix huv huq]
    exact .inr (.inr (hclosed v q hv hq))

theorem paths_of_split (hclosed : Closed h ps) {s v u r : List Char} (hs : s = u ++ r)
    (hv : Path h ps v) (huv : u <+: v) (hlcp : u = lcp s v)
    (hnext : ∀ q e es, Path h ps q → r = e :: es → ¬ u ++ [e] <+: q)
    (hpaths : ∀ p, Path h' ps' p ↔ Path h ps p ∨ p = s ∨ p = u) (p : List Char) :
    Path h' ps' p ↔ Path h ps p ∨ p = s ∨ ∃ q, Path h ps q ∧ p = lcp s q := by
  subst hs
  rw [hpaths]
  constructor
  · rintro (hp | hp | rfl)
    · exact .inl hp
    · exact .inr (.inl hp)
    · exact .inr (.inr ⟨v, hv, hlcp⟩)
  · rintro (hp | hp | ⟨q, hq, rfl⟩)
    · exact .inl hp
    · exact .inr (.inl hp)
    · rcases lcp_paths hclosed hv huv hnext hq with heq | heq | hpath
      · exact .inr (.inr heq)
      · exact .inr (.inl heq)
      · exact .inl hpath

/-- The string is `base ++ r`, the path of the current node is `base ++ str`, and the two go on with
the same code point unless the node is the root. -/
structure Position (h : TrieHeap V) (ps : Nat → List Char) (base r str : List Char) (cur : Nat) :
    Prop where
  lt : cur < h.size
  path : ps cur = base ++ str
  bytes : (h.node cur).str = Utf8.encode str
  entry : str = [] ∨ ∃ q c cs rs, q < h.size ∧ base = ps q ∧ str = c :: cs ∧ r = c :: rs ∧
    IsChild h ps q cur c cs

theorem Position.root (hw : Wf h ps) (s : List Char) : Position h ps [] s [] 0 where
  lt := hw.pos
  path := hw.root_path
  bytes := hw.root_str
  entry := Or.inl rfl

theorem Position.child {cur k : Nat} {c : Char} {cs : List Char}
    (hk : k < h.size) (hcur : cur < h.size) (hchild : IsChild h ps cur k c cs) (rs : List Char) :
    Position h ps (ps cur) (c :: rs) (c :: cs) k where
  lt := hk
  path := hchild.path
  bytes := hchild.str
  entry := Or.inr ⟨cur, c, cs, rs, hcur, rfl, rfl, rfl, hchild⟩

variable {base r str : List Char}

theorem Position.below (hw : Wf h ps) (hpos : Position h ps base r str cur) {c : Char}
    {cs : List Char} (hstr : str = c :: cs) {q : List Char} (hq : Path h ps q)
    (hpre : base ++ [c] <+: q) : ps cur <+: q := by
  rcases hpos.entry with hnil | ⟨p, d, ds, rs, hp, rfl, hstr', -, hchild⟩
  · rw [hnil] at hstr
    cases hstr
  · obtain ⟨rfl, rfl⟩ := List.cons_eq_cons.mp (hstr.symm.trans hstr')
    obtain ⟨j, hj, rfl⟩ := hq
    obtain ⟨k, es, -, hpk, hkj⟩ := hw.descend_next hp hj hpre
    rw [hw.child_unique hp hchild hpk]
    exact hkj

theorem length_le_encode (s : List Char) : s.length ≤ (Utf8.encode s).length := by
  induction s with
  | nil => exact Nat.le_refl _
  | cons c s ih =>
    have hlt := Utf8.lt_length_utf8EncodeChar c
    rw [Utf8.encode_cons, List.length_append, List.length_cons]
    omega

theorem commonPrefix_encode (x y : List Char) {rounds : Nat} (hrounds : x.length ≤ rounds) :
    ∃ w x' y', x = w ++ x' ∧ y = w ++ y' ∧
      commonPrefix rounds (Utf8.encode x) (Utf8.encode y) =
        .ok (Utf8.encode x', Utf8.encode y') ∧
      ∀ c cs d ds, x' = c :: cs → y' = d :: ds → c ≠ d := by
  induction x generalizing y rounds with
  | nil =>
    refine ⟨[], [], y, rfl, rfl, ?_, fun c cs d ds hc => absurd hc (List.cons_ne_nil c cs).symm⟩
    cases rounds with
    | zero => rfl
    | succ rounds => rw [commonPrefix, if_neg fun hne => hne.1 rfl]
  | cons a x ih =>
    cases rounds with
    | zero => cases hrounds
    | succ rounds =>
      cases y with
      | nil =>
        refine ⟨[], a :: x, [], rfl, rfl, ?_, fun c cs d ds _ hd =>
          absurd hd (List.cons_ne_nil d ds).symm⟩
        rw [commonPrefix, if_neg fun hne => hne.2 rfl]
      | cons b y =>
        rw [commonPrefix, if_pos ⟨encode_ne_nil a x, encode_ne_nil b y⟩, Utf8.next_encode, ok_bind]
        dsimp only
        rw [Utf8.next_encode, ok_bind]
        dsimp only
        by_cases hab : b.val.toNat = a.val.toNat
        · obtain rfl : b = a := Char.ext (UInt32.toNat_inj.mp hab)
          obtain ⟨w, x', y', rfl, rfl, hrun, hne⟩ := ih y (Nat.le_of_succ_le_succ hrounds)
          exact ⟨b :: w, x', y', rfl, rfl, by rw [if_pos rfl, hrun], hne⟩
        · refine ⟨[], a :: x, b :: y, rfl, rfl, by rw [if_neg hab], ?_⟩
          rintro c cs d ds hc hd rfl
          obtain ⟨rfl, -⟩ := List.cons_eq_cons.mp hc
          obtain ⟨rfl, -⟩ := List.cons_eq_cons.mp hd
          exact hab rfl

theorem peekBoth_encode (x : List Char) (c : Char) (s : List Char) :
    peekBoth (Utf8.encode x) (Utf8.encode (c :: s)) = .ok () := by
  rw [peekBoth, Utf8.next_encode, ok_bind]
  cases x with
  | nil => rfl
  | cons a x =>
    rw [if_pos (encode_ne_nil a x), Utf8.next_encode]
    rfl

def StepOk (h : TrieHeap V) (ps : Nat → List Char) (fresh : V) (s r : List Char) (cur : Nat) :
    Prop :=
  (∃ h' ps' i, h.nodeAtStep fresh cur (Utf8.encode r) = .ok (.done h' i) ∧
    Inserted h ps s h' ps' i) ∨
  ∃ k base r' str', h.nodeAtStep fresh cur (Utf8.encode r) = .ok (.down k (Utf8.encode r')) ∧
    s = base ++ r' ∧ Position h ps base r' str' k ∧ str' ≠ [] ∧
      ∃ w, r = w ++ r' ∧ (h.node cur).str = Utf8.encode w

theorem encode_eq_nil {s : List Char} : Utf8.encode s = [] ↔ s = [] := by
  constructor
  · intro hnil
    cases s with
    | nil => rfl
    | cons c s => exact absurd hnil (encode_ne_nil c s)
  · rintro rfl
    rfl

theorem inserted_self (hw : Wf h ps) (hclosed : Closed h ps) (hcur : cur < h.size) :
    Inserted h ps (ps cur) h ps cur where
  wf := hw
  lt := hcur
  path := rfl
  paths p := by
    constructor
    · exact .inl
    · rintro (hp | rfl | ⟨q, hq, rfl⟩)
      · exact hp
      · exact ⟨cur, hcur, rfl⟩
      · exact hclosed _ q ⟨cur, hcur, rfl⟩ hq
  keeps := Keeps.refl h ps

theorem inserted_addChild (hw : Wf h ps) (hclosed : Closed h ps) (hcur : cur < h.size) {c : Char}
    (cs : List Char) (hnone : OrderedMap.lookup c.val.toNat (h.node cur).children = none) :
    ∃ ps', Inserted h ps (ps cur ++ c :: cs)
      (h.addChild fresh cur c.val.toNat (Utf8.encode (c :: cs))) ps' h.size := by
  have hkey : ∀ i, (c.val.toNat, i) ∉ (h.node cur).children := by
    intro i hmem
    have hsome := (OrderedMap.lookup_eq_some (hw.sorted cur hcur).nodup).mpr hmem
    rw [hnone] at hsome
    cases hsome
  refine ⟨_, hw.addChild fresh hcur cs hkey, Nat.lt_succ_self _, update_self _ _ _, ?_,
    keeps_addChild fresh hcur _ _ _⟩
  refine paths_of_split hclosed rfl ⟨cur, hcur, rfl⟩ List.prefix_rfl ?_ ?_ fun p => ?_
  · rw [lcp_comm]
    exact (lcp_of_isPrefix (List.prefix_append _ _)).symm
  · rintro q e es ⟨j, hj, rfl⟩ hr hpre
    obtain ⟨rfl, -⟩ := List.cons_eq_cons.mp hr
    obtain ⟨k, ds, hk, hchild, -⟩ := hw.descend_next hcur hj hpre
    exact hw.lookup_eq_none hcur hnone hk ds hchild
  · rw [path_addChild]
    constructor
    · exact fun hp => hp.imp_right Or.inl
    · rintro (hp | hp | rfl)
      · exact .inl hp
      · exact .inr hp
      · exact .inl ⟨cur, hcur, rfl⟩

section Split

variable {q cur : Nat} {c d : Char} {cs ds : List Char}

theorem inserted_split (hw : Wf h ps) (hclosed : Closed h ps) (hq : q < h.size)
    (hcur : cur < h.size) (hedge : IsChild h ps q cur c (cs ++ d :: ds)) :
    ∃ ps', Inserted h ps (ps q ++ c :: cs)
      (h.splitNode fresh cur d.val.toNat (Utf8.encode (d :: ds))) ps' cur := by
  have hsize := splitNode_size (h := h) fresh cur d.val.toNat (Utf8.encode (d :: ds))
  have hpre : ps q ++ c :: cs <+: ps cur := by
    rw [hedge.path]
    exact ⟨d :: ds, by rw [List.append_assoc, List.cons_append]⟩
  refine ⟨_, hw.splitNode fresh hq hcur hedge, by omega, update_self _ _ _, ?_,
    keeps_splitNode fresh hw hcur _ _ _⟩
  refine paths_of_split hclosed (List.append_nil _).symm ⟨cur, hcur, rfl⟩ hpre
    (lcp_of_isPrefix hpre).symm (fun q e es _ hr => absurd hr (List.cons_ne_nil e es).symm) ?_
  intro p
  rw [path_splitNode fresh ps hcur, or_self]

theorem inserted_split_addChild (hw : Wf h ps) (hclosed : Closed h ps) (hq : q < h.size)
    (hcur : cur < h.size) (hedge : IsChild h ps q cur c (cs ++ d :: ds)) {e : Char}
    (hne : d ≠ e) (es : List Char) :
    ∃ ps', Inserted h ps (ps q ++ c :: cs ++ e :: es)
      ((h.splitNode fresh cur d.val.toNat (Utf8.encode (d :: ds))).addChild fresh cur e.val.toNat
        (Utf8.encode (e :: es))) ps'
      (h.splitNode fresh cur d.val.toNat (Utf8.encode (d :: ds))).size := by
  have hsize := splitNode_size (h := h) fresh cur d.val.toNat (Utf8.encode (d :: ds))
  have hpre : ps q ++ c :: cs ++ [d] <+: ps cur := by
    rw [hedge.path]
    exact ⟨ds, by simp⟩
  have hwsplit := hw.splitNode fresh hq hcur hedge
  have hpaths := path_splitNode fresh ps hcur d.val.toNat (Utf8.encode (d :: ds))
    (ps q ++ c :: cs)
  have hkeeps := keeps_splitNode fresh hw hcur d.val.toNat (Utf8.encode (d :: ds))
    (ps q ++ c :: cs)
  have hpcur : update (update ps h.size (ps cur)) cur (ps q ++ c :: cs) cur =
    ps q ++ c :: cs := update_self _ _ _
  have hself : cur ∉ (h.node cur).children.map Prod.snd := by
    intro hmem
    obtain ⟨x, hx, heq⟩ := List.mem_map.mp hmem
    obtain ⟨-, -, f, fs, -, hchild⟩ := hw.down cur hcur x.1 x.2 hx
    have hlt := hchild.length_lt
    rw [heq] at hlt
    exact Nat.lt_irrefl _ hlt
  have hncur := splitNode_cur fresh d.val.toNat (Utf8.encode (d :: ds)) hcur hself
  generalize update (update ps h.size (ps cur)) cur (ps q ++ c :: cs) = ps₁ at *
  generalize h.splitNode fresh cur d.val.toNat (Utf8.encode (d :: ds)) = h₁ at *
  have hcur₁ : cur < h₁.size := by omega
  have hkey : ∀ i, (e.val.toNat, i) ∉ (h₁.node cur).children := by
    intro i hmem
    rw [hncur] at hmem
    obtain ⟨hkeyeq, -⟩ := Prod.mk.inj (List.mem_singleton.mp hmem)
    exact hne (Char.ext (UInt32.toNat_inj.mp hkeyeq)).symm
  have hwchild := hwsplit.addChild fresh hcur₁ es hkey
  rw [hpcur] at hwchild
  refine ⟨_, hwchild, Nat.lt_succ_self _, update_self _ _ _, ?_,
    hkeeps.trans (keeps_addChild fresh hcur₁ _ _ _)⟩
  refine paths_of_split hclosed rfl ⟨cur, hcur, rfl⟩ ((List.prefix_append _ _).trans hpre) ?_ ?_
    ?_
  · refine (lcp_of_ne hne.symm ⟨es, ?_⟩ hpre).symm
    rw [List.append_assoc, List.singleton_append]
  · intro p f fs hp hr hprep
    obtain ⟨rfl, -⟩ := List.cons_eq_cons.mp hr
    have hbase : ps q ++ [c] <+: p := by
      refine List.IsPrefix.trans ?_ hprep
      exact ⟨cs ++ [e], by simp⟩
    obtain ⟨j, hj, rfl⟩ := hp
    obtain ⟨k, gs, -, hqk, hkj⟩ := hw.descend_next hq hj hbase
    rw [← hw.child_unique hq hedge hqk] at hkj
    exact hne (isPrefix_next_unique (hpre.trans hkj) hprep)
  · intro p
    rw [path_addChild, hpaths, or_assoc, or_comm (a := p = _ ++ c :: cs)]

end Split

def childMove (h : TrieHeap V) (fresh : V) (cur key : Nat) (rest : Bytes) : Option Nat → Move V
  | some child => .down child rest
  | none => .done (h.addChild fresh cur key rest) h.size

theorem nodeAtStep_spec (hw : Wf h ps) (hclosed : Closed h ps)
    (hpos : Position h ps base r str cur) : StepOk h ps fresh (base ++ r) r cur := by
  cases r with
  | nil =>
    left
    have hpath := hpos.path
    have hstr : str = [] := by
      rcases hpos.entry with hnil | ⟨q, c, cs, rs, -, -, -, hr, -⟩
      · exact hnil
      · cases hr
    rw [hstr] at hpath
    refine ⟨h, ps, cur, rfl, ?_⟩
    rw [← hpath]
    exact inserted_self hw hclosed hpos.lt
  | cons a r =>
    have hrounds : str.length ≤ (h.node cur).str.length := by
      rw [hpos.bytes]
      exact length_le_encode str
    obtain ⟨w, x', y', hstr, hr, hrun, hne⟩ := commonPrefix_encode str (a :: r) hrounds
    rw [← hpos.bytes] at hrun
    have hstep : h.nodeAtStep fresh cur (Utf8.encode (a :: r)) =
        (if Utf8.encode x' = [] then
          if Utf8.encode y' = [] then .ok (.done h cur)
          else do
            let key ← Utf8.next (Utf8.encode y')
            return h.childMove fresh cur key.1 (Utf8.encode y')
              (OrderedMap.lookup key.1 (h.node cur).children)
        else if Utf8.encode y' = [] then do
          let cKey ← Utf8.next (Utf8.encode x')
          return .done (h.splitNode fresh cur cKey.1 (Utf8.encode x')) cur
        else do
          let key ← Utf8.next (Utf8.encode y')
          let cKey ← Utf8.next (Utf8.encode x')
          let split := h.splitNode fresh cur cKey.1 (Utf8.encode x')
          return .done (split.addChild fresh cur key.1 (Utf8.encode y')) split.size) := by
      rw [nodeAtStep, if_neg (encode_ne_nil a r)]
      dsimp only
      rw [hpos.bytes, peekBoth_encode, ok_bind, ← hpos.bytes, hrun, ok_bind]
      split
      · split
        · rfl
        · congr 1
          funext p
          cases OrderedMap.lookup p.1 (h.node cur).children <;> rfl
      · rfl
    have hpath := hpos.path
    cases x' with
    | nil =>
      rw [List.append_nil] at hstr
      subst hstr
      cases y' with
      | nil =>
        left
        rw [List.append_nil] at hr
        refine ⟨h, ps, cur, hstep.trans (by simp), ?_⟩
        rw [hr, ← hpath]
        exact inserted_self hw hclosed hpos.lt
      | cons e es =>
        have hs : base ++ a :: r = ps cur ++ e :: es := by rw [hr, hpath, List.append_assoc]
        rw [if_pos Utf8.encode_nil, if_neg (encode_ne_nil e es), Utf8.next_encode, ok_bind] at hstep
        dsimp only at hstep
        cases hlookup : OrderedMap.lookup e.val.toNat (h.node cur).children with
        | some k =>
          right
          obtain ⟨hk, cs, hchild⟩ := (hw.lookup_eq_some hpos.lt).mp hlookup
          rw [hlookup] at hstep
          exact ⟨k, ps cur, e :: es, e :: cs, hstep, hs, Position.child hk hpos.lt hchild es,
            List.cons_ne_nil _ _, str, hr, hpos.bytes⟩
        | none =>
          left
          rw [hlookup] at hstep
          obtain ⟨ps', hinserted⟩ := inserted_addChild fresh hw hclosed hpos.lt es hlookup
          rw [← hs] at hinserted
          exact ⟨_, ps', _, hstep, hinserted⟩
    | cons d ds =>
      left
      obtain ⟨q, c, cs, rs, hq, rfl, hstr', hr', hedge⟩ := hpos.entry.resolve_left (by
        rw [hstr]
        exact List.append_ne_nil_of_right_ne_nil _ (List.cons_ne_nil d ds))
      obtain ⟨w', rfl⟩ : ∃ w', w = c :: w' := by
        cases w with
        | nil =>
          exact absurd rfl (hne c cs c rs (hstr.symm.trans hstr') (hr.symm.trans hr'))
        | cons f w' =>
          obtain ⟨rfl, -⟩ := List.cons_eq_cons.mp (hstr.symm.trans hstr')
          exact ⟨w', rfl⟩
      obtain ⟨-, rfl⟩ := List.cons_eq_cons.mp (hstr.symm.trans hstr')
      rw [if_neg (encode_ne_nil d ds)] at hstep
      cases y' with
      | nil =>
        rw [List.append_nil] at hr
        rw [if_pos Utf8.encode_nil, Utf8.next_encode, ok_bind] at hstep
        obtain ⟨ps', hinserted⟩ := inserted_split fresh hw hclosed hq hpos.lt hedge
        rw [← hr] at hinserted
        exact ⟨_, ps', _, hstep, hinserted⟩
      | cons e es =>
        rw [if_neg (encode_ne_nil e es), Utf8.next_encode, ok_bind] at hstep
        dsimp only at hstep
        rw [Utf8.next_encode, ok_bind] at hstep
        have hde : d ≠ e := hne d ds e es rfl rfl
        obtain ⟨ps', hinserted⟩ := inserted_split_addChild fresh hw hclosed hq hpos.lt
          hedge hde es
        rw [List.append_assoc, ← hr] at hinserted
        exact ⟨_, ps', _, hstep, hinserted⟩

theorem nodeAtLoop_spec (hw : Wf h ps) (hclosed : Closed h ps)
    (hpos : Position h ps base r str cur) {fuel : Nat}
    (hfuel : r.length + (if str = [] then 1 else 0) < fuel) :
    ∃ h' ps' i, h.nodeAtLoop fresh fuel cur (Utf8.encode r) = some (.ok (h', i)) ∧
      Inserted h ps (base ++ r) h' ps' i := by
  induction fuel generalizing base r str cur with
  | zero => omega
  | succ fuel ih =>
    rcases nodeAtStep_spec fresh hw hclosed hpos with
      ⟨h', ps', i, hstep, hinserted⟩ | ⟨k, base', r', str', hstep, hs, hpos', hne, w, rfl, hw'⟩
    · exact ⟨h', ps', i, by rw [nodeAtLoop, hstep], hinserted⟩
    · have hstr : str = w := Utf8.encode_injective (hpos.bytes.symm.trans hw')
      subst hstr
      have hlt : r'.length + (if str' = [] then 1 else 0) < fuel := by
        rw [if_neg hne]
        rw [List.length_append] at hfuel
        by_cases hnil : str = []
        · rw [if_pos hnil, hnil, List.length_nil] at hfuel
          omega
        · have hpos := List.length_pos_iff.mpr hnil
          rw [if_neg hnil] at hfuel
          omega
      rw [nodeAtLoop, hstep]
      dsimp only
      rw [hs]
      exact ih hpos' hlt

end TrieHeap

end Sserialize
