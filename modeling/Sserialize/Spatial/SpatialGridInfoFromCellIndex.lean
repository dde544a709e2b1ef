import Mathlib.Algebra.Order.BigOperators.Group.List
import Mathlib.Data.List.Perm.Subperm
import Sserialize.Spatial.HCQRSpatialGrid

namespace Sserialize

structure RandomCache (α : Type) where
  m_maxSize : Nat
  m_kv : List (Nat × α)
  m_k : List Nat
  m_a : Nat
  m_b : Nat
  m_x : Nat

namespace RandomCache

variable {α : Type} (c : RandomCache α)

def size : Nat := c.m_kv.length

def find (key : Nat) : Option α := (c.m_kv.find? fun e => e.1 = key).map Prod.snd

def erase (kv : List (Nat × α)) (key : Nat) : List (Nat × α) := kv.filter fun e => e.1 ≠ key

def assign (kv : List (Nat × α)) (key : Nat) (value : α) : List (Nat × α) :=
  (key, value) :: erase kv key

def insert (key : Nat) (value : α) : Except Fault (RandomCache α) :=
  if c.size + 1 ≥ c.m_maxSize then
    if c.size = 0 then .error .undefinedBehaviour
    else
      let x := (c.m_a * c.m_x + c.m_b) % 2 ^ 64 % c.size
      match c.m_k[x]? with
      | some old => .ok { c with
          m_x := x
          m_k := c.m_k.set x key
          m_kv := assign (erase c.m_kv old) key value }
      | none => .error .outOfRange
  else .ok { c with m_kv := assign c.m_kv key value, m_k := c.m_k ++ [key] }

end RandomCache

namespace SpatialGridInfoFromCellIndex

/-- `interface::CellInfo`. The type is the one of `items(pid)`. -/
structure CellInfo where
  hasPixel : Nat → Bool
  items : Nat → Except Fault ItemIndex
  type : Nat → Except Fault Nat
  pixelId : Nat → Nat
  cells : List Nat

structure Node where
  pid : Nat
  begin : Nat
  «end» : Nat
  deriving Repr, DecidableEq

namespace Node

def npos : Nat := 2 ^ 32 - 1

def leaf (pid : Nat) : Node := ⟨pid, npos, npos⟩

def size (n : Node) : Nat := sub32 n.end n.begin

end Node

abbrev Tree := List Node

/-- `std::unordered_map<PixelId, std::vector<PixelId>>`. A key has at least one child. -/
abbrev ParentToChildren := Nat → List Nat

section

variable (sg : SpatialGrid) (ci : CellInfo)

def linkLoop : Nat → List Nat → ParentToChildren → Except Fault ParentToChildren
  | _, [], parent2Children => .ok parent2Children
  | 0, _ :: _, _ => .error .undefinedBehaviour
  | rounds + 1, pid :: queue, parent2Children => do
    let ppid ← sg.parent pid
    let queue :=
      if ppid ≠ sg.rootPixelId ∧ parent2Children ppid = [] then ppid :: queue else queue
    linkLoop rounds queue
      (Function.update parent2Children ppid (parent2Children ppid ++ [pid]))

def expandLoop (parent2Children : ParentToChildren) : Nat → Nat → Tree → Except Fault Tree
  | rounds, i, t =>
    match t[i]? with
    | none => .ok t
    | some node =>
      match rounds with
      | 0 => .error .undefinedBehaviour
      | rounds + 1 =>
        let c := parent2Children node.pid
        if c = [] then expandLoop parent2Children rounds (i + 1) t
        else
          let node := { node with begin := u32 t.length, «end» := u32 (t.length + c.length) }
          expandLoop parent2Children rounds (i + 1) (t.set i node ++ c.map Node.leaf)

def pixels : List Nat := ci.cells.map ci.pixelId

def createTree (rounds : Nat) : Except Fault Tree := do
  let parent2Children ← linkLoop sg rounds (pixels ci).reverse fun _ => []
  expandLoop parent2Children rounds 0 [.leaf sg.rootPixelId]

variable (t : Tree)

def nodeAt (i : Nat) : Except Fault Node :=
  match t[i]? with
  | some node => .ok node
  | none => .error .outOfRange

def ancestorsLoop : Nat → Nat → List Nat → Except Fault (List Nat)
  | rounds, pid, known =>
    if pid = sg.rootPixelId then .ok (pid :: known)
    else
      match rounds with
      | 0 => .error .undefinedBehaviour
      | rounds + 1 => do
        let ppid ← sg.parent pid
        ancestorsLoop rounds ppid (pid :: known)

def findChild (pid : Nat) : Nat → Nat → Except Fault (Option Nat)
  | 0, _ => .ok none
  | count + 1, i => do
    let child ← nodeAt t i
    if child.pid = pid then .ok (some i) else findChild pid count (i + 1)

def descend : Nat → List Nat → Except Fault Nat
  | pos, [] => .ok pos
  | pos, pid :: path => do
    let node ← nodeAt t pos
    let child ← findChild t pid (node.end - node.begin) node.begin
    match child with
    | some i => descend i path
    | none => return pos

def node (pid : Nat) : Except Fault (Option Nat) := do
  let ancestors ← ancestorsLoop sg (sg.level pid) pid []
  let pos ← descend t 0 ancestors.tail
  let node ← nodeAt t pos
  return if node.pid = pid then some pos else none

/-- `items(Node)`. The rounds bound the depth of the recursion. -/
def itemsOfNode : Nat → Node → Except Fault ItemIndex
  | 0, _ => .error .undefinedBehaviour
  | rounds + 1, node =>
    if node.size ≠ 0 then do
      let tmp ← (List.range' node.begin (node.end - node.begin)).mapM fun i => do
        let child ← nodeAt t i
        itemsOfNode rounds child
      return HCQRSpatialGrid.uniteAll tmp
    else ci.items node.pid

/-- `items(pid)` without the cache. -/
def itemsUncached (pid : Nat) : Except Fault ItemIndex := do
  let pos ← node sg t pid
  match pos with
  | some pos => do
    let node ← nodeAt t pos
    itemsOfNode ci t t.length node
  | none => return ItemIndex.empty

def items (cache : RandomCache ItemIndex) (pid : Nat) :
    Except Fault (ItemIndex × RandomCache ItemIndex) :=
  match cache.find pid with
  | some result => .ok (result, cache)
  | none => do
    let result ← itemsUncached sg ci t pid
    let cache ← cache.insert pid result
    return (result, cache)

def itemCount (cache : RandomCache ItemIndex) (pid : Nat) :
    Except Fault (Nat × RandomCache ItemIndex) := do
  let (result, cache) ← items sg ci t cache pid
  return (result.size, cache)

end

end SpatialGridInfoFromCellIndex

namespace RandomCache

variable {α : Type} {c : RandomCache α}

/-- The keys are different, and each of them is among those that can be evicted. -/
structure WellFormed (c : RandomCache α) : Prop where
  lt_maxSize : 1 < c.m_maxSize
  nodup : (c.m_kv.map Prod.fst).Nodup
  subset : c.m_kv.map Prod.fst ⊆ c.m_k

theorem mem_of_find {key : Nat} {value : α} (h : c.find key = some value) :
    (key, value) ∈ c.m_kv := by
  obtain ⟨e, he, rfl⟩ := Option.map_eq_some_iff.mp h
  have hkey := List.find?_some he
  rw [decide_eq_true_eq] at hkey
  rw [← hkey]
  exact List.mem_of_find?_eq_some he

variable {kv : List (Nat × α)}

theorem mem_erase {key : Nat} {e : Nat × α} : e ∈ erase kv key ↔ e ∈ kv ∧ e.1 ≠ key := by
  rw [erase, List.mem_filter, decide_eq_true_eq]

theorem nodup_erase (h : (kv.map Prod.fst).Nodup) (key : Nat) :
    ((erase kv key).map Prod.fst).Nodup :=
  h.sublist (List.filter_sublist.map Prod.fst)

theorem nodup_assign (h : (kv.map Prod.fst).Nodup) (key : Nat) (value : α) :
    ((assign kv key value).map Prod.fst).Nodup := by
  rw [assign, List.map_cons, List.nodup_cons]
  refine ⟨fun hmem => ?_, nodup_erase h key⟩
  obtain ⟨e, he, hkey⟩ := List.mem_map.mp hmem
  exact (mem_erase.mp he).2 hkey

theorem WellFormed.insert_spec (h : c.WellFormed) (key : Nat) (value : α) :
    ∃ c', c.insert key value = .ok c' ∧ c'.WellFormed ∧
      ∀ e ∈ c'.m_kv, e = (key, value) ∨ e ∈ c.m_kv := by
  have hmax := h.lt_maxSize
  rw [RandomCache.insert]
  by_cases hfull : c.size + 1 ≥ c.m_maxSize
  · have hsize : c.size ≠ 0 := by omega
    have hlength : c.size ≤ c.m_k.length := by
      have hle := (List.subperm_of_subset h.nodup h.subset).length_le
      rwa [List.length_map] at hle
    have hlt : (c.m_a * c.m_x + c.m_b) % 2 ^ 64 % c.size < c.m_k.length :=
      (Nat.mod_lt _ (Nat.pos_of_ne_zero hsize)).trans_le hlength
    rw [if_pos hfull, if_neg hsize]
    dsimp only
    rw [List.getElem?_eq_getElem hlt]
    generalize hx : (c.m_a * c.m_x + c.m_b) % 2 ^ 64 % c.size = x at hlt ⊢
    refine ⟨_, rfl, ⟨hmax, nodup_assign (nodup_erase h.nodup _) key value, ?_⟩, ?_⟩
    · intro k hk
      obtain ⟨e, he, rfl⟩ := List.mem_map.mp hk
      obtain rfl | he := List.mem_cons.mp he
      · exact List.mem_set hlt _
      · obtain ⟨he, -⟩ := mem_erase.mp he
        obtain ⟨he, hne⟩ := mem_erase.mp he
        obtain ⟨i, hi, hie⟩ := List.mem_iff_getElem.mp (h.subset (List.mem_map_of_mem he))
        have hix : i ≠ x := by
          rintro rfl
          exact hne hie.symm
        exact List.mem_iff_getElem.mpr ⟨i, by rwa [List.length_set], by
          rw [List.getElem_set_ne (Ne.symm hix), hie]⟩
    · intro e he
      obtain rfl | he := List.mem_cons.mp he
      · exact .inl rfl
      · exact .inr (mem_erase.mp (mem_erase.mp he).1).1
  · rw [if_neg hfull]
    refine ⟨_, rfl, ⟨hmax, nodup_assign h.nodup key value, ?_⟩, ?_⟩
    · intro k hk
      obtain ⟨e, he, rfl⟩ := List.mem_map.mp hk
      obtain rfl | he := List.mem_cons.mp he
      · exact List.mem_append_right _ List.mem_cons_self
      · exact List.mem_append_left _ (h.subset (List.mem_map_of_mem (mem_erase.mp he).1))
    · intro e he
      obtain rfl | he := List.mem_cons.mp he
      · exact .inl rfl
      · exact .inr (mem_erase.mp he).1

end RandomCache

namespace SpatialGridInfoFromCellIndex

variable {sg : SpatialGrid} {Pixel : Nat → Prop} {ci : CellInfo} {t : Tree}
  {parent2Children : ParentToChildren}

/-- The indexed cells are pixels below the root, and their items can be read. -/
structure Indexed (sg : SpatialGrid) (Pixel : Nat → Prop) (ci : CellInfo) : Prop where
  pixel : ∀ q ∈ pixels ci, Pixel q
  level : ∀ q ∈ pixels ci, 0 < sg.level q
  items : ∀ q ∈ pixels ci, ∃ idx, ci.items q = .ok idx
  nonempty : ci.cells ≠ []

structure Above (sg : SpatialGrid) (Pixel : Nat → Prop) (ci : CellInfo) (p : Nat) : Prop where
  pixel : Pixel p
  level : 0 < sg.level p
  cell : ∃ q ∈ pixels ci, sg.Covers p q

/-- What the loop over the queue keeps: all cells and keys are linked to their parents, or in the
queue. -/
structure Linking (sg : SpatialGrid) (Pixel : Nat → Prop) (ci : CellInfo) (queue : List Nat)
    (parent2Children : ParentToChildren) : Prop where
  queued : ∀ p ∈ queue, Above sg Pixel ci p
  children : ∀ p, ∀ c ∈ parent2Children p, Above sg Pixel ci c ∧ sg.parent c = .ok p
  keys : ∀ p, parent2Children p ≠ [] → p ≠ sg.rootPixelId → p ∈ queue ∨ ∃ g, p ∈ parent2Children g
  cells : ∀ q ∈ pixels ci, q ∈ queue ∨ ∃ g, q ∈ parent2Children g

theorem Indexed.above (h : Indexed sg Pixel ci) {q : Nat} (hq : q ∈ pixels ci) :
    Above sg Pixel ci q := ⟨h.pixel q hq, h.level q hq, q, hq, .refl⟩

theorem Indexed.linking (h : Indexed sg Pixel ci) :
    Linking sg Pixel ci (pixels ci).reverse fun _ => [] where
  queued _ hp := h.above (List.mem_reverse.mp hp)
  children _ _ hc := absurd hc List.not_mem_nil
  keys _ hp := absurd rfl hp
  cells _ hq := Or.inl (List.mem_reverse.mpr hq)

theorem Above.parent (hlawful : sg.Lawful Pixel) {p c : Nat} (h : Above sg Pixel ci c)
    (hparent : sg.parent c = .ok p) (hroot : p ≠ sg.rootPixelId) : Above sg Pixel ci p := by
  obtain ⟨q, hq, hcov⟩ := h.cell
  obtain ⟨hpixel, -⟩ := hlawful.level_parent h.pixel h.level hparent
  refine ⟨hpixel, ?_, q, hq, (SpatialGrid.Covers.child .refl h.level hparent).trans hcov⟩
  exact Nat.pos_of_ne_zero fun hzero => hroot (hlawful.eq_root p hpixel hzero)

theorem mem_update {p q c x : Nat} :
    c ∈ Function.update parent2Children p (parent2Children p ++ [x]) q ↔
      c ∈ parent2Children q ∨ (q = p ∧ c = x) := by
  by_cases hqp : q = p
  · rw [hqp, Function.update_self, List.mem_append, List.mem_singleton]
    exact or_congr_right ⟨fun h => ⟨rfl, h⟩, And.right⟩
  · rw [Function.update_of_ne hqp]
    exact ⟨.inl, fun h => h.elim id fun h => absurd h.1 hqp⟩

theorem Linking.step (hlawful : sg.Lawful Pixel) {pid ppid : Nat} {queue : List Nat}
    (h : Linking sg Pixel ci (pid :: queue) parent2Children) (hparent : sg.parent pid = .ok ppid) :
    Linking sg Pixel ci
      (if ppid ≠ sg.rootPixelId ∧ parent2Children ppid = [] then ppid :: queue else queue)
      (Function.update parent2Children ppid (parent2Children ppid ++ [pid])) := by
  have hpid := h.queued pid List.mem_cons_self
  have hqueue : ∀ x ∈ queue,
      x ∈ (if ppid ≠ sg.rootPixelId ∧ parent2Children ppid = [] then ppid :: queue else queue) := by
    intro x hx
    split
    · exact List.mem_cons_of_mem _ hx
    · exact hx
  have hlinked : ∀ x, (x ∈ pid :: queue ∨ ∃ g, x ∈ parent2Children g) →
      x ∈ (if ppid ≠ sg.rootPixelId ∧ parent2Children ppid = [] then ppid :: queue else queue) ∨
        ∃ g, x ∈ Function.update parent2Children ppid (parent2Children ppid ++ [pid]) g := by
    rintro x (hx | ⟨g, hg⟩)
    · obtain rfl | hx := List.mem_cons.mp hx
      · exact .inr ⟨ppid, mem_update.mpr (.inr ⟨rfl, rfl⟩)⟩
      · exact .inl (hqueue x hx)
    · exact .inr ⟨g, mem_update.mpr (.inl hg)⟩
  refine ⟨?_, ?_, ?_, fun q hq => hlinked q (h.cells q hq)⟩
  · intro p hp
    split at hp
    · rename_i hpush
      obtain rfl | hp := List.mem_cons.mp hp
      · exact hpid.parent hlawful hparent hpush.1
      · exact h.queued p (List.mem_cons_of_mem _ hp)
    · exact h.queued p (List.mem_cons_of_mem _ hp)
  · intro p c hc
    obtain hc | ⟨rfl, rfl⟩ := mem_update.mp hc
    · exact h.children p c hc
    · exact ⟨hpid, hparent⟩
  · intro p hp hroot
    by_cases hold : parent2Children p = []
    · obtain rfl : p = ppid := by
        by_contra hne
        rw [Function.update_of_ne hne] at hp
        exact hp hold
      rw [if_pos ⟨hroot, hold⟩]
      exact .inl List.mem_cons_self
    · exact hlinked p (h.keys p hold hroot)

variable {queue : List Nat}

theorem Linking.linkLoop_spec (hlawful : sg.Lawful Pixel) {rounds : Nat}
    (h : Linking sg Pixel ci queue parent2Children)
    (hrounds : (queue.map fun q => sg.level q + 1).sum ≤ rounds) :
    ∃ linked, linkLoop sg rounds queue parent2Children = .ok linked := by
  induction rounds generalizing queue parent2Children with
  | zero =>
    cases queue with
    | nil => exact ⟨_, rfl⟩
    | cons pid queue =>
      rw [List.map_cons, List.sum_cons] at hrounds
      omega
  | succ rounds ih =>
    cases queue with
    | nil => exact ⟨_, rfl⟩
    | cons pid queue =>
      have hpid := h.queued pid List.mem_cons_self
      obtain ⟨ppid, hparent, -, hlevel⟩ := hlawful.parent_ok pid hpid.pixel hpid.level
      rw [linkLoop, hparent, ok_bind]
      refine ih (h.step hlawful hparent) ?_
      rw [List.map_cons, List.sum_cons] at hrounds
      split
      · rw [List.map_cons, List.sum_cons]
        omega
      · omega

theorem Linking.of_linkLoop (hlawful : sg.Lawful Pixel) {rounds : Nat} {linked : ParentToChildren}
    (h : Linking sg Pixel ci queue parent2Children)
    (hloop : linkLoop sg rounds queue parent2Children = .ok linked) :
    Linking sg Pixel ci [] linked := by
  induction rounds generalizing queue parent2Children with
  | zero =>
    cases queue with
    | nil =>
      cases hloop
      exact h
    | cons pid queue => cases hloop
  | succ rounds ih =>
    cases queue with
    | nil =>
      cases hloop
      exact h
    | cons pid queue =>
      rw [linkLoop] at hloop
      obtain ⟨ppid, hparent, hloop⟩ := bind_eq_ok hloop
      exact ih (h.step hlawful hparent) hloop

theorem Linking.mem_iff (hlawful : sg.Lawful Pixel) (h : Linking sg Pixel ci [] parent2Children)
    {p c : Nat} :
    c ∈ parent2Children p ↔ Above sg Pixel ci c ∧ sg.parent c = .ok p := by
  refine ⟨h.children p c, ?_⟩
  rintro ⟨habove, hparent⟩
  have hup : ∀ q, sg.Covers c q → (∃ g, q ∈ parent2Children g) → ∃ g, c ∈ parent2Children g := by
    intro q hcov
    induction hcov with
    | refl => exact id
    | @child q d hcov _ hd ih =>
      rintro ⟨g, hg⟩
      obtain ⟨-, hg'⟩ := h.children g d hg
      obtain rfl := Except.ok.inj (hd.symm.trans hg')
      have hroot : q ≠ sg.rootPixelId := by
        rintro rfl
        have hle := hcov.level_le hlawful hlawful.root
        have hpos := habove.level
        rw [hlawful.level_root] at hle
        omega
      exact ih ((h.keys q (List.ne_nil_of_mem hg) hroot).resolve_left List.not_mem_nil)
  obtain ⟨q, hq, hcov⟩ := habove.cell
  obtain ⟨g, hg⟩ := hup q hcov ((h.cells q hq).resolve_left List.not_mem_nil)
  obtain rfl := Except.ok.inj (hparent.symm.trans (h.children g c hg).2)
  exact hg

def HasNode (sg : SpatialGrid) (Pixel : Nat → Prop) (ci : CellInfo) (p : Nat) : Prop :=
  p = sg.rootPixelId ∨ Above sg Pixel ci p

structure NodeOk (parent2Children : ParentToChildren) (t : Tree) (pos : Nat) (n : Node) : Prop where
  end_eq : n.end = n.begin + (parent2Children n.pid).length
  end_lt : n.end < 2 ^ 32
  children : parent2Children n.pid <+: (t.map Node.pid).drop n.begin
  behind : parent2Children n.pid ≠ [] → pos < n.begin

/-- The nodes in front of `i` are expanded, those behind are leaves. -/
structure Expanded (sg : SpatialGrid) (Pixel : Nat → Prop) (ci : CellInfo)
    (parent2Children : ParentToChildren) (i : Nat) (t : Tree) : Prop where
  root : t[0]?.map Node.pid = some sg.rootPixelId
  pids : ∀ n ∈ t, HasNode sg Pixel ci n.pid
  done : ∀ pos n, pos < i → t[pos]? = some n → NodeOk parent2Children t pos n
  fresh : ∀ pos n, i ≤ pos → t[pos]? = some n → n = .leaf n.pid

theorem nodeOk_leaf {pid pos : Nat} (h : parent2Children pid = []) :
    NodeOk parent2Children t pos (.leaf pid) := by
  have hnil : parent2Children (Node.leaf pid).pid = [] := h
  refine ⟨?_, ?_, ?_, fun hne => absurd hnil hne⟩
  · rw [hnil]
    rfl
  · exact Nat.sub_lt (Nat.two_pow_pos 32) Nat.one_pos
  · rw [hnil]
    exact List.nil_prefix

theorem expanded_start : Expanded sg Pixel ci parent2Children 0 [.leaf sg.rootPixelId] where
  root := rfl
  pids _ hn := Or.inl (congrArg Node.pid (List.mem_singleton.mp hn))
  done _ _ hpos := absurd hpos (Nat.not_lt_zero _)
  fresh pos n _ hn := by
    obtain rfl := List.mem_singleton.mp (List.mem_of_getElem? hn)
    rfl

theorem map_pid_expand {i : Nat} {n n' : Node} (hn : t[i]? = some n) (hpid : n'.pid = n.pid)
    (cs : List Nat) :
    (t.set i n' ++ cs.map Node.leaf).map Node.pid = t.map Node.pid ++ cs := by
  have hset : (t.set i n').map Node.pid = t.map Node.pid := by
    rw [List.map_set, hpid]
    refine List.ext_getElem? fun j => ?_
    rw [List.getElem?_set]
    split
    · rename_i hij
      subst hij
      obtain ⟨hlt, -⟩ := List.getElem?_eq_some_iff.mp hn
      rw [if_pos (by rwa [List.length_map]), List.getElem?_map, hn]
      rfl
    · rfl
  have hleaf : (cs.map Node.leaf).map Node.pid = cs := by
    rw [List.map_map]
    exact List.map_id'' (fun _ => rfl) cs
  rw [List.map_append, hset, hleaf]

theorem NodeOk.append {pos : Nat} {n : Node} {t' : Tree} {cs : List Nat}
    (h : NodeOk parent2Children t pos n) (ht' : t'.map Node.pid = t.map Node.pid ++ cs) :
    NodeOk parent2Children t' pos n where
  end_eq := h.end_eq
  end_lt := h.end_lt
  children := by
    have happend : (t.map Node.pid).drop n.begin <+: (t'.map Node.pid).drop n.begin := by
      rw [ht', List.drop_append]
      exact List.prefix_append _ _
    exact h.children.trans happend
  behind := h.behind

theorem Expanded.expand (hlawful : sg.Lawful Pixel) (hlink : Linking sg Pixel ci [] parent2Children)
    {i : Nat} {n n' : Node} (h : Expanded sg Pixel ci parent2Children i t) (hn : t[i]? = some n)
    (hn' : n' = { n with
      begin := t.length, «end» := t.length + (parent2Children n.pid).length })
    (hlength : t.length + (parent2Children n.pid).length < 2 ^ 32) :
    Expanded sg Pixel ci parent2Children (i + 1)
      (t.set i n' ++ (parent2Children n.pid).map Node.leaf) := by
  have hlt : i < t.length := (List.getElem?_eq_some_iff.mp hn).choose
  have hpid : n'.pid = n.pid := by rw [hn']
  have hmap := map_pid_expand hn hpid (parent2Children n.pid)
  have hget : ∀ pos, pos < t.length →
      (t.set i n' ++ (parent2Children n.pid).map Node.leaf)[pos]? =
        if i = pos then some n' else t[pos]? := by
    intro pos hpos
    rw [List.getElem?_append_left (by rwa [List.length_set]), List.getElem?_set]
    by_cases hi : i = pos
    · rw [if_pos hi, if_pos hi, if_pos hlt]
    · rw [if_neg hi, if_neg hi]
  have hbehind : ∀ pos, t.length ≤ pos →
      (t.set i n' ++ (parent2Children n.pid).map Node.leaf)[pos]? =
        (parent2Children n.pid)[pos - t.length]?.map Node.leaf := by
    intro pos hpos
    rw [List.getElem?_append_right (by rwa [List.length_set]), List.length_set, List.getElem?_map]
  refine ⟨?_, ?_, ?_, ?_⟩
  · rw [← List.getElem?_map, hmap, List.getElem?_append_left (by rw [List.length_map]; omega),
      List.getElem?_map]
    exact h.root
  · intro m hm
    have hmem : m.pid ∈ t.map Node.pid ++ parent2Children n.pid := by
      rw [← hmap]
      exact List.mem_map_of_mem hm
    obtain hmem | hmem := List.mem_append.mp hmem
    · obtain ⟨m', hm', heq⟩ := List.mem_map.mp hmem
      rw [← heq]
      exact h.pids m' hm'
    · exact .inr ((hlink.mem_iff hlawful).mp hmem).1
  · intro pos m hpos hm
    rw [hget pos (by omega)] at hm
    by_cases hi : i = pos
    · rw [if_pos hi] at hm
      obtain rfl := Option.some.inj hm
      subst hi
      refine ⟨?_, ?_, ?_, ?_⟩
      · rw [hn']
      · rw [hn']
        exact hlength
      · have hbegin : n'.begin = (t.map Node.pid).length := by
          rw [hn', List.length_map]
        refine ⟨[], ?_⟩
        rw [List.append_nil, hmap, hbegin, List.drop_left, hpid]
      · rw [hn']
        exact fun _ => hlt
    · rw [if_neg hi] at hm
      exact (h.done pos m (by omega) hm).append hmap
  · intro pos m hpos hm
    rcases Nat.lt_or_ge pos t.length with hlt' | hge
    · rw [hget pos hlt', if_neg (by omega)] at hm
      exact h.fresh pos m (by omega) hm
    · rw [hbehind pos hge] at hm
      obtain ⟨c, -, rfl⟩ := Option.map_eq_some_iff.mp hm
      rfl

theorem Expanded.keep {i : Nat} {n : Node} (h : Expanded sg Pixel ci parent2Children i t)
    (hn : t[i]? = some n) (hnil : parent2Children n.pid = []) :
    Expanded sg Pixel ci parent2Children (i + 1) t where
  root := h.root
  pids := h.pids
  done pos m hpos hm := by
    rcases Nat.lt_or_ge pos i with hlt | hge
    · exact h.done pos m hlt hm
    · obtain rfl : pos = i := by omega
      obtain rfl := Option.some.inj (hn.symm.trans hm)
      rw [h.fresh pos n hge hn]
      exact nodeOk_leaf hnil
  fresh pos m hpos hm := h.fresh pos m (by omega) hm

theorem Expanded.stop {i : Nat} (h : Expanded sg Pixel ci parent2Children i t)
    (hnone : t[i]? = none) : Expanded sg Pixel ci parent2Children t.length t := by
  have hle := List.getElem?_eq_none_iff.mp hnone
  refine ⟨h.root, h.pids, fun pos n hpos => h.done pos n (by omega), fun pos n hpos hn => ?_⟩
  rw [List.getElem?_eq_none hpos] at hn
  cases hn

variable {rounds i : Nat}

theorem length_le_of_expandLoop {t' : Tree} (h : expandLoop parent2Children rounds i t = .ok t') :
    t.length ≤ t'.length := by
  induction rounds generalizing i t with
  | zero =>
    rw [expandLoop] at h
    split at h
    · exact (Except.ok.inj h) ▸ Nat.le_refl _
    · cases h
  | succ rounds ih =>
    rw [expandLoop] at h
    split at h
    · exact (Except.ok.inj h) ▸ Nat.le_refl _
    · dsimp only at h
      split at h
      · exact ih h
      · have hle := ih h
        rw [List.length_append, List.length_set] at hle
        omega

theorem Expanded.of_expandLoop (hlawful : sg.Lawful Pixel)
    (hlink : Linking sg Pixel ci [] parent2Children) {t' : Tree}
    (h : Expanded sg Pixel ci parent2Children i t)
    (hloop : expandLoop parent2Children rounds i t = .ok t') (hlength : t'.length < 2 ^ 32) :
    Expanded sg Pixel ci parent2Children t'.length t' := by
  induction rounds generalizing i t with
  | zero =>
    rw [expandLoop] at hloop
    split at hloop
    · rename_i hnone
      exact Except.ok.inj hloop ▸ h.stop hnone
    · cases hloop
  | succ rounds ih =>
    have hle := length_le_of_expandLoop hloop
    rw [expandLoop] at hloop
    split at hloop
    · rename_i hnone
      exact Except.ok.inj hloop ▸ h.stop hnone
    · rename_i n hn
      dsimp only at hloop
      by_cases hnil : parent2Children n.pid = []
      · rw [if_pos hnil] at hloop
        exact ih (h.keep hn hnil) hloop
      · rw [if_neg hnil] at hloop
        have hfits := length_le_of_expandLoop hloop
        rw [List.length_append, List.length_set, List.length_map] at hfits
        have hexpand := h.expand hlawful hlink hn rfl (by omega)
        rw [u32_of_lt (by omega), u32_of_lt (by omega)] at hloop
        exact ih hexpand hloop

theorem drop_eq_cons {i : Nat} {n : Node} (hn : t[i]? = some n) :
    t.drop i = n :: t.drop (i + 1) := by
  obtain ⟨hlt, rfl⟩ := List.getElem?_eq_some_iff.mp hn
  exact List.drop_eq_getElem_cons hlt

theorem expandLoop_returns {w : Nat → Nat} {Good : Nat → Prop}
    (hw : ∀ p, Good p → w p = 1 + ((parent2Children p).map w).sum)
    (hgood : ∀ p, Good p → ∀ c ∈ parent2Children p, Good c) (hnodes : ∀ n ∈ t.drop i, Good n.pid)
    (hrounds : ((t.drop i).map fun n => w n.pid).sum ≤ rounds) :
    ∃ t', expandLoop parent2Children rounds i t = .ok t' := by
  induction rounds generalizing i t with
  | zero =>
    rw [expandLoop]
    cases hn : t[i]? with
    | none => exact ⟨t, rfl⟩
    | some n =>
      rw [drop_eq_cons hn] at hnodes hrounds
      rw [List.map_cons, List.sum_cons, hw n.pid (hnodes n List.mem_cons_self)] at hrounds
      omega
  | succ rounds ih =>
    rw [expandLoop]
    cases hn : t[i]? with
    | none => exact ⟨t, rfl⟩
    | some n =>
      rw [drop_eq_cons hn] at hnodes hrounds
      have hn' := hnodes n List.mem_cons_self
      rw [List.map_cons, List.sum_cons, hw n.pid hn'] at hrounds
      dsimp only
      by_cases hnil : parent2Children n.pid = []
      · rw [if_pos hnil]
        refine ih (fun m hm => hnodes m (List.mem_cons_of_mem _ hm)) ?_
        rw [hnil] at hrounds
        omega
      · have hlt : i < t.length := (List.getElem?_eq_some_iff.mp hn).choose
        have hdrop : ∀ n' : Node, (t.set i n' ++ (parent2Children n.pid).map Node.leaf).drop
            (i + 1) = t.drop (i + 1) ++ (parent2Children n.pid).map Node.leaf := by
          intro n'
          rw [List.drop_append_of_le_length (by rw [List.length_set]; exact hlt),
            List.drop_set_of_lt (Nat.lt_succ_self i)]
        rw [if_neg hnil]
        refine ih ?_ ?_
        · intro m hm
          rw [hdrop] at hm
          obtain hm | hm := List.mem_append.mp hm
          · exact hnodes m (List.mem_cons_of_mem _ hm)
          · obtain ⟨c, hc, rfl⟩ := List.mem_map.mp hm
            exact hgood n.pid hn' c hc
        · have hleaf : ((parent2Children n.pid).map Node.leaf).map (fun n => w n.pid) =
              (parent2Children n.pid).map w := by
            rw [List.map_map]
            rfl
          rw [hdrop, List.map_append, List.sum_append, hleaf]
          omega

def weight (parent2Children : ParentToChildren) : Nat → Nat → Nat
  | 0, _ => 0
  | levels + 1, p => 1 + ((parent2Children p).map (weight parent2Children levels)).sum

theorem linkLoop_mono {rounds rounds' : Nat} {linked : ParentToChildren}
    (h : linkLoop sg rounds queue parent2Children = .ok linked) (hle : rounds ≤ rounds') :
    linkLoop sg rounds' queue parent2Children = .ok linked := by
  induction rounds generalizing rounds' queue parent2Children with
  | zero =>
    cases queue with
    | nil =>
      cases h
      cases rounds' <;> rfl
    | cons pid queue => cases h
  | succ rounds ih =>
    cases queue with
    | nil =>
      cases h
      cases rounds' <;> rfl
    | cons pid queue =>
      obtain ⟨rounds', rfl⟩ : ∃ n, rounds' = n + 1 := ⟨rounds' - 1, by omega⟩
      rw [linkLoop] at h ⊢
      obtain ⟨ppid, hparent, h⟩ := bind_eq_ok h
      rw [hparent, ok_bind]
      exact ih h (by omega)

def maxLevel (sg : SpatialGrid) (ci : CellInfo) : Nat := ((pixels ci).map sg.level).sum

theorem HasNode.level_le (hlawful : sg.Lawful Pixel) (hcells : Indexed sg Pixel ci) {p : Nat}
    (h : HasNode sg Pixel ci p) : sg.level p ≤ maxLevel sg ci := by
  obtain rfl | h := h
  · rw [hlawful.level_root]
    exact Nat.zero_le _
  · obtain ⟨q, hq, hcov⟩ := h.cell
    calc
      sg.level p ≤ sg.level q := hcov.level_le hlawful (hcells.pixel q hq)
      _ ≤ maxLevel sg ci := List.single_le_sum (fun _ _ => Nat.zero_le _) _ (List.mem_map_of_mem hq)

theorem Indexed.createTree_returns (hlawful : sg.Lawful Pixel) (h : Indexed sg Pixel ci) :
    ∃ enough, ∀ rounds, enough ≤ rounds → ∃ t, createTree sg ci rounds = .ok t := by
  obtain ⟨linked, hlinked⟩ := h.linking.linkLoop_spec hlawful (Nat.le_refl _)
  have hlink := h.linking.of_linkLoop hlawful hlinked
  have hchild : ∀ p, HasNode sg Pixel ci p → ∀ c ∈ linked p,
      HasNode sg Pixel ci c ∧ sg.level c = sg.level p + 1 := by
    intro p _ c hc
    obtain ⟨habove, hparent⟩ := (hlink.mem_iff hlawful).mp hc
    exact ⟨.inr habove, (hlawful.level_parent habove.pixel habove.level hparent).2⟩
  have hweight : ∀ p, HasNode sg Pixel ci p →
      weight linked (maxLevel sg ci + 1 - sg.level p) p = 1 + ((linked p).map fun c =>
        weight linked (maxLevel sg ci + 1 - sg.level c) c).sum := by
    intro p hp
    have hle := hp.level_le hlawful h
    obtain ⟨levels, hlevels⟩ : ∃ n, maxLevel sg ci + 1 - sg.level p = n + 1 :=
      ⟨maxLevel sg ci - sg.level p, by omega⟩
    rw [hlevels, weight]
    congr 2
    refine List.map_congr_left fun c hc => ?_
    have hlevel := (hchild p hp c hc).2
    have heq : maxLevel sg ci + 1 - sg.level c = levels := by omega
    rw [heq]
  refine ⟨max ((pixels ci).reverse.map fun q => sg.level q + 1).sum
    (weight linked (maxLevel sg ci + 1 - sg.level sg.rootPixelId) sg.rootPixelId),
    fun rounds hrounds => ?_⟩
  rw [createTree, linkLoop_mono hlinked (le_trans (le_max_left _ _) hrounds), ok_bind]
  refine expandLoop_returns hweight (fun p hp c hc => (hchild p hp c hc).1) ?_ ?_
  · intro n hn
    obtain rfl := List.mem_singleton.mp hn
    exact .inl rfl
  · rw [List.drop_zero, List.map_singleton, List.sum_singleton]
    exact le_trans (le_max_right _ _) hrounds

structure Built (sg : SpatialGrid) (Pixel : Nat → Prop) (ci : CellInfo)
    (parent2Children : ParentToChildren) (t : Tree) : Prop where
  linking : Linking sg Pixel ci [] parent2Children
  root : t[0]?.map Node.pid = some sg.rootPixelId
  pids : ∀ n ∈ t, HasNode sg Pixel ci n.pid
  nodes : ∀ pos n, t[pos]? = some n → NodeOk parent2Children t pos n

theorem Indexed.built (hlawful : sg.Lawful Pixel) (h : Indexed sg Pixel ci) {rounds : Nat}
    (hcreate : createTree sg ci rounds = .ok t) (hlength : t.length < 2 ^ 32) :
    ∃ linked, Built sg Pixel ci linked t := by
  obtain ⟨linked, hlinked, hexpand⟩ := bind_eq_ok hcreate
  have hlink := h.linking.of_linkLoop hlawful hlinked
  have hdone := expanded_start.of_expandLoop hlawful hlink hexpand hlength
  exact ⟨linked, hlink, hdone.root, hdone.pids, fun pos n hn =>
    hdone.done pos n (List.getElem?_eq_some_iff.mp hn).choose hn⟩

end SpatialGridInfoFromCellIndex

end Sserialize
