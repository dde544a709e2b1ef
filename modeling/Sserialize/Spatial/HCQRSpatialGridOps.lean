import Sserialize.Spatial.HCQRSpatialGrid

namespace Sserialize

namespace HCQRSpatialGrid

abbrev Op (α : Type) := List ItemIndex → Except Fault (α × List ItemIndex)

def noNode : Op (Option TreeNode) := fun dest => .ok (none, dest)

def someNode (x : Op TreeNode) : Op (Option TreeNode) := fun dest => do
  let (t, dest) ← x dest
  return (some t, dest)

/-- `if (x) rptr->children().emplace_back(std::move(x))`, before the rest of a loop. -/
def pushNode (x : Op (Option TreeNode)) (xs : Op (List TreeNode)) : Op (List TreeNode) :=
  fun dest => do
    let (t, dest) ← x dest
    let (ts, dest) ← xs dest
    return (t.toList ++ ts, dest)

def eachNode : (cs : List TreeNode) → (∀ c ∈ cs, Op (Option TreeNode)) → Op (List TreeNode)
  | [], _ => fun dest => .ok ([], dest)
  | c :: cs, each =>
    pushNode (each c List.mem_cons_self)
      (eachNode cs fun c hc => each c (List.mem_cons_of_mem _ hc))

def mergeNodes (onlyFirst onlySecond : TreeNode → Op (Option TreeNode)) :
    (fs ss : List TreeNode) → (∀ f ∈ fs, ∀ s ∈ ss, Op (Option TreeNode)) → Op (List TreeNode)
  | [], ss, _ => eachNode ss fun s _ => onlySecond s
  | f :: fs, [], _ => eachNode (f :: fs) fun f _ => onlyFirst f
  | f :: fs, s :: ss, both =>
    if f.pixelId < s.pixelId then
      pushNode (onlyFirst f)
        (mergeNodes onlyFirst onlySecond fs (s :: ss) fun x hx y hy =>
          both x (List.mem_cons_of_mem _ hx) y hy)
    else if f.pixelId > s.pixelId then
      pushNode (onlySecond s)
        (mergeNodes onlyFirst onlySecond (f :: fs) ss fun x hx y hy =>
          both x hx y (List.mem_cons_of_mem _ hy))
    else
      pushNode (both f List.mem_cons_self s List.mem_cons_self)
        (mergeNodes onlyFirst onlySecond fs ss fun x hx y hy =>
          both x (List.mem_cons_of_mem _ hx) y (List.mem_cons_of_mem _ hy))

def mergePids (virt : Nat → Op (Option TreeNode)) :
    (cs : List TreeNode) → (pids : List Nat) → (∀ c ∈ cs, Op (Option TreeNode)) →
      Op (List TreeNode)
  | _, [], _ => fun dest => .ok ([], dest)
  | [], pid :: pids, each => pushNode (virt pid) (mergePids virt [] pids each)
  | c :: cs, pid :: pids, each =>
    if pid < c.pixelId then pushNode (virt pid) (mergePids virt (c :: cs) pids each)
    else
      pushNode (each c List.mem_cons_self)
        (mergePids virt cs pids fun c hc => each c (List.mem_cons_of_mem _ hc))

theorem sizeOf_lt_of_mem_children {c t : TreeNode} (h : c ∈ t.children) : sizeOf c < sizeOf t := by
  cases t with
  | node p f i cs =>
    have hlt := List.sizeOf_lt_of_mem (show c ∈ cs from h)
    simp +arith only [TreeNode.node.sizeOf_spec]
    omega

variable (sp : Space)

/-- `deepCopy` of a node of the operand with the fetched indices `src`. -/
def deepCopy (src : List ItemIndex) (node : TreeNode) : Op TreeNode := fun dest =>
  if node.isInternal then do
    let (cs, dest) ← eachNode node.children (fun c _ => someNode (deepCopy src c)) dest
    return (.node node.pixelId node.flags node.itemIndexId cs, dest)
  else if node.isFetched then do
    let idx ← items sp src node
    return (.node node.pixelId node.flags dest.length [], dest ++ [idx])
  else .ok (node, dest)
termination_by sizeOf node
decreasing_by exact sizeOf_lt_of_mem_children ‹_›

def resultPixelId (first second : TreeNode) : Except Fault Nat :=
  if first.pixelId = second.pixelId then .ok first.pixelId
  else if sp.sg.isAncestor first.pixelId second.pixelId then .ok second.pixelId
  else if sp.sg.isAncestor second.pixelId first.pixelId then .ok first.pixelId
  else .error .domainError

def pixelChildren (pid : Nat) : Except Fault (List Nat) := do
  let result ← (List.range (sp.sg.childrenCount pid)).mapM (sp.sg.index pid)
  return result.insertionSort (· ≤ ·)

def fullLeaf (p : Nat) : TreeNode := .node p IS_FULL_MATCH npos []

def fetchedLeaf (p : Nat) (result : ItemIndex) : Op TreeNode := fun dest =>
  .ok (.node p IS_FETCHED dest.length [], dest ++ [result])

def fetchedLeaf? (p : Nat) (result : ItemIndex) : Op (Option TreeNode) :=
  if result.size ≠ 0 then someNode (fetchedLeaf p result) else noNode

def virtLeaf (nodeItems : ItemIndex) (pid : Nat) : Op (Option TreeNode) :=
  fetchedLeaf? pid (ItemIndex.apply .intersect nodeItems (sp.sgi.items pid))

def internalNode? (p : Nat) (children : List TreeNode) : Option TreeNode :=
  if children.isEmpty then none else some (.node p IS_INTERNAL npos children)

variable (firstFetched secondFetched : List ItemIndex)

def intersectNodes (firstNode secondNode : TreeNode) : Op (Option TreeNode) := fun dest =>
  if firstNode.isFullMatch && secondNode.isFullMatch then do
    let p ← resultPixelId sp firstNode secondNode
    return (some (fullLeaf p), dest)
  else if firstNode.isFullMatch && secondNode.isInternal then
    someNode (deepCopy sp secondFetched secondNode) dest
  else if secondNode.isFullMatch && firstNode.isInternal then
    someNode (deepCopy sp firstFetched firstNode) dest
  else if firstNode.isLeaf && secondNode.isLeaf then do
    let firstItems ← items sp firstFetched firstNode
    let secondItems ← items sp secondFetched secondNode
    let p ← resultPixelId sp firstNode secondNode
    fetchedLeaf? p (ItemIndex.apply .intersect firstItems secondItems) dest
  else do
    let p ← resultPixelId sp firstNode secondNode
    let (children, dest) ←
      if firstNode.isInternal && secondNode.isInternal then
        mergeNodes (fun _ => noNode) (fun _ => noNode) firstNode.children secondNode.children
          (fun f _ s _ => intersectNodes f s) dest
      else if firstNode.isInternal then
        eachNode firstNode.children (fun f _ => intersectNodes f secondNode) dest
      else eachNode secondNode.children (fun s _ => intersectNodes firstNode s) dest
    return (internalNode? p children, dest)
termination_by sizeOf firstNode + sizeOf secondNode
decreasing_by
  · have hf := sizeOf_lt_of_mem_children ‹f ∈ _›
    have hs := sizeOf_lt_of_mem_children ‹s ∈ _›
    omega
  · have hf := sizeOf_lt_of_mem_children ‹f ∈ _›
    omega
  · have hs := sizeOf_lt_of_mem_children ‹s ∈ _›
    omega

/-- `operator+` of two leaves that do not match in full. -/
def uniteLeaves (firstNode secondNode : TreeNode) : Except Fault ItemIndex := do
  let x ← items sp firstFetched firstNode
  let y ← items sp secondFetched secondNode
  if sp.sg.level firstNode.pixelId = sp.sg.level secondNode.pixelId then
    return ItemIndex.apply .unite x y
  else if sp.sg.level firstNode.pixelId < sp.sg.level secondNode.pixelId then
    return ItemIndex.apply .unite
      (ItemIndex.apply .intersect x (sp.sgi.items secondNode.pixelId)) y
  else
    return ItemIndex.apply .unite x
      (ItemIndex.apply .intersect y (sp.sgi.items firstNode.pixelId))

def uniteNodes (firstNode secondNode : TreeNode) : Op TreeNode := fun dest =>
  if firstNode.isFullMatch then .ok (fullLeaf firstNode.pixelId, dest)
  else if secondNode.isFullMatch then .ok (fullLeaf secondNode.pixelId, dest)
  else if firstNode.isLeaf && secondNode.isLeaf then do
    let result ← uniteLeaves sp firstFetched secondFetched firstNode secondNode
    let p ← resultPixelId sp firstNode secondNode
    fetchedLeaf p result dest
  else do
    let p ← resultPixelId sp firstNode secondNode
    let (children, dest) ←
      if firstNode.isInternal && secondNode.isInternal then
        mergeNodes (fun f => someNode (deepCopy sp firstFetched f))
          (fun s => someNode (deepCopy sp secondFetched s)) firstNode.children secondNode.children
          (fun f _ s _ => someNode (uniteNodes f s)) dest
      else if firstNode.isInternal then do
        let virtSecondPids ← pixelChildren sp firstNode.pixelId
        let secondNodeItems ← items sp secondFetched secondNode
        mergePids (virtLeaf sp secondNodeItems) firstNode.children virtSecondPids
          (fun f _ => someNode (uniteNodes f secondNode)) dest
      else do
        let virtFirstPids ← pixelChildren sp secondNode.pixelId
        let firstNodeItems ← items sp firstFetched firstNode
        mergePids (virtLeaf sp firstNodeItems) secondNode.children virtFirstPids
          (fun s _ => someNode (uniteNodes firstNode s)) dest
    return (.node p IS_INTERNAL npos children, dest)
termination_by sizeOf firstNode + sizeOf secondNode
decreasing_by
  · have hf := sizeOf_lt_of_mem_children ‹f ∈ _›
    have hs := sizeOf_lt_of_mem_children ‹s ∈ _›
    omega
  · have hf := sizeOf_lt_of_mem_children ‹f ∈ _›
    omega
  · have hs := sizeOf_lt_of_mem_children ‹s ∈ _›
    omega

def subtractLeaves (firstNode secondNode : TreeNode) : Except Fault ItemIndex := do
  let y ← items sp secondFetched secondNode
  if sp.sg.level firstNode.pixelId = sp.sg.level secondNode.pixelId then
    let x ← items sp firstFetched firstNode
    return ItemIndex.apply .difference x y
  else if sp.sg.level firstNode.pixelId < sp.sg.level secondNode.pixelId then
    if firstNode.isFullMatch then
      return ItemIndex.apply .difference (sp.sgi.items secondNode.pixelId) y
    else do
      let x ← items sp firstFetched firstNode
      return ItemIndex.apply .difference
        (ItemIndex.apply .intersect x (sp.sgi.items secondNode.pixelId)) y
  else do
    let x ← items sp firstFetched firstNode
    return ItemIndex.apply .difference x
      (ItemIndex.apply .intersect y (sp.sgi.items firstNode.pixelId))

/-- `operator-` of two nodes. An empty difference of two leaves is pushed as well: the leaf that is
dropped for it is replaced at once. -/
def subtractNodes (firstNode secondNode : TreeNode) : Op (Option TreeNode) := fun dest =>
  if secondNode.isFullMatch &&
      sp.sg.level firstNode.pixelId ≥ sp.sg.level secondNode.pixelId then .ok (none, dest)
  else if firstNode.isLeaf && secondNode.isLeaf then do
    let result ← subtractLeaves sp firstFetched secondFetched firstNode secondNode
    let p ← resultPixelId sp firstNode secondNode
    someNode (fetchedLeaf p result) dest
  else do
    let p ← resultPixelId sp firstNode secondNode
    let (children, dest) ←
      if firstNode.isInternal && secondNode.isInternal then
        mergeNodes (fun f => someNode (deepCopy sp firstFetched f)) (fun _ => noNode)
          firstNode.children secondNode.children (fun f _ s _ => subtractNodes f s) dest
      else if firstNode.isInternal then
        eachNode firstNode.children (fun f _ => subtractNodes f secondNode) dest
      else do
        let virtFirstPids ← pixelChildren sp secondNode.pixelId
        if firstNode.isFullMatch then
          mergePids (fun pid => someNode fun dest => .ok (fullLeaf pid, dest)) secondNode.children
            virtFirstPids (fun s _ => subtractNodes firstNode s) dest
        else do
          let firstNodeItems ← items sp firstFetched firstNode
          mergePids (virtLeaf sp firstNodeItems) secondNode.children virtFirstPids
            (fun s _ => subtractNodes firstNode s) dest
    return (internalNode? p children, dest)
termination_by sizeOf firstNode + sizeOf secondNode
decreasing_by
  · have hf := sizeOf_lt_of_mem_children ‹f ∈ _›
    have hs := sizeOf_lt_of_mem_children ‹s ∈ _›
    omega
  · have hf := sizeOf_lt_of_mem_children ‹f ∈ _›
    omega
  · have hs := sizeOf_lt_of_mem_children ‹s ∈ _›
    omega
  · have hs := sizeOf_lt_of_mem_children ‹s ∈ _›
    omega

end HCQRSpatialGrid

open HCQRSpatialGrid

def HCQRSpatialGrid.combine (nodes : TreeNode → TreeNode → Op (Option TreeNode))
    (first second : HCQRSpatialGrid) : Except Fault HCQRSpatialGrid :=
  match first.root, second.root with
  | some firstRoot, some secondRoot => do
    let (root, fetchedItems) ← nodes firstRoot secondRoot []
    return ⟨root, fetchedItems⟩
  | _, _ => .ok ⟨none, []⟩

def HCQRSpatialGrid.intersect (sp : Space) (first second : HCQRSpatialGrid) :
    Except Fault HCQRSpatialGrid :=
  combine (intersectNodes sp first.fetchedItems second.fetchedItems) first second

def HCQRSpatialGrid.unite (sp : Space) (first second : HCQRSpatialGrid) :
    Except Fault HCQRSpatialGrid :=
  combine (fun f s => someNode (uniteNodes sp first.fetchedItems second.fetchedItems f s))
    first second

def HCQRSpatialGrid.subtract (sp : Space) (first second : HCQRSpatialGrid) :
    Except Fault HCQRSpatialGrid :=
  combine (subtractNodes sp first.fetchedItems second.fetchedItems) first second

end Sserialize
