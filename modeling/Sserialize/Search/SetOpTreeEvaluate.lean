import Sserialize.Search.SetOpTreeBuilderCorrect
import Sserialize.Search.SetOpTreePrivateComplex

/-!
# Plain evaluation of trees

What a tree is evaluated to depends on its operations and leaves only. A new tree is evaluated to
that index, and so is one that was evaluated before.
-/

namespace Sserialize.SetOpTreePrivateComplex

variable (strCompleter : Bytes → QuerryType → ItemIndex)

def evaluate : Node → ItemIndex
  | .invalid => ItemIndex.empty
  | .complete _ str cqtype => strCompleter str cqtype
  | .external _ str ef => ef.complete str
  | .operation _ none _ _ => ItemIndex.empty
  | .operation _ (some op) left right =>
    if left.efSupport (firstOp op) then left.efApply (firstOp op) (evaluate right)
    else if right.efSupport (secondOp op) then right.efApply (secondOp op) (evaluate left)
    else ItemIndex.apply op (evaluate left) (evaluate right)

def Node.clear : Node → Node
  | .invalid => .invalid
  | .complete _ str cqtype => .complete none str cqtype
  | .external _ str ef => .external none str ef
  | .operation _ type left right => .operation none type left.clear right.clear

@[simp] theorem efSupport_clear (op : SupportedOps) (n : Node) :
    n.clear.efSupport op = n.efSupport op := by
  cases n <;> rfl

@[simp] theorem efApply_clear (op : SupportedOps) (partner : ItemIndex) (n : Node) :
    n.clear.efApply op partner = n.efApply op partner := by
  cases n <;> rfl

theorem evaluate_clear (n : Node) : evaluate strCompleter n.clear = evaluate strCompleter n := by
  induction n with
  | operation cached type left right ihl ihr =>
    cases type with
    | none => rfl
    | some op =>
      rw [Node.clear, evaluate, evaluate, ihl, ihr]
      simp only [efSupport_clear, efApply_clear]
  | _ => rfl

def Similar (n n' : Node) : Prop := n.clear = n'.clear

theorem Similar.efSupport {n n' : Node} (h : Similar n n') (op : SupportedOps) :
    n.efSupport op = n'.efSupport op := by
  rw [← efSupport_clear op n, h, efSupport_clear]

theorem Similar.efApply {n n' : Node} (h : Similar n n') (op : SupportedOps)
    (partner : ItemIndex) : n.efApply op partner = n'.efApply op partner := by
  rw [← efApply_clear op partner n, h, efApply_clear]

theorem Similar.evaluate {n n' : Node} (h : Similar n n') :
    evaluate strCompleter n = evaluate strCompleter n' := by
  rw [← evaluate_clear strCompleter n, h, evaluate_clear]

theorem Similar.operation {l l' r r' : Node} (hl : Similar l l') (hr : Similar r r')
    (cached cached' : Option ItemIndex) (type : Option SetOp) :
    Similar (.operation cached type l r) (.operation cached' type l' r') := by
  rw [Similar, Node.clear, Node.clear, hl, hr]

/-- What is known of a tree that was evaluated. Below an intersection, filters that support it may
have no index or a wrong one. -/
def Evaluated : Node → Prop
  | .invalid => True
  | .complete cached str cqtype => cached = some (strCompleter str cqtype)
  | .external cached str ef => cached = some (ef.complete str)
  | .operation cached none _ _ => cached = none
  | .operation cached (some op) left right =>
    cached = some (evaluate strCompleter (.operation none (some op) left right)) ∧
      (op = .intersect → (left.efSupport .opIntersect ∨ Evaluated left) ∧
        (right.efSupport .opIntersect ∨ Evaluated right))

def Completed (completions : Completions) (n : Node) : Prop :=
  ∀ key ∈ n.completionKeys, OrderedMap.lookup key completions = some (strCompleter key.1 key.2)

variable {strCompleter} {completions : Completions}

variable {cached : Option ItemIndex}

theorem Completed.left {type : Option SetOp} {left right : Node}
    (h : Completed strCompleter completions (.operation cached type left right)) :
    Completed strCompleter completions left :=
  fun key hkey => h key (List.mem_append_left _ hkey)

theorem Completed.right {type : Option SetOp} {left right : Node}
    (h : Completed strCompleter completions (.operation cached type left right)) :
    Completed strCompleter completions right :=
  fun key hkey => h key (List.mem_append_right _ hkey)

theorem Completed.completionAt {str : Bytes} {cqtype : QuerryType}
    (h : Completed strCompleter completions (.complete cached str cqtype)) :
    completionAt completions (str, cqtype) = .ok (strCompleter str cqtype) := by
  rw [SetOpTreePrivateComplex.completionAt, h (str, cqtype) (List.mem_singleton.mpr rfl)]

theorem recurse_evaluated {n : Node} (h : Evaluated strCompleter n) :
    doSetOperationsRecurse completions n = .ok (evaluate strCompleter n, n) := by
  cases n with
  | invalid => rfl
  | complete cached str cqtype | external cached str ef =>
    rw [Evaluated] at h
    subst h
    rfl
  | operation cached type left right =>
    cases type with
    | none =>
      rw [Evaluated] at h
      subst h
      rfl
    | some op =>
      obtain ⟨rfl, -⟩ := h
      rfl

def Recurses (strCompleter : Bytes → QuerryType → ItemIndex) (completions : Completions)
    (n : Node) : Prop :=
  ∃ n', doSetOperationsRecurse completions n = .ok (evaluate strCompleter n, n') ∧
    Similar n' n ∧ Evaluated strCompleter n'

theorem recurses_evaluated {n : Node} (h : Evaluated strCompleter n) :
    Recurses strCompleter completions n :=
  ⟨n, recurse_evaluated h, rfl, h⟩

theorem recurses_fresh {n : Node} (hfresh : n.Fresh)
    (hcompleted : Completed strCompleter completions n) :
    Recurses strCompleter completions n := by
  induction n with
  | invalid => exact ⟨.invalid, rfl, rfl, trivial⟩
  | complete cached str cqtype =>
    obtain rfl : cached = none := hfresh
    refine ⟨.complete (some (strCompleter str cqtype)) str cqtype, ?_, rfl, rfl⟩
    rw [doSetOperationsRecurse, hcompleted.completionAt]
    rfl
  | external cached str ef =>
    obtain rfl : cached = none := hfresh
    exact ⟨_, rfl, rfl, rfl⟩
  | operation cached type left right ihl ihr =>
    obtain ⟨rfl, hleft, hright⟩ := hfresh
    cases type with
    | none => exact ⟨_, rfl, rfl, rfl⟩
    | some op =>
      obtain ⟨left', hl, hleftSimilar, hleftEvaluated⟩ := ihl hleft hcompleted.left
      obtain ⟨right', hr, hrightSimilar, hrightEvaluated⟩ := ihr hright hcompleted.right
      rw [Recurses, doSetOperationsRecurse, evaluate]
      by_cases hfirst : left.efSupport (firstOp op) = true
      · rw [if_pos hfirst, if_pos hfirst, hr]
        have hsimilar := Similar.operation (rfl : Similar left left) hrightSimilar
        refine ⟨_, rfl, hsimilar _ _ _, ?_, ?_⟩
        · rw [(hsimilar none none (some op)).evaluate, evaluate, if_pos hfirst]
        · rintro rfl
          exact ⟨.inl hfirst, .inr hrightEvaluated⟩
      · rw [if_neg hfirst, if_neg hfirst]
        by_cases hsecond : right.efSupport (secondOp op) = true
        · rw [if_pos hsecond, if_pos hsecond, hl]
          have hsimilar := Similar.operation hleftSimilar (rfl : Similar right right)
          refine ⟨_, rfl, hsimilar _ _ _, ?_, ?_⟩
          · rw [(hsimilar none none (some op)).evaluate, evaluate, if_neg hfirst, if_pos hsecond]
          · rintro rfl
            exact ⟨.inr hleftEvaluated, .inl hsecond⟩
        · rw [if_neg hsecond, if_neg hsecond, hl, ok_bind]
          dsimp only
          rw [hr]
          have hsimilar := Similar.operation hleftSimilar hrightSimilar
          refine ⟨_, rfl, hsimilar _ _ _, ?_, ?_⟩
          · rw [(hsimilar none none (some op)).evaluate, evaluate, if_neg hfirst, if_neg hsecond]
          · rintro rfl
            exact ⟨.inr hleftEvaluated, .inr hrightEvaluated⟩

end Sserialize.SetOpTreePrivateComplex
