import Sserialize.Containers.DynamicBitSet
import Sserialize.ItemIndex.EliasFanoRoundTrip

namespace Sserialize

namespace EliasFanoIterator

def ofParts (lb : CompactUintArray) (lbPos : Nat) (ub : UnaryCodeIterator)
    (lastUb numLowerBits : Nat) : EliasFanoIterator :=
  { lb, lbPos, ub, lastUb, baseValue := 0, numLowerBits }

def copy (it : EliasFanoIterator) : EliasFanoIterator :=
  ofParts it.lb it.lbPos it.ub it.lastUb it.numLowerBits

end EliasFanoIterator

namespace ItemIndexPrivateEliasFano

/-- The loop of `putInto` over the ids behind the cache. -/
def writeRest : Nat → EliasFanoIterator → Except Fault (List Nat)
  | 0, _ => .ok []
  | rounds + 1, it => do
    let id ← it.get
    let ids ← writeRest rounds it.next
    return id :: ids

def putInto (idx : ItemIndexPrivateEliasFano) (c : Cache) : Except Fault (List Nat) :=
  if c.cache.length < idx.size then do
    let ids ← writeRest (idx.size - c.cache.length) c.it.copy
    return c.cache ++ ids
  else .ok c.cache

def setRest : Nat → EliasFanoIterator → DynamicBitSet → Except Fault DynamicBitSet
  | 0, _, bitSet => .ok bitSet
  | rounds + 1, it, bitSet => do
    let id ← it.get
    setRest rounds it.next (bitSet.set id)

def putIntoBitSet (idx : ItemIndexPrivateEliasFano) (c : Cache) (bitSet : DynamicBitSet) :
    Except Fault DynamicBitSet :=
  let bitSet := c.cache.foldl DynamicBitSet.set bitSet
  if c.cache.length < idx.size then setRest (idx.size - c.cache.length) c.it.copy bitSet
  else .ok bitSet

/-- The mutable members of an index and the iterators that its users hold. -/
structure Users where
  cache : Cache
  iterators : List EliasFanoIterator
  deriving Repr, DecidableEq

def Users.new (idx : ItemIndexPrivateEliasFano) : Users := { cache := .new idx, iterators := [] }

inductive Call
  | «at» (pos : Nat)
  | size
  | cbegin
  | next (k : Nat)
  | copy (k : Nat)
  | putInto
  | putIntoBitSet (bitSet : DynamicBitSet)
  deriving Repr, DecidableEq

/-- A call and what it leaves behind. The exception of `at` changes nothing; an iterator that stands
at the end may not be moved. -/
def step (idx : ItemIndexPrivateEliasFano) (s : Users) : Call → Except Fault Users
  | .at pos =>
    match idx.at s.cache pos with
    | .ok (_, cache) => .ok { s with cache }
    | .error .outOfRange => .ok s
    | .error e => .error e
  | .size => .ok s
  | .cbegin => .ok { s with iterators := s.iterators ++ [idx.cbegin] }
  | .next k =>
    match s.iterators[k]? with
    | some it =>
      if it.lbPos ≠ idx.cend.lbPos then .ok { s with iterators := s.iterators.set k it.next }
      else .error .undefinedBehaviour
    | none => .error .undefinedBehaviour
  | .copy k =>
    match s.iterators[k]? with
    | some it => .ok { s with iterators := s.iterators ++ [it.copy] }
    | none => .error .undefinedBehaviour
  | .putInto => do
    let _ ← idx.putInto s.cache
    return s
  | .putIntoBitSet bitSet => do
    let _ ← idx.putIntoBitSet s.cache bitSet
    return s

/-- `P` holds of every call of a run, in the state before the call. -/
def Always (P : Users → Call → Prop) (idx : ItemIndexPrivateEliasFano) :
    List Call → Users → Prop
  | [], _ => True
  | call :: calls, s => P s call ∧ ∀ s', idx.step s call = .ok s' → Always P idx calls s'

def remaining (idx : ItemIndexPrivateEliasFano) (it : EliasFanoIterator) :
    Except Fault (Option (List Nat)) :=
  idsFrom idx.cend (idx.size + 1) it

def Right (idx : ItemIndexPrivateEliasFano) (ids : List Nat) (s : Users) : Call → Prop
  | .at pos => (idx.at s.cache pos).map Prod.fst =
      if pos < ids.length then .ok (ids.getD pos 0) else .error .outOfRange
  | .size => idx.size = ids.length
  | .cbegin => idx.remaining idx.cbegin = .ok (some ids)
  | .next _ => True
  | .copy k => ∀ it, s.iterators[k]? = some it →
      ∃ rest, idx.remaining it = .ok (some rest) ∧ idx.remaining it.copy = .ok (some rest)
  | .putInto => idx.putInto s.cache = .ok ids
  | .putIntoBitSet bitSet => ∃ result, idx.putIntoBitSet s.cache bitSet = .ok result ∧
      ∀ x, result.isSet x = true ↔ bitSet.isSet x = true ∨ x ∈ ids

/-- The bit set hides that the ids behind the first `p` are set less by `p`. -/
def Hides (bitSet : DynamicBitSet) (ids : List Nat) (p : Nat) : Prop :=
  ∀ x ∈ ids.drop p, (bitSet.isSet x = true ∨ x + p ∈ ids.drop p) ∧
    (bitSet.isSet (x - p) = true ∨ x - p ∈ ids)

/-- A copied iterator has not been moved since it was made or stands at the end, the cache is empty
or complete when `putInto` is called. -/
def Fine (idx : ItemIndexPrivateEliasFano) (ids : List Nat) (s : Users) : Call → Prop
  | .copy k => ∀ it, s.iterators[k]? = some it → it.baseValue = 0 ∨ it.lbPos = idx.cend.lbPos
  | .putInto => s.cache.cache = [] ∨ s.cache.cache.length = idx.size
  | .putIntoBitSet bitSet => s.cache.cache = [] ∨ s.cache.cache.length = idx.size ∨
      Hides bitSet ids s.cache.cache.length
  | _ => True

theorem restore_add (a p : Nat) (ys : List Nat) :
    restore (a + p) ys = (restore a ys).map (· + p) := by
  induction ys generalizing a with
  | nil => rfl
  | cons y ys ih =>
    have hnext : a + p + 1 = a + 1 + p := by omega
    rw [restore, restore, List.map_cons, hnext, ih, Nat.add_assoc]

variable {ys : List Nat}

theorem restore_inj {a b : Nat} : restore a ys = restore b ys ↔ a = b ∨ ys = [] := by
  cases ys with
  | nil => exact ⟨fun _ => .inr rfl, fun _ => rfl⟩
  | cons y ys =>
    constructor
    · intro h
      have hhead : y + a = y + b := (List.cons_eq_cons.mp h).1
      exact .inl (Nat.add_left_cancel hhead)
    · rintro (rfl | h)
      · rfl
      · exact absurd h (List.cons_ne_nil y ys)

theorem mem_restore_zero {p x : Nat} : x ∈ restore 0 ys ↔ x + p ∈ restore p ys := by
  have hadd : restore p ys = (restore 0 ys).map (· + p) := by
    have h := restore_add 0 p ys
    rwa [Nat.zero_add] at h
  rw [hadd, List.mem_map_of_injective (add_left_injective p)]

theorem le_of_mem_restore {p x : Nat} (h : x ∈ restore p ys) : p ≤ x := by
  induction ys generalizing p with
  | nil => exact absurd h List.not_mem_nil
  | cons y ys ih =>
    rw [restore] at h
    obtain rfl | h := List.mem_cons.mp h
    · exact Nat.le_add_left p y
    · exact (Nat.le_succ p).trans (ih h)

variable {it : EliasFanoIterator}

theorem copy_get_lt {v : Nat} (h : it.copy.get = .ok v) : v < 2 ^ 32 := by
  rw [EliasFanoIterator.get] at h
  by_cases hn : it.copy.numLowerBits ≠ 0
  · rw [if_pos hn] at h
    obtain ⟨lb, -, hv⟩ := bind_eq_ok h
    rw [← Except.ok.inj hv]
    exact u32_lt _
  · rw [if_neg hn] at h
    rw [← Except.ok.inj h]
    exact u32_lt _

theorem get_eq_copy (it : EliasFanoIterator) :
    it.get = it.copy.get.map fun v => u32 (v + it.baseValue) := by
  have hsum : ∀ v, u32 (v + it.baseValue) = u32 (u32 (v + 0) + it.baseValue) := by
    intro v
    rw [u32, u32, u32, Nat.add_zero, Nat.mod_add_mod]
  rw [EliasFanoIterator.get, EliasFanoIterator.get]
  change (if it.numLowerBits ≠ 0 then _ else _) =
    Except.map _ (if it.numLowerBits ≠ 0 then _ else _)
  by_cases hn : it.numLowerBits ≠ 0
  · rw [if_pos hn, if_pos hn]
    change _ = Except.map _ (it.lb.at it.lbPos >>= _)
    cases it.lb.at it.lbPos with
    | error e => rfl
    | ok lb => exact congrArg Except.ok (hsum _)
  · rw [if_neg hn, if_neg hn]
    exact congrArg Except.ok (hsum _)

/-- The iterator stands in front of `ys` at the position `i`, but its base value is `b`. -/
structure Yields (w i b : Nat) (ys : List Nat) (it : EliasFanoIterator) : Prop where
  stands : Stands w i ys { it with baseValue := i }
  baseValue : it.baseValue = b
  le : b ≤ i

theorem Stands.yields {w i : Nat} (h : Stands w i ys it) : Yields w i i ys it := by
  have hsame : { it with baseValue := i } = it := by rw [← h.baseValue]
  exact ⟨hsame ▸ h, h.baseValue, le_rfl⟩

theorem Yields.copy {w i b : Nat} (h : Yields w i b ys it) : Yields w i 0 ys it.copy :=
  ⟨h.stands, rfl, Nat.zero_le i⟩

theorem Yields.lbPos {w i b : Nat} (h : Yields w i b ys it) : it.lbPos = i := h.stands.lbPos

section

variable {w i b y : Nat} {ys : List Nat} {it : EliasFanoIterator}

theorem Yields.get (h : Yields w i b (y :: ys) it) (hlt : y + i < 2 ^ 32) :
    it.get = .ok (y + b) := by
  have hstands := get_spec h.stands hlt
  rw [get_eq_copy] at hstands
  change it.copy.get.map (fun v => u32 (v + i)) = .ok (y + i) at hstands
  rw [get_eq_copy, h.baseValue]
  cases hget : it.copy.get with
  | error e =>
    rw [hget] at hstands
    cases hstands
  | ok v =>
    rw [hget] at hstands
    have hv := copy_get_lt hget
    have hsum : u32 (v + i) = y + i := Except.ok.inj hstands
    have heq : v = y := by
      rw [u32] at hsum
      omega
    have hle := h.le
    rw [heq]
    exact congrArg Except.ok (u32_of_lt (by omega))

theorem Yields.next (h : Yields w i b (y :: ys) it) (hys : Reduced i (y :: ys)) :
    Yields w (i + 1) (b + 1) ys it.next := by
  have hlength := hys.length
  rw [List.length_cons] at hlength
  have hle := h.le
  have hstands := next_spec h.stands hys
  have hsame : ({ it with baseValue := i } : EliasFanoIterator).next =
      { it.next with baseValue := i + 1 } := by
    have hbase : u32 (i + 1) = i + 1 := u32_of_lt (by omega)
    rw [EliasFanoIterator.next, EliasFanoIterator.next, hbase]
  refine ⟨hsame ▸ hstands, ?_, Nat.succ_le_succ hle⟩
  change u32 (it.baseValue + 1) = b + 1
  rw [h.baseValue]
  exact u32_of_lt (by omega)

theorem Yields.idsFrom {last : EliasFanoIterator} (steps : Nat) (h : Yields w i b ys it)
    (hys : Reduced i ys) (hlast : last.lbPos = i + ys.length) (hsteps : ys.length < steps) :
    idsFrom last steps it = .ok (some (restore b ys)) := by
  induction ys generalizing i b it steps with
  | nil =>
    obtain ⟨steps, rfl⟩ := Nat.exists_eq_add_of_lt hsteps
    rw [ItemIndexPrivateEliasFano.idsFrom, h.lbPos, hlast, List.length_nil, Nat.add_zero,
      if_neg (not_not.mpr rfl)]
    rfl
  | cons y ys ih =>
    rw [List.length_cons] at hlast hsteps
    obtain ⟨steps, rfl⟩ : ∃ s, steps = s + 1 := ⟨steps - 1, by omega⟩
    have hrest := ih steps (h.next hys) hys.tail (by omega) (by omega)
    rw [ItemIndexPrivateEliasFano.idsFrom, h.lbPos, hlast, if_pos (by omega),
      h.get hys.head_lt, ok_bind, hrest]
    rfl

theorem Yields.writeRest (h : Yields w i b ys it) (hys : Reduced i ys) :
    writeRest ys.length it = .ok (restore b ys) := by
  induction ys generalizing i b it with
  | nil => rfl
  | cons y ys ih =>
    rw [List.length_cons, ItemIndexPrivateEliasFano.writeRest, h.get hys.head_lt, ok_bind,
      ih (h.next hys) hys.tail]
    rfl

theorem Yields.setRest (h : Yields w i b ys it) (hys : Reduced i ys) (bitSet : DynamicBitSet) :
    setRest ys.length it bitSet = .ok ((restore b ys).foldl DynamicBitSet.set bitSet) := by
  induction ys generalizing i b it bitSet with
  | nil => rfl
  | cons y ys ih =>
    rw [List.length_cons, ItemIndexPrivateEliasFano.setRest, h.get hys.head_lt, ok_bind,
      ih (h.next hys) hys.tail]
    rfl

end

def Live (w : Nat) (ids : List Nat) (it : EliasFanoIterator) : Prop :=
  ∃ i b ys, Yields w i b ys it ∧ Reduced i ys ∧ i + ys.length = ids.length

structure Holds (w : Nat) (ids : List Nat) (s : Users) : Prop where
  cached : Cached w ids s.cache
  live : ∀ it ∈ s.iterators, Live w ids it

section

variable {nlb : Nat → Nat → Nat} {l : IdList} {code rest : Bytes}
  {idx : ItemIndexPrivateEliasFano} {w : Nat}

theorem Opens.live_cbegin (h : Opens nlb l code rest idx w) : Live w l.ids idx.cbegin := by
  refine ⟨0, 0, _, h.stands.yields, h.reduced, ?_⟩
  rw [length_reduced, Nat.zero_add]

theorem Opens.holds_new (h : Opens nlb l code rest idx w) : Holds w l.ids (.new idx) :=
  ⟨⟨_, h.ids, h.stands, h.reduced⟩, fun _ hit => absurd hit List.not_mem_nil⟩

variable {ids : List Nat}

theorem Live.copy {it : EliasFanoIterator} (h : Live w ids it) : Live w ids it.copy := by
  obtain ⟨i, b, ys, hyields, hys, hlength⟩ := h
  exact ⟨i, 0, ys, hyields.copy, hys, hlength⟩

theorem Live.next {it : EliasFanoIterator} (h : Live w ids it) (hend : it.lbPos ≠ ids.length) :
    Live w ids it.next := by
  obtain ⟨i, b, ys, hyields, hys, hlength⟩ := h
  cases ys with
  | nil => exact absurd (hyields.lbPos.trans hlength) hend
  | cons y ys =>
    refine ⟨i + 1, b + 1, ys, hyields.next hys, hys.tail, ?_⟩
    rw [List.length_cons] at hlength
    omega

theorem Holds.step (hidx : Opens nlb l code rest idx w) {s s' : Users} {call : Call}
    (h : Holds w l.ids s) (hstep : idx.step s call = .ok s') : Holds w l.ids s' := by
  cases call with
  | «at» pos =>
    by_cases hpos : pos < l.ids.length
    · obtain ⟨cache, hat, hcached⟩ := at_spec h.cached hidx.size hpos
      rw [ItemIndexPrivateEliasFano.step, hat] at hstep
      cases hstep
      exact ⟨hcached, h.live⟩
    · rw [ItemIndexPrivateEliasFano.step, ItemIndexPrivateEliasFano.at,
        if_pos (hidx.size.trans_le (Nat.not_lt.mp hpos))] at hstep
      cases hstep
      exact h
  | size =>
    cases hstep
    exact h
  | cbegin =>
    cases hstep
    refine ⟨h.cached, fun it hit => ?_⟩
    obtain hit | hit := List.mem_append.mp hit
    · exact h.live it hit
    · rw [List.mem_singleton.mp hit]
      exact hidx.live_cbegin
  | next k =>
    cases hk : s.iterators[k]? with
    | none =>
      rw [ItemIndexPrivateEliasFano.step, hk] at hstep
      cases hstep
    | some it =>
      rw [ItemIndexPrivateEliasFano.step, hk] at hstep
      dsimp only at hstep
      obtain ⟨hend, hstep⟩ := ok_of_ite hstep
      cases hstep
      have hnext := (h.live it (List.mem_of_getElem? hk)).next
        fun heq => hend (heq.trans hidx.size.symm)
      refine ⟨h.cached, fun other hother => ?_⟩
      obtain hother | rfl := List.mem_or_eq_of_mem_set hother
      · exact h.live other hother
      · exact hnext
  | copy k =>
    cases hk : s.iterators[k]? with
    | none =>
      rw [ItemIndexPrivateEliasFano.step, hk] at hstep
      cases hstep
    | some it =>
      rw [ItemIndexPrivateEliasFano.step, hk] at hstep
      cases hstep
      refine ⟨h.cached, fun other hother => ?_⟩
      obtain hother | hother := List.mem_append.mp hother
      · exact h.live other hother
      · rw [List.mem_singleton.mp hother]
        exact (h.live it (List.mem_of_getElem? hk)).copy
  | putInto | putIntoBitSet bitSet =>
    obtain ⟨_, -, hs⟩ := bind_eq_ok hstep
    cases hs
    exact h

theorem Yields.remaining {i b : Nat} {ys : List Nat} {it : EliasFanoIterator}
    (h : Yields w i b ys it) (hys : Reduced i ys) (hlength : i + ys.length = idx.size) :
    idx.remaining it = .ok (some (restore b ys)) :=
  h.idsFrom _ hys hlength.symm (by omega)

theorem copy_right_iff (hidx : Opens nlb l code rest idx w) {it : EliasFanoIterator}
    (h : Live w l.ids it) :
    (∃ rest, idx.remaining it = .ok (some rest) ∧ idx.remaining it.copy = .ok (some rest)) ↔
      it.baseValue = 0 ∨ it.lbPos = idx.cend.lbPos := by
  obtain ⟨i, b, ys, hyields, hys, hlength⟩ := h
  rw [← hidx.size] at hlength
  rw [hyields.remaining hys hlength, hyields.copy.remaining hys hlength, hyields.baseValue,
    hyields.lbPos]
  have hend : i = idx.cend.lbPos ↔ ys = [] := by
    change i = idx.size ↔ ys = []
    rw [← hlength, ← List.length_eq_zero_iff]
    omega
  rw [hend]
  constructor
  · rintro ⟨ids, hids, hcopy⟩
    have heq : restore b ys = restore 0 ys :=
      (Option.some.inj (Except.ok.inj hids)).trans (Option.some.inj (Except.ok.inj hcopy)).symm
    exact restore_inj.mp heq
  · intro h
    exact ⟨restore b ys, rfl, congrArg (fun ids => Except.ok (some ids)) (restore_inj.mpr h).symm⟩

variable {c : Cache}

theorem Cached.exists_rest (h : Cached w ids c) :
    ∃ ys, ids = c.cache ++ restore c.cache.length ys ∧ Reduced c.cache.length ys ∧
      Yields w c.cache.length 0 ys c.it.copy ∧ c.cache.length + ys.length = ids.length := by
  obtain ⟨ys, hids, hstands, hys⟩ := h
  refine ⟨ys, hids.symm, hys, hstands.yields.copy, ?_⟩
  rw [← hids, List.length_append, length_restore]

theorem Cached.putInto_eq (hidx : Opens nlb l code rest idx w) {ys : List Nat}
    (hys : Reduced c.cache.length ys) (hcopy : Yields w c.cache.length 0 ys c.it.copy)
    (hlength : c.cache.length + ys.length = l.ids.length) :
    idx.putInto c = .ok (c.cache ++ restore 0 ys) ∧ ∀ bitSet, idx.putIntoBitSet c bitSet =
      .ok ((c.cache ++ restore 0 ys).foldl DynamicBitSet.set bitSet) := by
  rw [← hidx.size] at hlength
  have hrounds : idx.size - c.cache.length = ys.length := by omega
  by_cases hlt : c.cache.length < idx.size
  · refine ⟨?_, fun bitSet => ?_⟩
    · rw [putInto, if_pos hlt, hrounds, hcopy.writeRest hys]
      rfl
    · rw [List.foldl_append, putIntoBitSet, if_pos hlt, hrounds, hcopy.setRest hys]
  · have hnil : ys = [] := List.eq_nil_of_length_eq_zero (by omega)
    rw [hnil, restore, List.append_nil]
    refine ⟨?_, fun bitSet => ?_⟩
    · rw [putInto, if_neg hlt]
    · rw [putIntoBitSet, if_neg hlt]

theorem putInto_right_iff (hidx : Opens nlb l code rest idx w) (h : Cached w l.ids c) :
    idx.putInto c = .ok l.ids ↔ c.cache = [] ∨ c.cache.length = idx.size := by
  obtain ⟨ys, hids, hys, hcopy, hlength⟩ := h.exists_rest
  have hfull : c.cache.length = idx.size ↔ ys = [] := by
    rw [hidx.size, ← hlength, ← List.length_eq_zero_iff]
    omega
  rw [(Cached.putInto_eq hidx hys hcopy hlength).1, hfull, ← List.length_eq_zero_iff,
    eq_comm (a := c.cache.length)]
  constructor
  · intro heq
    have hrest := Except.ok.inj heq
    rw [hids] at hrest
    exact restore_inj.mp (List.append_cancel_left hrest)
  · intro h
    rw [hids]
    exact congrArg (fun ids => Except.ok (c.cache ++ ids)) (restore_inj.mpr h)

theorem isSet_foldl (ids : List Nat) (bitSet : DynamicBitSet) (x : Nat) :
    (ids.foldl DynamicBitSet.set bitSet).isSet x = true ↔ bitSet.isSet x = true ∨ x ∈ ids := by
  induction ids generalizing bitSet with
  | nil => exact ⟨.inl, fun h => h.resolve_right List.not_mem_nil⟩
  | cons id ids ih =>
    rw [List.foldl_cons, ih, DynamicBitSet.isSet_set, Bool.or_eq_true, decide_eq_true_eq,
      List.mem_cons, or_comm (a := x = id), or_assoc]

/-- A bit set gets the ids exactly if the cache is empty or complete or the bit set hides the
difference. -/
theorem putIntoBitSet_right_iff (hidx : Opens nlb l code rest idx w) (h : Cached w l.ids c)
    (bitSet : DynamicBitSet) :
    (∃ result, idx.putIntoBitSet c bitSet = .ok result ∧
      ∀ x, result.isSet x = true ↔ bitSet.isSet x = true ∨ x ∈ l.ids) ↔
      c.cache = [] ∨ c.cache.length = idx.size ∨ Hides bitSet l.ids c.cache.length := by
  obtain ⟨ys, hids, hys, hcopy, hlength⟩ := h.exists_rest
  have hdrop : l.ids.drop c.cache.length = restore c.cache.length ys := by
    rw [hids, List.drop_left]
  have hsmall : ∀ x ∈ restore c.cache.length ys, x ∉ c.cache := by
    intro x hx hcache
    have hpair := l.ascending
    rw [hids] at hpair
    exact lt_irrefl x ((List.pairwise_append.mp hpair).2.2 x hcache x hx)
  have hput := (Cached.putInto_eq hidx hys hcopy hlength).2 bitSet
  have hgot : (∃ result, idx.putIntoBitSet c bitSet = .ok result ∧
      ∀ x, result.isSet x = true ↔ bitSet.isSet x = true ∨ x ∈ l.ids) ↔
      ∀ x, (bitSet.isSet x = true ∨ x ∈ c.cache ++ restore 0 ys) ↔
        (bitSet.isSet x = true ∨ x ∈ l.ids) := by
    constructor
    · rintro ⟨result, hresult, hset⟩ x
      rw [← hset x, ← isSet_foldl]
      cases hput.symm.trans hresult
      exact Iff.rfl
    · intro hset
      exact ⟨_, hput, fun x => (isSet_foldl _ _ x).trans (hset x)⟩
  rw [hgot]
  constructor
  · intro hset
    right
    right
    intro x hx
    rw [hdrop] at hx ⊢
    have hle := le_of_mem_restore hx
    constructor
    · have hmem : x ∈ l.ids := by
        rw [hids]
        exact List.mem_append_right _ hx
      obtain hold | hnew := (hset x).mpr (.inr hmem)
      · exact .inl hold
      · obtain hcache | hrest := List.mem_append.mp hnew
        · exact absurd hcache (hsmall x hx)
        · exact .inr (mem_restore_zero.mp hrest)
    · have hshifted : x - c.cache.length ∈ restore 0 ys :=
        mem_restore_zero.mpr (by rwa [Nat.sub_add_cancel hle])
      exact (hset _).mp (.inr (List.mem_append_right _ hshifted))
  · rintro (hnil | hfull | hhides) x
    · rw [hids, hnil]
      exact Iff.rfl
    · have hys : ys = [] := List.eq_nil_of_length_eq_zero (by
        rw [hidx.size] at hfull
        omega)
      rw [hids, hys]
      exact Iff.rfl
    · rw [hids]
      constructor
      · rintro (hold | hnew)
        · exact .inl hold
        · obtain hcache | hrest := List.mem_append.mp hnew
          · exact .inr (List.mem_append_left _ hcache)
          · have hmem := mem_restore_zero (p := c.cache.length).mp hrest
            have hget := (hhides _ (hdrop ▸ hmem)).2
            rw [Nat.add_sub_cancel, hids] at hget
            exact hget
      · rintro (hold | hmem)
        · exact .inl hold
        · obtain hcache | hrest := List.mem_append.mp hmem
          · exact .inr (List.mem_append_left _ hcache)
          · obtain hold | hnext := (hhides x (hdrop ▸ hrest)).1
            · exact .inl hold
            · rw [hdrop] at hnext
              exact .inr (List.mem_append_right _ (mem_restore_zero.mpr hnext))

theorem right_iff_fine (hidx : Opens nlb l code rest idx w) {s : Users} (h : Holds w l.ids s)
    (call : Call) : Right idx l.ids s call ↔ Fine idx l.ids s call := by
  cases call with
  | «at» pos =>
    refine iff_of_true ?_ trivial
    by_cases hpos : pos < l.ids.length
    · obtain ⟨cache, hat, -⟩ := at_spec h.cached hidx.size hpos
      rw [Right, hat, if_pos hpos]
      rfl
    · rw [Right, if_neg hpos, ItemIndexPrivateEliasFano.at,
        if_pos (hidx.size.trans_le (Nat.not_lt.mp hpos))]
      rfl
  | size => exact iff_of_true hidx.size trivial
  | cbegin =>
    refine iff_of_true ?_ trivial
    have hlength : 0 + (reduced 0 l.ids).length = idx.size := by
      rw [length_reduced, Nat.zero_add, hidx.size]
    rw [Right, hidx.stands.yields.remaining hidx.reduced hlength, hidx.ids]
  | next k => exact Iff.rfl
  | copy k =>
    constructor
    · intro hright it hit
      exact (copy_right_iff hidx (h.live it (List.mem_of_getElem? hit))).mp (hright it hit)
    · intro hfine it hit
      exact (copy_right_iff hidx (h.live it (List.mem_of_getElem? hit))).mpr (hfine it hit)
  | putInto => exact putInto_right_iff hidx h.cached
  | putIntoBitSet bitSet => exact putIntoBitSet_right_iff hidx h.cached bitSet

theorem always_right_iff_fine (hidx : Opens nlb l code rest idx w) {s : Users}
    (h : Holds w l.ids s) (calls : List Call) :
    Always (Right idx l.ids) idx calls s ↔ Always (Fine idx l.ids) idx calls s := by
  induction calls generalizing s with
  | nil => exact Iff.rfl
  | cons call calls ih =>
    apply and_congr (right_iff_fine hidx h call)
    apply forall₂_congr
    intro s' hstep
    exact ih (h.step hidx hstep)

end

theorem exists_opens {nlb : Nat → Nat → Nat} (hnlb : Chooses nlb) {l : IdList}
    {dest code rest : Bytes} {idx : ItemIndexPrivateEliasFano}
    (hcreate : create nlb l.ids dest = (.ok (), dest ++ code))
    (hopen : ofData nlb (code ++ rest) = .ok idx) : ∃ w, Opens nlb l code rest idx w := by
  have hlen : l.ids.length < 2 ^ 32 := by
    by_contra hle
    have hnarrow := narrowCheck32_of_le (Nat.not_lt.mp hle)
    rw [create, hnarrow] at hcreate
    cases hcreate
  have hbound : l.ids.getLastD 0 - (l.ids.length - 1) ≤ 2 ^ 31 := by
    by_contra hlt
    rw [create_of_lt nlb l dest hlen (Nat.not_le.mp hlt)] at hcreate
    cases hcreate
  obtain ⟨code', hcreate', hopens⟩ := create_opens hnlb l dest hlen hbound
  have hcode : code' = code :=
    List.append_cancel_left (Prod.mk.inj (hcreate'.symm.trans hcreate)).2
  obtain ⟨idx', w, h⟩ := hopens rest
  rw [hcode] at h
  cases h.opens.symm.trans hopen
  exact ⟨w, h⟩

/-- In every run of calls the iterators and `putInto` yield the ids exactly if no moved iterator is
copied in front of an id and no `putInto` meets a partly filled cache. -/
theorem copies_right_iff {nlb : Nat → Nat → Nat} (hnlb : Chooses nlb) {l : IdList}
    {dest code rest : Bytes} {idx : ItemIndexPrivateEliasFano}
    (hcreate : create nlb l.ids dest = (.ok (), dest ++ code))
    (hopen : ofData nlb (code ++ rest) = .ok idx) (calls : List Call) :
    Always (Right idx l.ids) idx calls (.new idx) ↔
      Always (Fine idx l.ids) idx calls (.new idx) := by
  obtain ⟨w, hidx⟩ := exists_opens hnlb hcreate hopen
  exact always_right_iff_fine hidx hidx.holds_new calls

def twoIds : IdList := ⟨[3, 7], by simp, by simp⟩

def twoCode : Bytes := [2, 3, 11, 1, 160]

def twoIndex : ItemIndexPrivateEliasFano where
  d := twoCode
  size := 2
  lowerBits := { data := [11, 1, 160], bpn := 2, maxCount := 2 }
  upperBits := { d := [160], pos := 1, last := 0, lastChunk := 160, chunkBitPtr := 64 }

theorem copies_right_iff_two :
    Always (Right twoIndex [3, 7]) twoIndex [.cbegin, .next 0, .copy 0, .at 0, .putInto]
        (.new twoIndex) ↔
      Always (Fine twoIndex [3, 7]) twoIndex [.cbegin, .next 0, .copy 0, .at 0, .putInto]
        (.new twoIndex) :=
  have hcreate : create numLowerBits twoIds.ids [] = (.ok (), [] ++ twoCode) := by decide
  have hopen : ofData numLowerBits (twoCode ++ []) = .ok twoIndex := by decide
  copies_right_iff chooses_numLowerBits hcreate hopen _

/-- The copy of an iterator in front of the second id yields 6, and so does `putInto` when the first
id is in the cache. -/
theorem not_copies_right_two :
    create numLowerBits [3, 7] [] = (.ok (), twoCode) ∧
      ofData numLowerBits twoCode = .ok twoIndex ∧
      ¬ Always (Right twoIndex [3, 7]) twoIndex [.cbegin, .next 0, .copy 0] (.new twoIndex) ∧
      ¬ Always (Right twoIndex [3, 7]) twoIndex [.at 0, .putInto] (.new twoIndex) := by
  refine ⟨by decide, by decide, fun h => ?_, fun h => ?_⟩
  · obtain ⟨rest, hrest, hcopy⟩ := ((h.2 _ rfl).2 _ rfl).1 twoIndex.cbegin.next rfl
    have heq : twoIndex.remaining twoIndex.cbegin.next =
        twoIndex.remaining twoIndex.cbegin.next.copy := hrest.trans hcopy.symm
    exact absurd heq (by decide)
  · have hput : twoIndex.putInto ⟨twoIndex.cbegin.next, [3]⟩ = .ok [3, 7] := (h.2 _ rfl).1
    exact absurd hput (by decide)

end ItemIndexPrivateEliasFano

end Sserialize
