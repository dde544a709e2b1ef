import Mathlib.Data.List.Forall2
import Sserialize.Containers.OOMArray

namespace Sserialize

variable {TValue : Type}

namespace FileHandler

variable [Inhabited TValue]

theorem pwrite_of_le {file src : List TValue} {offset : Nat} (h : offset ≤ file.length) :
    pwrite file src offset = file.take offset ++ src ++ file.drop (offset + src.length) := by
  rw [pwrite]
  split
  · rename_i hnil
    rw [hnil, List.append_nil, List.length_nil, Nat.add_zero, List.take_append_drop]
  · rw [Nat.sub_eq_zero_of_le h, List.replicate_zero, List.append_nil]

theorem pwrite_end (file src : List TValue) : pwrite file src file.length = file ++ src := by
  rw [pwrite_of_le (Nat.le_refl _), List.take_length, List.drop_of_length_le (by omega),
    List.append_nil]

theorem pwrite_singleton {file : List TValue} {pos : Nat} (v : TValue) (h : pos < file.length) :
    pwrite file [v] pos = file.set pos v := by
  rw [pwrite_of_le (Nat.le_of_lt h), List.set_eq_take_append_cons_drop, if_pos h,
    List.append_assoc]
  rfl

theorem length_pwrite {file src : List TValue} {offset : Nat} (h : offset ≤ file.length) :
    (pwrite file src offset).length = max file.length (offset + src.length) := by
  rw [pwrite_of_le h]
  simp only [List.length_append, List.length_take, List.length_drop]
  omega

theorem ftruncate_of_le {file : List TValue} {newSize : Nat} (h : newSize ≤ file.length) :
    ftruncate file newSize = file.take newSize := by
  rw [ftruncate, Nat.sub_eq_zero_of_le h, List.replicate_zero, List.append_nil]

theorem pwrite_pwrite {file front back : List TValue} {offset : Nat} (h : offset ≤ file.length) :
    pwrite (pwrite file front offset) back (offset + front.length) =
      pwrite file (front ++ back) offset := by
  have hlen : offset + front.length ≤ (pwrite file front offset).length := by
    rw [length_pwrite h]
    exact Nat.le_max_right _ _
  have hfront : (file.take offset ++ front).length = offset + front.length := by
    rw [List.length_append, List.length_take, Nat.min_eq_left h]
  rw [pwrite_of_le hlen, pwrite_of_le h, pwrite_of_le h, List.take_left' hfront,
    ← List.drop_drop, List.drop_left' hfront, List.drop_drop, List.length_append, Nat.add_assoc,
    List.append_assoc (file.take offset)]

end FileHandler

namespace OOMArray

/-- The array holds the elements of the list, and the back buffer is not larger than it may be. -/
structure Represents (sizeof : Nat) (a : OOMArray TValue) (l : List TValue) : Prop where
  begin : a.file.length = a.backBufferBegin
  contents : a.file ++ a.backBuffer = l
  space : a.backBuffer.length ≤ a.backBufferSize
  bound : a.backBufferSize * sizeof < 2 ^ 64

variable {sizeof : Nat}

theorem Represents.size_eq {a : OOMArray TValue} {l : List TValue} (h : Represents sizeof a l) :
    a.size = l.length := by
  rw [size, ← h.begin, ← h.contents, List.length_append]

theorem represents_ofFile (file : List TValue) :
    Represents sizeof (ofFile sizeof file) file := by
  refine ⟨rfl, List.append_nil file, Nat.zero_le _, ?_⟩
  exact Nat.lt_of_le_of_lt (Nat.div_mul_le_self (1024 * 1024) sizeof) (by decide)

theorem Represents.setReadBufferSize {a : OOMArray TValue} {l : List TValue}
    (h : Represents sizeof a l) (s : Nat) : Represents sizeof (a.setReadBufferSize sizeof s) l :=
  ⟨h.begin, h.contents, h.space, h.bound⟩

section

variable [Inhabited TValue]

variable {a : OOMArray TValue}

theorem flush_eq (h : a.file.length = a.backBufferBegin) :
    a.flush = { a with
      file := a.file ++ a.backBuffer,
      backBufferBegin := a.backBufferBegin + a.backBuffer.length,
      backBuffer := [] } := by
  rw [flush]
  split
  · rw [← h, FileHandler.pwrite_end]
  · rename_i hempty
    have hnil := List.eq_nil_of_length_eq_zero (not_not.mp hempty)
    rw [hnil, List.append_nil, List.length_nil, Nat.add_zero, ← hnil]

variable {l : List TValue}

theorem represents_flush (hbegin : a.file.length = a.backBufferBegin)
    (hcontents : a.file ++ a.backBuffer = l) (hbound : a.backBufferSize * sizeof < 2 ^ 64) :
    Represents sizeof a.flush l ∧ a.flush.file = l ∧ a.flush.backBuffer = [] := by
  rw [flush_eq hbegin]
  refine ⟨⟨?_, ?_, Nat.zero_le _, hbound⟩, hcontents, rfl⟩
  · rw [List.length_append, hbegin]
  · rw [List.append_nil]
    exact hcontents

theorem Represents.flush (h : Represents sizeof a l) : Represents sizeof a.flush l :=
  (represents_flush h.begin h.contents h.bound).1

theorem Represents.setBackBufferSize (h : Represents sizeof a l) {s : Nat} (hs : s < 2 ^ 64) :
    Represents sizeof (a.setBackBufferSize sizeof s) l := by
  have hbound : s / sizeof * sizeof < 2 ^ 64 :=
    Nat.lt_of_le_of_lt (Nat.div_mul_le_self s sizeof) hs
  rw [OOMArray.setBackBufferSize]
  dsimp only
  split
  · exact (represents_flush (a := { a with backBufferSize := s / sizeof }) h.begin h.contents
      hbound).1
  · rename_i hempty
    refine ⟨h.begin, h.contents, ?_, hbound⟩
    rw [not_not.mp hempty]
    exact Nat.zero_le _

theorem Represents.cut (h : Represents sizeof a l) {newSize : Nat} (hsize : newSize ≤ l.length) :
    Represents sizeof { a.flush with
      file := FileHandler.ftruncate a.flush.file newSize, backBufferBegin := newSize }
      (l.take newSize) := by
  obtain ⟨hflush, hfile, hempty⟩ := represents_flush h.begin h.contents h.bound
  rw [hfile, FileHandler.ftruncate_of_le hsize]
  refine ⟨?_, ?_, hflush.space, hflush.bound⟩
  · rw [List.length_take, Nat.min_eq_left hsize]
  · rw [hempty, List.append_nil]

theorem Represents.clear (h : Represents sizeof a l) : Represents sizeof a.clear [] := by
  refine ⟨?_, ?_, Nat.zero_le _, h.bound⟩
  · simp [OOMArray.clear, FileHandler.ftruncate]
  · simp [OOMArray.clear, FileHandler.ftruncate]

theorem Represents.set (h : Represents sizeof a l) {pos : Nat} (v : TValue)
    (hpos : pos < l.length) : ∃ a', a.set pos v = .ok a' ∧ Represents sizeof a' (l.set pos v) := by
  have hlen : l.length = a.backBufferBegin + a.backBuffer.length := by
    rw [← h.size_eq, size]
  rw [OOMArray.set]
  by_cases hfile : pos < a.backBufferBegin
  · rw [if_pos hfile]
    rw [← h.begin] at hfile
    refine ⟨_, rfl, ?_, ?_, h.space, h.bound⟩
    · rw [FileHandler.pwrite_singleton v hfile, List.length_set]
      exact h.begin
    · rw [FileHandler.pwrite_singleton v hfile, ← h.contents,
        List.set_append_left _ _ hfile]
  · rw [if_neg hfile, if_pos (by omega)]
    refine ⟨_, rfl, h.begin, ?_, ?_, h.bound⟩
    · rw [← h.contents, List.set_append_right _ _ (by rw [h.begin]; omega), h.begin]
    · rw [List.length_set]
      exact h.space

theorem Represents.append (h : Represents sizeof a l) (src : List TValue) :
    Represents sizeof
      (if a.backBuffer.length + src.length ≥ a.backBufferSize then
        ({ a with backBuffer := a.backBuffer ++ src } : OOMArray TValue).flush
      else { a with backBuffer := a.backBuffer ++ src }) (l ++ src) := by
  have hcontents : a.file ++ (a.backBuffer ++ src) = l ++ src := by
    rw [← List.append_assoc, h.contents]
  split
  · exact (represents_flush (a := { a with backBuffer := a.backBuffer ++ src }) h.begin hcontents
      h.bound).1
  · refine ⟨h.begin, hcontents, ?_, h.bound⟩
    dsimp only
    rw [List.length_append]
    omega

theorem Represents.pushBack (h : Represents sizeof a l) (v : TValue) :
    Represents sizeof (a.pushBack v) (l ++ [v]) := by
  have happend := h.append [v]
  rw [OOMArray.pushBack]
  rwa [← List.length_append] at happend

theorem Represents.pushBackLoop (h : Represents sizeof a l) (v : TValue) (rounds : Nat) :
    Represents sizeof (a.pushBackLoop v rounds) (l ++ List.replicate rounds v) := by
  induction rounds generalizing a l with
  | zero => simpa [OOMArray.pushBackLoop] using h
  | succ rounds ih =>
    have hrest := ih (h.pushBack v)
    rwa [List.append_assoc, List.singleton_append, ← List.replicate_succ] at hrest

theorem Represents.resize (h : Represents sizeof a l) (newSize : Nat) (v : TValue) :
    Represents sizeof (a.resize newSize v)
      (l.take newSize ++ List.replicate (newSize - l.length) v) := by
  rw [OOMArray.resize, h.size_eq]
  split
  · rename_i hle
    rw [Nat.sub_eq_zero_of_le hle, List.replicate_zero, List.append_nil]
    exact h.cut hle
  · rename_i hlt
    rw [List.take_of_length_le (by omega)]
    exact h.pushBackLoop v _

theorem replaceLoop_eq {myBufferSize : Nat} (hpos : 0 < myBufferSize) (rounds : Nat)
    {src file : List TValue} {offset : Nat} (hrounds : src.length ≤ rounds)
    (hoffset : offset ≤ file.length) :
    replaceLoop myBufferSize rounds src offset file =
      (FileHandler.pwrite file src offset, offset + src.length) := by
  induction rounds generalizing src offset file with
  | zero =>
    obtain rfl := List.eq_nil_of_length_eq_zero (Nat.le_zero.mp hrounds)
    rfl
  | succ rounds ih =>
    rw [replaceLoop]
    split
    · rename_i hnil
      rw [hnil]
      rfl
    · dsimp only
      rw [ih (by rw [List.length_drop]; omega) (by
        rw [FileHandler.length_pwrite hoffset]
        exact Nat.le_max_right _ _), FileHandler.pwrite_pwrite hoffset, List.take_append_drop,
        Nat.add_assoc, ← List.length_append, List.take_append_drop]

theorem replaceWithoutFlush_eq (contiguous : Bool) {position : Nat} (src : List TValue)
    (hposition : position ≤ a.file.length) :
    a.replaceWithoutFlush sizeof contiguous position src =
      ({ a with file := FileHandler.pwrite a.file src position }, position + src.length) := by
  rw [replaceWithoutFlush]
  split
  · rfl
  · dsimp only
    rw [replaceLoop_eq (by omega) _ (Nat.le_refl _) hposition]

def overwrite (l : List TValue) (position : Nat) (src : List TValue) : List TValue :=
  l.take position ++ src ++ l.drop (position + src.length)

theorem Represents.replace (h : Represents sizeof a l) (contiguous : Bool) {position : Nat}
    (src : List TValue) (hposition : position ≤ l.length) :
    Represents sizeof (a.replace sizeof contiguous position src).1 (overwrite l position src) ∧
      (a.replace sizeof contiguous position src).2 = position + src.length := by
  rw [OOMArray.replace]
  dsimp only
  by_cases hbehind : position + src.length > a.backBufferBegin
  · obtain ⟨hflush, hfile, hempty⟩ := represents_flush h.begin h.contents h.bound
    have hbegin : a.flush.backBufferBegin = l.length := by rw [← hflush.begin, hfile]
    rw [if_pos hbehind, replaceWithoutFlush_eq contiguous src (by
      dsimp only
      rwa [hfile])]
    refine ⟨⟨?_, ?_, hflush.space, hflush.bound⟩, rfl⟩
    · dsimp only
      rw [hfile, FileHandler.length_pwrite hposition, hbegin]
      exact Nat.max_comm _ _
    · dsimp only
      rw [hfile, hempty, List.append_nil, FileHandler.pwrite_of_le hposition]
      rfl
  · have hin : position ≤ a.file.length := by
      rw [h.begin]
      omega
    rw [if_neg hbehind, replaceWithoutFlush_eq contiguous src hin]
    refine ⟨⟨?_, ?_, h.space, h.bound⟩, rfl⟩
    · dsimp only
      rw [FileHandler.length_pwrite hin, h.begin]
      omega
    · dsimp only
      rw [FileHandler.pwrite_of_le hin, overwrite, ← h.contents, List.take_append_of_le_length hin,
        List.drop_append_of_le_length (by rw [h.begin]; omega)]
      simp only [List.append_assoc]

theorem Represents.pushBackRange (h : Represents sizeof a l) (contiguous : Bool)
    (src : List TValue) : Represents sizeof (a.pushBackRange sizeof contiguous src) (l ++ src) := by
  rw [OOMArray.pushBackRange]
  split
  · have hreplace := (h.replace contiguous src (Nat.le_refl _)).1
    rw [overwrite, List.take_length, List.drop_of_length_le (by omega), List.append_nil]
      at hreplace
    rwa [h.size_eq]
  · have happend := h.append src
    rwa [← List.length_append] at happend

theorem Represents.swapData {a other : OOMArray TValue} {l m : List TValue}
    (ha : Represents sizeof a l) (hother : Represents sizeof other m) :
    Represents sizeof (a.swapData sizeof other).1 m ∧
      Represents sizeof (a.swapData sizeof other).2 l := by
  by_cases hsize : a.backBufferSize ≠ other.backBufferSize
  · have ha' := ha.setBackBufferSize hother.bound
    have hother' := hother.setBackBufferSize ha.bound
    simp only [OOMArray.swapData, if_pos hsize]
    exact ⟨⟨hother'.begin, hother'.contents, hother'.space, hother'.bound⟩,
      ⟨ha'.begin, ha'.contents, ha'.space, ha'.bound⟩⟩
  · simp only [OOMArray.swapData, if_neg hsize]
    exact ⟨⟨hother.begin, hother.contents, hother.space, hother.bound⟩,
      ⟨ha.begin, ha.contents, ha.space, ha.bound⟩⟩

theorem Represents.get (h : Represents sizeof a l) {pos : Nat} (hpos : pos < l.length) :
    a.get pos = .ok l[pos] := by
  obtain ⟨hfile, rfl, -, -⟩ := h
  rw [List.length_append] at hpos
  rw [OOMArray.get]
  by_cases hin : pos < a.backBufferBegin
  · have hread : FileHandler.pread a.file 1 pos = .ok [a.file[pos]] := by
      rw [FileHandler.pread, if_pos (by omega), List.drop_eq_getElem_cons (by omega)]
      rfl
    rw [if_pos hin, hread, ok_bind, List.headD_cons, List.getElem_append_left]
    rfl
  · rw [if_neg hin, List.getElem?_eq_getElem (by omega), List.getElem_append_right (by omega)]
    simp only [hfile]

end

theorem Represents.fill {a : OOMArray TValue} {l : List TValue} (h : Represents sizeof a l)
    (bufferSize p : Nat) : a.fill bufferSize p = .ok ((l.drop p).take bufferSize) := by
  have hlen := h.size_eq
  rw [OOMArray.fill, hlen]
  rw [size] at hlen
  obtain ⟨hfile, rfl, -, -⟩ := h
  by_cases hempty : bufferSize = 0 ∨ p ≥ (a.file ++ a.backBuffer).length
  · rw [if_pos hempty]
    rcases hempty with hzero | hend
    · rw [hzero, List.take_zero]
    · rw [List.drop_of_length_le hend, List.take_nil]
  · rw [if_neg hempty]
    by_cases hin : p < a.backBufferBegin
    · have hread : FileHandler.pread a.file (min bufferSize (a.backBufferBegin - p)) p =
          .ok ((a.file.drop p).take (min bufferSize (a.backBufferBegin - p))) := by
        rw [FileHandler.pread, if_pos (by omega)]
      have htake : (a.file.drop p).take (min bufferSize (a.backBufferBegin - p)) =
          (a.file.drop p).take bufferSize := by
        rw [List.take_eq_take_iff, List.length_drop]
        omega
      have hrest : bufferSize - min bufferSize (a.backBufferBegin - p) =
          bufferSize - (a.file.length - p) := by omega
      rw [if_pos hin]
      dsimp only
      rw [hread, ok_bind, List.drop_append_of_le_length (by omega), List.take_append,
        List.length_drop, htake, hrest]
      split
      · rw [← List.take_eq_take_min]
        rfl
      · rename_i hzero
        rw [not_not.mp hzero, List.take_zero, List.append_nil]
        rfl
    · rw [if_neg hin]
      dsimp only
      rw [List.drop_append, List.drop_of_length_le (show a.file.length ≤ p by omega),
        List.nil_append, hfile, List.drop_take]
      congr 1
      rw [List.take_eq_take_iff, List.length_drop]
      omega

/-- The buffer has the elements from its beginning on, the one at the position among them. -/
structure Loaded (l : List TValue) (b : IteratorBuffer TValue) (p : Nat) : Prop where
  elements : b.buffer = (l.drop b.bufferBegin).take b.bufferSize
  size_pos : 0 < b.bufferSize
  begin_le : b.bufferBegin ≤ p
  inside : p < l.length → p - b.bufferBegin < b.buffer.length

theorem Represents.loaded_fill {a : OOMArray TValue} {l : List TValue}
    (h : Represents sizeof a l) {bufferSize : Nat} (hsize : 0 < bufferSize) (p : Nat) :
    ∃ buffer, a.fill bufferSize p = .ok buffer ∧
      Loaded l { bufferBegin := p, bufferSize := bufferSize, buffer := buffer } p := by
  refine ⟨_, h.fill bufferSize p, rfl, hsize, Nat.le_refl p, ?_⟩
  intro hp
  dsimp only
  rw [List.length_take, List.length_drop, Nat.sub_self]
  omega

variable {b : IteratorBuffer TValue}

theorem Loaded.get {l : List TValue} {p : Nat} (h : Loaded l b p) (hp : p < l.length) :
    b.get p = .ok l[p] := by
  have hin := h.inside hp
  have hbegin := h.begin_le
  have hsum : b.bufferBegin + (p - b.bufferBegin) = p := by omega
  rw [IteratorBuffer.get, List.getElem?_eq_getElem hin]
  simp only [h.elements, List.getElem_take, List.getElem_drop, hsum]

theorem Represents.incTo {a : OOMArray TValue} {l : List TValue} (h : Represents sizeof a l)
    {p position : Nat} (hb : Loaded l b p) (hle : p ≤ position) :
    ∃ b', b.incTo a position = .ok b' ∧ Loaded l b' position := by
  rw [IteratorBuffer.incTo]
  split
  · obtain ⟨buffer, hfill, hloaded⟩ := h.loaded_fill hb.size_pos position
    exact ⟨_, by rw [hfill]; rfl, hloaded⟩
  · rename_i hin
    have hbegin := hb.begin_le
    exact ⟨b, rfl, hb.elements, hb.size_pos, by omega, fun _ => by omega⟩

theorem Represents.getRepositioned {a : OOMArray TValue} {l : List TValue}
    (h : Represents sizeof a l) (hsizeof : 0 < sizeof) {p : Nat} (hb : Loaded l b p)
    (position : Nat) : ∃ b', b.getRepositioned sizeof a position = .ok b' ∧ Loaded l b' position := by
  rw [IteratorBuffer.getRepositioned]
  split
  · obtain ⟨buffer, hfill, hloaded⟩ := h.loaded_fill hb.size_pos position
    refine ⟨_, ?_, hloaded⟩
    rw [IteratorBuffer.new, Nat.mul_div_cancel _ hsizeof, hfill]
    rfl
  · rename_i hin
    exact ⟨b, rfl, hb.elements, hb.size_pos, by omega, fun _ => by omega⟩

theorem Represents.read {a : OOMArray TValue} {l : List TValue} (h : Represents sizeof a l)
    (rounds : Nat) (it : ConstIterator TValue) (hit : Loaded l it.b it.p)
    (hrounds : it.p + rounds ≤ l.length) : it.read a rounds = .ok ((l.drop it.p).take rounds) := by
  induction rounds generalizing it with
  | zero => rfl
  | succ rounds ih =>
    have hp : it.p < l.length := by omega
    obtain ⟨b, hnext, hb⟩ := h.incTo hit (Nat.le_succ it.p)
    have hrest := ih { b := b, p := it.p + 1 } hb (by dsimp only; omega)
    rw [ConstIterator.read, hit.get hp, ok_bind, ConstIterator.next, hnext, ok_bind, except_pure,
      ok_bind, hrest, List.drop_eq_getElem_cons hp]
    rfl

theorem Represents.readFrom {a : OOMArray TValue} {l : List TValue} (h : Represents sizeof a l)
    (hsizeof : 0 < sizeof) (hread : 0 < a.readBufferSize) {start : Nat}
    (hstart : start ≤ l.length) :
    a.readFrom sizeof start = .ok (l.drop start) := by
  obtain ⟨buffer, hfill, hbegin⟩ := h.loaded_fill hread 0
  obtain ⟨b, hreposition, hb⟩ := h.getRepositioned hsizeof hbegin start
  have hall := h.read (l.length - start) { b := b, p := start } hb (by dsimp only; omega)
  have hnew : a.begin sizeof = .ok
      { b := { bufferBegin := 0, bufferSize := a.readBufferSize, buffer := buffer }, p := 0 } := by
    rw [OOMArray.begin, IteratorBuffer.new, Nat.mul_div_cancel _ hsizeof, hfill]
    rfl
  rw [OOMArray.readFrom, hnew, ok_bind, ConstIterator.add]
  dsimp only
  rw [Nat.zero_add, hreposition, ok_bind, except_pure, ok_bind, h.size_eq, hall]
  dsimp only
  rw [List.take_of_length_le (by rw [List.length_drop])]

inductive Op (TValue : Type) where
  | pushBack (v : TValue)
  | pushBackRange (contiguous : Bool) (src : List TValue)
  | set (pos : Nat) (v : TValue)
  | replace (contiguous : Bool) (position : Nat) (src : List TValue)
  | resize (newSize : Nat) (v : TValue)
  | truncate (newSize : Nat)
  | flush
  | clear
  | backBufferSize (s : Nat)
  | readBufferSize (s : Nat)
  deriving Repr

/-- An operation on the array of a number, or `swap_data` of two of them. -/
inductive Call (TValue : Type) where
  | on (i : Nat) (op : Op TValue)
  | swapData (i j : Nat)
  deriving Repr

section

variable [Inhabited TValue]

def Op.run (sizeof : Nat) (a : OOMArray TValue) : Op TValue → Except Fault (OOMArray TValue)
  | pushBack v => .ok (a.pushBack v)
  | pushBackRange contiguous src => .ok (a.pushBackRange sizeof contiguous src)
  | set pos v => a.set pos v
  | replace contiguous position src => .ok (a.replace sizeof contiguous position src).1
  | resize newSize v => .ok (a.resize newSize v)
  | truncate newSize => .ok (a.truncate newSize)
  | flush => .ok a.flush
  | clear => .ok a.clear
  | backBufferSize s => .ok (a.setBackBufferSize sizeof s)
  | readBufferSize s => .ok (a.setReadBufferSize sizeof s)

def Op.onList (l : List TValue) : Op TValue → List TValue
  | pushBack v => l ++ [v]
  | pushBackRange _ src => l ++ src
  | set pos v => l.set pos v
  | replace _ position src => overwrite l position src
  | resize newSize v => l.take newSize ++ List.replicate (newSize - l.length) v
  | truncate newSize => l.take newSize
  | flush => l
  | clear => []
  | backBufferSize _ => l
  | readBufferSize _ => l

def Op.Valid (length : Nat) : Op TValue → Prop
  | set pos _ => pos < length
  | replace _ position _ => position ≤ length
  | truncate newSize => newSize ≤ length
  | backBufferSize s => s < 2 ^ 64
  | _ => True

def Call.run (sizeof : Nat) (arrays : List (OOMArray TValue)) :
    Call TValue → Except Fault (List (OOMArray TValue))
  | on i op =>
    match arrays[i]? with
    | some a => do
      let a ← op.run sizeof a
      return arrays.set i a
    | none => .error .undefinedBehaviour
  | swapData i j =>
    match arrays[i]?, arrays[j]? with
    | some a, some other =>
      let (a, other) := a.swapData sizeof other
      .ok ((arrays.set i a).set j other)
    | _, _ => .error .undefinedBehaviour

def Call.onLists (lists : List (List TValue)) : Call TValue → List (List TValue)
  | on i op => lists.set i (op.onList (lists.getD i []))
  | swapData i j => (lists.set i (lists.getD j [])).set j (lists.getD i [])

def Call.Valid (lists : List (List TValue)) : Call TValue → Prop
  | on i op => i < lists.length ∧ op.Valid (lists.getD i []).length
  | swapData i j => i < lists.length ∧ j < lists.length

def runCalls (sizeof : Nat) :
    List (Call TValue) → List (OOMArray TValue) → Except Fault (List (OOMArray TValue))
  | [], arrays => .ok arrays
  | call :: calls, arrays => do
    let arrays ← call.run sizeof arrays
    runCalls sizeof calls arrays

def listsAfter (calls : List (Call TValue)) (lists : List (List TValue)) : List (List TValue) :=
  calls.foldl (fun lists call => call.onLists lists) lists

def ValidCalls : List (Call TValue) → List (List TValue) → Prop
  | [], _ => True
  | call :: calls, lists => call.Valid lists ∧ ValidCalls calls (call.onLists lists)

theorem Op.run_spec {a : OOMArray TValue} {l : List TValue} (h : Represents sizeof a l)
    (op : Op TValue) (hvalid : op.Valid l.length) :
    ∃ a', op.run sizeof a = .ok a' ∧ Represents sizeof a' (op.onList l) := by
  cases op with
  | pushBack v => exact ⟨_, rfl, h.pushBack v⟩
  | pushBackRange contiguous src => exact ⟨_, rfl, h.pushBackRange contiguous src⟩
  | set pos v => exact h.set v hvalid
  | replace contiguous position src => exact ⟨_, rfl, (h.replace contiguous src hvalid).1⟩
  | resize newSize v => exact ⟨_, rfl, h.resize newSize v⟩
  | truncate newSize => exact ⟨_, rfl, h.cut hvalid⟩
  | flush => exact ⟨_, rfl, h.flush⟩
  | clear => exact ⟨_, rfl, h.clear⟩
  | backBufferSize s => exact ⟨_, rfl, h.setBackBufferSize hvalid⟩
  | readBufferSize s => exact ⟨_, rfl, h.setReadBufferSize s⟩

theorem forall₂_set {α β : Type} {R : α → β → Prop} {as : List α} {bs : List β} {a : α} {b : β}
    (h : List.Forall₂ R as bs) (i : Nat) (hab : R a b) :
    List.Forall₂ R (as.set i a) (bs.set i b) := by
  induction h generalizing i with
  | nil => exact .nil
  | cons hfirst hrest ih =>
    cases i with
    | zero => exact .cons hab hrest
    | succ i => exact .cons hfirst (ih i)

variable {arrays : List (OOMArray TValue)} {lists : List (List TValue)}

omit [Inhabited TValue] in
theorem exists_of_forall₂ (h : List.Forall₂ (Represents sizeof) arrays lists) {i : Nat}
    (hi : i < lists.length) : ∃ a, arrays[i]? = some a ∧ Represents sizeof a (lists.getD i []) := by
  have hlen := h.length_eq
  refine ⟨arrays[i], List.getElem?_eq_getElem (by omega), ?_⟩
  have hget := List.Forall₂.get h (by omega) hi
  rwa [List.getD, List.getElem?_eq_getElem hi]

theorem Call.run_spec (h : List.Forall₂ (Represents sizeof) arrays lists) (call : Call TValue)
    (hvalid : call.Valid lists) :
    ∃ arrays', call.run sizeof arrays = .ok arrays' ∧
      List.Forall₂ (Represents sizeof) arrays' (call.onLists lists) := by
  cases call with
  | on i op =>
    obtain ⟨a, ha, hrepresents⟩ := exists_of_forall₂ h hvalid.1
    obtain ⟨a', hrun, ha'⟩ := op.run_spec hrepresents hvalid.2
    refine ⟨arrays.set i a', ?_, forall₂_set h i ha'⟩
    rw [Call.run, ha]
    dsimp only
    rw [hrun]
    rfl
  | swapData i j =>
    obtain ⟨a, ha, hrepresents⟩ := exists_of_forall₂ h hvalid.1
    obtain ⟨other, hother, hrepresents'⟩ := exists_of_forall₂ h hvalid.2
    obtain ⟨hfirst, hsecond⟩ := hrepresents.swapData hrepresents'
    refine ⟨_, ?_, forall₂_set (forall₂_set h i hfirst) j hsecond⟩
    rw [Call.run, ha, hother]

theorem runCalls_spec (h : List.Forall₂ (Represents sizeof) arrays lists)
    (calls : List (Call TValue)) (hvalid : ValidCalls calls lists) :
    ∃ arrays', runCalls sizeof calls arrays = .ok arrays' ∧
      List.Forall₂ (Represents sizeof) arrays' (listsAfter calls lists) := by
  induction calls generalizing arrays lists with
  | nil => exact ⟨arrays, rfl, h⟩
  | cons call calls ih =>
    obtain ⟨arrays₁, hcall, h₁⟩ := call.run_spec h hvalid.1
    obtain ⟨arrays₂, hcalls, h₂⟩ := ih h₁ hvalid.2
    refine ⟨arrays₂, ?_, h₂⟩
    rw [runCalls, hcall, ok_bind]
    exact hcalls

/-- What `get` and fresh iterators with any read buffer return for the elements of the list. -/
structure Reads (sizeof : Nat) (a : OOMArray TValue) (l : List TValue) : Prop where
  size : a.size = l.length
  get : ∀ pos, ∀ h : pos < l.length, a.get pos = .ok l[pos]
  iterator : ∀ readBufferSize, sizeof ≤ readBufferSize → ∀ start ≤ l.length,
    (a.setReadBufferSize sizeof readBufferSize).readFrom sizeof start = .ok (l.drop start)

/-- After any valid operations on arrays over any files every array reads as the list on which the
same operations were performed. -/
theorem oomArray_run (sizeof : Nat) (hsizeof : 0 < sizeof) (files : List (List TValue))
    (calls : List (Call TValue)) (hvalid : ValidCalls calls files) :
    ∃ arrays, runCalls sizeof calls (files.map (ofFile sizeof)) = .ok arrays ∧
      List.Forall₂ (Reads sizeof) arrays (listsAfter calls files) := by
  have hstart : List.Forall₂ (Represents sizeof) (files.map (ofFile sizeof)) files := by
    rw [List.forall₂_map_left_iff]
    exact List.forall₂_same.mpr fun file _ => represents_ofFile file
  obtain ⟨arrays, hrun, harrays⟩ := runCalls_spec hstart calls hvalid
  refine ⟨arrays, hrun, harrays.imp ?_⟩
  intro a l h
  refine ⟨h.size_eq, fun pos hpos => h.get hpos, ?_⟩
  intro readBufferSize hread start hle
  exact (h.setReadBufferSize readBufferSize).readFrom hsizeof (Nat.div_pos hread hsizeof) hle

theorem oomArray_run_two :
    ∃ arrays, runCalls 4
        [.on 0 (.backBufferSize 8), .on 0 (.pushBack 5), .on 1 (.pushBackRange false [6, 7, 8]),
          .swapData 0 1, .on 0 (.replace false 2 [9, 10]), .on 1 (.resize 3 0)]
        (([[1], []] : List (List Nat)).map (ofFile 4)) = .ok arrays ∧
      List.Forall₂ (Reads 4) arrays (listsAfter
        [.on 0 (.backBufferSize 8), .on 0 (.pushBack 5), .on 1 (.pushBackRange false [6, 7, 8]),
          .swapData 0 1, .on 0 (.replace false 2 [9, 10]), .on 1 (.resize 3 0)] [[1], []]) :=
  oomArray_run 4 (by decide) [[1], []] _ (by simp [ValidCalls, Call.Valid, Op.Valid, Call.onLists,
    Op.onList])

end

end OOMArray

end Sserialize
