import Sserialize.Library.Splice
import Sserialize.Storage.CompressedMmappedFileRead

/-!
# `ChunkedMmappedFile`

The mappings are shared, so that a chunk is the file itself wherever it is mapped; what a pointer
reaches is the length that was mapped. The file is writable and the calls of the operating system
succeed.
-/

namespace Sserialize.ChunkedMmappedFile

open CompressedMmappedFile (element element_eq)
open Splice

/-- `m_size` is the length of the file, `m_cache` is `lines` and `occupied`. -/
structure ChunkedFile where
  chunkShift : Nat
  file : Bytes
  maxOccupyCount : Nat
  lines : List (Option Nat)
  occupied : List Nat
  draws : Nat

namespace ChunkedFile

variable (rand : Nat → Nat) (self : ChunkedFile)

def chunkSize : Nat := 1 <<< self.chunkShift

def sizeOfChunk (chunk : Nat) : Nat :=
  if chunk * self.chunkSize + self.chunkSize > self.file.length then
    self.file.length - chunk * self.chunkSize
  else self.chunkSize

def chunk (offset : Nat) : Nat := u32 (offset >>> self.chunkShift)

def inChunkOffSet (offset : Nat) : Nat := offset &&& createMask self.chunkShift

def doOpen (chunkShift : Nat) (file : Bytes) : Except Fault ChunkedFile :=
  if file.length / 1 <<< chunkShift + 1 < 2 ^ 32 then
    .ok ⟨chunkShift, file, 16, List.replicate (file.length / 1 <<< chunkShift + 1) none, [], 0⟩
  else .error .outOfBounds

def findVictim : Nat :=
  if self.occupied.length = 0 then 2 ^ 32 - 1
  else self.occupied.getD (rand self.draws % self.occupied.length) 0

/-- `do_unmap(victim)` and `m_cache.evict(victim)`. -/
def evict : Except Fault ChunkedFile := do
  let victim := self.findVictim rand
  let data ← element self.lines victim
  if data = some (self.sizeOfChunk victim) then
    return { self with
      occupied := self.occupied.erase victim
      lines := self.lines.set victim none
      draws := self.draws + 1 }
  else .error .undefinedBehaviour

def makeRoom : Except Fault ChunkedFile :=
  if self.occupied.length ≥ self.maxOccupyCount then self.evict rand else .ok self

/-- The pointer to a chunk, by the length of its mapping. -/
def chunkData (chunk : Nat) : Except Fault (ChunkedFile × Nat) := do
  let data ← element self.lines chunk
  if let some data := data then return (self, data)
  else do
    let self ← self.makeRoom rand
    let data := self.sizeOfChunk chunk
    return ({ self with
      lines := self.lines.set chunk (some data)
      occupied := self.occupied.orderedInsert (· ≤ ·) chunk }, data)

/-! ## `read` and `write` -/

/-- `memmove` of `n` bytes of a chunk behind what was read so far. -/
def copyFrom (chunk pos n : Nat) (x : ChunkedFile × Bytes) :
    Except Fault (ChunkedFile × Bytes) := do
  let (self, data) ← x.1.chunkData rand chunk
  if pos + n ≤ data then
    return (self, x.2 ++ (self.file.drop (chunk * self.chunkSize + pos)).take n)
  else .error .undefinedBehaviour

/-- `memmove` of the next `n` bytes of the source to a chunk. -/
def copyTo (chunk pos n : Nat) (x : ChunkedFile × Bytes) : Except Fault (ChunkedFile × Bytes) := do
  let (self, data) ← x.1.chunkData rand chunk
  if pos + n ≤ data then
    return ({ self with file := splice self.file (chunk * self.chunkSize + pos) (x.2.take n) },
      x.2.drop n)
  else .error .undefinedBehaviour

/-- The common part of `read` and `write`. The last chunk gets the bytes that are `left`. -/
def overChunks (copy : Nat → Nat → Nat → ChunkedFile × Bytes → Except Fault (ChunkedFile × Bytes))
    (left : ChunkedFile × Bytes → Nat) (offset len : Nat) (x : ChunkedFile × Bytes) :
    Except Fault (ChunkedFile × Bytes) := do
  let beginChunk := x.1.chunk offset
  let endChunk := x.1.chunk (offset + len - 1)
  let chunkSize := x.1.chunkSize
  let first := x.1.inChunkOffSet offset
  let x ← copy beginChunk first (min len (chunkSize - first)) x
  let x ← (List.range' (beginChunk + 1) (endChunk - (beginChunk + 1))).foldlM
    (fun x i => copy i 0 chunkSize x) x
  if beginChunk < endChunk then copy endChunk 0 (left x) x else .ok x

/-- The `len` that `read` and `write` return. -/
def clampLen (offset len : Nat) : Nat :=
  if offset > self.file.length ∨ len = 0 then 0
  else if u64 (offset + len : Nat) > self.file.length then self.file.length - offset
  else len

def read (offset len : Nat) : Except Fault (ChunkedFile × Bytes) :=
  let len := self.clampLen offset len
  if len = 0 then .ok (self, [])
  else overChunks (copyFrom rand) (fun x => len - x.2.length) offset len (self, [])

def write (src : Bytes) (destOffset len : Nat) : Except Fault (ChunkedFile × Nat) :=
  let len := self.clampLen destOffset len
  if len = 0 then .ok (self, 0)
  else do
    let (self, _) ← overChunks (copyTo rand) (fun x => x.2.length) destOffset len
      (self, src.take len)
    return (self, len)

/-! ## `setCacheCount` and `resize` -/

/-- The loops of `setCacheCount` and `do_unmap`. -/
def evictDown (count : Nat) : Nat → ChunkedFile → Except Fault ChunkedFile
  | 0, self => .ok self
  | rounds + 1, self =>
    if self.occupied.length > count then do
      let self ← self.evict rand
      evictDown count rounds self
    else .ok self

def setCacheCount (count : Nat) : Except Fault ChunkedFile := do
  let self ← evictDown rand count self.occupied.length self
  return { self with maxOccupyCount := count }

def resize (size : Nat) : Except Fault ChunkedFile := do
  let self ← evictDown rand 0 self.occupied.length self
  let file := self.file.take size ++ List.replicate (size - self.file.length) 0
  if size / self.chunkSize + 1 < 2 ^ 32 then
    return { self with
      file := file
      lines := List.replicate (size / self.chunkSize + 1) none
      occupied := [] }
  else .error .outOfBounds

end ChunkedFile

/-! ## Calls -/

inductive Call where
  | read (offset len : Nat)
  | write (src : Bytes) (destOffset len : Nat)
  | resize (size : Nat)
  | setCacheCount (count : Nat)

variable (rand : Nat → Nat)

/-- The file after a call, the bytes that were read, and `len`. -/
def step (self : ChunkedFile) : Call → Except Fault (ChunkedFile × Bytes × Nat)
  | .read offset len => do
    let (self, dest) ← self.read rand offset len
    return (self, dest, dest.length)
  | .write src destOffset len => do
    let (self, len) ← self.write rand src destOffset len
    return (self, [], len)
  | .resize size => do
    let self ← self.resize rand size
    return (self, [], 0)
  | .setCacheCount count => do
    let self ← self.setCacheCount rand count
    return (self, [], 0)

def run (self : ChunkedFile) : List Call → Except Fault (ChunkedFile × List (Bytes × Nat))
  | [] => .ok (self, [])
  | call :: calls => do
    let (self, result) ← step rand self call
    let (self, results) ← run self calls
    return (self, result :: results)

/-! ## One flat array -/

def flatLen (file : Bytes) (offset len : Nat) : Nat := min len (file.length - offset)

/-- What a call does to a flat array, and what it returns. -/
def flatStep (file : Bytes) : Call → Bytes × Bytes × Nat
  | .read offset len =>
    (file, (file.drop offset).take (flatLen file offset len), flatLen file offset len)
  | .write src destOffset len =>
    (splice file destOffset (src.take (flatLen file destOffset len)), [],
      flatLen file destOffset len)
  | .resize size => (file.take size ++ List.replicate (size - file.length) 0, [], 0)
  | .setCacheCount _ => (file, [], 0)

def flatRun (file : Bytes) : List Call → Bytes × List (Bytes × Nat)
  | [] => (file, [])
  | call :: calls =>
    let (file, result) := flatStep file call
    let (file, results) := flatRun file calls
    (file, result :: results)

/-- Offsets are `uint64_t` values, the source of a write has `len` bytes, and the numbers of the
chunks are `uint32_t` values. -/
def InBounds (chunkShift : Nat) : Call → Prop
  | .read offset len => offset + len < 2 ^ 64
  | .write src destOffset len => destOffset + len < 2 ^ 64 ∧ len ≤ src.length
  | .resize size => size / 2 ^ chunkShift + 1 < 2 ^ 32
  | .setCacheCount _ => True

def Accesses (file : Bytes) : Call → Prop
  | .read offset len => flatLen file offset len ≠ 0
  | .write _ destOffset len => flatLen file destOffset len ≠ 0
  | _ => False

def nextCount (count : Nat) : Call → Nat
  | .setCacheCount count => count
  | _ => count

/-- No byte is accessed while the cache count is 0. -/
def Cached (file : Bytes) (count : Nat) : List Call → Prop
  | [] => True
  | call :: calls =>
    (Accesses file call → count ≠ 0) ∧ Cached (flatStep file call).1 (nextCount count call) calls

/-! ## The cache -/

structure Inv (s : ChunkedFile) : Prop where
  length : s.lines.length = s.file.length / s.chunkSize + 1
  length_lt : s.lines.length < 2 ^ 32
  nodup : s.occupied.Nodup
  lt : ∀ i ∈ s.occupied, i < s.lines.length
  line : ∀ i < s.lines.length,
    s.lines[i]? = some (if i ∈ s.occupied then some (s.sizeOfChunk i) else none)

/-- Only the cache differs. -/
structure Same (s s' : ChunkedFile) : Prop where
  chunkShift : s'.chunkShift = s.chunkShift
  file : s'.file = s.file
  maxOccupyCount : s'.maxOccupyCount = s.maxOccupyCount

theorem Same.trans {s s' s'' : ChunkedFile} (h : Same s s') (h' : Same s' s'') : Same s s'' :=
  ⟨h'.chunkShift.trans h.chunkShift, h'.file.trans h.file,
    h'.maxOccupyCount.trans h.maxOccupyCount⟩

theorem Same.chunkSize {s s' : ChunkedFile} (h : Same s s') : s'.chunkSize = s.chunkSize := by
  rw [ChunkedFile.chunkSize, ChunkedFile.chunkSize, h.chunkShift]

theorem chunkSize_pos (s : ChunkedFile) : 0 < s.chunkSize := by
  rw [ChunkedFile.chunkSize, Nat.one_shiftLeft]
  exact Nat.two_pow_pos _

theorem sizeOfChunk_eq (s : ChunkedFile) (chunk : Nat) :
    s.sizeOfChunk chunk = min s.chunkSize (s.file.length - chunk * s.chunkSize) := by
  rw [ChunkedFile.sizeOfChunk]
  split <;> omega

variable {s : ChunkedFile}

/-- A line of the cache changes with its place in `occupied`. -/
theorem Inv.set (h : Inv s) {chunk : Nat} (hchunk : chunk < s.lines.length) {occupied : List Nat}
    (hnodup : occupied.Nodup) (hmem : ∀ i, i ≠ chunk → (i ∈ occupied ↔ i ∈ s.occupied))
    {data : Option Nat} (draws : Nat)
    (hdata : (if chunk ∈ occupied then some (s.sizeOfChunk chunk) else none) = data) :
    Inv { s with lines := s.lines.set chunk data, occupied := occupied, draws := draws } where
  length := List.length_set.trans h.length
  length_lt := List.length_set.trans_lt h.length_lt
  nodup := hnodup
  lt := fun i hi => by
    rw [List.length_set]
    by_cases heq : i = chunk
    · exact heq ▸ hchunk
    · exact h.lt i ((hmem i heq).mp hi)
  line := fun i hi => by
    rw [List.length_set] at hi
    by_cases heq : i = chunk
    · subst heq
      rw [List.getElem?_set_self hi, ← hdata]
      rfl
    · rw [List.getElem?_set_ne (Ne.symm heq), h.line i hi]
      simp only [hmem i heq]
      rfl

theorem Inv.evict (h : Inv s) (hne : s.occupied ≠ []) :
    ∃ s', s.evict rand = .ok s' ∧ Inv s' ∧ Same s s' ∧
      s'.occupied.length + 1 = s.occupied.length ∧ s'.occupied ⊆ s.occupied := by
  have hlen : s.occupied.length ≠ 0 := fun hzero => hne (List.length_eq_zero_iff.mp hzero)
  have hpos : rand s.draws % s.occupied.length < s.occupied.length :=
    Nat.mod_lt _ (Nat.pos_of_ne_zero hlen)
  have hvictim : s.findVictim rand = s.occupied[rand s.draws % s.occupied.length] := by
    rw [ChunkedFile.findVictim, if_neg hlen, List.getD_eq_getElem _ _ hpos]
  have hmem : s.findVictim rand ∈ s.occupied := hvictim ▸ List.getElem_mem hpos
  generalize hv : s.findVictim rand = victim at hmem
  refine ⟨_, ?_, h.set (h.lt victim hmem) (h.nodup.erase victim)
    (fun i heq => List.mem_erase_of_ne heq) (s.draws + 1) (if_neg h.nodup.not_mem_erase),
    ⟨rfl, rfl, rfl⟩, ?_, fun i hi => List.mem_of_mem_erase hi⟩
  · rw [ChunkedFile.evict, hv, element_eq (h.line victim (h.lt victim hmem)), ok_bind, if_pos hmem,
      if_pos rfl]
    rfl
  · have hlast := List.length_erase_of_mem hmem
    dsimp only
    omega

theorem Inv.evictDown (count rounds : Nat) (h : Inv s) (hrounds : s.occupied.length ≤ rounds) :
    ∃ s', ChunkedFile.evictDown rand count rounds s = .ok s' ∧ Inv s' ∧ Same s s' ∧
      s'.occupied.length ≤ count := by
  induction rounds generalizing s with
  | zero => exact ⟨s, rfl, h, ⟨rfl, rfl, rfl⟩, by omega⟩
  | succ rounds ih =>
    rw [ChunkedFile.evictDown]
    by_cases hgt : s.occupied.length > count
    · have hne : s.occupied ≠ [] := List.ne_nil_of_length_pos (by omega)
      obtain ⟨s₁, hevict, hinv, hsame, hlen, -⟩ := h.evict rand hne
      obtain ⟨s₂, hdown, hinv₂, hsame₂, hlen₂⟩ := ih hinv (by omega)
      refine ⟨s₂, ?_, hinv₂, hsame.trans hsame₂, hlen₂⟩
      rw [if_pos hgt, hevict, ok_bind, hdown]
    · exact ⟨s, by rw [if_neg hgt], h, ⟨rfl, rfl, rfl⟩, by omega⟩

/-- The cache of an opened file between the calls. -/
structure Ready (s : ChunkedFile) : Prop extends Inv s where
  count : s.occupied.length ≤ s.maxOccupyCount

theorem Ready.chunkData (h : Ready s) (hcount : s.maxOccupyCount ≠ 0) {chunk : Nat}
    (hchunk : chunk < s.lines.length) :
    ∃ s', s.chunkData rand chunk = .ok (s', s.sizeOfChunk chunk) ∧ Ready s' ∧ Same s s' := by
  rw [ChunkedFile.chunkData]
  by_cases hmem : chunk ∈ s.occupied
  · rw [element_eq (h.line chunk hchunk), if_pos hmem, ok_bind]
    exact ⟨s, rfl, h, ⟨rfl, rfl, rfl⟩⟩
  · have hroom : ∃ s₁, s.makeRoom rand = .ok s₁ ∧ Inv s₁ ∧ Same s s₁ ∧
        s₁.occupied.length < s.maxOccupyCount ∧ chunk ∉ s₁.occupied := by
      rw [ChunkedFile.makeRoom]
      by_cases hfull : s.occupied.length ≥ s.maxOccupyCount
      · have hne : s.occupied ≠ [] := List.ne_nil_of_length_pos (by omega)
        have hle := h.count
        obtain ⟨s₁, hevict, hinv, hsame, hlen, hsub⟩ := h.toInv.evict rand hne
        exact ⟨s₁, by rw [if_pos hfull, hevict], hinv, hsame, by omega, fun hin => hmem (hsub hin)⟩
      · exact ⟨s, by rw [if_neg hfull], h.toInv, ⟨rfl, rfl, rfl⟩, by omega, hmem⟩
    obtain ⟨s₁, hroom, hinv, hsame, hlt, hnew⟩ := hroom
    have hchunk₁ : chunk < s₁.lines.length := by
      rw [hinv.length, hsame.file, hsame.chunkSize, ← h.length]
      exact hchunk
    have hsize : s₁.sizeOfChunk chunk = s.sizeOfChunk chunk := by
      rw [sizeOfChunk_eq, sizeOfChunk_eq, hsame.file, hsame.chunkSize]
    have hcount₁ : (s₁.occupied.orderedInsert (· ≤ ·) chunk).length ≤ s₁.maxOccupyCount := by
      rw [List.orderedInsert_length, hsame.maxOccupyCount]
      omega
    have hperm : (s₁.occupied.orderedInsert (· ≤ ·) chunk).Perm (chunk :: s₁.occupied) :=
      List.perm_orderedInsert _ _ _
    rw [element_eq (h.line chunk hchunk), if_neg hmem, ok_bind]
    dsimp only
    rw [hroom, ok_bind, ← hsize]
    exact ⟨_, rfl, ⟨hinv.set hchunk₁ (hperm.nodup_iff.mpr (List.nodup_cons.mpr ⟨hnew, hinv.nodup⟩))
      (fun i heq => hperm.mem_iff.trans (List.mem_cons.trans (or_iff_right heq)))
      _ (if_pos (hperm.mem_iff.mpr List.mem_cons_self)), hcount₁⟩,
      ⟨hsame.chunkShift, hsame.file, hsame.maxOccupyCount⟩⟩

/-! ## Reading and writing -/

variable {copy : Nat → Nat → Nat → ChunkedFile × Bytes → Except Fault (ChunkedFile × Bytes)}

theorem foldlM_copy {P : Nat → ChunkedFile × Bytes → Prop} {chunkSize offset len : Nat}
    (hcopy : ∀ chunk pos n k y, P k y → chunk * chunkSize + pos = offset + k →
      pos + n ≤ chunkSize → k + n ≤ len → ∃ y', copy chunk pos n y = .ok y' ∧ P (k + n) y')
    (m : Nat) : ∀ {b k : Nat} {y : ChunkedFile × Bytes}, P k y → b * chunkSize = offset + k →
      k + m * chunkSize ≤ len →
      ∃ y', (List.range' b m).foldlM (fun x i => copy i 0 chunkSize x) y = .ok y' ∧
        P (k + m * chunkSize) y' := by
  induction m with
  | zero =>
    intro b k y hy _ _
    rw [Nat.zero_mul, Nat.add_zero]
    exact ⟨y, rfl, hy⟩
  | succ m ih =>
    intro b k y hy hb hlen
    rw [Nat.succ_mul] at hlen
    obtain ⟨y₁, hfirst, hy₁⟩ := hcopy b 0 chunkSize k y hy hb (Nat.zero_add _).le (by omega)
    have hb₁ : (b + 1) * chunkSize = offset + (k + chunkSize) := by
      rw [Nat.succ_mul, hb, Nat.add_assoc]
    obtain ⟨y₂, hrest, hy₂⟩ := ih hy₁ hb₁ (by omega)
    have hsum : k + (m + 1) * chunkSize = k + chunkSize + m * chunkSize := by
      rw [Nat.succ_mul]
      omega
    rw [hsum, List.range'_succ, List.foldlM_cons, hfirst, ok_bind]
    exact ⟨y₂, hrest, hy₂⟩

theorem chunk_eq {offset : Nat} (h : offset / s.chunkSize < 2 ^ 32) :
    s.chunk offset = offset / s.chunkSize := by
  rw [ChunkedFile.chunkSize, Nat.one_shiftLeft] at h ⊢
  rw [ChunkedFile.chunk, Nat.shiftRight_eq_div_pow, u32_of_lt h]

theorem inChunkOffSet_eq (offset : Nat) : s.inChunkOffSet offset = offset % s.chunkSize := by
  rw [ChunkedFile.inChunkOffSet, createMask, Nat.and_two_pow_sub_one_eq_mod,
    ChunkedFile.chunkSize, Nat.one_shiftLeft]

variable {offset len : Nat} {x : ChunkedFile × Bytes}

/-- What each `memmove` keeps, with the number of bytes that were moved, holds of all bytes in the
end. -/
theorem overChunks_of (P : Nat → ChunkedFile × Bytes → Prop) {left : ChunkedFile × Bytes → Nat}
    (hcopy : ∀ chunk pos n k y, P k y → chunk * x.1.chunkSize + pos = offset + k →
      pos + n ≤ x.1.chunkSize → k + n ≤ len → ∃ y', copy chunk pos n y = .ok y' ∧ P (k + n) y')
    (hleft : ∀ k y, P k y → k ≤ len → left y = len - k) (hx : P 0 x) (hlen : len ≠ 0)
    (hbound : (offset + len - 1) / x.1.chunkSize < 2 ^ 32) :
    ∃ y, ChunkedFile.overChunks copy left offset len x = .ok y ∧ P len y := by
  have hpos := chunkSize_pos x.1
  have hdiv := Nat.div_add_mod' offset x.1.chunkSize
  have hmod := Nat.mod_lt offset hpos
  have hle : offset / x.1.chunkSize ≤ (offset + len - 1) / x.1.chunkSize :=
    Nat.div_le_div_right (by omega)
  rw [ChunkedFile.overChunks, chunk_eq (by omega), chunk_eq hbound, inChunkOffSet_eq]
  generalize hcs : x.1.chunkSize = chunkSize at *
  generalize hbegin : offset / chunkSize = b at *
  generalize hfirst : offset % chunkSize = first at *
  obtain ⟨y₁, hcopy₁, hy₁⟩ := hcopy b first (min len (chunkSize - first)) 0 x hx (by omega)
    (by omega) (by omega)
  rw [hcopy₁, ok_bind]
  rw [Nat.zero_add] at hy₁
  by_cases hmany : b < (offset + len - 1) / chunkSize
  · obtain ⟨m, hm⟩ := Nat.exists_eq_add_of_le hmany
    have hend := Nat.div_mul_le_self (offset + len - 1) chunkSize
    have hlt := Nat.lt_div_mul_add (a := offset + len - 1) hpos
    rw [hm, Nat.add_mul, Nat.succ_mul] at hend hlt
    have hmin : min len (chunkSize - first) = chunkSize - first := by omega
    have hb₁ : (b + 1) * chunkSize = offset + (chunkSize - first) := by
      rw [Nat.succ_mul]
      omega
    rw [hmin] at hy₁
    obtain ⟨y₂, hcopy₂, hy₂⟩ := foldlM_copy hcopy m hy₁ hb₁ (by omega)
    have hb₂ : (b + 1 + m) * chunkSize + 0 = offset + (chunkSize - first + m * chunkSize) := by
      rw [Nat.add_mul, hb₁]
      omega
    have hrounds : b + 1 + m - (b + 1) = m := Nat.add_sub_cancel_left _ _
    have hsum : chunkSize - first + m * chunkSize +
        (len - (chunkSize - first + m * chunkSize)) = len := by omega
    obtain ⟨y₃, hcopy₃, hy₃⟩ := hcopy (b + 1 + m) 0 (len - (chunkSize - first + m * chunkSize)) _ y₂
      hy₂ hb₂ (by omega) (by omega)
    rw [hsum] at hy₃
    refine ⟨y₃, ?_, hy₃⟩
    have hmany' : b < b + 1 + m := by omega
    rw [hm, Nat.succ_eq_add_one, hrounds, hcopy₂, ok_bind, if_pos hmany',
      hleft _ _ hy₂ (by omega), hcopy₃]
  · have hlt := Nat.lt_div_mul_add (a := offset + len - 1) hpos
    have heq : (offset + len - 1) / chunkSize = b := by omega
    rw [heq] at hlt ⊢
    have hmin : min len (chunkSize - first) = len := by omega
    rw [hmin] at hy₁
    refine ⟨y₁, ?_, hy₁⟩
    have hnone : b - (b + 1) = 0 := by omega
    rw [hnone, List.range'_zero, List.foldlM_nil, except_pure, ok_bind, if_neg (Nat.lt_irrefl b)]

theorem Ready.access (h : Ready s) (hcount : s.maxOccupyCount ≠ 0) (chunk : Nat) {pos n : Nat}
    (hpos : pos + n ≤ s.chunkSize) (hle : chunk * s.chunkSize + pos + n ≤ s.file.length) :
    ∃ s' data, s.chunkData rand chunk = .ok (s', data) ∧ pos + n ≤ data ∧ Ready s' ∧
      Same s s' := by
  have hchunk : chunk ≤ s.file.length / s.chunkSize :=
    (Nat.le_div_iff_mul_le (chunkSize_pos s)).mpr (by omega)
  have hsize : pos + n ≤ s.sizeOfChunk chunk := by
    rw [sizeOfChunk_eq]
    omega
  obtain ⟨s', hdata, hready, hsame⟩ :=
    h.chunkData rand hcount ((Nat.lt_succ_of_le hchunk).trans_eq h.length.symm)
  exact ⟨s', _, hdata, hsize, hready, hsame⟩

theorem Inv.div_lt (h : Inv s) (hle : offset + len ≤ s.file.length) :
    (offset + len - 1) / s.chunkSize < 2 ^ 32 := by
  have hdiv : (offset + len - 1) / s.chunkSize ≤ s.file.length / s.chunkSize :=
    Nat.div_le_div_right (by omega)
  have hlt := h.length_lt
  rw [h.length] at hlt
  omega

theorem clampLen_eq (hbounds : offset + len < 2 ^ 64) :
    s.clampLen offset len = flatLen s.file offset len := by
  have hu64 : u64 (offset + len : Nat) = offset + len := by
    rw [u64]
    omega
  rw [ChunkedFile.clampLen, flatLen, hu64]
  split
  next => omega
  next =>
    split
    next => omega
    next => omega

/-- Up to `k` bytes from `offset` on were read from the file of `s`. -/
structure ReadSoFar (s : ChunkedFile) (offset k : Nat) (x : ChunkedFile × Bytes) : Prop where
  ready : Ready x.1
  same : Same s x.1
  dest : x.2 = (s.file.drop offset).take k

/-- The first `k` bytes of the source were written from `offset` on to the file of `s`. -/
structure WrittenSoFar (s : ChunkedFile) (src : Bytes) (offset k : Nat) (x : ChunkedFile × Bytes) :
    Prop where
  ready : Ready x.1
  same : Same { s with file := splice s.file offset (src.take k) } x.1
  src : x.2 = src.drop k

theorem ReadSoFar.copyFrom {offset len chunk pos n k : Nat} (hcount : s.maxOccupyCount ≠ 0)
    (hle : offset + len ≤ s.file.length) (h : ReadSoFar s offset k x)
    (hbegin : chunk * s.chunkSize + pos = offset + k) (hpos : pos + n ≤ s.chunkSize)
    (hk : k + n ≤ len) :
    ∃ y, ChunkedFile.copyFrom rand chunk pos n x = .ok y ∧ ReadSoFar s offset (k + n) y := by
  obtain ⟨s₁, dest⟩ := x
  obtain ⟨hready, hsame, hdest⟩ := h
  obtain ⟨s₂, data, hdata, hsize, hready₂, hsame₂⟩ := hready.access rand
    (hsame.maxOccupyCount ▸ hcount) chunk (hsame.chunkSize ▸ hpos)
    (by rw [hsame.chunkSize, hsame.file]; omega)
  have hpiece : dest ++ (s₂.file.drop (chunk * s₂.chunkSize + pos)).take n =
      (s.file.drop offset).take (k + n) := by
    rw [hsame₂.file, hsame₂.chunkSize, hsame.file, hsame.chunkSize, hbegin, List.take_add,
      List.drop_drop, ← hdest]
  refine ⟨(s₂, (s.file.drop offset).take (k + n)), ?_, hready₂, hsame.trans hsame₂, rfl⟩
  rw [ChunkedFile.copyFrom, hdata, ok_bind]
  dsimp only
  rw [if_pos hsize, hpiece]
  rfl

theorem Ready.of_length (h : Ready s) {file : Bytes} (hlength : file.length = s.file.length) :
    Ready { s with file := file } where
  length := hlength ▸ h.length
  length_lt := h.length_lt
  nodup := h.nodup
  lt := h.lt
  line := fun i hi => by
    have hsize : ChunkedFile.sizeOfChunk { s with file := file } i = s.sizeOfChunk i := by
      rw [sizeOfChunk_eq, sizeOfChunk_eq, hlength]
      rfl
    rw [hsize]
    exact h.line i hi
  count := h.count

theorem WrittenSoFar.copyTo {src : Bytes} {offset chunk pos n k : Nat}
    (hcount : s.maxOccupyCount ≠ 0) (hle : offset + src.length ≤ s.file.length)
    (h : WrittenSoFar s src offset k x) (hbegin : chunk * s.chunkSize + pos = offset + k)
    (hpos : pos + n ≤ s.chunkSize) (hk : k + n ≤ src.length) :
    ∃ y, ChunkedFile.copyTo rand chunk pos n x = .ok y ∧ WrittenSoFar s src offset (k + n) y := by
  obtain ⟨s₁, rest⟩ := x
  obtain ⟨hready, hsame, rfl⟩ := h
  have hlength : (splice s.file offset (src.take k)).length = s.file.length := by
    rw [length_splice (by omega), List.length_take]
    omega
  have hsize₁ : s₁.chunkSize = s.chunkSize := hsame.chunkSize
  obtain ⟨s₂, data, hdata, hsize, hready₂, hsame₂⟩ := hready.access rand
    (hsame.maxOccupyCount ▸ hcount) chunk (hsize₁ ▸ hpos)
    (by rw [hsize₁, hsame.file, hlength]; omega)
  have hpiece : splice s₂.file (chunk * s₂.chunkSize + pos) ((src.drop k).take n) =
      splice s.file offset (src.take (k + n)) := by
    have htake : (src.take k).length = k := List.length_take_of_le (by omega)
    have hsum : splice (splice s.file offset (src.take k)) (offset + (src.take k).length) _ = _ :=
      splice_splice (by omega) ((src.drop k).take n)
    rw [htake] at hsum
    rw [hsame₂.file, hsame₂.chunkSize, hsame.file, hsize₁, hbegin, List.take_add]
    exact hsum
  have hlength₂ : (splice s.file offset (src.take (k + n))).length = s₂.file.length := by
    rw [hsame₂.file, hsame.file, hlength, length_splice (by omega), List.length_take]
    omega
  refine ⟨({ s₂ with file := splice s.file offset (src.take (k + n)) },
    (src.drop k).drop n), ?_,
    hready₂.of_length hlength₂, ⟨?_, rfl, ?_⟩, ?_⟩
  · rw [ChunkedFile.copyTo, hdata, ok_bind]
    dsimp only
    rw [if_pos hsize, hpiece]
    rfl
  · exact hsame₂.chunkShift.trans hsame.chunkShift
  · exact hsame₂.maxOccupyCount.trans hsame.maxOccupyCount
  · rw [List.drop_drop]

theorem Ready.read (h : Ready s) (hbounds : offset + len < 2 ^ 64)
    (hcount : flatLen s.file offset len ≠ 0 → s.maxOccupyCount ≠ 0) :
    ∃ s', s.read rand offset len =
      .ok (s', (s.file.drop offset).take (flatLen s.file offset len)) ∧ Ready s' ∧ Same s s' := by
  rw [ChunkedFile.read, clampLen_eq hbounds]
  generalize hn : flatLen s.file offset len = n at hcount
  by_cases hzero : n = 0
  · rw [if_pos hzero, hzero, List.take_zero]
    exact ⟨s, rfl, h, ⟨rfl, rfl, rfl⟩⟩
  · have hle : offset + n ≤ s.file.length := by
      rw [flatLen] at hn
      omega
    have hleft : ∀ k y, ReadSoFar s offset k y → k ≤ n → n - y.2.length = n - k := by
      rintro k ⟨s₁, dest⟩ ⟨-, -, hdest⟩ hk
      rw [hdest, List.length_take, List.length_drop]
      omega
    have hover : ∃ y, ChunkedFile.overChunks (ChunkedFile.copyFrom rand) (fun x => n - x.2.length)
        offset n (s, []) = .ok y ∧ ReadSoFar s offset n y :=
      overChunks_of (ReadSoFar s offset)
        (fun _ _ _ _ _ hy hbegin hpos hk => hy.copyFrom rand (hcount hzero) hle hbegin hpos hk)
        hleft ⟨h, ⟨rfl, rfl, rfl⟩, rfl⟩ hzero (h.toInv.div_lt hle)
    obtain ⟨⟨s', dest⟩, hover, hready, hsame, rfl⟩ := hover
    rw [if_neg hzero, hover]
    exact ⟨s', rfl, hready, hsame⟩

theorem Ready.write (h : Ready s) {src : Bytes} {destOffset len : Nat}
    (hbounds : destOffset + len < 2 ^ 64) (hsrc : len ≤ src.length)
    (hcount : flatLen s.file destOffset len ≠ 0 → s.maxOccupyCount ≠ 0) :
    ∃ s', s.write rand src destOffset len = .ok (s', flatLen s.file destOffset len) ∧ Ready s' ∧
      Same { s with file := splice s.file destOffset (src.take (flatLen s.file destOffset len)) }
        s' := by
  rw [ChunkedFile.write, clampLen_eq hbounds]
  generalize hn : flatLen s.file destOffset len = n at hcount
  by_cases hzero : n = 0
  · rw [if_pos hzero, hzero, List.take_zero, splice_nil]
    exact ⟨s, rfl, h, ⟨rfl, rfl, rfl⟩⟩
  · have hle : destOffset + n ≤ s.file.length ∧ n ≤ src.length := by
      rw [flatLen] at hn
      omega
    have hlength : (src.take n).length = n := List.length_take_of_le hle.2
    have hleft : ∀ k y, WrittenSoFar s (src.take n) destOffset k y → k ≤ n →
        y.2.length = n - k := by
      rintro k ⟨s₁, rest⟩ ⟨-, -, hrest⟩ _
      rw [hrest, List.length_drop, hlength]
    have hbegin : Same { s with file := splice s.file destOffset ((src.take n).take 0) } s := by
      rw [List.take_zero, splice_nil]
      exact ⟨rfl, rfl, rfl⟩
    have hover : ∃ y, ChunkedFile.overChunks (ChunkedFile.copyTo rand) (fun x => x.2.length)
        destOffset n (s, src.take n) = .ok y ∧ WrittenSoFar s (src.take n) destOffset n y :=
      overChunks_of (WrittenSoFar s (src.take n) destOffset)
        (fun _ _ _ _ _ hy hbegin hpos hk =>
          hy.copyTo rand (hcount hzero) (by omega) hbegin hpos (by omega)) hleft
        ⟨h, hbegin, rfl⟩ hzero (h.toInv.div_lt hle.1)
    obtain ⟨⟨s', rest⟩, hover, hready, hsame, -⟩ := hover
    rw [List.take_take, Nat.min_self] at hsame
    rw [if_neg hzero, hover, ok_bind]
    exact ⟨s', rfl, hready, hsame⟩

/-! ## Runs -/

theorem ready_of_empty {lines : Nat} (hlength : lines = s.file.length / s.chunkSize + 1)
    (hlt : lines < 2 ^ 32) (hnone : s.lines = List.replicate lines none)
    (hempty : s.occupied = []) : Ready s := by
  have hlines : s.lines.length = lines := by rw [hnone, List.length_replicate]
  exact
    { length := hlines.trans hlength
      length_lt := hlines.trans_lt hlt
      nodup := hempty ▸ List.nodup_nil
      lt := fun i hi => absurd (hempty ▸ hi) List.not_mem_nil
      line := fun i hi => by
        rw [hempty, if_neg List.not_mem_nil, hnone]
        exact List.getElem?_replicate_of_lt (hlines ▸ hi)
      count := by
        rw [hempty]
        exact Nat.zero_le _ }

theorem Ready.resize (h : Ready s) {size : Nat} (hbounds : size / 2 ^ s.chunkShift + 1 < 2 ^ 32) :
    ∃ s', s.resize rand size = .ok s' ∧ Ready s' ∧ s'.chunkShift = s.chunkShift ∧
      s'.maxOccupyCount = s.maxOccupyCount ∧
      s'.file = s.file.take size ++ List.replicate (size - s.file.length) 0 := by
  obtain ⟨s₁, hdown, -, hsame, -⟩ :=
    h.toInv.evictDown rand 0 s.occupied.length (Nat.le_refl _)
  have hsize : s₁.chunkSize = 2 ^ s.chunkShift := by
    rw [hsame.chunkSize, ChunkedFile.chunkSize, Nat.one_shiftLeft]
  rw [← hsize] at hbounds
  have hlength : (s₁.file.take size ++ List.replicate (size - s₁.file.length) 0).length = size := by
    rw [List.length_append, List.length_take, List.length_replicate]
    omega
  rw [ChunkedFile.resize, hdown, ok_bind]
  dsimp only
  rw [if_pos hbounds, ← hsame.file, ← hsame.chunkShift, ← hsame.maxOccupyCount]
  refine ⟨_, rfl, ready_of_empty ?_ hbounds rfl rfl, rfl, rfl, rfl⟩
  rw [hlength]
  rfl

theorem Ready.step (h : Ready s) {call : Call} (hbounds : InBounds s.chunkShift call)
    (hcached : Accesses s.file call → s.maxOccupyCount ≠ 0) :
    ∃ s', step rand s call = .ok (s', (flatStep s.file call).2) ∧ Ready s' ∧
      s'.chunkShift = s.chunkShift ∧ s'.maxOccupyCount = nextCount s.maxOccupyCount call ∧
      s'.file = (flatStep s.file call).1 := by
  cases call with
  | read offset len =>
    obtain ⟨s', hread, hready, hsame⟩ := h.read rand hbounds hcached
    have hlength : ((s.file.drop offset).take (flatLen s.file offset len)).length =
        flatLen s.file offset len := by
      rw [List.length_take, List.length_drop, flatLen]
      omega
    refine ⟨s', ?_, hready, hsame.chunkShift, hsame.maxOccupyCount, hsame.file⟩
    rw [ChunkedMmappedFile.step, hread, ok_bind]
    dsimp only
    rw [hlength]
    rfl
  | write src destOffset len =>
    obtain ⟨s', hwrite, hready, hsame⟩ := h.write rand hbounds.1 hbounds.2 hcached
    refine ⟨s', ?_, hready, hsame.chunkShift, hsame.maxOccupyCount, hsame.file⟩
    rw [ChunkedMmappedFile.step, hwrite, ok_bind]
    rfl
  | resize size =>
    obtain ⟨s', hresize, hready, hrest⟩ := h.resize rand hbounds
    refine ⟨s', ?_, hready, hrest⟩
    rw [ChunkedMmappedFile.step, hresize, ok_bind]
    rfl
  | setCacheCount count =>
    obtain ⟨s₁, hdown, hinv, hsame, hle⟩ :=
      h.toInv.evictDown rand count s.occupied.length (Nat.le_refl _)
    refine ⟨{ s₁ with maxOccupyCount := count }, ?_, ⟨?_, hle⟩, hsame.chunkShift, rfl, hsame.file⟩
    · rw [ChunkedMmappedFile.step, ChunkedFile.setCacheCount, hdown]
      rfl
    · exact ⟨hinv.length, hinv.length_lt, hinv.nodup, hinv.lt, hinv.line⟩

/-- With the cache count 0 the victim is looked for in an empty cache. -/
theorem Ready.access_zero (h : Ready s) (hcount : s.maxOccupyCount = 0)
    (hlen : flatLen s.file offset len ≠ 0) :
    s.chunkData rand (s.chunk offset) = .error .undefinedBehaviour := by
  have hlines := h.length_lt
  have hchunk : s.chunk offset < s.lines.length := by
    rw [flatLen] at hlen
    have hdiv : offset / s.chunkSize ≤ s.file.length / s.chunkSize :=
      Nat.div_le_div_right (by omega)
    rw [h.length] at hlines ⊢
    rw [chunk_eq (by omega)]
    omega
  have hempty : s.occupied = [] := List.length_eq_zero_iff.mp (Nat.le_zero.mp (hcount ▸ h.count))
  have hvictim : s.findVictim rand = 2 ^ 32 - 1 := by
    rw [ChunkedFile.findVictim, hempty]
    rfl
  have hline : s.lines[2 ^ 32 - 1]? = none := List.getElem?_eq_none (by omega)
  rw [ChunkedFile.chunkData, element_eq (h.line _ hchunk), hempty, if_neg List.not_mem_nil, ok_bind]
  dsimp only
  rw [ChunkedFile.makeRoom, if_pos (by rw [hcount]; exact Nat.zero_le _), ChunkedFile.evict,
    hvictim, element, hline]
  rfl

theorem Ready.step_zero (h : Ready s) (hcount : s.maxOccupyCount = 0) {call : Call}
    (hbounds : InBounds s.chunkShift call) (haccesses : Accesses s.file call) :
    ChunkedMmappedFile.step rand s call = .error .undefinedBehaviour := by
  cases call with
  | read offset len =>
    rw [ChunkedMmappedFile.step, ChunkedFile.read, clampLen_eq hbounds]
    dsimp only
    rw [if_neg haccesses, ChunkedFile.overChunks, ChunkedFile.copyFrom,
      h.access_zero rand hcount haccesses]
    rfl
  | write src destOffset len =>
    rw [ChunkedMmappedFile.step, ChunkedFile.write, clampLen_eq hbounds.1]
    dsimp only
    rw [if_neg haccesses, ChunkedFile.overChunks, ChunkedFile.copyTo,
      h.access_zero rand hcount haccesses]
    rfl
  | resize size | setCacheCount count => exact haccesses.elim

/-- All calls return, with the results of the flat array, which is the file in the end. -/
def Right (rand : Nat → Nat) (s : ChunkedFile) (calls : List Call) : Prop :=
  ∃ s', run rand s calls = .ok (s', (flatRun s.file calls).2) ∧ s'.file = (flatRun s.file calls).1

theorem Ready.right_iff_cached (h : Ready s) {calls : List Call}
    (hbounds : ∀ call ∈ calls, InBounds s.chunkShift call) :
    Right rand s calls ↔ Cached s.file s.maxOccupyCount calls := by
  induction calls generalizing s with
  | nil => exact ⟨fun _ => trivial, fun _ => ⟨s, rfl, rfl⟩⟩
  | cons call calls ih =>
    have hfirst := hbounds call List.mem_cons_self
    rw [Cached]
    by_cases hcached : Accesses s.file call → s.maxOccupyCount ≠ 0
    · obtain ⟨s₁, hstep, hready, hshift, hcount, hfile⟩ := h.step rand hfirst hcached
      have hrest := ih hready fun c hc => hshift ▸ hbounds c (List.mem_cons_of_mem _ hc)
      rw [and_iff_right hcached, ← hfile, ← hcount, ← hrest, Right, Right, flatRun, run, hstep,
        ok_bind, hfile]
      dsimp only
      constructor
      · rintro ⟨s', hrun, hend⟩
        obtain ⟨⟨s₂, results⟩, hrun₂, hpure⟩ := bind_eq_ok hrun
        obtain ⟨rfl, hresults⟩ := Prod.mk.inj (Except.ok.inj hpure)
        obtain rfl : results = _ := (List.cons.inj hresults).2
        exact ⟨s₂, hrun₂, hend⟩
      · rintro ⟨s', hrun, hend⟩
        exact ⟨s', by rw [hrun]; rfl, hend⟩
    · obtain ⟨haccesses, hzero⟩ := Classical.not_imp.mp hcached
      have hstep := h.step_zero rand (not_not.mp hzero) hfirst haccesses
      constructor
      · rintro ⟨s', hrun, -⟩
        rw [run, hstep] at hrun
        cases hrun
      · exact fun hcached' => absurd hcached'.1 hcached

theorem ready_of_open {chunkShift : Nat} {file : Bytes}
    (hopen : ChunkedFile.doOpen chunkShift file = .ok s) :
    Ready s ∧ s.chunkShift = chunkShift ∧ s.file = file ∧ s.maxOccupyCount = 16 := by
  rw [ChunkedFile.doOpen] at hopen
  split at hopen
  next hlt =>
    obtain rfl := Except.ok.inj hopen
    exact ⟨ready_of_empty rfl hlt rfl rfl, rfl, rfl, rfl⟩
  next => cases hopen

theorem chunkedMmappedFile_right_iff (rand : Nat → Nat) {chunkShift : Nat} {file : Bytes}
    (hopen : ChunkedFile.doOpen chunkShift file = .ok s) {calls : List Call}
    (hbounds : ∀ call ∈ calls, InBounds chunkShift call) :
    Right rand s calls ↔ Cached file 16 calls := by
  obtain ⟨hready, rfl, rfl, hcount⟩ := ready_of_open hopen
  rw [hready.right_iff_cached rand hbounds, hcount]

theorem chunkedMmappedFile_right_iff_oneByte :
    ∃ s, ChunkedFile.doOpen 12 [7] = .ok s ∧
      (Right (fun _ => 0) s [.write [9] 0 1, .resize 5000, .read 0 5000] ↔
        Cached [7] 16 [.write [9] 0 1, .resize 5000, .read 0 5000]) :=
  ⟨_, rfl, @chunkedMmappedFile_right_iff _ (fun _ => 0) 12 [7] rfl _ (by simp [InBounds])⟩

theorem not_right_oneByte :
    ∃ s, ChunkedFile.doOpen 12 [7] = .ok s ∧
      ¬ Right (fun _ => 0) s [.setCacheCount 0, .read 0 1] := by
  obtain ⟨s, hopen⟩ : ∃ s, ChunkedFile.doOpen 12 [7] = .ok s := ⟨_, rfl⟩
  obtain ⟨hready, -, hfile, -⟩ := ready_of_open hopen
  refine ⟨s, hopen, fun hright => ?_⟩
  have hcached := (hready.right_iff_cached (fun _ => 0) (by simp [InBounds])).mp hright
  rw [hfile] at hcached
  exact hcached.2.1 Nat.one_ne_zero rfl

end Sserialize.ChunkedMmappedFile
