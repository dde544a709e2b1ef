import Sserialize.Storage.CompressedMmappedFileCreate

namespace Sserialize.CompressedMmappedFile

open ArrayCreator (flatLine starts)

/-- A call. The operating system maps a tile file that grows at the address `base`. -/
inductive Call where
  | read (offset : Nat) (dest : Bytes) (len : Nat)
  | setCacheCount (count base : Nat)
  deriving Repr, DecidableEq

/-- The bytes that a call should leave in the destination, and `len`. -/
def expected (src : Bytes) : Call → Option (Bytes × Nat)
  | .read offset dest len =>
    some (copied src offset dest (min len (src.length - offset)), min len (src.length - offset))
  | .setCacheCount _ _ => none

variable (cf : CompressedFile) (lzo : Lzo) (rand : Nat → Nat) (src : Bytes)

/-- The state after a call, and the destination and `len` of a read. -/
def step (c : ChunkCache) : Call → Except Fault (ChunkCache × Option (Bytes × Nat))
  | .read offset dest len => do
    let (c, dest, len) ← read cf lzo rand c offset dest len
    return (c, some (dest, len))
  | .setCacheCount count base => do
    let c ← setCacheCount cf rand base count c
    return (c, none)

def ReadsRight : ChunkCache → List Call → Prop
  | _, [] => True
  | c, call :: calls =>
    ∃ c', step cf lzo rand c call = .ok (c', expected src call) ∧ ReadsRight c' calls

/-- A read of a file of `size` bytes into `room` bytes. It does not begin behind the last chunk, and
it does not end with a chunk if it began in another one. -/
def CanRead (chunkSize size room offset len : Nat) : Prop :=
  offset > size ∨ len = 0 ∨
    offset + len < 2 ^ 64 ∧ min len (size - offset) ≤ room ∧
      offset / chunkSize * chunkSize < size ∧
      (offset / chunkSize = (offset + min len (size - offset) - 1) / chunkSize ∨
        (offset + min len (size - offset)) % chunkSize ≠ 0)

def Fine (c : ChunkCache) : Call → Prop
  | .read offset dest len => CanRead cf.chunkSize src.length dest.length offset len
  | .setCacheCount count _ => CanResize cf c count

def FineRun : ChunkCache → List Call → Prop
  | _, [] => True
  | c, call :: calls =>
    Fine cf src c call ∧
      ∀ c' result, step cf lzo rand c call = .ok (c', result) → FineRun c' calls

variable {cf lzo rand src} {c : ChunkCache}

theorem Inv.step (hstores : Stores cf lzo src) (h : Inv cf src c) (rand : Nat → Nat) {call : Call}
    (hfine : Fine cf src c call) :
    ∃ c', step cf lzo rand c call = .ok (c', expected src call) ∧ Inv cf src c' := by
  cases call with
  | read offset dest len =>
    by_cases hempty : offset > src.length ∨ len = 0
    · have hnone : min len (src.length - offset) = 0 := by omega
      refine ⟨c, ?_, h⟩
      rw [CompressedMmappedFile.step, CompressedMmappedFile.read, hstores.size, if_pos hempty,
        expected, hnone, copied_zero]
      rfl
    · rw [not_or] at hempty
      rcases hfine with hbehind | hlen | ⟨hrange, hroom, hbegin, hend⟩
      · exact absurd hbehind hempty.1
      · exact absurd hlen hempty.2
      · obtain ⟨c', hread, hinv⟩ :=
          h.read hstores rand hempty.2 (not_lt.mp hempty.1) hbegin hrange hroom
        rw [copiedLen_eq (chunkSize_pos cf) hend] at hread
        refine ⟨c', ?_, hinv⟩
        rw [CompressedMmappedFile.step, hread]
        rfl
  | setCacheCount count base =>
    obtain ⟨c', hset, hinv⟩ := h.setCacheCount rand base hfine
    refine ⟨c', ?_, hinv⟩
    rw [CompressedMmappedFile.step, hset]
    rfl

theorem Inv.readsRight (hstores : Stores cf lzo src) (rand : Nat → Nat) (calls : List Call) :
    ∀ {c : ChunkCache}, Inv cf src c → FineRun cf lzo rand src c calls →
      ReadsRight cf lzo rand src c calls := by
  induction calls with
  | nil => exact fun _ _ => trivial
  | cons call calls ih =>
    intro c h hfine
    obtain ⟨c', hstep, hinv⟩ := h.step hstores rand hfine.1
    exact ⟨c', hstep, ih hinv (hfine.2 c' _ hstep)⟩

def RoundTrips (lzo : Lzo) (reaches : Nat → Nat → Bool) (estimate : List Nat → RegLine)
    (rand : Nat → Nat) (pageSize base count chunkSizeExponent : Nat) (src : Bytes)
    (calls : List Call) : Prop :=
  ∃ file cf c, create lzo reaches estimate src chunkSizeExponent = .ok file ∧
    doOpen pageSize base count file = .ok (some (cf, c)) ∧ ReadsRight cf lzo rand src c calls

section

variable {reaches : Nat → Nat → Bool} {estimate : List Nat → RegLine}
  {pageSize base count chunkSizeExponent : Nat}

theorem opened_spec {file : Bytes}
    (hinverts : ∀ bytes, lzo.decompress (lzo.compress bytes) = some bytes) (hpage : 0 < pageSize)
    (hcan : CanCreate lzo reaches estimate src chunkSizeExponent) (hpos : 0 < count)
    (hle : count ≤ 2 ^ 16) (hfile : create lzo reaches estimate src chunkSizeExponent = .ok file)
    (hopen : doOpen pageSize base count file = .ok (some (cf, c))) :
    cf.chunkShift = chunkSizeExponent ∧ Stores cf lzo src ∧ Inv cf src c ∧ c.occupied = [] := by
  obtain ⟨file', cf', c', hfile', hopen', hspec⟩ := doOpen_create hinverts hpage hcan hpos hle base
  cases hfile.symm.trans hfile'
  cases hopen.symm.trans hopen'
  exact hspec

/-- A run whose calls meet the condition, on a file whose source does. -/
theorem roundTrips_of_fineRun {calls : List Call}
    (hinverts : ∀ bytes, lzo.decompress (lzo.compress bytes) = some bytes) (hpage : 0 < pageSize)
    (hcan : CanCreate lzo reaches estimate src chunkSizeExponent) (hpos : 0 < count)
    (hle : count ≤ 2 ^ 16)
    (hcalls : ∀ file cf c, create lzo reaches estimate src chunkSizeExponent = .ok file →
      doOpen pageSize base count file = .ok (some (cf, c)) → FineRun cf lzo rand src c calls) :
    RoundTrips lzo reaches estimate rand pageSize base count chunkSizeExponent src calls := by
  obtain ⟨file, cf, c, hfile, hopen, -, hstores, hinv, -⟩ :=
    doOpen_create hinverts hpage hcan hpos hle base
  exact ⟨file, cf, c, hfile, hopen,
    hinv.readsRight hstores rand calls (hcalls file cf c hfile hopen)⟩

end

def plainLzo : Lzo := ⟨id, some⟩

theorem chunkOf_replicate {chunkSize i m : Nat} (h : (i + 1) * chunkSize ≤ m) :
    chunkOf chunkSize (List.replicate m 1) i = List.replicate chunkSize 1 := by
  rw [Nat.succ_mul] at h
  rw [chunkOf, List.drop_replicate, List.take_replicate, Nat.min_eq_left (by omega)]

theorem starts_pair (first second : Bytes) : starts [first, second] = [0, first.length] := by
  simp [starts, List.range_succ]

theorem storedChunk_plainLzo (reaches : Nat → Nat → Bool) (inBuf : Bytes) :
    storedChunk plainLzo reaches inBuf = inBuf := by
  rw [storedChunk]
  split <;> rfl

theorem canCreate_twoChunks (reaches : Nat → Nat → Bool) :
    CanCreate plainLzo reaches (fun _ => flatLine) (List.replicate (2 ^ 17) 1) 16 := by
  have hlength : (List.replicate (2 ^ 17) (1 : UInt8)).length = 2 ^ 17 := List.length_replicate
  have hchunks : storedChunks plainLzo reaches (1 <<< 16)
      (List.replicate (2 ^ 17) 1) 2 = [List.replicate (2 ^ 16) 1, List.replicate (2 ^ 16) 1] := by
    have hchunk : ∀ i < 2, storedChunk plainLzo reaches
        (chunkOf (1 <<< 16) (List.replicate (2 ^ 17) 1) i) = List.replicate (2 ^ 16) 1 := by
      intro i hi
      rw [storedChunk_plainLzo]
      exact chunkOf_replicate (by omega)
    rw [storedChunks_succ, storedChunks_succ, hchunk 0 (by decide), hchunk 1 (by decide)]
    rfl
  have hwritten : HasWritten plainLzo reaches (1 <<< 16) (List.replicate (2 ^ 17) 1)
      (2 + headerSize) 2
      (putChunks plainLzo reaches (1 <<< 16) (List.replicate (2 ^ 17) 1)) := by
    have hnums : chunkNums (1 <<< 16) (List.replicate (2 ^ 17) (1 : UInt8)).length = 2 := by
      rw [hlength]
      rfl
    rw [putChunks, hnums]
    exact hasWritten _ _
  have hdata := hwritten.data
  have hoffsets := hwritten.destOffsets
  rw [hchunks] at hdata hoffsets
  refine ⟨le_rfl, by decide, ?_, ?_, ?_⟩
  · rw [hlength]
    decide
  · rw [hdata, List.flatten_cons, List.flatten_singleton, List.length_append,
      List.length_replicate]
    decide
  · rw [hoffsets, starts_pair, List.length_replicate]
    exact ⟨by decide, by decide, by decide⟩

/-- Both chunks are compressed, and the one tile that is left holds one, then the other, then the
first one again. -/
theorem roundTrips_twoChunks : RoundTrips plainLzo (fun _ _ => true) (fun _ => flatLine) id 4096 0
    32 16 (List.replicate (2 ^ 17) 1)
    [.setCacheCount 1 0, .read 65530 [0, 0, 0, 0, 0, 0, 0, 0] 8, .read 3 [0, 0] 2] := by
  have hcan := canCreate_twoChunks fun _ _ => true
  refine roundTrips_of_fineRun (fun _ => rfl) (by decide) hcan (by decide) (by decide)
    fun file cf c hfile hopen => ?_
  obtain ⟨hshift, -, -, hnil⟩ :=
    opened_spec (fun _ => rfl) (by decide) hcan (by decide) (by decide) hfile hopen
  have hchunkSize : cf.chunkSize = 65536 := by
    rw [chunkSize_eq, hshift]
    rfl
  have hlength : (List.replicate (2 ^ 17) (1 : UInt8)).length = 2 ^ 17 := List.length_replicate
  refine ⟨⟨le_rfl, fun _ => ⟨by decide, fun i hi => ?_⟩⟩, fun c' _ _ =>
    ⟨?_, fun _ _ _ => ⟨?_, fun _ _ _ => trivial⟩⟩⟩
  · rw [hnil] at hi
    exact absurd hi List.not_mem_nil
  · rw [Fine, hchunkSize, hlength]
    exact .inr (.inr (by decide))
  · rw [Fine, hchunkSize, hlength]
    exact .inr (.inr (by decide))

theorem copied_replicate_ne {n m : Nat} (h : n < m) :
    copied (List.replicate m 1) 0 (List.replicate m 0) n ≠
      copied (List.replicate m 1) 0 (List.replicate m 0) m := by
  intro heq
  have hat := congrArg (fun l : Bytes => l[n]?) heq
  rw [copied, copied, List.drop_zero, List.take_replicate, List.take_replicate,
    List.drop_replicate, List.drop_replicate, Nat.min_eq_left h.le, Nat.min_self,
    Nat.sub_self, List.replicate_zero, List.append_nil,
    List.getElem?_append_right (by rw [List.length_replicate]), List.length_replicate,
    Nat.sub_self, List.getElem?_replicate, List.getElem?_replicate, if_pos h,
    if_pos (Nat.sub_pos_of_lt h)] at hat
  exact absurd hat (by decide)

/-- A read of two whole chunks misses the second one. -/
theorem not_roundTrips_twoChunks : ¬ RoundTrips plainLzo (fun _ _ => false) (fun _ => flatLine) id
    4096 0 32 16 (List.replicate (2 ^ 17) 1) [.read 0 (List.replicate (2 ^ 17) 0) (2 ^ 17)] := by
  rintro ⟨file, cf, c, hfile, hopen, c', hstep, -⟩
  obtain ⟨hshift, hstores, hinv, -⟩ :=
    opened_spec (fun _ => rfl) (by decide) (canCreate_twoChunks _) (by decide) (by decide) hfile hopen
  have hchunkSize : cf.chunkSize = 65536 := by
    rw [chunkSize_eq, hshift]
    rfl
  have hlength : (List.replicate (2 ^ 17) (1 : UInt8)).length = 2 ^ 17 := List.length_replicate
  have hroom : (List.replicate (2 ^ 17) (0 : UInt8)).length = 2 ^ 17 := List.length_replicate
  have hcopied : copiedLen 65536 0 (2 ^ 17) = 2 ^ 16 := by decide
  have hbegin : 0 / cf.chunkSize * cf.chunkSize < (List.replicate (2 ^ 17) (1 : UInt8)).length := by
    rw [hlength, Nat.zero_div, Nat.zero_mul]
    decide
  have hfits : min (2 ^ 17) ((List.replicate (2 ^ 17) (1 : UInt8)).length - 0) ≤
      (List.replicate (2 ^ 17) (0 : UInt8)).length := by
    rw [hroom, hlength]
    decide
  obtain ⟨c'', hread, -⟩ :=
    hinv.read hstores id (by decide) (Nat.zero_le _) hbegin (by decide) hfits
  rw [hlength, Nat.sub_zero, Nat.min_self, hchunkSize, hcopied] at hread
  rw [step, hread, expected, hlength, Nat.sub_zero, Nat.min_self] at hstep
  have hdest := congrArg (fun r : ChunkCache × Option (Bytes × Nat) => r.2.map Prod.fst)
    (Except.ok.inj hstep)
  exact copied_replicate_ne (by decide) (Option.some.inj hdest)

end Sserialize.CompressedMmappedFile
