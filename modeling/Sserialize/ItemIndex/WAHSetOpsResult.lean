import Mathlib.Data.List.Induction
import Sserialize.ItemIndex.WAHRoundTrip
import Sserialize.ItemIndex.WAHSetOpsCorrect

namespace Sserialize

open SetBits WahWord

namespace OutPutHandler

open ItemIndexPrivateWAH BitSetEncoder

def pendingZeros : Option WahWord → Nat
  | some (.run false count) => count
  | _ => 0

def pendingGroups : Option WahWord → List Nat
  | some v => v.groups
  | none => []

/-- The handler has put the words `vs`, the word `p` is pending, all together `gs`. -/
structure Handled (h : OutPutHandler) (gs : List Nat) (vs : List WahWord)
    (p : Option WahWord) : Prop where
  data : h.data = vs.map WahWord.word
  wellFormed : ∀ v ∈ vs, WahWord.WellFormed v
  outPutWord : h.outPutWord = (p.map WahWord.word).getD 0
  pending : ∀ v ∈ p, WahWord.WellFormed v
  groups : gs = groupsOf vs ++ pendingGroups p
  idCount : h.idCount = u32 (idsOf (groupsOf vs)).length
  trailing : trailingZeros gs = pendingZeros p
  put_le : 31 * (groupsOf vs).length < 2 ^ 32 + 31

theorem handled_new : Handled .new [] [] none :=
  ⟨rfl, by simp, rfl, by simp, rfl, rfl, rfl, by decide⟩

theorem word_ne_zero {v : WahWord} (hv : v.WellFormed) : v.word ≠ 0 := by
  cases v with
  | run value count => exact run_word_ne_zero value count
  | literal g =>
    have hpos := hv.1
    rw [word]
    omega

theorem idsOf_append (fs gs : List Nat) :
    (idsOf (fs ++ gs)).length = (idsOf fs).length + (groupBits gs).count true := by
  rw [idsOf, idsOf, length_positions, length_positions, groupBits_append, List.count_append]

theorem popCount_group {g : Nat} (hg : g < 2 ^ 31) : popCount g = (lowFirst 31 g).count true := by
  have hall : popCount g = (lowFirst 32 g).count true := by
    rw [lowFirst_eq_map, List.count, List.countP_map]
    refine List.countP_congr fun i _ => ?_
    simp
  have hhigh : lowFirst (31 + 1) g = lowFirst 31 g ++ List.replicate 1 false := lowFirst_of_lt hg
  rw [hall, hhigh, List.count_append]
  rfl

theorem Handled.push {h : OutPutHandler} {gs : List Nat} {vs : List WahWord} {v : WahWord}
    (hh : Handled h gs vs (some v)) :
    h.push.data = (vs ++ [v]).map WahWord.word ∧ h.push.idCount = u32 (idsOf gs).length := by
  have hv := hh.pending v rfl
  have hword : h.outPutWord = v.word := hh.outPutWord
  have hgs : gs = groupsOf vs ++ v.groups := hh.groups
  refine ⟨?_, ?_⟩
  · rw [List.map_append, ← hh.data]
    show h.data ++ [h.outPutWord] = _
    rw [hword]
    rfl
  · unfold OutPutHandler.push
    rw [hgs, idsOf_append, hword, hh.idCount]
    cases v with
    | run value count =>
      rw [run_and_three, run_shift_two, groupBits_run]
      cases value
      · rw [List.count_replicate]
        rfl
      · rw [List.count_replicate_self]
        show u32 (u32 _ + u32 _) = _
        rw [u32_add_u32, u32_add_left]
    | literal g =>
      rw [literal_and_three, literal_shift_one, groupBits_literal,
        ← popCount_group (literal_lt hv)]
      rcases Nat.mod_two_eq_zero_or_one g with hg | hg
      · rw [hg]
        exact u32_add_u32 _ _
      · rw [hg]
        exact u32_add_u32 _ _

theorem trailingZeros_append_zeros (gs : List Nat) (n : Nat) :
    trailingZeros (gs ++ List.replicate n 0) = trailingZeros gs + n := by
  induction n with
  | zero => rw [List.replicate_zero, List.append_nil, Nat.add_zero]
  | succ n ih =>
    rw [List.replicate_succ', ← List.append_assoc, trailingZeros_append, if_pos rfl, ih,
      Nat.add_assoc]

variable {w : WahWord}

theorem trailingZeros_append_word (hw : w.WellFormed) (gs : List Nat) :
    trailingZeros (gs ++ w.groups) =
      if pendingZeros (some w) = 0 then 0 else trailingZeros gs + pendingZeros (some w) := by
  cases w with
  | run value count =>
    cases value with
    | false =>
      have hpos : pendingZeros (some (.run false count)) = count := rfl
      rw [hpos, if_neg hw.1.ne']
      exact trailingZeros_append_zeros gs count
    | true =>
      obtain ⟨n, rfl⟩ : ∃ n, count = n + 1 := ⟨count - 1, by have hpos := hw.1; omega⟩
      have hne : runGroup true ≠ 0 := by decide
      rw [groups, List.replicate_succ', ← List.append_assoc, trailingZeros_append, if_neg hne]
      rfl
  | literal g =>
    rw [groups, trailingZeros_append, if_neg hw.1.ne']
    rfl

theorem groups_lt {v : WahWord} (hv : v.WellFormed) : ∀ g ∈ v.groups, g < 2 ^ 31 := by
  intro g hg
  cases v with
  | run value count =>
    rw [List.eq_of_mem_replicate hg]
    cases value <;> decide
  | literal g' =>
    rw [List.mem_singleton.mp hg]
    exact literal_lt hv

theorem length_lt_of_ne_zero {fs gs : List Nat} {g : Nat} (hne : g ≠ 0) (hg : g < 2 ^ 31)
    (hids : ∀ id ∈ idsOf (fs ++ g :: gs), id < 2 ^ 32) : 31 * fs.length < 2 ^ 32 := by
  have hlog : Nat.log2 g < 31 := (Nat.log2_lt hne).mpr hg
  have hid := hids (31 * fs.length + Nat.log2 g) (mem_idsOf.mpr (by
    have hdiv : (31 * fs.length + Nat.log2 g) / 31 = fs.length := by omega
    have hmod : (31 * fs.length + Nat.log2 g) % 31 = Nat.log2 g := by omega
    rw [hdiv, hmod]
    simp [List.getD, Nat.testBit_log2 hne]))
  omega

theorem groups_eq_cons (hw : w.WellFormed) (hzeros : pendingZeros (some w) = 0) :
    ∃ g gs, w.groups = g :: gs ∧ g ≠ 0 ∧ g < 2 ^ 31 := by
  have hlt := groups_lt hw
  cases w with
  | run value count =>
    obtain ⟨n, rfl⟩ : ∃ n, count = n + 1 := ⟨count - 1, by have hpos := hw.1; omega⟩
    cases value with
    | false => cases hzeros
    | true => exact ⟨runGroup true, List.replicate n (runGroup true), rfl, by decide, by decide⟩
  | literal g => exact ⟨g, [], rfl, hw.1.ne', literal_lt hw⟩

theorem groups_eq_append (hw : w.WellFormed) (hzeros : pendingZeros (some w) = 0) :
    ∃ g gs, w.groups = gs ++ [g] ∧ g ≠ 0 ∧ g < 2 ^ 31 := by
  cases w with
  | run value count =>
    obtain ⟨n, rfl⟩ : ∃ n, count = n + 1 := ⟨count - 1, by have hpos := hw.1; omega⟩
    cases value with
    | false => cases hzeros
    | true =>
      exact ⟨runGroup true, List.replicate n (runGroup true), List.replicate_succ', by decide,
        by decide⟩
  | literal g => exact ⟨g, [], rfl, hw.1.ne', literal_lt hw⟩

theorem run_and_two_eq (value : Bool) (count : Nat) :
    (run value count).word &&& 0x2 = 2 * value.toNat := by
  rw [and_two, run_testBit_one]

theorem run_and_two_inj {a b : Bool} {n m : Nat} :
    (run a n).word &&& 0x2 = (run b m).word &&& 0x2 ↔ a = b := by
  rw [run_and_two_eq, run_and_two_eq]
  cases a <;> cases b <;> decide

variable {h : OutPutHandler} {vs : List WahWord} {gs : List Nat}

theorem Handled.append_merge {a : Bool} {n m : Nat} (hh : Handled h gs vs (some (.run a n)))
    (hw : (run a m).WellFormed) (hsum : n + m < 2 ^ 30) :
    Handled (h.append (run a m).word) (gs ++ (run a m).groups) vs (some (.run a (n + m))) := by
  have hword : h.outPutWord = (run a n).word := hh.outPutWord
  have hmerge : u32 (h.outPutWord + ((run a m).word &&& not32 0x3)) = (run a (n + m)).word := by
    have hvalue := Bool.toNat_le a
    rw [hword, run_and_not32_three a hw.2, word, word, u32_of_lt (by omega)]
    omega
  have happend : h.append (run a m).word = { h with outPutWord := (run a (n + m)).word } := by
    have hruns : (run a m).word &&& 0x1 ≠ 0 ∧ h.outPutWord &&& 0x1 ≠ 0 := by
      rw [hword, run_and_one, run_and_one]
      decide
    have hsame : (run a m).word &&& 0x2 = h.outPutWord &&& 0x2 := by
      rw [hword, run_and_two_inj]
    rw [append, if_pos hruns, if_pos hsame, hmerge]
  have hv := hh.pending _ rfl
  rw [happend]
  refine { hh with
    outPutWord := rfl
    pending := ?_
    groups := ?_
    trailing := ?_ }
  · intro v hv'
    rw [← Option.some.inj hv']
    exact ⟨Nat.add_pos_left hv.1 m, hsum⟩
  · rw [hh.groups, List.append_assoc]
    congr 1
    exact List.replicate_append_replicate
  · have htrailing := hh.trailing
    rw [trailingZeros_append_word hw]
    cases a with
    | false =>
      have hpos : pendingZeros (some (.run false m)) ≠ 0 := hw.1.ne'
      rw [if_neg hpos, htrailing]
      rfl
    | true => rfl

theorem append_of_ne {v w : WahWord} (hword : h.outPutWord = v.word) (hv : v.WellFormed)
    (hne : ∀ a n m, v = .run a n → w ≠ .run a m) : h.append w.word = { h.push with outPutWord := w.word } := by
  have hpending : h.outPutWord ≠ 0 := by
    rw [hword]
    exact word_ne_zero hv
  have hsingle : ¬ (w.word &&& 0x1 ≠ 0 ∧ h.outPutWord &&& 0x1 ≠ 0) →
      h.append w.word = { h.push with outPutWord := w.word } := by
    intro hnot
    rw [append, if_neg hnot, if_pos hpending]
  cases v with
  | literal g =>
    refine hsingle ?_
    rw [hword, literal_and_one]
    exact fun hand => hand.2 rfl
  | run a n =>
    cases w with
    | literal g =>
      refine hsingle ?_
      rw [literal_and_one]
      exact fun hand => hand.1 rfl
    | run b m =>
      have hruns : (run b m).word &&& 0x1 ≠ 0 ∧ h.outPutWord &&& 0x1 ≠ 0 := by
        rw [hword, run_and_one, run_and_one]
        decide
      have hvalue : ¬ (run b m).word &&& 0x2 = h.outPutWord &&& 0x2 := by
        rw [hword, run_and_two_inj]
        intro hba
        rw [hba] at hne
        exact hne a n m rfl rfl
      rw [append, if_pos hruns, if_neg hvalue]

variable {p : Option WahWord}

theorem pendingZeros_eq_zero (hnew : ∀ a n m, p = some (.run a n) → w ≠ .run a m)
    (hw : pendingZeros (some w) ≠ 0) : pendingZeros p = 0 := by
  cases w with
  | literal g => exact absurd rfl hw
  | run b m =>
    cases b with
    | true => exact absurd rfl hw
    | false =>
      cases p with
      | none => rfl
      | some v =>
        cases v with
        | literal g => rfl
        | run a n =>
          cases a with
          | true => rfl
          | false => exact absurd rfl (hnew false n m rfl)

theorem Handled.append_next (hh : Handled h gs vs p) (hw : w.WellFormed)
    (hids : ∀ id ∈ idsOf (gs ++ w.groups), id < 2 ^ 32)
    (hnew : ∀ a n m, p = some (.run a n) → w ≠ .run a m) :
    Handled (h.append w.word) (gs ++ w.groups) (vs ++ p.toList) (some w) := by
  have htrailing : trailingZeros (gs ++ w.groups) = pendingZeros (some w) := by
    rw [trailingZeros_append_word hw, hh.trailing]
    by_cases hzeros : pendingZeros (some w) = 0
    · rw [if_pos hzeros, hzeros]
    · rw [if_neg hzeros]
      rw [pendingZeros_eq_zero hnew hzeros, Nat.zero_add]
  cases p with
  | none =>
    have happend : h.append w.word = { h with outPutWord := w.word } := by
      have hzero : h.outPutWord = 0 := hh.outPutWord
      have hnot : ¬ (w.word &&& 0x1 ≠ 0 ∧ h.outPutWord &&& 0x1 ≠ 0) := by
        rw [hzero]
        rintro ⟨-, hne⟩
        exact hne rfl
      rw [append, if_neg hnot, hzero, if_neg (not_not.mpr rfl)]
    rw [happend, Option.toList_none, List.append_nil]
    refine { hh with
      outPutWord := rfl
      pending := fun v hv => by rw [← Option.some.inj hv]; exact hw
      groups := by rw [hh.groups]; simp [pendingGroups]
      trailing := htrailing }
  | some v =>
    have hv := hh.pending v rfl
    have happend : h.append w.word = { h.push with outPutWord := w.word } :=
      append_of_ne hh.outPutWord hv fun a n m hvw hww => hnew a n m (by rw [hvw]) hww
    obtain ⟨hdata, hcount⟩ := hh.push
    have hgs : groupsOf (vs ++ [v]) = gs := by
      rw [groupsOf_append, hh.groups]
      simp [pendingGroups]
    rw [happend, Option.toList_some]
    refine ⟨hdata, WahCreator.wellFormed_append hh.wellFormed hv, rfl,
      fun u hu => by rw [← Option.some.inj hu]; exact hw, by rw [hgs]; rfl, by rw [hgs]; exact hcount,
      htrailing, ?_⟩
    have hlen : gs.length = (groupsOf vs).length + v.groups.length := by
      rw [hh.groups, List.length_append]
      rfl
    rw [hgs]
    by_cases hzeros : pendingZeros (some v) = 0
    · obtain ⟨g, gs', hgroups, hne, hlt⟩ := groups_eq_append hv hzeros
      have hsplit : gs ++ w.groups = (groupsOf vs ++ gs') ++ g :: w.groups := by
        rw [hh.groups]
        simp [pendingGroups, hgroups]
      rw [hsplit] at hids
      have hbound := length_lt_of_ne_zero hne hlt hids
      rw [List.length_append] at hbound
      rw [hgroups, List.length_append, List.length_singleton] at hlen
      omega
    · have hnext : pendingZeros (some w) = 0 := by
        by_contra hw_zeros
        exact hzeros (pendingZeros_eq_zero hnew hw_zeros)
      obtain ⟨g, gs', hgroups, hne, hlt⟩ := groups_eq_cons hw hnext
      rw [hgroups] at hids
      have hbound := length_lt_of_ne_zero hne hlt hids
      omega

theorem Handled.overflows_iff (hh : Handled h gs vs p) (hw : w.WellFormed) :
    h.Overflows w.word ↔ ∃ a n m, p = some (.run a n) ∧ w = .run a m ∧ 2 ^ 30 ≤ n + m := by
  have hword := hh.outPutWord
  constructor
  · rintro ⟨⟨hnext, hrun⟩, hsame, hbig⟩
    cases w with
    | literal g => exact absurd (literal_and_one g) hnext
    | run b m =>
      cases p with
      | none =>
        rw [hword] at hrun
        exact absurd rfl hrun
      | some v =>
        cases v with
        | literal g =>
          rw [hword] at hrun
          exact absurd (literal_and_one g) hrun
        | run a n =>
          have hword' : h.outPutWord = (run a n).word := hword
          rw [hword'] at hsame
          rw [hword', run_and_not32_three b hw.2, word] at hbig
          have hba := run_and_two_inj.mp hsame
          have hvalue := Bool.toNat_le a
          exact ⟨a, n, m, rfl, by rw [hba], by omega⟩
  · rintro ⟨a, n, m, rfl, rfl, hbig⟩
    have hword' : h.outPutWord = (run a n).word := hword
    refine ⟨⟨?_, ?_⟩, ?_, ?_⟩
    · rw [run_and_one]
      decide
    · rw [hword', run_and_one]
      decide
    · rw [hword', run_and_two_inj]
    · rw [hword', run_and_not32_three a hw.2, word]
      omega

theorem Handled.append (hh : Handled h gs vs p) (hw : w.WellFormed)
    (hids : ∀ id ∈ idsOf (gs ++ w.groups), id < 2 ^ 32) (hfits : ¬ h.Overflows w.word) :
    ∃ vs' p', Handled (h.append w.word) (gs ++ w.groups) vs' p' := by
  rw [hh.overflows_iff hw] at hfits
  by_cases hmerge : ∃ a n m, p = some (.run a n) ∧ w = .run a m
  · obtain ⟨a, n, m, rfl, rfl⟩ := hmerge
    have hsum : n + m < 2 ^ 30 := by
      by_contra hbig
      exact hfits ⟨a, n, m, rfl, rfl, Nat.le_of_not_lt hbig⟩
    exact ⟨vs, _, hh.append_merge hw hsum⟩
  · exact ⟨_, _, hh.append_next hw hids fun a n m hp hw' => hmerge ⟨a, n, m, hp, hw'⟩⟩

theorem trailingZeros_append_of_ge {fs gs : List Nat} (hbig : 2 ^ 30 ≤ fs.length)
    (hgs : ∀ g ∈ gs, g < 2 ^ 31) (hids : ∀ id ∈ idsOf (fs ++ gs), id < 2 ^ 32) :
    trailingZeros (fs ++ gs) = trailingZeros fs + gs.length := by
  induction gs generalizing fs with
  | nil => rw [List.append_nil]; rfl
  | cons g gs ih =>
    have hzero : g = 0 := by
      by_contra hne
      have hlen := length_lt_of_ne_zero hne (hgs g (by simp)) hids
      omega
    have hsplit : fs ++ g :: gs = (fs ++ [g]) ++ gs := by simp
    rw [hsplit] at hids ⊢
    rw [ih (by rw [List.length_append]; omega) (fun f hf => hgs f (List.mem_cons_of_mem _ hf)) hids,
      trailingZeros_append, if_pos hzero, List.length_cons]
    omega

theorem Handled.trailing_of_overflows (hh : Handled h gs vs p) (hw : w.WellFormed)
    (hids : ∀ id ∈ idsOf (gs ++ w.groups), id < 2 ^ 32) (hover : h.Overflows w.word) :
    2 ^ 30 ≤ trailingZeros (gs ++ w.groups) := by
  obtain ⟨a, n, m, rfl, rfl, hbig⟩ := (hh.overflows_iff hw).mp hover
  have htrailing := hh.trailing
  rw [trailingZeros_append_word hw]
  cases a with
  | false =>
    have hpos : pendingZeros (some (.run false m)) ≠ 0 := hw.1.ne'
    rw [if_neg hpos, htrailing]
    exact hbig
  | true =>
    -- the ones alone would have an id above the range
    obtain ⟨k, rfl⟩ : ∃ k, m = k + 1 := ⟨m - 1, by have hpos := hw.1; omega⟩
    have hgs := hh.groups
    have hsplit : gs ++ (run true (k + 1)).groups =
        (groupsOf vs ++ List.replicate n allOnes ++ List.replicate k allOnes) ++ [allOnes] := by
      rw [hgs, WahWord.groups, List.replicate_succ']
      simp only [pendingGroups, WahWord.groups, runGroup, if_true, List.append_assoc]
    rw [hsplit] at hids
    have hlen := length_lt_of_ne_zero (by decide) (by decide) hids
    simp only [List.length_append, List.length_replicate] at hlen
    omega

theorem Handled.trailing_lt (hh : Handled h gs vs p) : trailingZeros gs < 2 ^ 30 := by
  have hpending := hh.pending
  rw [hh.trailing]
  cases p with
  | none => decide
  | some v =>
    cases v with
    | literal g => exact Nat.two_pow_pos 30
    | run a n =>
      cases a with
      | true => exact Nat.two_pow_pos 30
      | false => exact (hpending _ rfl).2

theorem groupsOf_lt (hvs : ∀ v ∈ vs, WahWord.WellFormed v) : ∀ g ∈ groupsOf vs, g < 2 ^ 31 := by
  intro g hg
  obtain ⟨v, hv, hgv⟩ := List.mem_flatMap.mp hg
  exact groups_lt (hvs v hv) g hgv

theorem inRange_append_left {fs gs : List Nat} (h : ∀ id ∈ idsOf (fs ++ gs), id < 2 ^ 32) :
    ∀ id ∈ idsOf fs, id < 2 ^ 32 := by
  intro id hid
  refine h id ?_
  rw [idsOf, groupBits_append, positions_append]
  exact List.mem_append_left _ hid

/-- The merged runs stay below 30 bits as long as fewer than `2 ^ 30` groups of zeros end the
groups. -/
theorem neverOverflows_iff {ws : List WahWord} (hws : ∀ w ∈ ws, WahWord.WellFormed w)
    (hh : Handled h gs vs p) (hids : ∀ id ∈ idsOf (gs ++ groupsOf ws), id < 2 ^ 32) :
    NeverOverflows h (ws.map WahWord.word) ↔ trailingZeros (gs ++ groupsOf ws) < 2 ^ 30 := by
  induction ws generalizing h gs vs p with
  | nil =>
    rw [groupsOf_nil, List.append_nil]
    exact ⟨fun _ => hh.trailing_lt, fun _ => trivial⟩
  | cons w ws ih =>
    have hw := hws w (by simp)
    have hws' : ∀ w ∈ ws, WahWord.WellFormed w := fun v hv => hws v (List.mem_cons_of_mem _ hv)
    rw [groupsOf_cons, ← List.append_assoc] at hids ⊢
    have hids' := inRange_append_left hids
    rw [List.map_cons, NeverOverflows]
    by_cases hover : h.Overflows w.word
    · have hbig := hh.trailing_of_overflows hw hids' hover
      have hlen := trailingZeros_le (gs ++ w.groups)
      rw [trailingZeros_append_of_ge (by omega) (groupsOf_lt hws') hids]
      exact ⟨fun hnever => absurd hover hnever.1, fun hsmall => by omega⟩
    · obtain ⟨vs', p', hnext⟩ := hh.append hw hids' hover
      rw [← ih hws' hnext hids]
      exact ⟨fun hnever => hnever.2, fun hrest => ⟨hover, hrest⟩⟩

theorem Handled.foldl {ws : List WahWord} (hws : ∀ w ∈ ws, WahWord.WellFormed w)
    (hh : Handled h gs vs p) (hids : ∀ id ∈ idsOf (gs ++ groupsOf ws), id < 2 ^ 32)
    (hnever : NeverOverflows h (ws.map WahWord.word)) :
    ∃ vs' p', Handled ((ws.map WahWord.word).foldl OutPutHandler.append h) (gs ++ groupsOf ws)
      vs' p' := by
  induction ws generalizing h gs vs p with
  | nil =>
    rw [groupsOf_nil, List.append_nil]
    exact ⟨vs, p, hh⟩
  | cons w ws ih =>
    rw [groupsOf_cons, ← List.append_assoc] at hids ⊢
    obtain ⟨hfits, hrest⟩ := hnever
    obtain ⟨vs', p', hnext⟩ := hh.append (hws w (by simp)) (inRange_append_left hids) hfits
    exact ih (fun v hv => hws v (List.mem_cons_of_mem _ hv)) hnext hids hrest

theorem Handled.flush (hh : Handled h gs vs p) :
    ∃ us, h.flush.data = us.map WahWord.word ∧ (∀ u ∈ us, WahWord.WellFormed u) ∧
      groupsOf us = gs ∧ h.flush.idCount = u32 (idsOf gs).length ∧ 4 * us.length < 2 ^ 32 := by
  have hlen := length_le_groupsOf hh.wellFormed
  have hput := hh.put_le
  have hword := hh.outPutWord
  have hgroups := hh.groups
  unfold OutPutHandler.flush
  cases p with
  | none =>
    have hzero : h.outPutWord = 0 := hword
    have hgs : groupsOf vs = gs := by
      rw [hgroups]
      simp [pendingGroups]
    rw [if_neg (not_not.mpr hzero)]
    exact ⟨vs, hh.data, hh.wellFormed, hgs, by rw [hh.idCount, hgs], by omega⟩
  | some v =>
    have hv := hh.pending v rfl
    have hne : h.outPutWord ≠ 0 := by
      rw [hword]
      exact word_ne_zero hv
    obtain ⟨hdata, hcount⟩ := hh.push
    rw [if_pos hne]
    refine ⟨vs ++ [v], hdata, WahCreator.wellFormed_append hh.wellFormed hv, ?_, hcount, ?_⟩
    · rw [groupsOf_append, hgroups]
      simp [pendingGroups]
    · rw [List.length_append, List.length_singleton]
      omega

end OutPutHandler

namespace ItemIndexPrivateWAH

open OutPutHandler

/-- A well-formed index: its words, and in the header the count of its ids. -/
structure WahIndex where
  words : List WahWord
  wellFormed : ∀ v ∈ words, WahWord.WellFormed v
  inRange : ∀ id ∈ idsOf (groupsOf words), id < 2 ^ 32
  count_lt : (idsOf (groupsOf words)).length < 2 ^ 32
  size_lt : 4 * words.length < 2 ^ 32

namespace WahIndex

def ids (a : WahIndex) : List Nat := idsOf (groupsOf a.words)

def groups (a : WahIndex) : List Nat := groupsOf a.words

def idx (a : WahIndex) : ItemIndexPrivateWAH := ⟨a.words.map WahWord.word, a.ids.length⟩

theorem ofData_idx (a : WahIndex) (rest : Bytes) :
    ofData (indexBytes a.idx.words a.idx.size ++ rest) = .ok a.idx := by
  have hws : ∀ w ∈ a.words.map WahWord.word, w < 2 ^ 32 := by
    intro w hw
    obtain ⟨v, hv, rfl⟩ := List.mem_map.mp hw
    exact WahWord.word_lt (a.wellFormed v hv)
  refine ofData_indexBytes a.ids.length hws ?_ a.count_lt rest
  rw [List.length_map]
  exact a.size_lt

theorem atEach_idx (a : WahIndex) {positions : List Nat}
    (hpos : ∀ pos ∈ positions, pos < a.ids.length) :
    a.idx.atEach positions (.new a.idx) = .ok (positions.map (a.ids.getD · 0)) :=
  atEach_spec (cached_new a.wellFormed rfl) a.inRange rfl hpos

end WahIndex

/-- The result of an operation: a well-formed index `c` whose ids are the set operation on the ids,
written with its byte length and its count, and no run counter has overflown. -/
structure SetOpSpec (op : SetOp) (a b c : WahIndex) : Prop where
  setOp : setOp op a.idx b.idx = .ok c.idx
  data : setOpData op a.idx b.idx = indexBytes c.idx.words c.idx.size
  ids : c.ids = op.apply a.ids b.ids
  atEach : ∀ positions : List Nat, (∀ pos ∈ positions, pos < (op.apply a.ids b.ids).length) →
    c.idx.atEach positions (.new c.idx) = .ok (positions.map ((op.apply a.ids b.ids).getD · 0))
  neverOverflows : NeverOverflows .new (setOpWords op a.idx b.idx)

def groupsUpTo (ids : List Nat) : Nat :=
  match ids.getLast? with
  | none => 0
  | some id => id / 31 + 1

def span (op : SetOp) (a b : WahIndex) : Nat :=
  max (min a.groups.length b.groups.length)
    (max (if op.func.pushFirstRemainder then a.groups.length else 0)
      (if op.func.pushSecondRemainder then b.groups.length else 0))

theorem trailingZeros_add {gs : List Nat} (hgs : ∀ g ∈ gs, g < 2 ^ 31) :
    trailingZeros gs + groupsUpTo (idsOf gs) = gs.length := by
  induction gs using List.reverseRecOn with
  | nil => rfl
  | append_singleton gs g ih =>
    have hsome := ih fun f hf => hgs f (List.mem_append_left _ hf)
    rw [trailingZeros_append, List.length_append, List.length_singleton]
    by_cases hzero : g = 0
    · have hids : idsOf (gs ++ [g]) = idsOf gs := by
        rw [hzero]
        exact BitSetEncoder.idsOf_append_zeros gs 1
      rw [if_pos hzero, hids]
      omega
    · have hbits : idsOf (gs ++ [g]) = idsOf gs ++ positions (31 * gs.length) (lowFirst 31 g) := by
        rw [idsOf, groupBits_append, positions_append, length_groupBits, Nat.zero_add]
        simp [idsOf]
      have hne : positions (31 * gs.length) (lowFirst 31 g) ≠ [] := by
        have hlog : Nat.log2 g < 31 := (Nat.log2_lt hzero).mpr (hgs g (by simp))
        refine List.ne_nil_of_mem (a := 31 * gs.length + Nat.log2 g) ?_
        rw [mem_positions, Nat.add_sub_cancel_left, getD_lowFirst]
        exact ⟨Nat.le_add_right _ _, by simp [hlog, Nat.testBit_log2 hzero]⟩
      have hlast := List.getLast_mem hne
      rw [mem_positions, getD_lowFirst, Bool.and_eq_true, decide_eq_true_iff] at hlast
      obtain ⟨hle, hlt, -⟩ := hlast
      have hgroups : groupsUpTo (idsOf (gs ++ [g])) = gs.length + 1 := by
        rw [groupsUpTo, hbits, List.getLast?_append, List.getLast?_eq_some_getLast hne]
        simp only [Option.some_or]
        omega
      rw [if_neg hzero, hgroups, Nat.zero_add]

variable (op : SetOp)

theorem setOp_fits_iff (a b : WahIndex) {ws : List WahWord} (hws : ∀ w ∈ ws, WahWord.WellFormed w)
    (hgroups : groupsOf ws = op.groups a.groups b.groups) :
    trailingZeros (groupsOf ws) < 2 ^ 30 ↔
      span op a b - groupsUpTo (op.apply a.ids b.ids) < 2 ^ 30 := by
  have hsum := trailingZeros_add (groupsOf_lt hws)
  have hids : idsOf (groupsOf ws) = op.apply a.ids b.ids := by
    rw [hgroups, op.idsOf_groups]
    rfl
  have hlen : (groupsOf ws).length = span op a b := by
    rw [hgroups]
    exact Overlay.length_overlay _ _
  rw [hids, hlen] at hsum
  omega

theorem mem_apply_lt (a b : WahIndex) : ∀ id ∈ op.apply a.ids b.ids, id < 2 ^ 32 := by
  intro id hid
  have hholds := (op.mem_apply (pairwise_idsOf _) (pairwise_idsOf _) id).mp hid
  have hmem : id ∈ a.ids ∨ id ∈ b.ids := by
    cases op with
    | intersect | difference => exact .inl hholds.1
    | unite => exact hholds
    | symmetricDifference => exact hholds.imp And.left And.left
  rcases hmem with hmem | hmem
  · exact a.inRange id hmem
  · exact b.inRange id hmem

theorem neverOverflows_setOpWords_iff (a b : WahIndex) :
    NeverOverflows .new (setOpWords op a.idx b.idx) ↔
      span op a b - groupsUpTo (op.apply a.ids b.ids) < 2 ^ 30 := by
  obtain ⟨ws, hwords, hws, hgroups⟩ := setOpWords_spec op a.idx b.idx rfl rfl
    a.wellFormed b.wellFormed
  have hids : idsOf (groupsOf ws) = op.apply a.ids b.ids := by
    rw [hgroups, op.idsOf_groups]
    rfl
  have hrange : ∀ id ∈ idsOf ([] ++ groupsOf ws), id < 2 ^ 32 := by
    rw [List.nil_append, hids]
    exact mem_apply_lt op a b
  rw [hwords, neverOverflows_iff hws handled_new hrange, List.nil_append,
    setOp_fits_iff op a b hws hgroups]

theorem setOpData_spec (a b : WahIndex) (hfits : NeverOverflows .new (setOpWords op a.idx b.idx)) :
    ∃ us, setOpData op a.idx b.idx =
        indexBytes (us.map WahWord.word) (u32 (op.apply a.ids b.ids).length) ∧
      (∀ u ∈ us, WahWord.WellFormed u) ∧ idsOf (groupsOf us) = op.apply a.ids b.ids ∧
      4 * us.length < 2 ^ 32 := by
  obtain ⟨ws, hwords, hws, hgroups⟩ := setOpWords_spec op a.idx b.idx rfl rfl
    a.wellFormed b.wellFormed
  have hids : idsOf (groupsOf ws) = op.apply a.ids b.ids := by
    rw [hgroups, op.idsOf_groups]
    rfl
  have hrange : ∀ id ∈ idsOf ([] ++ groupsOf ws), id < 2 ^ 32 := by
    rw [List.nil_append, hids]
    exact mem_apply_lt op a b
  rw [hwords] at hfits
  obtain ⟨vs, p, hh⟩ := handled_new.foldl hws hrange hfits
  obtain ⟨us, hdata, hus, hgroups', hcount, hsize⟩ := hh.flush
  rw [List.nil_append] at hgroups' hcount
  rw [← hwords] at hdata hcount
  rw [hids] at hcount
  refine ⟨us, ?_, hus, by rw [hgroups', hids], hsize⟩
  have hsize' : u32 (4 * (us.map WahWord.word).length) = 4 * (us.map WahWord.word).length := by
    rw [List.length_map]
    exact u32_of_lt hsize
  unfold setOpData
  simp only [hdata, hcount, hsize']
  rfl

theorem SetOpSpec.fits {op : SetOp} {a b c : WahIndex} (h : SetOpSpec op a b c) :
    (op.apply a.ids b.ids).length < 2 ^ 32 ∧
      span op a b - groupsUpTo (op.apply a.ids b.ids) < 2 ^ 30 := by
  refine ⟨?_, (neverOverflows_setOpWords_iff op a b).mp h.neverOverflows⟩
  rw [← h.ids]
  exact c.count_lt

/-- An operation is right exactly if it does not result in all ids and fewer than `2 ^ 30` groups
lie behind its last id. -/
theorem wah_setOp_iff (op : SetOp) (a b : WahIndex) :
    (∃ c, SetOpSpec op a b c) ↔ (op.apply a.ids b.ids).length < 2 ^ 32 ∧
      span op a b - groupsUpTo (op.apply a.ids b.ids) < 2 ^ 30 := by
  constructor
  · rintro ⟨c, h⟩
    exact h.fits
  · rintro ⟨hlen, hspan⟩
    have hfits := (neverOverflows_setOpWords_iff op a b).mpr hspan
    obtain ⟨us, hdata, hus, hids, hsize⟩ := setOpData_spec op a b hfits
    rw [u32_of_lt hlen] at hdata
    let c : WahIndex :=
      { words := us
        wellFormed := hus
        inRange := by rw [hids]; exact mem_apply_lt op a b
        count_lt := by rw [hids]; exact hlen
        size_lt := hsize }
    have hc : c.ids = op.apply a.ids b.ids := hids
    have hbytes : setOpData op a.idx b.idx = indexBytes c.idx.words c.idx.size := by
      rw [hdata, ← hc]
      rfl
    refine ⟨c, ?_, hbytes, hc, ?_, hfits⟩
    · have hopen := c.ofData_idx []
      rw [List.append_nil] at hopen
      rw [setOp, hbytes]
      exact hopen
    · intro positions hpos
      rw [← hc] at hpos ⊢
      exact c.atEach_idx hpos

theorem groupsOf_literal_runs (g n : Nat) :
    groupsOf [.literal g, .run false n, .run false n] = ([g] ++ List.replicate n (runGroup false)) ++
      List.replicate n (runGroup false) := by
  simp [WahWord.groups]

theorem idsOf_literal_runs (n : Nat) :
    idsOf (groupsOf [.literal 1, .run false n, .run false n]) = [0] := by
  rw [groupsOf_literal_runs, BitSetEncoder.idsOf_append_zeros, BitSetEncoder.idsOf_append_zeros]
  rfl

/-- The id 0, and behind it two runs of `2 ^ 29` groups without ids. -/
def wideIndex : WahIndex where
  words := [.literal 1, .run false (2 ^ 29), .run false (2 ^ 29)]
  wellFormed := by decide
  inRange := by
    rw [idsOf_literal_runs]
    decide
  count_lt := by
    rw [idsOf_literal_runs]
    decide
  size_lt := by decide

def zeroIndex : WahIndex where
  words := [.literal 1]
  wellFormed := by decide
  inRange := by decide
  count_lt := by decide
  size_lt := by decide

theorem ids_wideIndex : wideIndex.ids = [0] := idsOf_literal_runs (2 ^ 29)

theorem ids_zeroIndex : zeroIndex.ids = [0] := rfl

theorem span_wideIndex : span .unite wideIndex zeroIndex = 2 ^ 30 + 1 := by
  have hwide : wideIndex.groups.length = 2 ^ 30 + 1 := by
    show (groupsOf [.literal 1, .run false (2 ^ 29), .run false (2 ^ 29)]).length = _
    rw [groupsOf_literal_runs, List.length_append, List.length_append, List.length_replicate]
    rfl
  have hzero : zeroIndex.groups.length = 1 := rfl
  rw [span, hwide, hzero]
  decide

/-- The merged run has the count `2 ^ 30`, which its word cannot hold. -/
theorem wah_unite_overflows : wideIndex.ids ≠ [] ∧ zeroIndex.ids ≠ [] ∧
    ¬ ∃ c, SetOpSpec .unite wideIndex zeroIndex c := by
  refine ⟨by rw [ids_wideIndex]; decide, by rw [ids_zeroIndex]; decide, ?_⟩
  rintro ⟨c, h⟩
  have hspan := h.fits.2
  have hlast : groupsUpTo (SetOp.unite.apply [0] [0]) = 1 := by
    simp [SetOp.apply, SetOp.func, SortedMerge.merge, SortedMerge.keep, groupsUpTo]
  rw [span_wideIndex, ids_wideIndex, ids_zeroIndex, hlast] at hspan
  omega

end ItemIndexPrivateWAH

end Sserialize
