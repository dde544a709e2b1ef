import Sserialize.ItemIndex.WAHFromBitSet

namespace Sserialize.ItemIndexPrivateWAH

open BitString SetBits WahCreator

/-- The opened index has well-formed words that are read as the ids of `l`, and bit sets whose storage
is `contiguous` or not get them. -/
structure RoundTrips (contiguous : Bool) (l : IdList) (opened : Except Fault ItemIndexPrivateWAH)
    (idx : ItemIndexPrivateWAH) : Prop where
  opens : opened = .ok idx
  wellFormed : ∀ w ∈ idx.words, (WahWord.ofWord w).WellFormed
  size : idx.size = l.ids.length
  atEach : ∀ positions : List Nat, (∀ pos ∈ positions, pos < l.ids.length) →
    idx.atEach positions (.new idx) = .ok (positions.map (l.ids.getD · 0))
  putInto : ∀ bitSet, ∃ bitSet', idx.putInto contiguous bitSet = .ok bitSet' ∧
    ∀ i, bitSet'.isSet i = (bitSet.isSet i || decide (i ∈ l.ids))

variable {vs : List WahWord}

variable {l : IdList}

variable {opened : Except Fault ItemIndexPrivateWAH} {contiguous : Bool}

end Sserialize.ItemIndexPrivateWAH
