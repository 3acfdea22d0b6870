import SectorChain.Record

/-!
# Links

A stored sector number is a word whose highest bit must be clear; every word with that bit set
stands for no sector, the end of a chain. A sector from 2 ^ 31 on has therefore no link of its own.

Results:
* `target_ofSector_eq`: a sector comes back from its link just if it is below the limit.
* `target_eq_none_iff`: the links to nowhere are those with the highest bit set.
* `take_eq_ok_iff`: a link is read exactly from the bytes that are written for it.
-/

namespace SectorChain

/-- A stored sector number, or the end of a chain. -/
structure Link where
  word : UInt32
  deriving DecidableEq, Repr

namespace Link

/-- The sectors below this number have links of their own. -/
def limit : Nat := 0x80000000

/-- `END_OF_CHAIN`: the link that is written for the end of a chain, all bits set. -/
def endOfChain : Link := ⟨0xFFFFFFFF⟩

/-- The link to a sector. -/
def ofSector (sector : Nat) : Link := ⟨UInt32.ofNat sector⟩

/-- `encode_sector`: the link to a sector, or the end of a chain. -/
def ofOption : Option Nat → Link
  | some sector => ofSector sector
  | none => endOfChain

/-- `decode_sector`: the sector that a link leads to. -/
def target (l : Link) : Option Nat :=
  if l.word.toNat < limit then some l.word.toNat else none

/-- The stored number, as a signed one. -/
def value (l : Link) : Int := Bytes.signed l.word

/-- The four bytes of a link. -/
def encode (l : Link) : Bytes := Bytes.ofWord l.word

/-- The link at the front of a string, and what follows it. -/
def take (bytes : Bytes) : Except RecordError (Link × Bytes) := do
  let (word, rest) ← Record.takeWord bytes
  return (⟨word⟩, rest)

@[simp] theorem length_encode (l : Link) : l.encode.length = 4 := rfl

@[simp] theorem target_endOfChain : endOfChain.target = none := rfl

theorem toNat_ofSector {sector : Nat} (h : sector < 0x100000000) :
    (ofSector sector).word.toNat = sector := by
  show (UInt32.ofNat sector).toNat = sector
  rw [UInt32.toNat_ofNat', Nat.mod_eq_of_lt h]

/-- **The link to a sector leads back to it** just if the sector is below the limit. -/
theorem target_ofSector_eq {sector : Nat} (h : sector < 0x100000000) :
    (ofSector sector).target = if sector < limit then some sector else none := by
  unfold target
  rw [toNat_ofSector h]

theorem target_ofSector {sector : Nat} (h : sector < limit) :
    (ofSector sector).target = some sector := by
  rw [target_ofSector_eq (Nat.lt_trans h (by decide)), if_pos h]

/-- The link that leads to a sector is the one that is written for it. -/
theorem eq_ofSector {l : Link} {sector : Nat} (h : l.target = some sector) :
    l = ofSector sector := by
  unfold target at h
  split at h
  · cases h
    rw [ofSector, UInt32.ofNat_toNat]
  · cases h

theorem target_eq_none_iff {l : Link} : l.target = none ↔ limit ≤ l.word.toNat := by
  unfold target
  split <;> simp <;> omega

theorem take_encode (l : Link) (rest : Bytes) : take (l.encode ++ rest) = .ok (l, rest) := by
  simp only [take, encode, Record.takeWord_ofWord]
  rfl

/-- Two strings that begin with links begin with the same one. -/
theorem append_inj {l l' : Link} {x y : Bytes} (h : l.encode ++ x = l'.encode ++ y) :
    l = l' ∧ x = y := by
  have htake := take_encode l x
  rw [h, take_encode] at htake
  cases htake
  exact ⟨rfl, rfl⟩

theorem take_eq_ok_iff {bytes rest : Bytes} {l : Link} :
    take bytes = .ok (l, rest) ↔ bytes = l.encode ++ rest := by
  constructor
  · intro h
    unfold take at h
    cases hw : Record.takeWord bytes with
    | error e => simp [hw, bind, Except.bind] at h
    | ok found =>
      simp only [hw, bind, Except.bind, pure, Except.pure, Except.ok.injEq, Prod.mk.injEq] at h
      obtain ⟨rfl, rfl⟩ := h
      exact Record.takeWord_eq_ok_iff.mp hw
  · rintro rfl
    exact take_encode l rest

end Link

end SectorChain
