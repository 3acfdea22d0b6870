import SectorChain.Bytes
import SectorChain.Error

/-!
# Records

A stored record is the bytes of its fields in order, with nothing between them. Each reader takes
one field from the front of a string and gives what follows, so the first bad field is the one
that is reported.

Results:
* `takeBool_eq_ok_iff`, `takeWord_eq_ok_iff`, `takeBytes_eq_ok_iff`: a field is read exactly from
  the bytes that are written for it.
-/

namespace SectorChain

namespace Record

/-- The first byte. -/
def takeByte : Bytes → Except RecordError (UInt8 × Bytes)
  | b :: rest => .ok (b, rest)
  | [] => .error .unexpectedEnd

/-- A truth value: one byte, 0 or 1. -/
def takeBool (bytes : Bytes) : Except RecordError (Bool × Bytes) := do
  let (b, rest) ← takeByte bytes
  if b = 0 then .ok (false, rest)
  else if b = 1 then .ok (true, rest)
  else .error (.badBool b.toNat)

/-- The byte of a truth value. -/
def ofBool (b : Bool) : Bytes := [if b then 1 else 0]

/-- A word of four bytes. -/
def takeWord (bytes : Bytes) : Except RecordError (UInt32 × Bytes) :=
  match Bytes.word? bytes with
  | some found => .ok found
  | none => .error .unexpectedEnd

/-- The first `n` bytes. -/
def takeBytes (n : Nat) (bytes : Bytes) : Except RecordError (Bytes × Bytes) :=
  let front := bytes.take n
  if front.length = n then .ok (front, bytes.drop n) else .error .unexpectedEnd

theorem takeBool_ofBool (b : Bool) (rest : Bytes) :
    takeBool (ofBool b ++ rest) = .ok (b, rest) := by
  cases b <;> rfl

theorem takeBool_eq_ok_iff {bytes rest : Bytes} {b : Bool} :
    takeBool bytes = .ok (b, rest) ↔ bytes = ofBool b ++ rest := by
  constructor
  · intro h
    cases bytes with
    | nil => cases h
    | cons x tail =>
      simp only [takeBool, takeByte, bind, Except.bind] at h
      by_cases h0 : x = 0
      · rw [if_pos h0] at h
        obtain ⟨rfl, rfl⟩ := Prod.mk.inj (Except.ok.inj h)
        rw [h0]
        rfl
      · by_cases h1 : x = 1
        · rw [if_neg h0, if_pos h1] at h
          obtain ⟨rfl, rfl⟩ := Prod.mk.inj (Except.ok.inj h)
          rw [h1]
          rfl
        · rw [if_neg h0, if_neg h1] at h
          cases h
  · rintro rfl
    exact takeBool_ofBool b rest

theorem takeWord_ofWord (w : UInt32) (rest : Bytes) :
    takeWord (Bytes.ofWord w ++ rest) = .ok (w, rest) := by
  rw [takeWord, Bytes.word?_append]

theorem takeWord_eq_ok_iff {bytes rest : Bytes} {w : UInt32} :
    takeWord bytes = .ok (w, rest) ↔ bytes = Bytes.ofWord w ++ rest := by
  rw [← Bytes.word?_eq_some_iff, takeWord]
  cases Bytes.word? bytes with
  | none => simp
  | some found => simp

theorem takeBytes_append (bytes rest : Bytes) :
    takeBytes bytes.length (bytes ++ rest) = .ok (bytes, rest) := by
  simp [takeBytes]

theorem takeBytes_eq_ok_iff {n : Nat} {bytes front rest : Bytes} :
    takeBytes n bytes = .ok (front, rest) ↔ front.length = n ∧ bytes = front ++ rest := by
  constructor
  · intro h
    simp only [takeBytes] at h
    split at h
    · rename_i hn
      obtain ⟨rfl, rfl⟩ := Prod.mk.inj (Except.ok.inj h)
      exact ⟨hn, (List.take_append_drop n bytes).symm⟩
    · cases h
  · rintro ⟨rfl, rfl⟩
    exact takeBytes_append front rest

end Record

end SectorChain
