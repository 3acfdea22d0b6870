import SectorChain.Proofs.Tree
import SectorChain.Entry

/-!
# Names in entries

A name of a path fills at most nine of the ten bytes of its field. A name without a NUL is read
back as it was written; a NUL cuts it.

Results:
* `toString?_ofString`: a text reads back from its own bytes.
* `text_ofName`: so does a name from the field of an entry.
* `text_ofName_nul`, `nul_not_mem_text`: a NUL cuts it, and is in no name that is read.
* `follow_nul`: so a path with a NUL in it leads nowhere.
* `isName_lastName`: what a valid path ends with is a name.
-/

namespace SectorChain

/-! ## UTF-8 -/

/-- Only NUL has a zero among its bytes. -/
theorem ne_zero_of_mem_utf8EncodeChar {c : Char} (hc : c ≠ '\x00') {b : UInt8}
    (hb : b ∈ String.utf8EncodeChar c) : b ≠ 0 := by
  have hv : c.val.toNat ≠ 0 := fun h => hc (Char.ext (UInt32.toNat_inj.mp h))
  have hbyte : ∀ {n : Nat}, n % 256 ≠ 0 → UInt8.ofNat n ≠ 0 := by
    intro n hn h
    have := congrArg UInt8.toNat h
    rw [UInt8.toNat_ofNat'] at this
    exact hn this
  unfold String.utf8EncodeChar at hb
  dsimp only at hb
  split at hb
  · rw [List.mem_singleton.mp hb]
    exact hbyte (by omega)
  · split at hb
    · simp only [List.mem_cons, List.not_mem_nil, or_false] at hb
      rcases hb with rfl | rfl <;> exact hbyte (by omega)
    · split at hb
      · simp only [List.mem_cons, List.not_mem_nil, or_false] at hb
        rcases hb with rfl | rfl | rfl <;> exact hbyte (by omega)
      · simp only [List.mem_cons, List.not_mem_nil, or_false] at hb
        rcases hb with rfl | rfl | rfl | rfl <;> exact hbyte (by omega)

namespace Bytes

theorem length_ofString (s : String) : (ofString s).length = s.utf8ByteSize := rfl

/-- **A text reads back** from its own bytes. -/
theorem toString?_ofString (s : String) : toString? (ofString s) = some s := by
  unfold toString? ofString String.fromUTF8?
  rw [Array.toArray_toList]
  exact dif_pos s.isValidUTF8

theorem toString?_eq_some {bytes : Bytes} {s : String} (h : toString? bytes = some s) :
    ofString s = bytes := by
  unfold toString? String.fromUTF8? at h
  split at h
  · cases h
    rfl
  · cases h

theorem ofString_append (s t : String) : ofString (s ++ t) = ofString s ++ ofString t := by
  unfold ofString
  simp

theorem ne_zero_of_mem_ofString {s : String} (h : '\x00' ∉ s.toList) {b : UInt8}
    (hb : b ∈ ofString s) : b ≠ 0 := by
  unfold ofString at hb
  rw [String.toUTF8_eq_toByteArray, ← String.utf8Encode_toList] at hb
  unfold List.utf8Encode at hb
  rw [List.data_toByteArray] at hb
  obtain ⟨c, hc, hb⟩ := List.mem_flatMap.mp hb
  exact ne_zero_of_mem_utf8EncodeChar (fun heq => h (heq ▸ hc)) hb

theorem zero_mem_ofString {s : String} (h : '\x00' ∈ s.toList) : 0 ∈ ofString s := by
  unfold ofString
  rw [String.toUTF8_eq_toByteArray, ← String.utf8Encode_toList]
  unfold List.utf8Encode
  rw [List.data_toByteArray]
  exact List.mem_flatMap.mpr ⟨'\x00', h, by decide⟩

theorem fit_eq (n : Nat) (bytes : Bytes) :
    fit n bytes = bytes.take n ++ zeros (n - bytes.length) := by
  unfold fit pad
  by_cases hlt : bytes.length < n
  · rw [List.take_of_length_le (Nat.le_of_lt hlt), if_pos hlt]
  · rw [if_neg (by rw [List.length_take]; omega), Nat.sub_eq_zero_of_le (Nat.not_lt.mp hlt)]
    exact (List.append_nil _).symm

/-- The beginning of a string that is short enough stays as it is. -/
theorem fit_append {n : Nat} {front : Bytes} (tail : Bytes) (h : front.length ≤ n) :
    fit n (front ++ tail) = front ++ fit (n - front.length) tail := by
  rw [fit_eq, fit_eq, List.take_append, List.take_of_length_le h, List.length_append,
    List.append_assoc, Nat.sub_sub]

theorem fit_succ (n : Nat) (bytes : Bytes) :
    fit (n + 1) bytes = bytes.headD 0 :: fit n bytes.tail := by
  rw [fit_eq, fit_eq]
  cases bytes with
  | nil =>
    rw [List.take_nil, List.tail_nil, List.take_nil]
    rfl
  | cons b rest =>
    rw [List.take_succ_cons, List.length_cons, Nat.add_sub_add_right]
    rfl

end Bytes

/-! ## Fields -/

namespace NameField

/-- The name in a field ends before the first zero. -/
theorem text_ofBytes {n : String} (hlen : n.utf8ByteSize ≤ Layout.nameMax)
    (hnul : '\x00' ∉ n.toList) {tail : Bytes} (htail : tail.headD 0 = 0) :
    (ofBytes (Bytes.ofString n ++ tail)).text = n := by
  rw [← Bytes.length_ofString] at hlen
  obtain ⟨room, hroom⟩ : ∃ room, Layout.nameMax + 1 - (Bytes.ofString n).length = room + 1 :=
    ⟨_, Nat.succ_sub hlen⟩
  have hfit : (ofBytes (Bytes.ofString n ++ tail)).bytes =
      Bytes.ofString n ++ 0 :: Bytes.fit room tail.tail := by
    show Bytes.fit _ _ = _
    rw [Bytes.fit_append tail (Nat.le_succ_of_le hlen), hroom, Bytes.fit_succ, htail]
  unfold text
  rw [hfit, List.takeWhile_append_of_pos fun b hb => ?_, List.takeWhile_cons_of_neg (by decide),
    List.append_nil, List.take_of_length_le hlen, Bytes.toString?_ofString]
  · rfl
  · exact bne_iff_ne.mpr (Bytes.ne_zero_of_mem_ofString hnul hb)

/-- **A name is read back** as it was written. -/
theorem text_ofName {n : String} (hname : Path.isName n = true) (hnul : '\x00' ∉ n.toList) :
    (ofName n).text = n := by
  unfold Path.isName at hname
  have hlen := of_decide_eq_true (Bool.and_eq_true_iff.mp hname).2
  have htext := @text_ofBytes n hlen hnul [] rfl
  rwa [List.append_nil] at htext

/-- **A NUL cuts a name**: what stands behind it is not read back. -/
theorem text_ofName_nul {n : String} (hlen : n.utf8ByteSize ≤ Layout.nameMax)
    (hnul : '\x00' ∉ n.toList) (rest : String) : (ofName (n ++ ("\x00" ++ rest))).text = n := by
  unfold ofName
  rw [Bytes.ofString_append, Bytes.ofString_append]
  exact text_ofBytes hlen hnul rfl

/-- No name that is read has a NUL. -/
theorem nul_not_mem_text (f : NameField) : '\x00' ∉ f.text.toList := by
  intro h
  unfold text at h
  cases htext : Bytes.toString? ((f.bytes.takeWhile (· != 0)).take Layout.nameMax) with
  | none =>
    rw [htext] at h
    cases h
  | some s =>
    rw [htext] at h
    have hzero : 0 ∈ Bytes.ofString s := Bytes.zero_mem_ofString h
    rw [Bytes.toString?_eq_some htext] at hzero
    have hkept := List.all_eq_true.mp List.all_takeWhile 0 (List.mem_of_mem_take hzero)
    cases hkept

end NameField

/-! ## Paths -/

namespace Route

/-- What a route ends with is a part of the path. -/
theorem lastName_subset {r : Route} (h : r.fault? = none) :
    (Slots.lastName r).toList ⊆ r.chars := by
  induction r with
  | invalid rest => cases h
  | last n => exact fun c hc => List.mem_cons_of_mem _ hc
  | step n rest ih =>
    exact fun c hc => List.mem_cons_of_mem _ (List.mem_append_right _ (ih h hc))

theorem isName_lastName_ofPieces {pieces : List (List Char)} (h : (ofPieces pieces).fault? = none) :
    Path.isName (Slots.lastName (ofPieces pieces)) = true := by
  induction pieces with
  | nil => cases h
  | cons piece rest ih =>
    unfold ofPieces at h ⊢
    split at h
    · rename_i hname
      rw [if_pos hname]
      cases rest with
      | nil => exact hname
      | cons next rest => exact ih h
    · cases h

theorem chars_ofPath (path : String) : (ofPath path).chars = path.toList := by
  have htext := congrArg String.toList (text_ofPath path)
  unfold text at htext
  rwa [String.toList_ofList] at htext

/-- **What a valid path ends with is a name**, of characters of the path. -/
theorem isName_lastName {path : String} (h : (ofPath path).fault? = none) :
    Path.isName (Slots.lastName (ofPath path)) = true ∧
      (Slots.lastName (ofPath path)).toList ⊆ path.toList := by
  constructor
  · unfold ofPath at h ⊢
    split at h
    · exact isName_lastName_ofPieces h
    · cases h
  · rw [← chars_ofPath path]
    exact lastName_subset h

/-- An entry for the last name of a valid path has this name, if there is no NUL in it. -/
theorem name_ofFile_lastName {path : String} (h : (ofPath path).fault? = none)
    (hnul : '\x00' ∉ path.toList) (kind : Kind) (sector : Nat) :
    (Entry.ofFile (Slots.lastName (ofPath path)) kind sector).name =
      Slots.lastName (ofPath path) := by
  obtain ⟨hname, hsub⟩ := isName_lastName h
  exact NameField.text_ofName hname fun hmem => hnul (hsub hmem)

/-- The path of the root has no names. -/
theorem ne_root_of_fault? {path : String} (h : (ofPath path).fault? = none) : path ≠ "/" := by
  rintro rfl
  exact absurd h (by decide)

end Route

theorem Path.validate_of_fault? {path : String} (h : (Route.ofPath path).fault? = none) :
    validate path = .ok () := by
  unfold validate
  split
  · rfl
  · rw [h]

namespace Slots

variable {α β : Type} {path : String}

theorem find?_nul {n : String} (hn : '\x00' ∈ n.toList) (slots : Slots α β Entry) :
    find? Entry.name slots n = none := by
  cases hfind : find? Entry.name slots n with
  | none => rfl
  | some p =>
    obtain ⟨i, e, t⟩ := p
    obtain ⟨-, rfl⟩ := find?_eq_some hfind
    exact absurd hn e.field.nul_not_mem_text

/-- **A path with a NUL in it leads nowhere**, as there is no NUL in a name that is read. -/
theorem follow_nul {r : Route} (hr : '\x00' ∈ r.chars) (slots : Slots α β Entry) :
    ∃ x, follow Entry.name path r slots = .error x := by
  induction r generalizing slots with
  | invalid rest => exact ⟨_, rfl⟩
  | last n =>
    have hn : '\x00' ∈ n.toList := by simpa [Route.chars] using hr
    unfold follow
    rw [find?_nul hn]
    exact ⟨_, rfl⟩
  | step n rest ih =>
    unfold follow
    split
    · exact ⟨_, rfl⟩
    · exact ⟨_, rfl⟩
    · rename_i below hfind
      by_cases hn : '\x00' ∈ n.toList
      · cases (find?_nul hn slots).symm.trans hfind
      · have hrest : '\x00' ∈ rest.chars := by simpa [Route.chars, hn] using hr
        exact ih hrest below

end Slots

/-- A route along which slots were changed is that of a valid path. -/
theorem Slots.fault?_of_change {α β ε : Type} {name : ε → String} {path : String}
    {edit : Slots α β ε → String → Except VolumeError (Slots α β ε)} {r : Route}
    {slots slots' : Slots α β ε} (h : change name path edit r slots = .ok slots') :
    r.fault? = none := by
  induction r generalizing slots slots' with
  | invalid rest => cases h
  | last n => rfl
  | step n rest ih =>
    unfold change at h
    split at h
    · cases h
    · cases h
    · rename_i i e b below _
      cases hbelow : change name path edit rest below with
      | error x =>
        rw [hbelow] at h
        cases h
      | ok below' => exact ih hbelow

end SectorChain
