import SectorChain.Proofs.Interruptions

/-!
# Writes that are cut short

A write to a file goes block by block. When an access fails, the blocks before it are written and
the others are as they were: the file is torn at the end of a block. Its chain stays as it is, and
no sector outside the chain changes.

* `Torn k k' l bytes pos j`: of a write to the chain `l`, the first `j` blocks are done. The last
  one of the chain is not among them, so no link has changed.

Results:
* `writeBlocks_survives`, `writeAt_survives`: a write that fails has replaced the front of its
  slice, up to the end of a block.
* `HasFile.write_survives`, `HasFile.overwrite_survives`: so has one to a file on the disk.
-/

namespace SectorChain

variable {F : Faults} {k k' : Disk}

namespace Disk

/-- What is spliced into the data of a chain, if it does not reach behind the end of the file, is
spliced into the content. -/
theorem content_splice_take {h : Header} {l : List Nat} {new : Bytes} {pos : Nat}
    (hlen : h.length ≤ l.length * k.dataSize) (hend : pos + new.length ≤ h.length)
    (hdata : k'.chainData l = Bytes.splice (k.chainData l) pos new) :
    k'.content h l = Bytes.splice (k.content h l) pos new := by
  have hpos : pos ≤ (k.chainData l).length := by
    rw [length_chainData]
    omega
  rw [content, hdata, Bytes.take_splice hpos hend, content]

/-- A block that leads to another one has the same links after it is written again. -/
theorem HasBlock.links_putBlock {b : Block} (hk : 0 < k.dataSize)
    (hb : b.data.length = k.dataSize) (hblock : k.HasBlock b.sector b.next) {t : Nat}
    (ht : b.next = some t) :
    ((k.putBlock b).bytes b.sector).take Layout.linkSize =
      (k.bytes b.sector).take Layout.linkSize := by
  obtain ⟨-, own, link, hbytes, hown, hlink⟩ := hblock
  rw [putBlock, bytes_put_self (length_encode_block hk hb), hbytes, Link.eq_ofSector hown,
    Link.eq_ofSector (hlink.trans ht), Block.encode, ht]
  rfl

/-- **A write that was cut short.** Of the bytes for the chain `l` from `pos` on, those are written
that fall into the first `j` blocks. No other sector has changed, and no sector has other links than
before. -/
structure Torn (k k' : Disk) (l : List Nat) (bytes : Bytes) (pos j : Nat) : Prop where
  keeps : k.Keeps k' (· ∉ (l.drop (pos / k.dataSize)).take j)
  links : ∀ s, (k'.bytes s).take Layout.linkSize = (k.bytes s).take Layout.linkSize
  linked : k'.Linked l
  data : k'.chainData l =
    Bytes.splice (k.chainData l) pos (bytes.take (j * k.dataSize - pos % k.dataSize))

namespace Torn

variable {l : List Nat} {bytes : Bytes} {pos j : Nat}

/-- Nothing is written yet. -/
theorem zero (hl : k.Linked l) (bytes : Bytes) (pos : Nat) : k.Torn k l bytes pos 0 where
  keeps := Keeps.refl k _
  links _ := rfl
  linked := hl
  data := by simp

/-- No sector outside the chain has changed. -/
theorem outside (h : k.Torn k' l bytes pos j) : k.Keeps k' (· ∉ l) :=
  h.keeps.mono fun _ hs hmem => hs (List.mem_of_mem_drop (List.mem_of_mem_take hmem))

/-- One block is written before the others. It is not the last one of the chain, so that its links
are what they were. -/
theorem next (hk : 0 < k.dataSize) (hl : k.Linked l) (hi : pos / k.dataSize + 1 < l.length)
    (h : (k.putBlock (k.writtenBlock l bytes pos (Nat.lt_of_succ_lt hi))).Torn k' l
      (bytes.drop (k.dataSize - pos % k.dataSize)) (pos + (k.dataSize - pos % k.dataSize)) j) :
    k.Torn k' l bytes pos (j + 1) := by
  have hlt := Nat.lt_of_succ_lt hi
  obtain ⟨hblock, -, -, hspliced⟩ := hl.writtenBlock hk bytes hlt
  obtain ⟨hnext, hzero⟩ := next_block pos hk
  have hdata := length_writtenBlock hk bytes hlt
  have hput := keeps_putBlock k (k.writtenBlock l bytes pos hlt)
  have hsame : (k.putBlock (k.writtenBlock l bytes pos hlt)).dataSize = k.dataSize := rfl
  have hkeeps := h.keeps
  have hdata' := h.data
  rw [hsame, hnext] at hkeeps
  rw [hsame, hzero, Nat.sub_zero] at hdata'
  refine ⟨?_, fun s => ?_, h.linked, ?_⟩
  · rw [List.drop_eq_getElem_cons hlt, List.take_succ_cons]
    refine (hput.mono fun s hs heq => hs ?_).trans
      (hkeeps.mono fun s hs hmem => hs (List.mem_cons_of_mem _ hmem))
    exact heq ▸ List.mem_cons_self
  · rw [h.links]
    by_cases hs : s = l[pos / k.dataSize]
    · rw [hs]
      exact HasBlock.links_putBlock hk hdata hblock (List.getElem?_eq_getElem hi)
    · rw [hput.bytes s hs]
  · have hmod := Nat.mod_lt pos hk
    have hsum : (j + 1) * k.dataSize - pos % k.dataSize =
        k.dataSize - pos % k.dataSize + j * k.dataSize := by
      rw [Nat.succ_mul]
      omega
    rw [hdata', hspliced, hsum, splice_next hk hlt bytes (j * k.dataSize)]

/-- What is written of a request that ends inside the file is spliced into the content. -/
theorem content {h : Header} (ht : k.Torn k' l (bytes.take (h.length - pos)) pos j)
    (hlen : h.length ≤ l.length * k.dataSize) (hnew : 0 < (bytes.take (h.length - pos)).length) :
    k'.content h l = Bytes.splice (k.content h l) pos
      ((bytes.take (h.length - pos)).take (j * k.dataSize - pos % k.dataSize)) := by
  refine content_splice_take hlen ?_ ht.data
  simp only [List.length_take] at hnew ⊢
  omega

end Torn

/-- **Writing block by block** replaces the slice, or fails with its first `j` blocks replaced. -/
theorem writeBlocks_survives {f : Handle} {l : List Nat} (hk : 0 < k.dataSize)
    (hc : k.Chained f.header l) {count : Nat} {bytes : Bytes} {pos : Nat}
    (hcount : pos / k.dataSize + count ≤ l.length)
    (hroom : pos % k.dataSize + bytes.length ≤ count * k.dataSize) :
    Survives F (f.writeBlocks k.dataSize count bytes pos) k
      (fun _ k' => k.Keeps k' (· ∉ l) ∧ k'.Linked l ∧
        k'.chainData l = Bytes.splice (k.chainData l) pos bytes)
      (fun e k' => F.Injects e ∧ ∃ j < count, k.Torn k' l bytes pos j) := by
  induction count generalizing k bytes pos with
  | zero =>
    obtain rfl : bytes = [] := List.eq_nil_of_length_eq_zero (by omega)
    exact Survives.pure ⟨Keeps.refl k _, hc.linked, (Bytes.splice_nil _ _).symm⟩
  | succ count ih =>
    have hi : pos / k.dataSize < l.length := by omega
    obtain ⟨hblock, hput, hlinked, hspliced⟩ := hc.linked.writtenBlock hk bytes hi
    obtain ⟨hnext, hzero⟩ := next_block pos hk
    have hnone : ∀ e, F.Injects e → F.Injects e ∧ ∃ j < count + 1, k.Torn k l bytes pos j :=
      fun e he => ⟨he, 0, Nat.succ_pos count, Torn.zero hc.linked bytes pos⟩
    unfold Handle.writeBlocks
    refine Survives.read (f.header.blockAt_candid _)
      (hc.blockAt_yields (Nat.mul_div_cancel _ hk) hi) hnone ?_
    refine Survives.bind ((store_survives (b := k.writtenBlock l bytes pos hi) hk hblock.1
      (length_writtenBlock hk bytes hi)).mono (fun _ _ => id) ?_) ?_
    · rintro e k' ⟨rfl, he⟩
      exact hnone e he
    · rintro - k' rfl
      have hrest := @ih (k.putBlock (k.writtenBlock l bytes pos hi)) hk
        ⟨hlinked, hc.first, hc.blocks⟩ (bytes.drop (k.dataSize - pos % k.dataSize))
        (pos + (k.dataSize - pos % k.dataSize))
        (show (pos + _) / k.dataSize + count ≤ _ by omega)
        (show (pos + _) % k.dataSize + _ ≤ count * k.dataSize by
          rw [hzero, List.length_drop]
          rw [Nat.succ_mul] at hroom
          omega)
      refine hrest.mono ?_ ?_
      · rintro - k' ⟨hkeep, hlinked', hdata⟩
        refine ⟨hput.trans hkeep, hlinked', ?_⟩
        rw [hdata, hspliced, splice_rest hk hi]
      · rintro e k' ⟨he, j, hj, htorn⟩
        exact ⟨he, j + 1, Nat.succ_lt_succ hj, htorn.next hk hc.linked (by omega)⟩

/-- **A write replaces a slice of the content**, or fails with the front of it replaced: at most all
blocks of the request but its last one. -/
theorem writeAt_survives {f : Handle} {l : List Nat} (hk : 0 < k.dataSize)
    (hc : k.Chained f.header l) (hlen : f.header.length ≤ l.length * k.dataSize) (bytes : Bytes)
    (pos : Nat) :
    let new := bytes.take (f.header.length - pos)
    Survives F (f.writeAt bytes pos) k
      (fun n k' => n = new.length ∧ k.Keeps k' (· ∉ l) ∧ k'.Chained f.header l ∧
        k'.content f.header l = Bytes.splice (k.content f.header l) pos new)
      (fun e k' => F.Injects e ∧ 0 < new.length ∧
        ∃ j < Handle.span new.length pos k.dataSize, k.Torn k' l new pos j) := by
  intro new
  unfold Handle.writeAt Handle.length
  cases hclamp : Handle.clamp? bytes.length pos f.header.length with
  | none =>
    have hnil : new = [] := by
      rw [List.take_eq_nil_iff]
      rcases clamp?_eq_none hclamp with hbytes | hpos
      · exact .inr (List.eq_nil_of_length_eq_zero hbytes)
      · exact .inl (Nat.sub_eq_zero_of_le hpos)
    rw [hnil]
    exact Survives.pure ⟨rfl, Keeps.refl k _, hc, (Bytes.splice_nil _ _).symm⟩
  | some n =>
    obtain ⟨hn, hroom, hmin⟩ := clamp?_eq_some hclamp
    have htake : new = bytes.take n := by
      rw [hmin, List.take_eq_take_iff]
      omega
    have hlength : (bytes.take n).length = n := by
      rw [List.length_take]
      omega
    have hspan : pos % k.dataSize + (bytes.take n).length ≤
        Handle.span n pos k.dataSize * k.dataSize := by
      rw [hlength]
      exact mod_add_le_span n pos hk
    rw [htake, hlength]
    refine (Survives.note _).bind fun _ k₁ hk₁ => ?_
    subst hk₁
    refine (Survives.dataSize F k₁).bind ?_
    rintro _ k₂ ⟨rfl, rfl⟩
    refine Survives.bind ((writeBlocks_survives hk hc
      (div_add_span_le hk hn (Nat.le_trans hroom hlen)) hspan).mono (fun _ _ => id) ?_) ?_
    · rintro e k' ⟨he, j, hj, htorn⟩
      exact ⟨he, hn, j, hj, htorn⟩
    · rintro - k' ⟨hkeep, hlinked, hdata⟩
      exact Survives.pure ⟨rfl, hkeep, ⟨hlinked, hc.first, hc.blocks⟩,
        content_splice_take hlen (hlength.symm ▸ hroom) hdata⟩

namespace HasFile

variable {p : Place} {f : Handle} {content : Bytes}

/-- **A write to an open file** replaces a slice of its content, or fails with the front of the
slice replaced. -/
theorem write_survives (h : k.HasFile p content) (hk : 0 < k.dataSize) (hf : f.header = p.header)
    (hp : p.sector ∉ p.chain) (bytes : Bytes) (pos : Nat) :
    Survives F (f.writeAt bytes pos) k
      (fun n k' => n = (bytes.take (content.length - pos)).length ∧ k.Keeps k' (· ∉ p.chain) ∧
        k'.HasFile p (Bytes.splice content pos (bytes.take (content.length - pos))))
      (fun e k' => F.Injects e ∧ k.Keeps k' (· ∉ p.chain) ∧ ∃ j, k'.HasFile p
        (Bytes.splice content pos ((bytes.take (content.length - pos)).take
          (j * k.dataSize - pos % k.dataSize)))) := by
  have hc : k.Chained f.header p.chain := hf ▸ h.chained
  have hfile : ∀ {k' new}, k.Keeps k' (· ∉ p.chain) → k'.Chained f.header p.chain →
      k'.content f.header p.chain = Bytes.splice (k.content f.header p.chain) pos new →
      k'.HasFile p (Bytes.splice content pos new) := by
    intro k' new hkeep hchained hcontent
    rw [hf] at hchained hcontent
    refine ⟨h.header.keeps hkeep hp, hchained, ?_, ?_⟩
    · rw [hkeep.dataSize, h.blocks]
    · rw [hcontent, h.content]
  have hlen : f.header.length ≤ p.chain.length * k.dataSize := hf ▸ h.length_le hk
  rw [h.length_content hk, ← hf]
  refine (writeAt_survives hk hc hlen bytes pos).mono ?_ ?_
  · rintro n k' ⟨hn, hkeep, hchained, hcontent⟩
    exact ⟨hn, hkeep, hfile hkeep hchained hcontent⟩
  · rintro e k' ⟨he, hnew, j, -, htorn⟩
    have hchained : k'.Chained f.header p.chain := ⟨htorn.linked, hc.first, hc.blocks⟩
    exact ⟨he, htorn.outside, j, hfile htorn.outside hchained (htorn.content hlen hnew)⟩

/-- Writing from the start on leaves the file torn, if it fails. -/
theorem overwrite_survives (h : k.HasFile p content) (hk : 0 < k.dataSize)
    (hf : f.header = p.header) (hp : p.sector ∉ p.chain) (bytes : Bytes) :
    Survives F (Functor.discard (f.writeAt bytes 0)) k
      (fun _ k' => k.Keeps k' (· ∉ p.chain) ∧
        k'.HasFile p (Bytes.splice content 0 (bytes.take content.length)))
      (fun e k' => F.Injects e ∧ k.Keeps k' (· ∉ p.chain) ∧ ∃ n, k'.HasFile p
        (Bytes.splice content 0 ((bytes.take content.length).take n))) := by
  refine (h.write_survives hk hf hp bytes 0).discard.mono ?_ ?_
  · rintro - k' ⟨n, -, hkeep, hfile⟩
    exact ⟨hkeep, hfile⟩
  · rintro e k' ⟨he, hkeep, j, hfile⟩
    exact ⟨he, hkeep, _, hfile⟩

end HasFile

end Disk

end SectorChain
