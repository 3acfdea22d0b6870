import SectorChain.Handle
import SectorChain.Proofs.Disk

/-!
# Access to files with every step checked

The numbers of a machine are words of 64 bits, and a range of bytes has to lie in the bytes that it
is taken from. Reading and writing files is written down here once more with every such condition
checked: an operation answers or fails as one on a drive does, or it is stuck, at the first
condition that does not hold.

* `CheckedM`: operations that can be stuck.
* `Checked.add`, `Checked.sub`, `Checked.mul`, `Checked.div`: arithmetic on words.
* `Checked.slice`, `Checked.sameLength`: ranges of bytes, and copies from one to another.
* `Checked.readInto`, `Checked.writeAt`, `Checked.blockAt`, `Checked.describe`: the operations on a
  file.
* `Realizes size x y P`: on every device with sectors of `size` bytes that keeps what is written,
  whatever it holds, `y` is never stuck and does what `x` does.

Results:
* `Realizes.bind`, `Realizes.checked`: operations in sequence.
-/

namespace SectorChain

/-- An operation on a drive that can be stuck as well as fail. It is stuck where it gives nothing.
-/
abbrev CheckedM := OptionT DriveM

namespace Checked

/-! ## Words and ranges -/

/-- The numbers from here on are no words of 64 bits. -/
def limit : Nat := 0x10000000000000000

/-- Go on if the condition holds. -/
def require (p : Prop) [Decidable p] : CheckedM Unit := if p then pure () else failure

/-- A number that has to be a word. -/
def word (n : Nat) : CheckedM Nat := do
  require (n < limit)
  return n

def add (a b : Nat) : CheckedM Nat := word (a + b)

def mul (a b : Nat) : CheckedM Nat := word (a * b)

/-- A difference must not be negative. -/
def sub (a b : Nat) : CheckedM Nat := do
  require (b ≤ a)
  return a - b

def div (a b : Nat) : CheckedM Nat := do
  require (b ≠ 0)
  return a / b

/-- The bytes from number `first` on up to number `last`, all of which must be there. -/
def slice (bytes : Bytes) (first last : Nat) : CheckedM Bytes := do
  require (first ≤ last ∧ last ≤ bytes.length)
  return (bytes.take last).drop first

/-- Bytes are copied to a place that must be as long as they are. -/
def sameLength (place bytes : Bytes) : CheckedM Unit := require (place.length = bytes.length)

/-! ## Blocks -/

/-- Decode a record, or fail with its error. -/
def decoded {α : Type} (r : Except RecordError α) : CheckedM α := liftM (Drive.decoded r : DriveM α)

/-- Fail on a contradiction between the records of the volume. -/
def corrupt {α : Type} (cause : Corruption) : CheckedM α := liftM (Drive.corrupt cause : DriveM α)

/-- The bytes of data in one block. -/
def dataSize : CheckedM Nat := do sub (← Drive.sectorSize) Layout.linkSize

/-- The block of a sector: a link to itself, a link to the next one, and the rest of its bytes. -/
def fetch (sector : Nat) : CheckedM Block := do
  let bytes ← Drive.readSector sector
  let (own, next, _) ← decoded (Block.decode (← slice bytes 0 Layout.linkSize))
  if own.target = some sector then
    let data ← slice bytes Layout.linkSize bytes.length
    return { sector, next := next.target, data }
  else corrupt (.misplaced sector own.value)

/-- Write a block, of which the data has to fill its sector. -/
def store (b : Block) : CheckedM Unit := do
  let size ← Drive.sectorSize
  let data ← sub size Layout.linkSize
  -- What is too long or too short would be cut or filled with zeros: this is an assertion.
  require (b.data.length = data)
  Drive.note (.blockWrite b.sector b.next)
  Drive.writeSector b.sector (Bytes.fit size b.encode)

/-- The sectors of a chain from `current` on. -/
def walk (blocks : Nat) : (left : Nat) → (current : Option Nat) → CheckedM (List Nat)
  | 0, none => return []
  | 0, some _ => corrupt (.chainTooLong blocks)
  | left + 1, none => corrupt (.chainTooShort (blocks - (left + 1)) blocks)
  | left + 1, some sector => do
    let block ← fetch sector
    return sector :: (← walk blocks left block.next)

def chain (h : Header) : CheckedM (List Nat) := walk h.blocks h.blocks h.first.target

/-- The block `hops` further down the chain. -/
def follow (blocks : Nat) : (hops index : Nat) → (block : Block) → CheckedM Block
  | 0, _, block => return block
  | hops + 1, index, block =>
    match block.next with
    | none => do corrupt (.chainTooShort (← add index 1) blocks)
    | some next => do follow blocks hops (index + 1) (← fetch next)

/-- The block that holds the byte at `offset`. -/
def blockAt (h : Header) (offset : Nat) : CheckedM Block := do
  let index ← div offset (← dataSize)
  if h.blocks ≤ index then
    corrupt (.pastChain offset h.blocks)
  else match h.first.target with
    | none => corrupt (.noFirstBlock h.length)
    | some first => do follow h.blocks index 0 (← fetch first)

/-! ## Reading and writing -/

/-- How many of `count` bytes from `pos` on are in a file of `length` bytes. -/
def clamp? (count pos length : Nat) : CheckedM (Option Nat) :=
  if count = 0 ∨ length ≤ pos then return none
  else do return some (min count (← sub length pos))

/-- Copy the data of `count` blocks from number `i` on to its places in a buffer, which begins with
that of block number `first`. -/
def readBlocks (h : Header) (data first : Nat) : (count i : Nat) → Bytes → CheckedM Bytes
  | 0, _, buffer => return buffer
  | count + 1, i, buffer => do
    -- The place in the buffer is taken before the block is looked up.
    let lo ← mul (← sub i first) data
    let hi ← mul (← add (← sub i first) 1) data
    let place ← slice buffer lo hi
    let block ← blockAt h (← mul i data)
    sameLength place block.data
    readBlocks h data first count (i + 1) (Bytes.splice buffer lo block.data)

/-- Read into a buffer from `pos` on: the number of bytes that were read, and the buffer with them
at its front. -/
def readInto (f : Handle) (into : Bytes) (pos : Nat) : CheckedM (Nat × Bytes) := do
  match ← clamp? into.length pos f.length with
  | none => return (0, into)
  | some n =>
    Drive.note (.reading n pos f.length)
    let data ← dataSize
    let first ← div pos data
    let last ← div (← sub (← add pos n) 1) data
    let size ← mul (← add (← sub last first) 1) data
    let buffer ← readBlocks f.header data first (last + 1 - first) first (Bytes.zeros size)
    let start ← sub pos (← mul first data)
    let place ← slice into 0 n
    let bytes ← slice buffer start (← add start n)
    sameLength place bytes
    return (n, Bytes.splice into 0 bytes)

/-- Write those bytes that fall into `count` blocks from number `i` on, of a string that goes to the
place from `pos` up to `stop`. -/
def writeBlocks (h : Header) (data : Nat) (bytes : Bytes) (pos stop : Nat) :
    (count i : Nat) → CheckedM Unit
  | 0, _ => return ()
  | count + 1, i => do
    let start ← mul i data
    let lo := max pos start
    let hi := min stop (← add start data)
    let block ← blockAt h start
    let first ← sub lo start
    let place ← slice block.data first (← sub hi start)
    let piece ← slice bytes (← sub lo pos) (← sub hi pos)
    sameLength place piece
    store { block with data := Bytes.splice block.data first piece }
    writeBlocks h data bytes pos stop count (i + 1)

/-- Write as many of the bytes from `pos` on as the file has room for, and answer their number. -/
def writeAt (f : Handle) (bytes : Bytes) (pos : Nat) : CheckedM Nat := do
  match ← clamp? bytes.length pos f.length with
  | none => return 0
  | some n =>
    Drive.note (.writing n pos f.length)
    let data ← dataSize
    let stop ← add pos n
    let first ← div pos data
    let last ← div (← sub stop 1) data
    writeBlocks f.header data bytes pos stop (last + 1 - first) first
    return n

/-! ## Reports -/

/-- A line for each block of the chain: its data as far as `left` bytes of the file reach. -/
def contentLines : (left : Nat) → (chain : List Nat) → CheckedM (List String)
  | _, [] => return []
  | left, sector :: rest => do
    let block ← fetch sector
    let count := min left block.data.length
    let line := Bytes.escaped Bytes.isPlain (← slice block.data 0 count)
    return line :: (← contentLines (← sub left count) rest)

/-- The header, its chain and the content of the file, for people. -/
def describe (h : Header) : CheckedM String := do
  let chain ← chain h
  let content ← contentLines h.length chain
  let lines := [s!"FileHeader contents.  File size: {h.length}.  File blocks:",
    " ".intercalate (chain.map toString), "File contents:"] ++ content
  return String.join (lines.map (· ++ "\n"))

/-! ## Conditions that hold -/

theorem require_eq {p : Prop} [Decidable p] (h : p) : require p = pure () := if_pos h

theorem add_eq {a b : Nat} (h : a + b < limit) : add a b = pure (a + b) := by
  rw [add, word, require_eq h]
  rfl

theorem mul_eq {a b : Nat} (h : a * b < limit) : mul a b = pure (a * b) := by
  rw [mul, word, require_eq h]
  rfl

theorem sub_eq {a b : Nat} (h : b ≤ a) : sub a b = pure (a - b) := by
  rw [sub, require_eq h]
  rfl

/-- A difference that is negative. -/
example (d : Drive) : (sub 7 8).run d = .ok none d := rfl

theorem div_eq {a b : Nat} (h : 0 < b) : div a b = pure (a / b) := by
  rw [div, require_eq (Nat.pos_iff_ne_zero.mp h)]
  rfl

theorem slice_eq {bytes : Bytes} {first last : Nat} (hfirst : first ≤ last)
    (hlast : last ≤ bytes.length) :
    slice bytes first last = pure ((bytes.take last).drop first) := by
  rw [slice, require_eq ⟨hfirst, hlast⟩]
  rfl

theorem slice_front {bytes : Bytes} {n : Nat} (hn : n ≤ bytes.length) :
    slice bytes 0 n = pure (bytes.take n) := slice_eq (Nat.zero_le n) hn

theorem slice_rest {bytes : Bytes} {n : Nat} (hn : n ≤ bytes.length) :
    slice bytes n bytes.length = pure (bytes.drop n) := by
  rw [slice_eq hn (Nat.le_refl _), List.take_length]

theorem sameLength_eq {place bytes : Bytes} (h : place.length = bytes.length) :
    sameLength place bytes = pure () := require_eq h

theorem clamp?_eq (count pos length : Nat) :
    clamp? count pos length = pure (Handle.clamp? count pos length) := by
  unfold clamp? Handle.clamp?
  split
  · rfl
  · rw [sub_eq (by omega)]
    rfl

end Checked

/-! ## What is never stuck -/

variable {α β γ : Type}

/-- **`y` is never stuck and does what `x` does**, on every device with sectors of `size` bytes that
keeps what is written: it ends as `x` ends, on the same drive. An answer satisfies `P`, and an error
is one of damage. -/
def Realizes (size : Nat) (x : DriveM α) (y : CheckedM α) (P : α → Prop) : Prop :=
  ∀ d : Drive, d.device.Reliable → d.device.sectorSize = size →
    ∃ r d', x d = ended r d' ∧ y.run d = ended (r.map some) d' ∧
      d'.device.Reliable ∧ d'.device.sectorSize = size ∧
      (∀ a, r = .ok a → P a) ∧ ∀ e, r = .error e → e.isDamage = true

namespace Realizes

variable {size : Nat} {x : DriveM α} {y : CheckedM α} {f : α → DriveM β} {g : α → CheckedM β}
  {P : α → Prop} {Q : β → Prop}

theorem pure {a : α} (h : P a) : Realizes size (Pure.pure a) (Pure.pure a) P := fun d hd hsize =>
  ⟨.ok a, d, rfl, rfl, hd, hsize, by rintro b ⟨⟩; exact h, by rintro e ⟨⟩⟩

/-- **Operations in sequence.** -/
theorem bind (hx : Realizes size x y P) (hf : ∀ a, P a → Realizes size (f a) (g a) Q) :
    Realizes size (x >>= f) (y >>= g) Q := by
  intro d hd hsize
  obtain ⟨r, d₁, h₁, hy, hd₁, hsize₁, hP, hdamage⟩ := hx d hd hsize
  cases r with
  | ok a =>
    rw [run_bind_ok h₁]
    show ∃ r d', _ ∧ (y.run >>= _) d = _ ∧ _
    rw [run_bind_ok hy]
    exact hf a (hP a rfl) d₁ hd₁ hsize₁
  | error e =>
    rw [run_bind_error h₁]
    show ∃ r d', _ ∧ (y.run >>= _) d = _ ∧ _
    rw [run_bind_error hy]
    exact ⟨.error e, d₁, rfl, rfl, hd₁, hsize₁, by rintro b ⟨⟩,
      by rintro e' ⟨⟩; exact hdamage e rfl⟩

/-- **A condition that holds**, before or between the operations. -/
theorem checked {z : CheckedM γ} {k : γ → CheckedM α} {c : γ} (hz : z = Pure.pure c)
    (h : Realizes size x (k c) P) : Realizes size x (z >>= k) P := by
  subst hz
  exact h

theorem mono {P' : α → Prop} (hx : Realizes size x y P) (h : ∀ a, P a → P' a) :
    Realizes size x y P' := by
  intro d hd hsize
  obtain ⟨r, d', hrun, hy, hd', hsize', hP, hdamage⟩ := hx d hd hsize
  exact ⟨r, d', hrun, hy, hd', hsize', fun a ha => h a (hP a ha), hdamage⟩

/-- The size of a sector is known. -/
theorem sized {k : Nat → CheckedM α} (h : Realizes size x (k size) P) :
    Realizes size x (liftM Drive.sectorSize >>= k) P := by
  rintro d hd rfl
  exact h d hd rfl

/-- An operation that has no conditions. -/
theorem lift (hx : ∀ d : Drive, d.device.Reliable → d.device.sectorSize = size →
    ∃ r d', x d = ended r d' ∧ d'.device.Reliable ∧ d'.device.sectorSize = size ∧
      (∀ a, r = .ok a → P a) ∧ ∀ e, r = .error e → e.isDamage = true) :
    Realizes size x (liftM x) P := by
  intro d hd hsize
  obtain ⟨r, d', hrun, hrest⟩ := hx d hd hsize
  refine ⟨r, d', hrun, ?_, hrest⟩
  show (x >>= fun a => Pure.pure (some a)) d = _
  cases r with
  | ok a => exact run_bind_ok hrun
  | error e => exact run_bind_error hrun

end Realizes

end SectorChain
