import SectorChain.Volume

/-!
# Starting from a disk image

A volume is started from an image file: a fresh image is formatted, any other is mounted unless
formatting is asked for. The start reports its steps as it goes.
-/

namespace SectorChain

/-- `BootProgress`: one report of a start. -/
inductive Progress where
  | step (text : String)
  | percent (n : Nat)
  deriving DecidableEq, Repr

/-- What a start came to: its reports, the volume or the reason why there is none, and the drive
as it is then. -/
structure Boot where
  progress : List Progress
  outcome : Except VolumeError Volume
  drive : Drive

namespace Boot

/-- The device on an image file, and whether the image is fresh. A note is left if the file had to
be made longer. -/
def openImage (path : String) (file : Option Image) (sectors sectorSize : Nat) : Drive × Bool :=
  let (device, fresh) := Device.ofImage file sectors sectorSize
  ({ device, notes := if fresh then #[.imageExtended (sectors * sectorSize) path] else #[] }, fresh)

/-- Format or mount the image at `path`, as `perform_disk_initialization` does. -/
def volume (path : String) (formatting : Bool) : DriveM Volume := do
  if formatting then
    Drive.note (.formattingImage path)
    Volume.format
  else
    Drive.note (.mountingImage path)
    Volume.mount

/-- `perform_disk_initialization`: start from the image file at `path`, of which `file` is the
content if it exists. -/
def start (path : String) (file : Option Image) (sectors : Nat) (format : Bool) : Boot :=
  let (drive, fresh) := openImage path file sectors Layout.imageSectorSize
  let formatting := fresh || format
  let step :=
    if formatting then "🔧 No file system found, formatting new disk..."
    else "⚙️ Mounting file system..."
  let progress := [.step "🧠 Initializing virtual disk...", .percent 40, .step step]
  match volume path formatting drive with
  | .ok v drive => ⟨progress ++ (List.range' 40 61).map .percent, .ok v, drive⟩
  | .error e drive => ⟨progress, .error e, drive⟩

end Boot

end SectorChain
