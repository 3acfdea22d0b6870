/-!
# The layout of a volume

A volume is a row of sectors, numbered from 0. Sector 0 holds the header of the free map file and
sector 1 the header of the root directory file. Every other sector in use holds a file header or
one block of a file: a link of eight bytes, then data.
-/

namespace SectorChain

namespace Layout

/-- `FREE_MAP_SECTOR`: the sector that holds the header of the free map file. -/
def freeMapSector : Nat := 0

/-- `ROOT_DIRECTORY_SECTOR`: the sector that holds the header of the root directory file. -/
def rootSector : Nat := 1

/-- `BLOCK_LINK_SIZE`: the bytes at the start of a block that hold its own sector and the next. -/
def linkSize : Nat := 8

/-- The bytes of a stored file header. -/
def headerSize : Nat := 12

/-- `FILE_NAME_MAX_LEN`: the most bytes that one name of a path may have. -/
def nameMax : Nat := 9

/-- `NUM_DIR_ENTRIES`: the slots of a directory table; their number never changes. -/
def directorySlots : Nat := 64

/-- `DIR_ENTRY_SIZE`: the bytes of one directory slot. -/
def entrySize : Nat := 19

/-- `DIRECTORY_FILE_SIZE`: the bytes of a directory file. -/
def directorySize : Nat := directorySlots * entrySize

/-- `MAX_OPEN_FILES`: the files that may be open by id at one time. -/
def maxOpen : Nat := 20

/-- `SECTOR_SIZE`: the sector size of a disk image, in bytes. -/
def imageSectorSize : Nat := 128

/-- `NUM_SECTORS`: the number of sectors of a disk image, unless another is asked for. -/
def imageSectors : Nat := 32 * 32

/-- `block_data_size`: the bytes of data in one block. -/
def dataSize (sectorSize : Nat) : Nat := sectorSize - linkSize

/-- `free_map_file_size`: the bytes of the free map file, one bit for each sector. -/
def freeMapSize (sectors : Nat) : Nat := (sectors + 7) / 8

/-- The blocks that `size` bytes need when a block holds `data` of them. -/
def blocksFor (size data : Nat) : Nat := (size + data - 1) / data

end Layout

end SectorChain
