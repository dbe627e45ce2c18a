import Hyperion.Disk
import Hyperion.Str

/-!
# FAT16

`fat16.c`. A directory entry is its 32 bytes. The parts that only read the disk are
functions of the image, and have no value where the code has no defined behaviour or
does not return.
-/

namespace Hyperion

open Partial

/-- `FAT_FILE_SUBDIRECTORY`. -/
abbrev fatFileSubdirectory : UInt8 := 0x10

/-- `HARDIKHYPERIONOS_FAT16_BAD_SECTOR`. -/
abbrev fat16BadSector : Int := 0xFF7

/-! ## Directory entries -/

/-- `sizeof(struct fat_directory_item)`. -/
abbrev directoryItemSize : ℕ := 32

def itemWord16 (item : List UInt8) (i : ℕ) : ℕ :=
  (charAt item i).toNat + (charAt item (i + 1)).toNat * 256

def itemAttributes (item : List UInt8) : UInt8 := charAt item 11

def itemHigh16BitsFirstCluster (item : List UInt8) : ℕ := itemWord16 item 20

def itemLow16BitsFirstCluster (item : List UInt8) : ℕ := itemWord16 item 26

def itemFilesize (item : List UInt8) : ℕ := itemWord16 item 28 + itemWord16 item 30 * 65536

def itemIsSubdirectory (item : List UInt8) : Bool := itemAttributes item &&& fatFileSubdirectory ≠ 0

/-- Appends to `out` the characters up to a NUL or a space. `out` is an array of `maxPath`
bytes, and `bs` all that lies in memory from there on. -/
def fat16ToProperString : (bs out : List UInt8) → Option (List UInt8)
  | [], _ => none
  | c :: bs, out =>
    if c = 0 then some out
    else if maxPath ≤ out.length then none
    else if c = 0x20 then some out
    else fat16ToProperString bs (out ++ [c])

/-- The name of the entry that `bs` starts with. -/
def fat16GetFullRelativeFilename (bs : List UInt8) : Option (List UInt8) := do
  let out ← fat16ToProperString bs []
  if charAt bs 8 ≠ 0 ∧ charAt bs 8 ≠ 0x20 then
    if maxPath ≤ out.length then none
    else fat16ToProperString (bs.drop 8) (out ++ [46])
  else some out

/-- The two halves are combined without a shift. -/
def fat16GetFirstCluster (item : List UInt8) : ℕ :=
  itemHigh16BitsFirstCluster item ||| itemLow16BitsFirstCluster item

/-! ## Reading the disk -/

variable (image : DiskImage) (fatPrivate : FatPrivate)

def sizeOfClusterBytes : Int := fatPrivate.header.sectorsPerCluster * sectorSize

def fat16SectorToAbsolute (sector : Int) : Int := wrapInt (sector * sectorSize)

def fat16ClusterToSector (cluster : Int) : Int :=
  wrapInt (fatPrivate.rootDirectory.endingSectorPos +
    (cluster - 2) * fatPrivate.header.sectorsPerCluster)

def fat16GetFirstFatSector : ℕ := fatPrivate.header.reservedSectors

/-- The status of the read, not the entry that was read. -/
def fat16GetFatEntry (cluster : Int) : Option Int := do
  let fatTablePosition := fat16GetFirstFatSector fatPrivate * sectorSize
  let stream := diskstreamerSeek ⟨0⟩ (wrapInt (fatTablePosition * (cluster * 2)))
  let _ ← diskstreamerRead image stream 2
  return 0

/-- `clustersAhead` rounds of the loop of `fat16_get_cluster_for_offset`. -/
def fat16GetClusterForOffsetLoop : (clustersAhead : ℕ) → (clusterToUse : Int) → Option Int
  | 0, clusterToUse => some clusterToUse
  | n + 1, clusterToUse => do
    let entry ← fat16GetFatEntry image fatPrivate clusterToUse
    if entry = 0xFF8 ∨ entry = 0xFFF then return - EIO
    if entry = fat16BadSector then return - EIO
    if entry = 0xFF0 ∨ entry = 0xFF6 then return - EIO
    if entry = 0 then return - EIO
    fat16GetClusterForOffsetLoop n entry

/-- Divides by the cluster size. -/
def fat16GetClusterForOffset (startingCluster offset : Int) : Option Int :=
  if sizeOfClusterBytes fatPrivate = 0 then none
  else
    fat16GetClusterForOffsetLoop image fatPrivate
      (offset.tdiv (sizeOfClusterBytes fatPrivate)).toNat startingCluster

/-- `fat16_read_internal_from_stream`, at most `fuel` calls deep. The status, and the
bytes stored before it was known. -/
def fat16ReadInternalFromStream :
    (fuel : ℕ) → (cluster offset total : Int) → Option (Int × List UInt8)
  | 0, _, _, _ => none
  | fuel + 1, cluster, offset, total => do
    let clusterToUse ← fat16GetClusterForOffset image fatPrivate cluster offset
    if clusterToUse < 0 then return (clusterToUse, [])
    let offsetFromCluster := offset.tmod (sizeOfClusterBytes fatPrivate)
    let startingSector := fat16ClusterToSector fatPrivate clusterToUse
    let startingPos := wrapInt (startingSector * sectorSize + offsetFromCluster)
    let totalToRead :=
      if sizeOfClusterBytes fatPrivate < total then sizeOfClusterBytes fatPrivate else total
    let stream := diskstreamerSeek ⟨0⟩ startingPos
    let (bytes, _) ← diskstreamerRead image stream totalToRead
    let total := total - totalToRead
    if 0 < total then
      let (res, rest) ←
        fat16ReadInternalFromStream fuel cluster (wrapInt (offset + totalToRead)) total
      return (res, bytes ++ rest)
    return (0, bytes)

def fat16ReadInternal (startingCluster offset total : Int) : Option (Int × List UInt8) :=
  fat16ReadInternalFromStream image fatPrivate (total.toNat + 1) startingCluster offset total

/-- The loop of `fat16_get_total_items_for_directory`, `fuel` entries from the stream on. -/
def fat16GetTotalItemsLoop : (fuel : ℕ) → DiskStream → (i : Int) → Option Int
  | 0, _, _ => none
  | fuel + 1, stream, i => do
    let (item, stream) ← diskstreamerRead image stream directoryItemSize
    if charAt item 0 = 0 then return i
    if charAt item 0 = 0xE5 then fat16GetTotalItemsLoop fuel stream i
    else fat16GetTotalItemsLoop fuel stream (i + 1)

/-- There are `2 ^ 27` positions at a distance of one entry. -/
def fat16GetTotalItemsForDirectory (directoryStartSector : Int) : Option Int :=
  let directoryStartPos := wrapInt (directoryStartSector * sectorSize)
  fat16GetTotalItemsLoop image 134217728 (diskstreamerSeek ⟨0⟩ directoryStartPos) 0

/-! ## Directories and items -/

/-- A value that may be missing, as a program. -/
def defined {α : Type} : Option α → KernelM α
  | some a => return a
  | none => fault

/-- `struct fat_h`, from its bytes. -/
def FatHeader.ofBytes (bytes : List UInt8) : FatHeader where
  sectorsPerCluster := (charAt bytes 13).toNat
  reservedSectors := itemWord16 bytes 14
  fatCopies := (charAt bytes 16).toNat
  rootDirEntries := itemWord16 bytes 17
  sectorsPerFat := itemWord16 bytes 22
  signature := (charAt bytes 38).toNat

/-- The status, and the directory when it is 0. -/
def fat16GetRootDirectory (primaryHeader : FatHeader) : KernelM (Int × Option FatDirectory) := do
  let k ← get
  let rootDirSectorPos : Int :=
    primaryHeader.fatCopies * primaryHeader.sectorsPerFat + primaryHeader.reservedSectors
  let rootDirSize := primaryHeader.rootDirEntries * directoryItemSize
  let totalSectors := rootDirSize / sectorSize + if rootDirSize % sectorSize ≠ 0 then 1 else 0
  let totalItems ← defined (fat16GetTotalItemsForDirectory k.image rootDirSectorPos)
  let dir ← kzalloc rootDirSize
  if dir = 0 then return (-ENOMEM, none)
  let stream := diskstreamerSeek ⟨0⟩ (fat16SectorToAbsolute rootDirSectorPos)
  let (bytes, _) ← defined (diskstreamerRead k.image stream rootDirSize)
  return (0, some
    { item := dir
      bytes := bytes
      total := totalItems
      sectorPos := rootDirSectorPos
      endingSectorPos := rootDirSectorPos + totalSectors })

/-- The pointer to the copy, and the copy. -/
def fat16CloneDirectoryItem (item : List UInt8) (size : ℕ) : KernelM FatItemUnion := do
  if size < directoryItemSize then return .null
  let itemCopy ← kzalloc size
  if itemCopy = 0 then return .null
  return .item itemCopy item

def fat16FreeDirectory : FatItemUnion → KernelM Unit
  | .directory p d => do
    if d.item ≠ 0 then kfree d.item
    kfree p
  | .item _ _ => fault
  | .null => return

/-- The private data of the mounted file system. -/
def fsPrivate : KernelM FatPrivate := do
  let k ← get
  defined k.disk.fsPrivate

/-- The directory, also after it has been freed because it could not be loaded. -/
def fat16LoadFatDirectory (item : List UInt8) : KernelM FatItemUnion := do
  let fatPrivate ← fsPrivate
  let k ← get
  if !itemIsSubdirectory item then
    fat16FreeDirectory .null
    return .null
  let directory ← kzalloc 16
  if directory = 0 then
    fat16FreeDirectory .null
    return .null
  let cluster : Int := fat16GetFirstCluster item
  let clusterSector := fat16ClusterToSector fatPrivate cluster
  let totalItems ← defined (fat16GetTotalItemsForDirectory k.image clusterSector)
  let directorySize := asUnsigned (totalItems * directoryItemSize)
  let p ← kzalloc directorySize
  if p = 0 then
    let d : FatItemUnion := .directory directory ⟨0, [], totalItems, 0, 0⟩
    fat16FreeDirectory d
    return d
  let (res, bytes) ←
    defined (fat16ReadInternal k.image fatPrivate cluster 0 (asSigned directorySize))
  let d : FatItemUnion := .directory directory ⟨p, bytes, totalItems, 0, 0⟩
  if res ≠ 0 then fat16FreeDirectory d
  return d

/-- A directory is loaded, but the item becomes a copy of the entry in any case. -/
def fat16NewFatItemForDirectoryItem (item : List UInt8) : KernelM (Option FatItem) := do
  let self ← kzalloc 8
  if self = 0 then return none
  if itemIsSubdirectory item then
    let _ ← fat16LoadFatDirectory item
  let copy ← fat16CloneDirectoryItem item directoryItemSize
  return some { self := self, union := copy, type := .file }

/-- The bytes from entry `i` of the directory on. -/
def FatDirectory.from (directory : FatDirectory) (i : ℕ) : List UInt8 :=
  directory.bytes.drop (directoryItemSize * i)

/-- The loop of `fat16_find_item_in_directory`, `fuel` rounds from entry `i` on. -/
def fat16FindItemLoop (directory : FatDirectory) (filename : List UInt8) :
    (fuel i : ℕ) → (fItem : Option FatItem) → KernelM (Option FatItem)
  | 0, _, fItem => return fItem
  | fuel + 1, i, fItem => do
    let tmpFilename ← defined (fat16GetFullRelativeFilename (directory.from i))
    if istrncmp tmpFilename filename maxPath = 0 then
      let fItem ← fat16NewFatItemForDirectoryItem ((directory.from i).take directoryItemSize)
      fat16FindItemLoop directory filename fuel (i + 1) fItem
    else fat16FindItemLoop directory filename fuel (i + 1) fItem

def fat16FindItemInDirectory (directory : FatDirectory) (filename : List UInt8) :
    KernelM (Option FatItem) :=
  fat16FindItemLoop directory filename directory.total.toNat 0 none

def fat16FatItemFree (item : FatItem) : KernelM Unit := do
  match item.type with
  | .directory => fat16FreeDirectory item.union
  | .file =>
    match item.union with
    | .null => kfree 0
    | .item p _ => kfree p
    | .directory p _ => kfree p
  kfree item.self

/-- The loop of `fat16_get_directory_entry` over the parts after the first. -/
def fat16GetDirectoryEntryLoop : (parts : List (List UInt8)) → (currentItem : Option FatItem) →
    KernelM (Option FatItem)
  | [], currentItem => return currentItem
  | part :: parts, currentItem => do
    match currentItem with
    | none => fault
    | some item =>
      if item.type ≠ .directory then return none
      match item.union with
      | .directory _ d =>
        let tmpItem ← fat16FindItemInDirectory d part
        fat16FatItemFree item
        fat16GetDirectoryEntryLoop parts tmpItem
      | _ => fault

def fat16GetDirectoryEntry (path : List (List UInt8)) : KernelM (Option FatItem) := do
  let fatPrivate ← fsPrivate
  match path with
  | [] => fault
  | part :: parts =>
    let rootItem ← fat16FindItemInDirectory fatPrivate.rootDirectory part
    match rootItem with
    | none => return none
    | some item => fat16GetDirectoryEntryLoop parts (some item)

/-! ## Mounting -/

/-- `diskstreamer_new`, which stores through the pointer. -/
def diskstreamerNew : KernelM ℕ := do
  let streamer ← kzalloc 8
  if streamer = 0 then fault
  return streamer

/-- The status. The file system becomes the disk's in any case. -/
def fat16Resolve : KernelM Int := do
  let fatPrivate ← kzalloc 92
  if fatPrivate = 0 then fault
  -- the three streams of `fat16_init_private`
  let _ ← diskstreamerNew
  let _ ← diskstreamerNew
  let _ ← diskstreamerNew
  let stream ← diskstreamerNew
  let k ← get
  let (bytes, _) ← defined (diskstreamerRead k.image ⟨0⟩ 62)
  let header := FatHeader.ofBytes bytes
  let res ← (do
    if header.signature ≠ 0x29 then return -EFSNOTUS
    let (res, dir) ← fat16GetRootDirectory header
    match dir with
    | some dir =>
      modify fun k => { k with disk := ⟨true, some ⟨header, dir⟩⟩ }
      return res
    | none => return - EIO)
  kfree stream
  if res < 0 then
    kfree fatPrivate
    modify fun k => { k with disk := ⟨true, none⟩ }
  return res

/-- With the loop of `fs_resolve` over the one file system. -/
def diskSearchAndInit : KernelM Unit := do
  let res ← fat16Resolve
  if res ≠ 0 then modify fun k => { k with disk := { k.disk with filesystem := false } }

end Hyperion
