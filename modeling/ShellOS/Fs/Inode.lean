import ShellOS.Fs.Sector
import ShellOS.Fs.Bitmap

/-! Inodes: the on-disk record, block lookup, on-demand growth, reading, writing and release,
together with the free map they allocate from.

A `Volume` is what these functions share. Sectors are accessed through the buffer cache, which
is transparent (`BufferCache.cache_transparent`), so they are kept as one map. -/
namespace ShellOS.Fs

/-- The value of an `int32_t` computation; the code relies on two's complement wrapping. -/
@[irreducible] def wrap32 (x : ℤ) : ℤ := (x + 2147483648) % 4294967296 - 2147483648

/-- `DIV_ROUND_UP` on `size_t`. -/
def divRoundUp (x step : ℕ) : ℕ := (x + step - 1) / step

/-- `DIV_ROUND_UP(size, BLOCK_SECTOR_SIZE)`, computed in `int` and converted to `size_t`. -/
@[irreducible] def bytesToSectors (size : ℤ) : ℕ :=
  (((wrap32 (wrap32 (size + 512) - 1)).tdiv 512) % 18446744073709551616).toNat

abbrev directBlocksCount : ℕ := 123
abbrev indirectBlocksPerSector : ℕ := 128

/-- `INODE_MAGIC`. -/
def inodeMagic : UInt32 := 0x494e4f44

/-- `struct inode_disk` fills a sector: words 0 to 122 are `direct_blocks`, then come
`indirect_block`, `doubly_indirect_block`, `is_dir` (one byte, padded), `length` and `magic`. -/
abbrev InodeDisk := Sector

namespace InodeDisk

def directBlock (d : InodeDisk) (i : ℕ) : BlockSector := Sector.word d i
def indirectBlock (d : InodeDisk) : BlockSector := Sector.word d 123
def doublyIndirectBlock (d : InodeDisk) : BlockSector := Sector.word d 124
def isDir (d : InodeDisk) : Bool := Sector.byte d 500 != 0
def length (d : InodeDisk) : ℤ := wrap32 (Sector.word d 126).toNat
def magic (d : InodeDisk) : UInt32 := Sector.word d 127

def setDirectBlock (d : InodeDisk) (i : ℕ) (p : BlockSector) : InodeDisk := Sector.setWord d i p
def setIndirectBlock (d : InodeDisk) (p : BlockSector) : InodeDisk := Sector.setWord d 123 p
def setDoublyIndirectBlock (d : InodeDisk) (p : BlockSector) : InodeDisk := Sector.setWord d 124 p
def setIsDir (d : InodeDisk) (b : Bool) : InodeDisk := Sector.setWord d 125 (if b then 1 else 0)
def setLength (d : InodeDisk) (n : ℤ) : InodeDisk :=
  Sector.setWord d 126 (UInt32.ofNat (n % 4294967296).toNat)
def setMagic (d : InodeDisk) (m : UInt32) : InodeDisk := Sector.setWord d 127 m

/-- The record `inode_create` fills in before it allocates. -/
def create (length : ℤ) (isDir : Bool) : InodeDisk :=
  setIsDir (setMagic (setLength Sector.zeros length) inodeMagic) isDir

end InodeDisk

/-- `struct inode`. Its address in memory stands in for the list element. -/
structure Inode where
  addr : ℕ
  sector : BlockSector
  openCnt : ℤ
  removed : Bool
  denyWriteCnt : ℤ
  data : InodeDisk

/-- The disk as the inode layer sees it: sectors, the free map in memory, and the inode behind
`free_map_file` (`none` for a null pointer). `writes` and `releases` count, sector by sector,
the calls of `buffer_cache_write` and `free_map_release`. -/
structure Volume where
  sectors : BlockSector → Sector
  freeMap : Bitmap
  freeMapFile : Option Inode
  writes : BlockSector → ℕ
  releases : BlockSector → ℕ

def bufferCacheRead (sector : BlockSector) (v : Volume) : Sector := v.sectors sector

def bufferCacheWrite (sector : BlockSector) (source : Sector) (v : Volume) : Volume :=
  { v with
    sectors := Function.update v.sectors sector source
    writes := Function.update v.writes sector (v.writes sector + 1) }

/-! ### Block lookup -/

/-- `index_to_sector`; an index past the doubly indirect block gives `-1`. -/
def indexToSector (v : Volume) (idisk : InodeDisk) (index : ℕ) : BlockSector :=
  if index < directBlocksCount then idisk.directBlock index
  else if index < directBlocksCount + indirectBlocksPerSector then
    Sector.word (bufferCacheRead idisk.indirectBlock v) (index - directBlocksCount)
  else if index < directBlocksCount + indirectBlocksPerSector +
      indirectBlocksPerSector * indirectBlocksPerSector then
    let indexBase := directBlocksCount + indirectBlocksPerSector
    let indexFirst := (index - indexBase) / indirectBlocksPerSector
    let indexSecond := (index - indexBase) % indirectBlocksPerSector
    let first := bufferCacheRead idisk.doublyIndirectBlock v
    Sector.word (bufferCacheRead (Sector.word first indexFirst) v) indexSecond
  else -1

/-- `byte_to_sector`: `-1`, unsigned, where the inode has no data. -/
def byteToSector (v : Volume) (d : InodeDisk) (pos : ℤ) : BlockSector :=
  if 0 ≤ pos ∧ pos < d.length then indexToSector v d (pos / 512).toNat else -1

/-! ### Growth

Growth allocates from the free map, and the free map writes itself through to a file that is
itself an inode. The functions below take the allocator as an argument to open this loop. -/

/-- Allocating one sector: the sector, or `none` for `false`. -/
abbrev Allocator := Volume → Option BlockSector × Volume

/-- The entry `blocks[i]` after a call that updated it in place. -/
abbrev Reserved := Bool × BlockSector × Volume

/-- The loop over the entries of an indirect block: `k` entries from `i` on, with the remaining
number of sectors; `entry` reserves one of them. -/
def reserveEntries (entry : ℕ → BlockSector → Volume → Reserved) (unit : ℕ) :
    ℕ → ℕ → ℕ → Sector → Volume → Bool × Sector × Volume
  | 0,_,_,blocks,v => (true,blocks,v)
  | k+1,i,numSectors,blocks,v =>
    let subsize := min numSectors unit
    match entry subsize (Sector.word blocks i) v with
    | (true,p,v) => reserveEntries entry unit k (i+1) (numSectors - subsize) (Sector.setWord blocks i p) v
    | (false,p,v) => (false,Sector.setWord blocks i p,v)

/-- `unit`: the sectors covered by one entry of a block at this level. -/
def unitOf (level : ℕ) : ℕ := if level = 1 then 1 else indirectBlocksPerSector

def inodeReserveIndirect (alloc : Allocator) : ℕ → ℕ → BlockSector → Volume → Reserved
  | 0,_,p,v =>
    if p = 0 then
      match alloc v with
      | (none,v) => (false,p,v)
      | (some p,v) => (true,p,bufferCacheWrite p Sector.zeros v)
    else (true,p,v)
  | level+1,numSectors,p,v =>
    -- the result of this allocation is not looked at: on failure the entry stays 0
    let (p,v) := if p = 0 then
        let (r,v) := alloc v
        let p := r.getD p
        (p,bufferCacheWrite p Sector.zeros v)
      else (p,v)
    let indirectBlock := bufferCacheRead p v
    let unit := unitOf (level+1)
    match reserveEntries (inodeReserveIndirect alloc level) unit (divRoundUp numSectors unit) 0
        numSectors indirectBlock v with
    | (true,indirectBlock,v) => (true,p,bufferCacheWrite p indirectBlock v)
    | (false,_,v) => (false,p,v)

/-- The loop over the direct blocks, `k` of them from `i` on. -/
def inodeReserveDirect (alloc : Allocator) : ℕ → ℕ → InodeDisk → Volume → Bool × InodeDisk × Volume
  | 0,_,d,v => (true,d,v)
  | k+1,i,d,v =>
    if d.directBlock i = 0 then
      match alloc v with
      | (none,v) => (false,d,v)
      | (some p,v) => inodeReserveDirect alloc k (i+1) (d.setDirectBlock i p) (bufferCacheWrite p Sector.zeros v)
    else inodeReserveDirect alloc k (i+1) d v

/-- Extend the blocks of an inode so that it can hold `length` bytes. -/
def inodeReserve (alloc : Allocator) (d : InodeDisk) (length : ℤ) (v : Volume) :
    Bool × InodeDisk × Volume :=
  if length < 0 then (false,d,v) else
  let numSectors := bytesToSectors length
  -- (1) direct blocks
  let l := min numSectors directBlocksCount
  match inodeReserveDirect alloc l 0 d v with
  | (false,d,v) => (false,d,v)
  | (true,d,v) =>
  let numSectors := numSectors - l
  if numSectors = 0 then (true,d,v) else
  -- (2) a single indirect block
  let l := min numSectors indirectBlocksPerSector
  match inodeReserveIndirect alloc 1 l d.indirectBlock v with
  | (false,p,v) => (false,d.setIndirectBlock p,v)
  | (true,p,v) =>
  let d := d.setIndirectBlock p
  let numSectors := numSectors - l
  if numSectors = 0 then (true,d,v) else
  -- (3) a single doubly indirect block
  let l := min numSectors (indirectBlocksPerSector * indirectBlocksPerSector)
  match inodeReserveIndirect alloc 2 l d.doublyIndirectBlock v with
  | (false,p,v) => (false,d.setDoublyIndirectBlock p,v)
  | (true,p,v) => (decide (numSectors - l = 0),d.setDoublyIndirectBlock p,v)

/-! ### Reading and writing -/

/-- `chunk_size`: the bytes moved by one round of the read and write loops. -/
def chunkSize (length size offset : ℤ) : ℤ :=
  min size (min (wrap32 (length - offset)) (512 - offset.tmod 512))

/-- `memcpy(bounce + ofs, src, n)`. -/
def overlay (bounce : Sector) (ofs n : ℤ) (src : ℕ → UInt8) : Sector :=
  Sector.ofBytes fun j => if ofs ≤ j ∧ (j : ℤ) < ofs + n then src (j - ofs).toNat else Sector.byte bounce j

/-- The loop of `inode_read_at`; each round moves at least one byte, so `size` rounds suffice.
The comparison `sector_idx < 0` of the source is on an unsigned value and never true. -/
def inodeReadLoop (d : InodeDisk) (v : Volume) : ℕ → ℤ → ℤ → List UInt8 → List UInt8
  | 0,_,_,buffer => buffer
  | rounds+1,size,offset,buffer =>
    if size ≤ 0 then buffer else
    let sector := bufferCacheRead (byteToSector v d offset) v
    let chunk := chunkSize d.length size offset
    if chunk ≤ 0 then buffer else
    inodeReadLoop d v rounds (size - chunk) (offset + chunk)
      (buffer ++ (List.range chunk.toNat).map fun k : ℕ => Sector.byte sector (offset.tmod 512 + k).toNat)

/-- `inode_read_at`: the bytes stored into the buffer; their number is the value returned. -/
def inodeReadAt (d : InodeDisk) (size offset : ℤ) (v : Volume) : List UInt8 :=
  inodeReadLoop d v size.toNat size offset []

/-- The sector written by one round: the bytes of the buffer from `written` on, over the old
contents where the chunk does not cover the sector. -/
def chunkSector (old : Sector) (ofs chunk written : ℤ) (buffer : List UInt8) : Sector :=
  let src := fun k => buffer.getD (written.toNat + k) 0
  if ofs = 0 ∧ chunk = 512 then Sector.ofBytes src
  else overlay (if 0 < ofs ∨ chunk < 512 - ofs then old else Sector.zeros) ofs chunk src

/-- The loop of `inode_write_at`, with the bytes written so far. -/
def inodeWriteLoop (d : InodeDisk) (buffer : List UInt8) : ℕ → ℤ → ℤ → ℤ → Volume → ℤ × Volume
  | 0,_,_,written,v => (written,v)
  | rounds+1,size,offset,written,v =>
    if size ≤ 0 then (written,v) else
    let sectorIdx := byteToSector v d offset
    let chunk := chunkSize d.length size offset
    if chunk ≤ 0 then (written,v) else
    let data := chunkSector (bufferCacheRead sectorIdx v) (offset.tmod 512) chunk written buffer
    inodeWriteLoop d buffer rounds (size - chunk) (offset + chunk) (written + chunk)
      (bufferCacheWrite sectorIdx data v)

/-- The part of `inode_write_at` that extends the file up to `newLength` bytes. -/
def inodeExtend (alloc : Allocator) (inode : Inode) (newLength : ℤ) (v : Volume) :
    Bool × Inode × Volume :=
  match inodeReserve alloc inode.data newLength v with
  | (false,d,v) => (false,{ inode with data := d },v)
  | (true,d,v) =>
    let d := d.setLength newLength
    (true,{ inode with data := d },bufferCacheWrite inode.sector d v)

def inodeWriteAtWith (alloc : Allocator) (inode : Inode) (buffer : List UInt8) (size offset : ℤ)
    (v : Volume) : ℤ × Inode × Volume :=
  if inode.denyWriteCnt ≠ 0 then (0,inode,v) else
  -- beyond the EOF: extend the file
  match (if byteToSector v inode.data (wrap32 (wrap32 (offset + size) - 1)) = -1 then
      inodeExtend alloc inode (wrap32 (offset + size)) v else (true,inode,v)) with
  | (false,inode,v) => (0,inode,v)
  | (true,inode,v) =>
    let (written,v) := inodeWriteLoop inode.data buffer size.toNat size offset 0 v
    (written,inode,v)

/-! ### The free map -/

/-- `bitmap_write(free_map, free_map_file)`, with the allocator its own growth would use. -/
def bitmapWriteWith (alloc : Allocator) (v : Volume) : Bool × Volume :=
  match v.freeMapFile with
  | none => (false,v)
  | some inode =>
    let size := (byteCnt v.freeMap.bitCnt : ℤ)
    let (written,inode,v) := inodeWriteAtWith alloc inode v.freeMap.bytes size 0 v
    (decide (written = size),{ v with freeMapFile := some inode })

/-- `free_map_allocate`, with the allocator the free-map file would use to grow. -/
def freeMapAllocateWith (alloc : Allocator) (cnt : ℕ) (v : Volume) : Option BlockSector × Volume :=
  match v.freeMap.bitmapScanAndFlip 0 cnt false with
  | (none,_) => (none,v)
  | (some sector,freeMap) =>
    let v := { v with freeMap := freeMap }
    if v.freeMapFile.isNone then (some (UInt32.ofNat sector),v) else
    match bitmapWriteWith alloc v with
    | (true,v) => (some (UInt32.ofNat sector),v)
    | (false,v) => (none,{ v with freeMap := v.freeMap.bitmapSetMultiple sector cnt false })

/-- `free_map_allocate(1, ..)` nested at most `depth` deep. -/
def allocatorDepth : ℕ → Allocator
  | 0 => fun v => (none,v)
  | depth+1 => freeMapAllocateWith (allocatorDepth depth) 1

/-- `free_map_allocate`. A nested call finds one bit more set than its caller, so there are
never more levels than bits. -/
def freeMapAllocate (cnt : ℕ) (v : Volume) : Option BlockSector × Volume :=
  freeMapAllocateWith (allocatorDepth v.freeMap.bitCnt) cnt v

def bitmapWrite : Volume → Bool × Volume := bitmapWriteWith (freeMapAllocate 1)

def inodeWriteAt : Inode → List UInt8 → ℤ → ℤ → Volume → ℤ × Inode × Volume :=
  inodeWriteAtWith (freeMapAllocate 1)

/-- `free_map_release`; its assertion only prints a message. -/
def freeMapRelease (sector : BlockSector) (cnt : ℕ) (v : Volume) : Volume :=
  (bitmapWrite { v with
    freeMap := v.freeMap.bitmapSetMultiple sector.toNat cnt false
    releases := Function.update v.releases sector (v.releases sector + 1) }).2

def freeMapSector : BlockSector := 0
def rootDirSector : BlockSector := 1

/-- `free_map_init` on a device of `blockSize` sectors; no file is open yet. The last sector of
the device has no bit. -/
def freeMapInit (disk : BlockSector → Sector) (blockSize : ℕ) : Volume where
  sectors := disk
  freeMap := ((Bitmap.bitmapCreate (blockSize - 1)).bitmapMark freeMapSector.toNat).bitmapMark rootDirSector.toNat
  freeMapFile := none
  writes := fun _ => 0
  releases := fun _ => 0

def numFreeSectors (v : Volume) : ℕ := v.freeMap.bitmapCount 0 v.freeMap.bitCnt false

/-! ### Creation and release -/

def inodeAllocate (d : InodeDisk) (v : Volume) : Bool × InodeDisk × Volume :=
  inodeReserve (freeMapAllocate 1) d d.length v

/-- The new record is written to its sector once its blocks are allocated. -/
def inodeStore (sector : BlockSector) : Bool × InodeDisk × Volume → Bool × Volume
  | (false,_,v) => (false,v)
  | (true,d,v) => (true,bufferCacheWrite sector d v)

/-- `inode_create`; the assertion on the length only prints a message. -/
def inodeCreate (sector : BlockSector) (length : ℤ) (isDir : Bool) (v : Volume) : Bool × Volume :=
  inodeStore sector (inodeAllocate (InodeDisk.create length isDir) v)

/-- The loop over the entries of an indirect block that is being released. -/
def deallocateEntries (entry : BlockSector → ℕ → Volume → Volume) (unit : ℕ) (blocks : Sector) :
    ℕ → ℕ → ℕ → Volume → Volume
  | 0,_,_,v => v
  | k+1,i,numSectors,v =>
    let subsize := min numSectors unit
    deallocateEntries entry unit blocks k (i+1) (numSectors - subsize)
      (entry (Sector.word blocks i) subsize v)

def inodeDeallocateIndirect : ℕ → BlockSector → ℕ → Volume → Volume
  | 0,entry,_,v => freeMapRelease entry 1 v
  | level+1,entry,numSectors,v =>
    let indirectBlock := bufferCacheRead entry v
    let unit := unitOf (level+1)
    freeMapRelease entry 1 (deallocateEntries (inodeDeallocateIndirect level) unit indirectBlock
      (divRoundUp numSectors unit) 0 numSectors v)

def inodeDeallocateDirect (d : InodeDisk) : ℕ → ℕ → Volume → Volume
  | 0,_,v => v
  | k+1,i,v => inodeDeallocateDirect d k (i+1) (freeMapRelease (d.directBlock i) 1 v)

def inodeDeallocate (d : InodeDisk) (v : Volume) : Bool × Volume :=
  if d.length < 0 then (false,v) else
  let numSectors := bytesToSectors d.length
  let l := min numSectors directBlocksCount
  let v := inodeDeallocateDirect d l 0 v
  let numSectors := numSectors - l
  let l := min numSectors indirectBlocksPerSector
  let v := if l > 0 then inodeDeallocateIndirect 1 d.indirectBlock l v else v
  let numSectors := numSectors - l
  let l := min numSectors (indirectBlocksPerSector * indirectBlocksPerSector)
  let v := if l > 0 then inodeDeallocateIndirect 2 d.doublyIndirectBlock l v else v
  (true,v)

/-- `get_inode_data_sectors`; the null pointer is returned for a negative length. -/
def getInodeDataSectors (v : Volume) (d : InodeDisk) : Option (List BlockSector) :=
  if d.length < 0 then none else
  let numSectors := bytesToSectors d.length
  let l := min numSectors directBlocksCount
  let direct := (List.range l).map d.directBlock
  let numSectors := numSectors - l
  let l := min numSectors indirectBlocksPerSector
  let indirect := if l > 0 then
      (List.range l).map (Sector.word (bufferCacheRead d.indirectBlock v))
    else []
  let numSectors := numSectors - l
  let l := min numSectors (indirectBlocksPerSector * indirectBlocksPerSector)
  let doubly := if l > 0 then
      let first := bufferCacheRead d.doublyIndirectBlock v
      (List.range (divRoundUp l indirectBlocksPerSector)).flatMap fun i =>
        let second := bufferCacheRead (Sector.word first i) v
        (List.range (min (l - i * indirectBlocksPerSector) indirectBlocksPerSector)).map
          (Sector.word second)
    else []
  some (direct ++ indirect ++ doubly)

end ShellOS.Fs
