import Swytch.Lib.ByteImage
import Swytch.Proto.Replication

namespace swytch.durability

open swytch.lib swytch.proto

def fileCount : Nat := 64

def formatVersion : Nat := 1

def entrySize : Nat := 64

def published : Nat := 1

def deleted : Nat := 2

/-- Identity of an effect: the node it comes from and its offset there. -/
structure ID where
  node : UInt64
  offset : UInt64
deriving DecidableEq, Repr

structure BucketID where
  node : UInt64
  bucket : Fin fileCount
deriving DecidableEq, Repr

/-- The bucket whose file has the effect. -/
def ID.bucketID (id : ID) : BucketID :=
  ⟨id.node, id.offset.toNat % fileCount, Nat.mod_lt _ (by decide)⟩

structure Extent where
  pos : Nat
  size : Nat
deriving DecidableEq, Repr

/-- Two extents have no byte in common. -/
def Extent.Disjoint (e e' : Extent) : Prop := e.pos + e.size ≤ e'.pos ∨ e'.pos + e'.size ≤ e.pos

/-- What the operating system reports: the size of a page of memory, and the block size of
the file system the directory is on. -/
structure Env where
  dir : String
  pageSize : Nat
  allocationBlock : Nat
deriving Repr

def BucketID.path (env : Env) (id : BucketID) : String :=
  env.dir ++ "/" ++ toString id.node.toNat ++ "/" ++ toString id.bucket.val ++ ".swytch"

def align (n block : Nat) : Nat := (n + block - 1) / block * block

/-- One bit of the reflected CRC-32 of IEEE 802.3. -/
def crcBit (crc : UInt32) : UInt32 :=
  if crc &&& 1 = 1 then (crc >>> 1) ^^^ 0xEDB88320 else crc >>> 1

def crcByte (crc : UInt32) (b : Fin 256) : UInt32 :=
  crcBit (crcBit (crcBit (crcBit (crcBit (crcBit (crcBit (crcBit (crc ^^^ UInt32.ofNat b.val))))))))

/-- Add bytes to a checksum. -/
def crcUpdate (crc : UInt32) (data : Bytes) : UInt32 := ~~~data.foldl crcByte (~~~crc)

/-- The check value of CRC-32: the checksum of the text "123456789". -/
example : crcUpdate 0 [49, 50, 51, 52, 53, 54, 55, 56, 57] = 0xCBF43926 := by decide +kernel

def recordChecksum (offset pos size allocated : Nat) (data : Bytes) : UInt32 :=
  crcUpdate (crcUpdate 0
    (littleEndian 8 offset ++ littleEndian 8 pos ++ littleEndian 8 size ++ littleEndian 8 allocated)) data

/-- The words of a published entry of the table of contents. -/
structure Record where
  offset : Nat
  pos : Nat
  size : Nat
  allocated : Nat
  sum : Nat
deriving DecidableEq, Repr

def Record.extent (r : Record) : Extent := ⟨r.pos, r.allocated⟩

/-- The checksum the entry has to have over the given payload. -/
def Record.checksum (r : Record) (data : Bytes) : Nat :=
  (recordChecksum r.offset r.pos r.size r.allocated data).toNat

/-- The published entry at a position of the table of contents. -/
def entryAt (m : Image) (pos : Nat) : Option Record :=
  if m.load pos = published then
    some ⟨m.load (pos + 8), m.load (pos + 16), m.load (pos + 24), m.load (pos + 32), m.load (pos + 40)⟩
  else none

/-- The positions of the entries of a page of the table of contents. Its first entry is the
place of the link to the next page. -/
def slots (block page : Nat) : List Nat :=
  (List.range ((block - 1) / entrySize)).map fun i => page + entrySize * (i + 1)

/-- "SWYTCH01" -/
def magic : Bytes := [83, 87, 89, 84, 67, 72, 48, 49]

def nativeOrder : Nat := 0x0102030405060708

/-- The header of a new file. -/
def headerWrites (id : BucketID) (block : Nat) : List (Nat × Bytes) :=
  [(0, magic), (8, littleEndian 8 formatVersion), (16, littleEndian 8 block), (24, littleEndian 8 id.node.toNat),
    (32, littleEndian 8 id.bucket.val), (40, littleEndian 8 fileCount), (48, littleEndian 8 nativeOrder)]

/-- A record as it was published, with the payload that was copied for it. -/
structure Stored where
  record : Record
  data : Bytes
deriving DecidableEq, Repr

/-- A file of a bucket. `since` has every content the file had since its last sync, the
present one first; `written` the records published in it; `punched` the holes made. The
last three are not in the code and are never read by it. -/
structure File where
  size : Nat
  data : Image
  since : List Image
  written : List Stored
  punched : List Extent

def File.write (f : File) (pos : Nat) (bytes : Bytes) : File :=
  { f with data := f.data.write pos bytes, since := f.data.write pos bytes :: f.since }

def File.writeAll (f : File) (writes : List (Nat × Bytes)) : File :=
  writes.foldl (fun f w => f.write w.1 w.2) f

/-- `save` stores one word. -/
def File.save (f : File) (pos value : Nat) : File := f.write pos (littleEndian 8 value)

/-- `syncMapped`: what the file has now is durable. -/
def File.syncMapped (f : File) : File := { f with since := [f.data] }

/-- `punchFile`: the bytes of the extent read as zeros. -/
def File.punch (f : File) (e : Extent) : File :=
  { f.write e.pos (List.replicate e.size 0) with punched := e :: f.punched }

end swytch.durability
