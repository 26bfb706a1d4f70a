import Mathlib.Data.Finmap
import Swytch.Durability.Format
import Swytch.Lib.FinmapFold

namespace swytch.durability

open swytch.lib swytch.proto

/-- The fields of `bucket` that mirror its open file. `handle` is the identity of the handle. -/
structure Index where
  handle : Nat
  block : Nat
  cursor : Nat
  lastPage : Nat
  entries : Finmap (fun _ : UInt64 => Nat)
  free : List Nat
  pages : List Nat
  generation : Nat
  synced : Nat
  punches : List Extent

/-- The file of a bucket: none, one that is not open, or one that is open. -/
inductive Medium where
  | missing
  | closed (file : File)
  | mapped (file : File) (index : Index)

/-- What a sync took with it: the handle it synced and the holes it punches later. -/
structure Capture where
  handle : Nat
  punches : List Extent
deriving DecidableEq, Repr

/-- A hole with the extents that were published when it was punched. -/
structure Hole where
  extent : Extent
  live : List Extent

/-- A bucket. `capture` is the sync that has not punched its holes yet; `opened` counts the
handles; `holes` has every hole ever punched and is not in the code. -/
structure Bucket where
  medium : Medium := .missing
  capture : Option Capture := none
  opened : Nat := 0
  holes : List Hole := []

variable (env : Env) (ranges : RangeOrder BucketID) (id : BucketID) (b : Bucket) (f : File) (x : Index)

variable (pos : Nat)

/-- Read one entry of the table of contents. -/
def Index.scanEntry : Except String Index :=
  match entryAt f.data pos with
  | none => .ok { x with free := x.free ++ [pos] }
  | some r =>
    if r.offset % fileCount ≠ id.bucket.val ∨ r.pos % x.block ≠ 0 ∨ r.allocated = 0 ∨ r.allocated % x.block ≠ 0 ∨
        r.allocated < r.size ∨ f.size < r.pos ∨ f.size - r.pos < r.allocated then
      .error "invalid published TOC entry"
    else if UInt64.ofNat r.offset ∈ x.entries then .error "duplicate published effect"
    else .ok { x with
      entries := x.entries.insert (UInt64.ofNat r.offset) pos, cursor := max x.cursor (r.pos + r.allocated) }

def Index.scanPage (page : Nat) : Except String Index :=
  if page % x.block ≠ 0 ∨ f.size - x.block < page ∨ (x.pages ≠ [] ∧ page ≤ x.lastPage) then
    .error "invalid TOC page"
  else
    (slots x.block page).foldlM (Index.scanEntry id f)
      { x with pages := x.pages ++ [page], lastPage := page, cursor := max x.cursor (page + x.block) }

/-- Follow the chain of pages. Pages increase, so a file never has more than its blocks. -/
def Index.scanPages (id : BucketID) (f : File) : Nat → Nat → Index → Except String Index
  | 0, _, _ => .error "TOC scan out of fuel"
  | fuel + 1, page, x =>
    if page = 0 then .ok x
    else (x.scanPage id f page).bind (Index.scanPages id f fuel (f.data.load page))

/-- The index before the first page is read. -/
def Index.start (block handle : Nat) : Index := ⟨handle, block, 2 * block, 0, ∅, [], [], 0, 0, []⟩

/-- The index `open` builds from a file whose header it has written or checked. -/
def Index.scan (block handle : Nat) : Except String Index :=
  (Index.scanPages id f (f.size / block + 1) block (Index.start block handle)).map
    fun x => { x with cursor := max x.cursor f.size }

/-- The checks of `open` on the header of a file that exists. -/
def File.checkHeader : Except String Nat :=
  if f.size = 0 then .error "empty durability header"
  else if f.size < 4096 then .error "truncated durability header"
  else if f.data.read 0 8 ≠ magic ∨ f.data.load 8 ≠ formatVersion ∨ f.data.load 48 ≠ nativeOrder then
    .error "unsupported durability format"
  else if f.data.load 16 < 4096 ∨ 2 ^ 20 < f.data.load 16 ∨ f.data.load 16 % env.pageSize ≠ 0 ∨
      f.size < 2 * f.data.load 16 then
    .error "invalid allocation boundary"
  else if f.data.load 24 ≠ id.node.toNat ∨ f.data.load 32 ≠ id.bucket.val ∨ f.data.load 40 ≠ fileCount then
    .error "durability identity mismatch"
  else .ok (f.data.load 16)

/-- The allocation block of a new file. -/
def Env.block : Nat := max env.pageSize env.allocationBlock

/-- A new file, its header synced before its name is published. -/
def createFile : File :=
  let data := Image.writeAll (fun _ => 0) (headerWrites id env.block)
  { size := 2 * env.block, data := data, since := [data], written := [], punched := [] }

/-- `open` without `create`, for a file of the directory. -/
def Bucket.openFile : Except String Bucket :=
  match b.medium with
  | .closed f => do
    let block ← f.checkHeader env id
    let x ← Index.scan id f block b.opened
    .ok { b with medium := .mapped f x, opened := b.opened + 1 }
  | _ => .ok b

/-- `open` with `create`. -/
def Bucket.openOrCreate : Except String Bucket :=
  match b.medium with
  | .missing => do
    let x ← Index.scan id (createFile env id) env.block b.opened
    .ok { b with medium := .mapped (createFile env id) x, opened := b.opened + 1 }
  | _ => b.openFile env id

/-- `grow` the file for a size. -/
def File.grow (size : Nat) : Except String File :=
  if size ≤ f.size then .ok f
  else if 2 ^ 63 - 1 < size then .error "durability file too large"
  else if 2 ^ 63 - 1 < align size (2 ^ 20) then .error "invalid argument"
  else .ok { f with size := align size (2 ^ 20) }

variable (r : Record) (offset : UInt64) (data : Bytes)

/-- The bytes reserved for a payload. -/
def Index.room : Nat := align (max data.length 1) x.block

/-- The entry published for a payload at the cursor. -/
def Index.recordFor : Record :=
  { offset := offset.toNat, pos := x.cursor, size := data.length, allocated := x.room data,
    sum := (recordChecksum offset.toNat x.cursor data.length (x.room data) data).toNat }

/-- The stores by which an entry gets its words before it is published. -/
def entryWrites : List (Nat × Bytes) :=
  [(pos + 8, littleEndian 8 r.offset), (pos + 16, littleEndian 8 r.pos), (pos + 24, littleEndian 8 r.size),
    (pos + 32, littleEndian 8 r.allocated), (pos + 40, littleEndian 8 r.sum)]

/-- All stores of a publication in their order. -/
def publishWrites : List (Nat × Bytes) :=
  (pos, littleEndian 8 0) :: Image.copyWrites r.pos data ++ entryWrites pos r ++ [(pos, littleEndian 8 published)]

def Index.dirty : Index := { x with generation := x.generation + 1 }

/-- Take the last free entry and the room at the cursor. -/
def Index.publish : Index :=
  Index.dirty { x with
    free := x.free.dropLast, cursor := x.cursor + x.room data, entries := x.entries.insert offset pos }

def File.publish : File :=
  { f.writeAll (publishWrites pos r data) with written := ⟨r, data⟩ :: f.written }

/-- The part of `Put` under the read lock: nothing if the file is not open or there is no room. -/
def Bucket.reserve (b : Bucket) : Option Bucket :=
  match b.medium with
  | .mapped f x =>
    if offset ∈ x.entries then some b
    else match x.free.getLast? with
      | some pos =>
        if x.cursor + x.room data ≤ f.size then
          some { b with medium := .mapped (f.publish pos (x.recordFor offset data) data) (x.publish pos offset data) }
        else none
      | none => none
  | _ => none

/-- A new page of the table of contents at the cursor. -/
def File.addPage : File :=
  (f.write x.cursor (List.replicate x.block 0)).save x.lastPage x.cursor

def Index.addPage : Index :=
  { x with cursor := x.cursor + x.block, lastPage := x.cursor, pages := x.pages ++ [x.cursor],
           free := x.free ++ slots x.block x.cursor }

/-- The bytes `prepare` needs besides the payload: a page when no entry is free. -/
def Index.extra : Nat := if x.free = [] then x.block else 0

/-- Make room in an open file. -/
def prepareMapped : Except String (File × Index) :=
  (f.grow (x.cursor + x.extra + x.room data)).map fun f =>
    if x.extra = 0 then (f, x) else (f.addPage x, x.addPage)

/-- The part of `Put` under the write lock: open the file and make room, with the bucket as
it is left when there is an error. -/
def Bucket.prepare (b : Bucket) : Bucket × Option String :=
  match b.openOrCreate env id with
  | .error e => (b, some e)
  | .ok b =>
    match b.medium with
    | .mapped f x =>
      match prepareMapped f x data with
      | .error e => (b, some e)
      | .ok (f, x) => ({ b with medium := .mapped f x }, none)
    | _ => (b, none)

/-- The loop of `Put`, for at most so many rounds. -/
def Bucket.putLoop (env : Env) (id : BucketID) (offset : UInt64) (data : Bytes) :
    Nat → Bucket → Option (Bucket × Option String)
  | 0, _ => none
  | rounds + 1, b =>
    match b.reserve offset data with
    | some b => some (b, none)
    | none =>
      match b.prepare env id data with
      | (b, some e) => some (b, some e)
      | (b, none) => Bucket.putLoop env id offset data rounds b

/-- `Put` on the bucket of the effect. The loop ends in its second round. -/
def Bucket.put (env : Env) (id : BucketID) (offset : UInt64) (data : Bytes) (b : Bucket) : Bucket × Option String :=
  (b.putLoop env id offset data 2).getD (b, some "put loop out of fuel")

/-- Free an entry. Its extent is punched after a later sync. -/
def Index.unpublish (f : File) (pos : Nat) (offset : UInt64) : Index :=
  Index.dirty { x with
    punches := x.punches ++ [⟨f.data.load (pos + 16), f.data.load (pos + 32)⟩],
    entries := x.entries.erase offset, free := x.free ++ [pos] }

/-- `Delete` on the bucket of the effect; a bucket that gets empty loses its file. -/
def Bucket.delete (b : Bucket) : Bucket :=
  match b.medium with
  | .mapped f x =>
    match x.entries.lookup offset with
    | none => b
    | some pos =>
      if x.entries.erase offset = ∅ then { b with medium := .missing }
      else { b with medium := .mapped (f.save pos deleted) (x.unpublish f pos offset) }
  | _ => b

/-- The extents of the published entries of an open file. -/
def publishedExtents : List Extent :=
  (x.pages.flatMap (slots x.block)).filterMap fun pos => (entryAt f.data pos).map Record.extent

/-- The second half of `sync`: punch the holes of the sync, if the file is still the same. -/
def Bucket.punch : Bucket :=
  match b.capture with
  | none => b
  | some c =>
    match b.medium with
    | .mapped f x =>
      if x.handle = c.handle then
        { b with capture := none, medium := .mapped (c.punches.foldl File.punch f) x,
                 holes := c.punches.map (fun e => ⟨e, publishedExtents f x⟩) ++ b.holes }
      else { b with capture := none }
    | _ => { b with capture := none }

/-- The first half of `sync`. The lock of syncs is held through both halves, so the one before
has punched its holes. -/
def Bucket.sync : Bucket :=
  let b := b.punch
  match b.medium with
  | .mapped f x =>
    if x.generation = x.synced then b
    else { b with
      medium := .mapped f.syncMapped { x with punches := [], synced := x.generation },
      capture := if x.punches = [] then none else some ⟨x.handle, x.punches⟩ }
  | _ => b

/-- `Close` on one bucket: wait for its sync, sync once more, close the handle. -/
def Bucket.close : Bucket :=
  let b := b.sync.punch
  match b.medium with
  | .mapped f _ => { b with medium := .closed f }
  | _ => b

/-- What `Recover` passes to its callback: the identity and the slice of the mapped file. -/
structure Report where
  id : ID
  pos : Nat
  data : Bytes
deriving DecidableEq, Repr

def recoverEntry (reports : List Report) (pos : Nat) : Except String (List Report) :=
  match entryAt f.data pos with
  | none => .ok reports
  | some r =>
    if r.checksum (f.data.read r.pos r.size) ≠ r.sum then
      .error ("corrupt effect [" ++ toString id.node.toNat ++ " " ++ toString r.offset ++ "] in " ++ id.path env)
    else .ok (reports ++ [⟨⟨id.node, UInt64.ofNat r.offset⟩, r.pos, f.data.read r.pos r.size⟩])

/-- `Recover` on one bucket. -/
def Bucket.recover (reports : List Report) : Except String (List Report) :=
  match b.medium with
  | .mapped f x => (x.pages.flatMap (slots x.block)).foldlM (recoverEntry env id f) reports
  | _ => .ok reports

/-- The buckets of a store. -/
abbrev Store := Finmap (fun _ : BucketID => Bucket)

variable (s : Store)

/-- `get`: a bucket that is not known yet starts without a file. -/
def Store.get (id : BucketID) : Bucket := (s.lookup id).getD {}

def Store.put (id : ID) (data : Bytes) : Store × Option String :=
  let r := (s.get id.bucketID).put env id.bucketID id.offset data
  (s.insert id.bucketID r.1, r.2)

def Store.delete (id : ID) : Store :=
  s.insert id.bucketID ((s.get id.bucketID).delete id.offset)

def Store.sync (id : BucketID) : Store := s.insert id (s.get id).sync

def Store.punch (id : BucketID) : Store := s.insert id (s.get id).punch

def Store.close : Store :=
  (ranges.order s.keys).foldl (fun s id => s.insert id (s.get id).close) s

/-- The part of `openFiles` for one file. -/
def Store.openBucket (id : BucketID) : Except String Store :=
  match (s.get id).openFile env id with
  | .error e => .error ("open " ++ id.path env ++ ": " ++ e)
  | .ok b => .ok (s.insert id b)

/-- `openFiles`: the error of a file stops the start. -/
def Store.openFiles : Except String Store :=
  (ranges.order s.keys).foldlM (Store.openBucket env) s

def Store.recover : Except String (List Report) :=
  (ranges.order s.keys).foldlM (fun reports id => (s.get id).recover env id reports) []

end swytch.durability
