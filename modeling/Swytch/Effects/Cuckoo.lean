import Swytch.Lib.Cuckoo
import Swytch.Lib.LittleEndian
import Swytch.Proto.Replication

open swytch.lib swytch.proto

namespace swytch.effects

/-- The hash of a byte string. Keys and fingerprints go through the same function. -/
abbrev Hash := Bytes → Fin (2 ^ 64)

/-- The value of a hash function given by a number. -/
def hashValue (n : Nat) : Fin (2 ^ 64) := Fin.ofNat (2 ^ 64) n

abbrev Fingerprint := Fin 65536

/-- What an empty slot holds in place of a fingerprint. -/
abbrev emptySlot : Fingerprint := 0

def cuckooBucketSize : Nat := 4

def cuckooMaxKicks : Nat := 500

/-- The buckets lie one after the other in a flat list; the fingerprint 0 is an empty slot. -/
structure CuckooFilter where
  buckets : List Fingerprint
  numBuckets : Nat
  count : Nat
  kickSeed : Nat
  length_buckets : buckets.length = numBuckets * cuckooBucketSize
  pow_numBuckets : numBuckets.isPowerOfTwo

/-- Double the number of buckets until it is large enough. -/
def roundBuckets (want : Nat) : Nat → Nat → Nat
  | 0, nb => nb
  | fuel + 1, nb => if nb < want then roundBuckets want fuel (nb * 2) else nb

theorem isPowerOfTwo_roundBuckets (want fuel : Nat) {nb : Nat} (hnb : nb.isPowerOfTwo) :
    (roundBuckets want fuel nb).isPowerOfTwo := by
  induction fuel generalizing nb with
  | zero => exact hnb
  | succ fuel ih =>
    unfold roundBuckets
    split
    · exact ih (Nat.isPowerOfTwo_mul_two_of_isPowerOfTwo hnb)
    · exact hnb

/-- An empty filter. The capacity is below `2 ^ 63`, so 64 doublings are enough. -/
def newCuckooFilter (capacity : Nat) : CuckooFilter where
  buckets := List.replicate (roundBuckets (capacity / cuckooBucketSize + 1) 64 1 * cuckooBucketSize) 0
  numBuckets := roundBuckets (capacity / cuckooBucketSize + 1) 64 1
  count := 0
  kickSeed := 0
  length_buckets := List.length_replicate
  pow_numBuckets := isPowerOfTwo_roundBuckets _ _ Nat.isPowerOfTwo_one

def fingerprintOf (h : Nat) : Fingerprint :=
  let fp := Fin.ofNat 65536 (h &&& 0xFFFF)
  if fp = 0 then 1 else fp

/-- The partner bucket of `i` for a fingerprint. -/
def altIndex (hash : Hash) (numBuckets : Nat) (i : Nat) (fp : Fingerprint) : Nat :=
  (i ^^^ (hash (littleEndian 2 fp)).val) &&& (numBuckets - 1)

/-- The fingerprint of a key and its first bucket; the second one is the partner of it. -/
def fingerprintAndIndex (hash : Hash) (numBuckets : Nat) (key : Bytes) : Print Nat Fingerprint where
  fp := fingerprintOf (hash key)
  bucket := ((hash key).val >>> 32) &&& (numBuckets - 1)

namespace CuckooFilter

variable (c : CuckooFilter)

variable (i : Nat)

def bucket : List Fingerprint :=
  (c.buckets.drop (i * cuckooBucketSize)).take cuckooBucketSize

def slot (s : Fin cuckooBucketSize) : Fingerprint :=
  c.buckets.getD (i * cuckooBucketSize + s) 0

def setSlot (i s : Nat) (fp : Fingerprint) : CuckooFilter :=
  { c with
    buckets := c.buckets.set (i * cuckooBucketSize + s) fp
    length_buckets := by rw [List.length_set, c.length_buckets] }

variable (fp : Fingerprint)

/-- Write the fingerprint to the first empty slot of the bucket, if there is one. -/
def insertIntoBucket : Option CuckooFilter :=
  ((c.bucket i).idxOf? 0).map (fun s => { c.setSlot i s fp with count := c.count + 1 })

def bucketContains : Bool :=
  (c.bucket i).contains fp

/-- Swap a fingerprint with a resident of the bucket, whose slot the seed picks. -/
def evict : CuckooFilter × Fingerprint :=
  let seed := (c.kickSeed + 1) % 2 ^ 64
  let s : Fin cuckooBucketSize := ⟨seed % cuckooBucketSize, Nat.mod_lt _ (by decide)⟩
  ({ c.setSlot i s fp with kickSeed := seed }, c.slot i s)

/-- Evict a resident of the bucket and take it to its partner bucket, up to `n` times. What
is in hand after the last eviction is returned: that is `ErrCuckooFull`. -/
def kick (hash : Hash) : Nat → CuckooFilter → Fingerprint → Nat → CuckooFilter × Option (Print Nat Fingerprint)
  | 0, c, fp, i => (c, some ⟨fp, i⟩)
  | n + 1, c, fp, i =>
    let (c', evicted) := c.evict i fp
    let i' := altIndex hash c'.numBuckets i evicted
    match c'.insertIntoBucket i' evicted with
    | some filled => (filled, none)
    | none => kick hash n c' evicted i'

/-- One of the two buckets of a print has its fingerprint. -/
def finds (hash : Hash) (c : CuckooFilter) (p : Print Nat Fingerprint) : Bool :=
  c.bucketContains p.bucket p.fp || c.bucketContains (altIndex hash c.numBuckets p.bucket p.fp) p.fp

def maybeContains (hash : Hash) (c : CuckooFilter) (key : Bytes) : Bool :=
  c.finds hash (fingerprintAndIndex hash c.numBuckets key)

/-- Add a key. On `ErrCuckooFull` the fingerprint that found no place is returned with the
bucket it was last tried in. -/
def add (hash : Hash) (c : CuckooFilter) (key : Bytes) : CuckooFilter × Option (Print Nat Fingerprint) :=
  let p := fingerprintAndIndex hash c.numBuckets key
  let i2 := altIndex hash c.numBuckets p.bucket p.fp
  if c.finds hash p then (c, none)
  else
    match c.insertIntoBucket p.bucket p.fp with
    | some filled => (filled, none)
    | none =>
      match c.insertIntoBucket i2 p.fp with
      | some filled => (filled, none)
      | none => c.kick hash cuckooMaxKicks p.fp (if c.kickSeed &&& 1 = 1 then i2 else p.bucket)

/-- The number of buckets, then every slot. -/
def marshalBinary : Bytes :=
  bigEndian 8 c.numBuckets ++ c.buckets.flatMap (fun v => bigEndian 2 v.val)

end CuckooFilter

/-- Why a filter or a chain of filters is not decoded. The last one is no error of the code:
the slots of so many buckets are out of range, at once or at the first lookup. -/
inductive CuckooFault where
  | shortBuffer
  | notPowerOfTwo
  | bodyLengthMismatch
  | chainShortBuffer
  | segmentCountExceedsBuffer
  | truncatedLength
  | truncatedBody
  | outOfRange
deriving DecidableEq, Repr

def readSlots : Nat → Bytes → List Fingerprint
  | 0, _ => []
  | n + 1, body => Fin.ofNat 65536 (ofBigEndian (body.take 2)) :: readSlots n (body.drop 2)

theorem length_readSlots (n : Nat) (body : Bytes) : (readSlots n body).length = n := by
  induction n generalizing body with
  | zero => rfl
  | succ n ih => rw [readSlots, List.length_cons, ih]

def CuckooFilter.unmarshalBinary (data : Bytes) : Except CuckooFault CuckooFilter :=
  if data.length < 8 then .error .shortBuffer
  else
    let nb := ofBigEndian (data.take 8)
    if hpow : nb ≠ 0 ∧ nb &&& (nb - 1) = 0 then
      if (data.drop 8).length ≠ nb * cuckooBucketSize * 2 % 2 ^ 64 then .error .bodyLengthMismatch
      else if 2 ^ 61 ≤ nb then .error .outOfRange
      else
        let buckets := readSlots (nb * cuckooBucketSize) (data.drop 8)
        .ok
          { buckets
            numBuckets := nb
            count := buckets.countP (· ≠ 0)
            kickSeed := 0
            length_buckets := length_readSlots _ _
            pow_numBuckets := Nat.ne_zero_and_sub_one_eq_zero_iff_isPowerOfTwo.mp hpow }
    else .error .notPowerOfTwo

def cuckooChainChunk : Nat := 4096

/-- Query-only segments, and the one that is written to. -/
structure CuckooChain where
  sealed : List CuckooFilter
  active : Option CuckooFilter

/-- What adding a key leaves, whether a new fingerprint was stored, and the fingerprint
that found no place, if the active segment was full. -/
structure CuckooChain.Added where
  chain : CuckooChain
  stored : Bool
  homeless : Option (Print Nat Fingerprint)

namespace CuckooChain

/-- The segments to keep and the one to write to. -/
def rotate (cc : CuckooChain) : List CuckooFilter × CuckooFilter :=
  match cc.active with
  | none => (cc.sealed, newCuckooFilter cuckooChainChunk)
  | some active =>
    if cuckooChainChunk ≤ active.count then (cc.sealed ++ [active], newCuckooFilter cuckooChainChunk)
    else (cc.sealed, active)

def add (hash : Hash) (cc : CuckooChain) (key : Bytes) : Added :=
  let (sealed, active) := cc.rotate
  match active.add hash key with
  | (active', none) =>
    { chain := { sealed, active := some active' }
      stored := active'.count != active.count
      homeless := none }
  | (active', some left) =>
    { chain :=
        { sealed := sealed ++ [active']
          active := some ((newCuckooFilter cuckooChainChunk).add hash key).1 }
      stored := true
      homeless := some left }

def maybeContains (hash : Hash) (cc : CuckooChain) (key : Bytes) : Bool :=
  cc.active.any (fun active => active.maybeContains hash key) ||
    cc.sealed.any (fun f => f.maybeContains hash key)

/-- The chain as it is written: the active segment comes last. -/
def segments (cc : CuckooChain) : List CuckooFilter :=
  cc.sealed ++ cc.active.toList

/-- The number of segments in 32 bits, then every segment behind its length. -/
def marshalBinary (cc : CuckooChain) : Bytes :=
  bigEndian 4 cc.segments.length ++
    cc.segments.flatMap (fun f => bigEndian 4 f.marshalBinary.length ++ f.marshalBinary)

def readSegments : Nat → Bytes → Except CuckooFault (List CuckooFilter)
  | 0, _ => .ok []
  | n + 1, data =>
    if data.length < 4 then .error .truncatedLength
    else
      let l := ofBigEndian (data.take 4)
      let rest := data.drop 4
      if rest.length < l then .error .truncatedBody
      else do
        let f ← CuckooFilter.unmarshalBinary (rest.take l)
        let filters ← readSegments n (rest.drop l)
        return f :: filters

/-- A decoded chain is query-only: it has no active segment. -/
def unmarshalBinary (data : Bytes) : Except CuckooFault CuckooChain :=
  if data.length < 4 then .error .chainShortBuffer
  else
    let count := ofBigEndian (data.take 4)
    if (data.length - 4) / 4 < count then .error .segmentCountExceedsBuffer
    else do
      let filters ← readSegments count (data.drop 4)
      return { sealed := filters, active := none }

end CuckooChain

end swytch.effects
