import Swytch.Keytrie.TipSet
import Swytch.Lib.CritTree
import Mathlib.Data.List.Lex
import Mathlib.Data.List.Sort
import Mathlib.Data.Prod.Lex
import Mathlib.Logic.Function.Basic

open swytch.lib swytch.proto

namespace swytch.keytrie

open CritTree

/-- A bit of a key. All bits of `otherbits` are set but the critical one; with all set the
position asks whether the key has the byte at all. -/
structure CritPos where
  bytePos : Nat
  otherbits : Nat
deriving DecidableEq, Repr

instance : LinearOrder CritPos :=
  LinearOrder.lift' (fun p => toLex (p.bytePos, p.otherbits)) fun p q h => by
    cases p
    cases q
    cases toLex.injective h
    rfl

def highestBit (b : Nat) : Nat :=
  if b = 0 then 0
  else
    let b := b ||| b >>> 1
    let b := b ||| b >>> 2
    let b := b ||| b >>> 4
    b ^^^ b >>> 1

def findCritBitFrom (i : Nat) : Bytes → Bytes → CritPos
  | x :: a, y :: b =>
    if x = y then findCritBitFrom (i + 1) a b else ⟨i % 2 ^ 32, highestBit (x.val ^^^ y.val) ^^^ 0xFF⟩
  | x :: _, [] => ⟨i % 2 ^ 32, highestBit x.val ^^^ 0xFF⟩
  | [], y :: _ => ⟨i % 2 ^ 32, highestBit y.val ^^^ 0xFF⟩
  | [], [] => ⟨0, 0⟩

/-- The first bit at which two keys differ. Byte positions are unsigned 32-bit numbers. -/
def findCritBit (a b : Bytes) : CritPos := findCritBitFrom 0 a b

def getDirection (key : Bytes) (p : CritPos) : Nat :=
  key[p.bytePos]?.elim 0 (fun c => (1 + (p.otherbits ||| c.val)) >>> 8)

def goesRight (key : Bytes) (p : CritPos) : Bool := getDirection key p == 1

def shouldInsertBefore (new cur : CritPos) : Bool :=
  new.bytePos < cur.bytePos || (new.bytePos == cur.bytePos && new.otherbits < cur.otherbits)

/-- A tip set as an object in memory: the trie compares addresses. -/
structure TipSetPtr where
  addr : Nat
  set : TipSet
deriving DecidableEq

/-- A slot of the leaf arena. A slot that is not in use is deleted; a deleted leaf with a
negative frequency is a ghost. -/
structure Leaf (D : Type) where
  key : Bytes := []
  tips : Option TipSetPtr := none
  data : Option D := none
  deleted : Bool := true
  freq : Int := 0
  pinned : Bool := false
  pins : Int := 0
  lastAccess : Nat := 0
  lastDecayEpoch : Nat := 0

abbrev Trie := CritTree Nat CritPos

/-- A crit-bit trie with payloads of type `D`. Nodes are known by their slot, and a slot
is never given out twice: the arena recycles chunks as new arrays. -/
structure Critbit (D : Type) where
  root : Option Trie := none
  leaf : Nat → Leaf D := fun _ => {}
  nextLeaf : Nat := 0
  nextInternal : Nat := 0
  size : Int := 0
  deletedCount : Int := 0
  ghostCount : Int := 0
  reapQueue : List Nat := []
  reapDropped : Nat := 0
  readRevision : Nat := 0
  evictDecider : Option (Bytes → Bool) := none
  evictActive : Bool := false
  evictClock : Nat := 0
  decayEvery : Option Nat := some 0
  decayEpoch : Nat := 0

def maxLeafFreq : Int := 15

def reapQueueCapacity : Nat := 65536

def reapBatchSize : Nat := 64

def minSweep : Nat := 128

def defaultDecayInterval : Nat := 8

variable {D : Type} (c : Critbit D) (key : Bytes) (tips : Option TipSetPtr) (s : Nat)

namespace Critbit

def setLeaf (leaf : Leaf D) : Critbit D :=
  { c with leaf := Function.update c.leaf s leaf }

def findBestMatch (root : Option Trie) (key : Bytes) : Option Nat :=
  root.map (best (goesRight key))

/-- The leaf of a key that is live. -/
def liveLeaf : Option Nat :=
  (findBestMatch c.root key).filter fun s => (c.leaf s).key == key && !(c.leaf s).deleted

def contains : Option TipSetPtr :=
  (c.liveLeaf key).bind fun s => (c.leaf s).tips

def bumpAccess (now : Nat) : Critbit D :=
  if c.evictActive then
    let leaf := c.leaf s
    c.setLeaf s
      { leaf with
        freq := if leaf.freq < 0 ∨ maxLeafFreq ≤ leaf.freq then leaf.freq else leaf.freq + 1
        lastAccess := now }
  else c

def loadData (now : Nat) : Critbit D × Option D :=
  match c.liveLeaf key with
  | none => (c, none)
  | some s => (c.bumpAccess s now, (c.leaf s).data)

/-- The payload of a key, and whether it was there before. -/
def loadOrStoreData (value : D) (now : Nat) : Critbit D × Option D × Bool :=
  match c.liveLeaf key with
  | none => (c, none, false)
  | some s =>
    let bumped := c.bumpAccess s now
    match (c.leaf s).data with
    | some data => (bumped, some data, true)
    | none => (bumped.setLeaf s { bumped.leaf s with data := some value }, some value, false)

/-- The contents of a new leaf, which is deleted until it is linked. -/
def newLeaf (now : Nat) : Leaf D :=
  { key := key
    tips := tips
    pinned := c.evictDecider.any (fun decider => !decider key)
    freq := 1
    lastAccess := now
    lastDecayEpoch := c.decayEpoch }

def allocLeafNode (now : Nat) : Critbit D :=
  { c.setLeaf c.nextLeaf (c.newLeaf key tips now) with nextLeaf := c.nextLeaf + 1 }

/-- A ghost comes back to life with the frequency it had, and one more. -/
def promoteIfGhost : Critbit D :=
  let leaf := c.leaf s
  if leaf.freq < 0 then
    { c.setLeaf s { leaf with freq := min (-leaf.freq + 1) maxLeafFreq, lastDecayEpoch := c.decayEpoch } with
      ghostCount := c.ghostCount - 1 }
  else c

/-- A deleted leaf is live again. -/
def revive : Critbit D :=
  let leaf := c.leaf s
  let live := { c.setLeaf s { leaf with deleted := false } with size := c.size + 1 }
  if leaf.freq < 0 then live.promoteIfGhost s else { live with deletedCount := c.deletedCount - 1 }

/-- Where a new leaf is linked in; fails where the source tries again, which is where a
tree does not branch on the critical bits of its keys. -/
def insertAt {D : Type} (c : Critbit D) (key : Bytes) (crit : CritPos) : Trie → Option Trie
  | .leaf s =>
    if findCritBit key (c.leaf s).key = crit then
      some (branch c.nextInternal c.nextLeaf crit (goesRight key crit) (.leaf s))
    else none
  | .node n p l r =>
    if shouldInsertBefore p crit then
      if goesRight key p then (c.insertAt key crit r).map (.node n p l)
      else (c.insertAt key crit l).map (fun l' => .node n p l' r)
    else if shouldInsertBefore crit p then
      some (branch c.nextInternal c.nextLeaf crit (goesRight key crit) (.node n p l r))
    else none

/-- Publish a new leaf under a root that it has been linked to. -/
def linkLeaf (now : Nat) (root : Trie) (nextInternal : Nat) : Critbit D :=
  let allocated := c.allocLeafNode key tips now
  { allocated.setLeaf c.nextLeaf { allocated.leaf c.nextLeaf with deleted := false } with
    root := some root, nextInternal := nextInternal, size := c.size + 1 }

/-- Link a new leaf for a key that has none. -/
def insertNew (now : Nat) : Option (Critbit D) :=
  match c.root with
  | none => some (c.linkLeaf key tips now (.leaf c.nextLeaf) c.nextInternal)
  | some t =>
    (c.insertAt key (findCritBit key (c.leaf (t.best (goesRight key))).key) t).map fun root =>
      c.linkLeaf key tips now root (c.nextInternal + 1)

/-- `Insert`: the conflicting tip set, and whether the tips were stored. A call that does
not return is none. -/
def insert (old new : Option TipSetPtr) (now : Nat) : Option (Critbit D × Option TipSetPtr × Bool) :=
  match (findBestMatch c.root key).filter (fun s => (c.leaf s).key == key) with
  | some s =>
    let leaf := c.leaf s
    let expected := if old.isNone ∧ leaf.deleted then leaf.tips else old
    if leaf.tips = expected then
      let stored := c.setLeaf s { leaf with tips := new }
      some (if leaf.deleted then stored.revive s else stored, none, true)
    else some (c, leaf.tips, false)
  | none => (c.insertNew key new now).map fun c' => (c', none, true)

/-- Drop tips of a key. `addr` is where the new tip set is allocated. -/
def removeTips {D : Type} (c : Critbit D) (key : Bytes) (refs : List EffectRef) (addr : Nat) : Critbit D :=
  match c.liveLeaf key with
  | none => c
  | some s =>
    match (c.leaf s).tips with
    | none => c
    | some current =>
      let kept := current.set.removeTips refs
      if kept.tips.length = current.set.tips.length then c
      else c.setLeaf s { c.leaf s with tips := some ⟨addr, kept⟩ }

def enqueueReap : Critbit D :=
  if c.reapQueue.length < reapQueueCapacity then { c with reapQueue := c.reapQueue ++ [s] }
  else { c with reapDropped := c.reapDropped + 1 }

/-- The contents of a leaf that is no longer live are released. -/
def clearLeaf : Critbit D :=
  { c.setLeaf s { c.leaf s with tips := none, data := none, deleted := true } with size := c.size - 1 }

def deleteAndSnapshot (old : Option TipSetPtr) : Critbit D × Option TipSetPtr :=
  match c.liveLeaf key with
  | none => (c, none)
  | some s =>
    if (c.leaf s).tips = old then
      ({ c.clearLeaf s with deletedCount := c.deletedCount + 1 }.enqueueReap s, old)
    else (c, none)

/-- A slot that is no longer linked. -/
def retireLeaf : Critbit D :=
  c.setLeaf s { c.leaf s with key := [], tips := none, data := none, deleted := true }

/-- The accounts of a leaf that has been taken out of the tree. -/
def pruned : Critbit D :=
  { c with deletedCount := c.deletedCount - 1, readRevision := c.readRevision + 1 }.retireLeaf s

/-- A leaf to be unlinked: deleted and not a ghost. -/
def isDead : Bool :=
  (c.leaf s).deleted && !decide ((c.leaf s).freq < 0)

/-- Unlink a leaf if it is dead and still in the tree. -/
def unlinkLeaf : Critbit D × Bool :=
  if c.isDead s then
    match c.root.bind (prune (goesRight (c.leaf s).key) s) with
    | none => (c, false)
    | some root => ({ c with root := root }.pruned s, true)
  else (c, false)

def drainReap : Critbit D :=
  (c.reapQueue.take reapBatchSize).foldl (fun c s => (c.unlinkLeaf s).1)
    { c with reapQueue := c.reapQueue.drop reapBatchSize }

/-- Prune all dead leaves in one pass. -/
def reap : Critbit D :=
  match c.root with
  | none => c
  | some t =>
    let collapsed := t.collapse c.isDead
    let reaped := collapsed.2.foldl pruned { c with root := some collapsed.1 }
    match collapsed.1 with
    | .leaf s => (reaped.unlinkLeaf s).1
    | .node _ _ _ _ => reaped

/-- Move a live leaf to a fresh slot. -/
def relocateLeaf : Critbit D :=
  match c.root.bind (replaceLeaf (goesRight (c.leaf s).key) s c.nextLeaf) with
  | none => c
  | some root =>
    { c.setLeaf c.nextLeaf { c.leaf s with deleted := false } with
      root := some root
      nextLeaf := c.nextLeaf + 1
      readRevision := c.readRevision + 1 }.retireLeaf s

/-- Empty one slot of a leaf chunk. A ghost gives up its frequency. -/
def evacuateLeaf : Critbit D :=
  if (c.leaf s).deleted then
    if (c.leaf s).freq < 0 then
      let shed := { c.setLeaf s { c.leaf s with freq := 0 } with deletedCount := c.deletedCount + 1 }
      match shed.unlinkLeaf s with
      | (unlinked, true) => { unlinked with ghostCount := unlinked.ghostCount - 1 }
      | (kept, false) => { kept with deletedCount := kept.deletedCount - 1 }
    else (c.unlinkLeaf s).1
  else c.relocateLeaf s

def evacuateLeafBatch (batch : List Nat) : Critbit D :=
  batch.foldl evacuateLeaf c

/-- Move a linked inner node to a fresh slot. It is found along the path of the key of a
leaf below it; a retired slot has no children and is left alone. -/
def relocateInternal (n : Nat) : Critbit D :=
  match c.root.bind (subtree? n) with
  | none => c
  | some sub =>
    let key := (c.leaf (sub.best (fun _ => false))).key
    match c.root.bind (replaceNode (goesRight key) n c.nextInternal) with
    | none => c
    | some root =>
      { c with root := some root, nextInternal := c.nextInternal + 1, readRevision := c.readRevision + 1 }

def evacuateInternalBatch (batch : List Nat) : Critbit D :=
  batch.foldl relocateInternal c

end Critbit

/-- What a sweep has seen: leaves that may be evicted, ghosts with the last one first, and
the leaf with the oldest access, each with the time of its last access. -/
structure EvictionSample where
  cold : List (Nat × Nat) := []
  ghosts : List (Nat × Nat) := []
  oldest : Option Nat := none
  oldestAccess : Nat := 2 ^ 64 - 1

/-- What the owner of the trie is told about an evicted key. -/
structure EvictedLeaf (D : Type) where
  key : Bytes
  tips : Option TipSetPtr
  data : Option D

/-- The frequency of a leaf goes down by one for every epoch, to one at least. -/
def decayLeaf (leaf : Leaf D) (epoch : Nat) : Leaf D :=
  if epoch ≤ leaf.lastDecayEpoch then leaf
  else
    { leaf with
      lastDecayEpoch := epoch
      freq := if leaf.freq ≤ 1 then leaf.freq
        else leaf.freq - min ((epoch - leaf.lastDecayEpoch : Nat) : Int) (leaf.freq - 1) }

def oldestFirst (candidates : List (Nat × Nat)) : List (Nat × Nat) :=
  candidates.insertionSort (fun a b => a.2 ≤ b.2)

namespace Critbit

def ghostCap : Int := max (c.size / 8) 16

def advanceDecay : Critbit D :=
  let clock := c.evictClock + 1
  match c.decayEvery with
  | none => { c with evictClock := clock }
  | some every =>
    let every := if every = 0 then max defaultDecayInterval (c.size.toNat / 2) else every
    if every ≤ clock then { c with evictClock := 0, decayEpoch := c.decayEpoch + 1 }
    else { c with evictClock := clock }

/-- Classify a leaf or ghost that the sweep has reached. -/
def consider (threshold : Int) (epoch : Nat) (acc : Critbit D × EvictionSample) (s : Nat) :
    Critbit D × EvictionSample :=
  let leaf := acc.1.leaf s
  if leaf.deleted then (acc.1, { acc.2 with ghosts := (s, leaf.lastAccess) :: acc.2.ghosts })
  else
    let decayed := if 0 < epoch then decayLeaf leaf epoch else leaf
    let c := acc.1.setLeaf s decayed
    if leaf.pinned ∨ leaf.pins ≠ 0 then (c, acc.2)
    else
      let sample := if leaf.lastAccess < acc.2.oldestAccess then
          { acc.2 with oldest := some s, oldestAccess := leaf.lastAccess }
        else acc.2
      (c, if threshold = 0 ∨ decayed.freq ≤ threshold then
          { sample with cold := sample.cold ++ [(s, leaf.lastAccess)] }
        else sample)

/-- A live leaf that nobody holds. -/
def claimable : Bool :=
  !(c.leaf s).deleted && (c.leaf s).pins == 0

def evicted : EvictedLeaf D :=
  ⟨(c.leaf s).key, (c.leaf s).tips, (c.leaf s).data⟩

/-- A ghost becomes a deleted leaf. -/
def reclaimGhost (g : Nat) : Critbit D :=
  { c.setLeaf g { c.leaf g with freq := 0 } with
    ghostCount := c.ghostCount - 1, deletedCount := c.deletedCount + 1 }.enqueueReap g

/-- Reclaim the first of the sampled ghosts that still is one. -/
def reclaimOldestGhost {D : Type} (c : Critbit D) : List Nat → Critbit D × List Nat × Bool
  | [] => (c, [], false)
  | g :: ghosts => if (c.leaf g).freq < 0 then (c.reclaimGhost g, ghosts, true) else c.reclaimOldestGhost ghosts

/-- An evicted leaf is kept as a ghost while there is room for it. -/
def buryLeaf : Critbit D :=
  if c.ghostCount < c.ghostCap then
    { c.setLeaf s { c.leaf s with freq := -max (c.leaf s).freq 1 } with ghostCount := c.ghostCount + 1 }
  else { c with deletedCount := c.deletedCount + 1 }.enqueueReap s

/-- Evict a cold leaf, after making room for its ghost. -/
def evictCold (acc : Critbit D × List Nat × List (EvictedLeaf D)) (s : Nat) :
    Critbit D × List Nat × List (EvictedLeaf D) :=
  if acc.1.claimable s then
    let detached := acc.1.clearLeaf s
    let roomy := if detached.ghostCap ≤ detached.ghostCount then
        let reclaimed := detached.reclaimOldestGhost acc.2.1
        (reclaimed.1, reclaimed.2.1)
      else (detached, acc.2.1)
    ((roomy.1.buryLeaf s).advanceDecay, roomy.2, acc.2.2 ++ [acc.1.evicted s])
  else acc

/-- `EvictBatch` for the slots that the sweep passes: the victims, and the number of leaves
and ghosts reclaimed. `threshold` is the frequency that protects a leaf. -/
def evictBatch (want : Nat) (threshold : Int) (swept : List Nat) : Critbit D × List (EvictedLeaf D) × Nat :=
  if want = 0 then (c, [], 0)
  else
    let occupied := (swept.filter (fun s => !c.isDead s)).take (max (want * 2) minSweep)
    let sampled := occupied.foldl (consider threshold c.decayEpoch) (c, {})
    let cold := if want < sampled.2.cold.length then (oldestFirst sampled.2.cold).take want else sampled.2.cold
    let ghosts := (oldestFirst sampled.2.ghosts).map Prod.fst
    let batch := (cold.map Prod.fst).foldl evictCold (sampled.1, ghosts, [])
    if batch.2.2.isEmpty then
      match batch.1.reclaimOldestGhost batch.2.1 with
      | (reclaimed, _, true) => (reclaimed.advanceDecay, [], 1)
      | (kept, _, false) =>
        match sampled.2.oldest.filter kept.claimable with
        | none => (kept, [], 0)
        | some s =>
          ({ kept.clearLeaf s with deletedCount := kept.deletedCount + 1 }.enqueueReap s |>.advanceDecay,
            [kept.evicted s], 1)
    else (batch.1, batch.2.2, batch.2.2.length)

/-- The subtree in which all keys with the given start are. -/
def findPrefixSubtree (pfx : Bytes) : Trie → Trie
  | .leaf s => .leaf s
  | .node n p l r =>
    if pfx.length ≤ p.bytePos then .node n p l r
    else if goesRight pfx p then findPrefixSubtree pfx r
    else findPrefixSubtree pfx l

end Critbit

def treeSize : Trie → Nat
  | .leaf _ => 1
  | .node _ _ l r => treeSize l + treeSize r + 1

def stackSize : List Trie → Nat
  | [] => 0
  | t :: stack => treeSize t + stackSize stack

namespace Critbit

/-- A leaf that a scan delivers: live, beyond the last key and with the right start. -/
def matchesScan (pfx : Bytes) (after : Option Bytes) (s : Nat) : Bool :=
  !(c.leaf s).deleted && after.all (fun a => decide (a < (c.leaf s).key)) && pfx.isPrefixOf (c.leaf s).key

/-- One batch of a scan: its keys, and what is left on the stack. -/
def scanBatch {D : Type} (c : Critbit D) (pfx : Bytes) (after : Option Bytes) :
    Nat → List Trie → List Bytes × List Trie
  | 0, stack => ([], stack)
  | _ + 1, [] => ([], [])
  | room + 1, .leaf s :: stack =>
    if c.matchesScan pfx after s then
      let rest := c.scanBatch pfx after room stack
      ((c.leaf s).key :: rest.1, rest.2)
    else c.scanBatch pfx after (room + 1) stack
  | room + 1, .node _ _ l r :: stack => c.scanBatch pfx after (room + 1) (l :: r :: stack)
termination_by _ stack => stackSize stack
decreasing_by
  all_goals
    simp only [stackSize, treeSize]
    omega

theorem stackSize_scanBatch_le (pfx : Bytes) (after : Option Bytes) (room : Nat)
    (stack : List Trie) : stackSize (c.scanBatch pfx after room stack).2 ≤ stackSize stack := by
  fun_induction scanBatch c pfx after room stack with
  | case1 stack => exact le_rfl
  | case2 room => exact le_rfl
  | case3 room s stack hmatch rest ih => exact ih.trans (Nat.le_add_left _ _)
  | case4 room s stack hmatch ih => exact ih.trans (Nat.le_add_left _ _)
  | case5 room n p l r stack ih =>
    simp only [stackSize, treeSize] at *
    omega

theorem stackSize_scanBatch_lt (pfx : Bytes) (after : Option Bytes) {room : Nat}
    {stack : List Trie} (hroom : 0 < room) (hstack : stack ≠ []) :
    stackSize (c.scanBatch pfx after room stack).2 < stackSize stack := by
  fun_induction scanBatch c pfx after room stack with
  | case1 stack => omega
  | case2 room => exact absurd rfl hstack
  | case3 room s stack hmatch rest ih =>
    exact lt_of_le_of_lt (stackSize_scanBatch_le c pfx after room stack) (Nat.lt_add_of_pos_left Nat.one_pos)
  | case4 room s stack hmatch ih =>
    exact lt_of_le_of_lt (stackSize_scanBatch_le c pfx after (room + 1) stack) (Nat.lt_add_of_pos_left Nat.one_pos)
  | case5 room n p l r stack ih =>
    have hlt := ih hroom (List.cons_ne_nil _ _)
    simp only [stackSize, treeSize] at *
    omega

/-- The batches of a scan one after the other, with nothing in between. -/
def scanLoop {D : Type} (c : Critbit D) (pfx : Bytes) (after : Option Bytes) (stack : List Trie) : List Bytes :=
  match stack with
  | [] => []
  | t :: stack =>
    let batch := c.scanBatch pfx after 64 (t :: stack)
    batch.1 ++ c.scanLoop pfx (batch.1.getLast?.or after) batch.2
termination_by stackSize stack
decreasing_by exact stackSize_scanBatch_lt c pfx after (by decide) (List.cons_ne_nil _ _)

/-- The keys with a given start beyond a given key. -/
def rangeKeys (pfx : Bytes) (after : Option Bytes) : List Bytes :=
  c.scanLoop pfx after ((c.root.map (findPrefixSubtree pfx)).toList)

def keys : List Bytes := c.rangeKeys [] none

end Critbit

end swytch.keytrie
