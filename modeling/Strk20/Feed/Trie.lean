import Std.Data.ExtTreeMap
import Strk20.Foundation.Bytes
import Strk20.Feed.Mpt

/-!
# The cached trie (`trie.rs`)

A Patricia tree kept between checkpoint verifications. `CachedTrie.update`
compares a complete slot set with the one it holds and hashes only the changed
paths; `encode`/`decode` are the local cache format, in which node hashes are
written out and trusted on the way back.

`&mut self` methods return the new state beside their result, so a failed call
shows what it leaves behind.
-/

namespace Strk20.Feed.Trie

open BitPath Strk20.Lists Bytes Mpt
open Std (ExtTreeMap)

inductive Node where
  | leaf (key : Key) (value : Felt)
  | branch (key : Key) (depth : Nat) (hash : Felt) (left right : Node)
deriving DecidableEq

def bit (key : Key) (depth : Nat) : Bool := key.val.testBit (250 - depth)

/-- The bits `start .. stop` of `key` as a felt. -/
def path (key : Key) (start stop : Nat) : Felt :=
  bitsToFelt ((List.range' start (stop - start)).map (bit key))

/-- The first depth in `start .. stop` at which two keys differ. -/
def findSplit (a b : Key) (start stop : Nat) : Option Nat :=
  (List.range' start (stop - start)).find? fun d => bit a d != bit b d

namespace Node

def key : Node → Key
  | .leaf key _ => key
  | .branch key .. => key

def depth : Node → Nat
  | .leaf .. => 251
  | .branch _ depth .. => depth

/-- The hash at the node's own depth: a leaf's value, a branch's cached hash. -/
def bottom : Node → Felt
  | .leaf _ value => value
  | .branch _ _ hash .. => hash

section

variable (pedersen : Felt → Felt → Felt)

def hashAt (n : Node) (start : Nat) : Felt :=
  if start = n.depth then n.bottom
  else edgeHash pedersen n.bottom (path n.key start n.depth) (n.depth - start)

/-- `Node::branch`. -/
def branchOf (depth : Nat) (left right : Node) : Node :=
  .branch left.key depth
    (binaryHash pedersen (left.hashAt pedersen (depth + 1)) (right.hashAt pedersen (depth + 1)))
    left right

/-- `Node::build` on a sorted slice. `none` stands for the panics of an empty
slice and of two equal keys. -/
def build : Nat → List (Key × Felt) → Nat → Option Node
  | _, [], _ => none
  | _, [(key, value)], _ => some (.leaf key value)
  | 0, _ :: _ :: _, _ => none
  | fuel + 1, entries@(first :: second :: rest), start =>
      match findSplit first.1 (List.getLast (second :: rest) (by simp)).1 start 251 with
      | none => none
      | some depth =>
          let split := partitionPoint (fun e => !bit e.1 depth) entries
          match build fuel (entries.take split) (depth + 1),
              build fuel (entries.drop split) (depth + 1) with
          | some left, some right => some (branchOf pedersen depth left right)
          | _, _ => none

def update : Node → Key → Felt → Nat → Option Node
  | self, key, value, start =>
      match findSplit self.key key start self.depth with
      | some split =>
          if value = 0 then some self
          else if bit key split then some (branchOf pedersen split self (.leaf key value))
          else some (branchOf pedersen split (.leaf key value) self)
      | none =>
          match self with
          | .leaf .. => if value ≠ 0 then some (.leaf key value) else none
          | .branch _ depth _ left right =>
              if bit key depth then
                match update right key value (depth + 1) with
                | some right => some (branchOf pedersen depth left right)
                | none => some left
              else
                match update left key value (depth + 1) with
                | some left => some (branchOf pedersen depth left right)
                | none => some right

end

def encode : Node → List UInt8
  | .leaf key value => 0 :: (beBytes 32 key.val ++ beBytes 32 value.val)
  | .branch _ depth hash left right =>
      1 :: (beBytes 2 depth ++ beBytes 32 hash.val ++ left.encode ++ right.encode)

end Node

/-- 32 bytes as a key. -/
def keyOfBytes (bytes : List UInt8) : Key := Fin.ofNat (2 ^ 256) (beNat bytes)

/-- The inner `node` of `CachedTrie::decode`. Depths grow strictly along a
branch, so `252 - minDepth` levels of recursion are all it can use. -/
def decodeNode : Nat → List UInt8 → Nat → ExtTreeMap Key Felt →
    Option (Node × List UInt8 × ExtTreeMap Key Felt)
  | 0, _, _, _ => none
  | fuel + 1, input, minDepth, values => do
      let (tag, input) ← take 1 input
      if tag = [0] then
        let (key, input) ← take 32 input
        let key := keyOfBytes key
        let (value, input) ← take 32 input
        let value := fromBytesBe (keyOfBytes value)
        if value = 0 || !isTrieKey (fromBytesBe key) || values.contains key then none
        else some (.leaf key value, input, values.insert key value)
      else if tag = [1] then
        let (depth, input) ← take 2 input
        let depth := beNat depth
        if depth < minDepth || 251 ≤ depth then none
        else do
          let (hash, input) ← take 32 input
          let hash := fromBytesBe (keyOfBytes hash)
          let (left, input, values) ← decodeNode fuel input (depth + 1) values
          let (right, input, values) ← decodeNode fuel input (depth + 1) values
          some (.branch left.key depth hash left right, input, values)
      else none

structure CachedTrie where
  root : Option Node
  values : ExtTreeMap Key Felt

namespace CachedTrie

def default : CachedTrie := ⟨none, ∅⟩

section

variable (pedersen : Felt → Felt → Felt)

/-- `CachedTrie::root`. -/
def rootHash (t : CachedTrie) : Felt :=
  match t.root with
  | none => 0
  | some n => n.hashAt pedersen 0

/-- One entry of the new slot set, checked and collected. -/
def collectStep (next : ExtTreeMap Key Felt) (e : Felt × Felt) :
    Except FeedError (ExtTreeMap Key Felt) :=
  if !isTrieKey e.1 then .error (.malformed "invalid trie key")
  else if e.2 ≠ 0 then
    if next.contains (toBytesBe e.1) then .error (.malformed "duplicate trie key")
    else .ok (next.insert (toBytesBe e.1) e.2)
  else .ok next

def collect (entries : List (Felt × Felt)) : Except FeedError (ExtTreeMap Key Felt) :=
  entries.foldlM collectStep ∅

/-- Insert or change one slot of the tree. -/
def insertSlot (root : Option Node) (e : Key × Felt) : Option Node :=
  match root with
  | some n => n.update pedersen e.1 e.2 0
  | none => some (.leaf e.1 e.2)

/-- Remove one slot of the tree. -/
def removeSlot (root : Option Node) (key : Key) : Option Node :=
  match root with
  | some n => n.update pedersen key 0 0
  | none => none

def update (self : CachedTrie) (entries : List (Felt × Felt)) :
    Except FeedError Felt × CachedTrie :=
  match collect entries with
  | .error e => (.error e, self)
  | .ok next =>
      let root :=
        match self.root with
        | none => if next.isEmpty then none else Node.build pedersen 251 next.toList 0
        | some root =>
            let changed := next.toList.filter fun e => self.values[e.1]? ≠ some e.2
            let gone := self.values.keys.filter fun k => !next.contains k
            gone.foldl (removeSlot pedersen) (changed.foldl (insertSlot pedersen) (some root))
      let trie : CachedTrie := ⟨root, next⟩
      (.ok (trie.rootHash pedersen), trie)

end

def encode (t : CachedTrie) : List UInt8 :=
  match t.root with
  | some root => root.encode
  | none => []

def decode (bytes : List UInt8) : Except FeedError CachedTrie :=
  if bytes.isEmpty then .ok default
  else
    match decodeNode 252 bytes 0 ∅ with
    | some (root, [], values) => .ok ⟨some root, values⟩
    | _ => .error (.malformed "corrupt cached trie")

end CachedTrie

end Strk20.Feed.Trie
