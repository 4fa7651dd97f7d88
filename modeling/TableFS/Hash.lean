import Mathlib.Data.List.Basic

/-! The name hash of the metadata keys (util/myhash.cpp) and the hash that spreads them
over the shards of the cache (leveldb's util/hash.cc and util/cache.cc). -/
namespace TableFS

private def murmurM : UInt64 := 0xc6a4a7935bd1e995

/-- Little-endian 64-bit word of up to eight bytes. -/
def word64 (b : List UInt8) : UInt64 :=
  b.foldr (fun x acc => (acc <<< 8) ||| x.toUInt64) 0

private def murmurMix (h k : UInt64) : UInt64 :=
  let k := k * murmurM
  let k := k ^^^ (k >>> 47)
  (h ^^^ (k * murmurM)) * murmurM

/-- Whole words are mixed in one after the other; the remaining bytes, if any, are
xored in as a little-endian number. -/
private def murmurBody : UInt64 → List UInt8 → UInt64
  | h, b0 :: b1 :: b2 :: b3 :: b4 :: b5 :: b6 :: b7 :: rest =>
    murmurBody (murmurMix h (word64 [b0, b1, b2, b3, b4, b5, b6, b7])) rest
  | h, [] => h
  | h, tail => (h ^^^ word64 tail) * murmurM

/-- The hash of a name. Its length is an int in the source, so names are taken to be shorter than 2^31 bytes. -/
def murmur64 (key : List UInt8) (seed : UInt64) : UInt64 :=
  let h := murmurBody (seed ^^^ (key.length.toUInt64 * murmurM)) key
  let h := (h ^^^ (h >>> 47)) * murmurM
  h ^^^ (h >>> 47)

private def leveldbBody : UInt32 → List UInt8 → UInt32
  | h, b0 :: b1 :: b2 :: b3 :: rest =>
    let h := (h + (word64 [b0, b1, b2, b3]).toUInt32) * 0xc6a4a793
    leveldbBody (h ^^^ (h >>> 16)) rest
  | h, _ => h

/-- leveldb's Hash with seed 0, for keys that are whole 32-bit words. -/
def hashSlice (key : List UInt8) : UInt32 := leveldbBody (key.length.toUInt32 * 0xc6a4a793) key

/-- The top four bits select one of sixteen shards. -/
def shardOf (key : List UInt8) : Nat := (hashSlice key >>> 28).toNat

end TableFS
