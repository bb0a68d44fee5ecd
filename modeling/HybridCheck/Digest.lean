/-!
# 64-bit digests

The digest of a byte string is its 64-bit xxHash with seed zero. Four lanes take the input in
stripes of thirty-two bytes; what is left over is taken in words of eight bytes, one of four, and
single bytes, and a final avalanche spreads every bit. All arithmetic wraps at 64 bits.
-/

namespace HybridCheck.Digest

def prime1 : UInt64 := 11400714785074694791
def prime2 : UInt64 := 14029467366897019727
def prime3 : UInt64 := 1609587929392839161
def prime4 : UInt64 := 9650029242287828579
def prime5 : UInt64 := 2870177450012600261

/-- Rotates a word to the left by `k` bits, for `0 < k < 64`. -/
def rotate (x k : UInt64) : UInt64 := (x <<< k) ||| (x >>> (64 - k))

def mix (lane input : UInt64) : UInt64 := rotate (lane + input * prime2) 31 * prime1

def mergeLane (acc lane : UInt64) : UInt64 := (acc ^^^ mix 0 lane) * prime1 + prime4

/-- The word whose bytes, least significant first, are given. -/
def word : List UInt8 → UInt64
  | [] => 0
  | b :: bs => b.toUInt64 + word bs * 256

def bytes (x : UInt64) : List UInt8 :=
  [0, 8, 16, 24, 32, 40, 48, 56].map fun k : UInt64 => (x >>> k).toUInt8

/-- Takes the last bytes, fewer than four. -/
def takeBytes (acc : UInt64) : List UInt8 → UInt64
  | [] => acc
  | b :: bs => takeBytes (rotate (acc ^^^ (b.toUInt64 * prime5)) 11 * prime1) bs

/-- Takes a four-byte word if there is one, then single bytes. -/
def takeHalf (acc : UInt64) : List UInt8 → UInt64
  | a :: b :: c :: d :: bs =>
    takeBytes (rotate (acc ^^^ (word [a, b, c, d] * prime1)) 23 * prime2 + prime3) bs
  | bs => takeBytes acc bs

def takeWords (acc : UInt64) : List UInt8 → UInt64
  | a :: b :: c :: d :: e :: f :: g :: h :: bs =>
    takeWords (rotate (acc ^^^ mix 0 (word [a, b, c, d, e, f, g, h])) 27 * prime1 + prime4) bs
  | bs => takeHalf acc bs

def avalanche (h : UInt64) : UInt64 :=
  let h := (h ^^^ (h >>> 33)) * prime2
  let h := (h ^^^ (h >>> 29)) * prime3
  h ^^^ (h >>> 32)

structure Lanes where
  v1 : UInt64 := prime1 + prime2
  v2 : UInt64 := prime2
  v3 : UInt64 := 0
  v4 : UInt64 := 0 - prime1

def Lanes.feed (l : Lanes) (stripe : List UInt8) : Lanes where
  v1 := mix l.v1 (word (stripe.take 8))
  v2 := mix l.v2 (word ((stripe.drop 8).take 8))
  v3 := mix l.v3 (word ((stripe.drop 16).take 8))
  v4 := mix l.v4 (word ((stripe.drop 24).take 8))

def Lanes.feedAll (l : Lanes) : (n : Nat) → List UInt8 → Lanes
  | 0, _ => l
  | n + 1, bs => (l.feed (bs.take 32)).feedAll n (bs.drop 32)

/-- The accumulator that the lanes leave. -/
def Lanes.finish (l : Lanes) : UInt64 :=
  let acc := rotate l.v1 1 + rotate l.v2 7 + rotate l.v3 12 + rotate l.v4 18
  mergeLane (mergeLane (mergeLane (mergeLane acc l.v1) l.v2) l.v3) l.v4

def ofBytes (bs : List UInt8) : UInt64 :=
  let stripes := bs.length / 32
  let acc := if stripes = 0 then prime5 else (Lanes.feedAll {} stripes bs).finish
  avalanche (takeWords (acc + bs.length.toUInt64) (bs.drop (32 * stripes)))

/-- The digest of a leaf: two tag bytes and its text. -/
def leaf (tag sub : UInt8) (text : String) : UInt64 :=
  ofBytes (tag :: sub :: text.toUTF8.toList)

/-- The digest of an inner node: a tag byte and the digests of its children. -/
def node (tag : UInt8) (children : List UInt64) : UInt64 :=
  ofBytes (97 :: tag :: children.flatMap bytes)

end HybridCheck.Digest
