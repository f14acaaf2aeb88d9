import ResourcePki.Octets

/-!
The digest SHA-1 of FIPS 180-4.

A message is padded to whole blocks of sixteen words: a one bit, zeros, and the count of its bits in
eight octets. Every block is expanded to eighty words, each of which turns the state of five words
once. The digest is the state behind the last block.
-/

namespace ResourcePki.Sha1

/-- The five words that are carried from block to block. -/
structure State where
  a : UInt32
  b : UInt32
  c : UInt32
  d : UInt32
  e : UInt32

/-- The state in front of the first block. -/
def initial : State :=
  ⟨0x67452301, 0xefcdab89, 0x98badcfe, 0x10325476, 0xc3d2e1f0⟩

/-- Rotates a word to the left by fewer than 32 bits. -/
def rotate (n : UInt32) (x : UInt32) : UInt32 :=
  (x <<< n) ||| (x >>> (32 - n))

/-- The message followed by its padding. -/
def padded (bs : Octets) : Octets :=
  let zeros := (55 + 64 - bs.length % 64) % 64
  bs ++ 0x80 :: List.replicate zeros 0 ++ Octets.ofNat 8 (bs.length * 8)

/-- The words of whole groups of four octets. -/
def words : Octets → List UInt32
  | a :: b :: c :: d :: rest => UInt32.ofNat (Octets.toNat [a, b, c, d]) :: words rest
  | _ => []

/-- The eighty words made of the sixteen of a block. -/
def schedule (block : List UInt32) : Array UInt32 :=
  (List.range 64).foldl
    (fun w i => w.push (rotate 1
      (w.getD (i + 13) 0 ^^^ w.getD (i + 8) 0 ^^^ w.getD (i + 2) 0 ^^^ w.getD i 0)))
    block.toArray

/-- How three words of the state are mixed at a round. -/
def mix (round : Nat) (b c d : UInt32) : UInt32 :=
  if round < 20 then (b &&& c) ||| (~~~b &&& d)
  else if round < 40 then b ^^^ c ^^^ d
  else if round < 60 then (b &&& c) ||| (b &&& d) ||| (c &&& d)
  else b ^^^ c ^^^ d

/-- The constant of a round. -/
def constant (round : Nat) : UInt32 :=
  if round < 20 then 0x5a827999
  else if round < 40 then 0x6ed9eba1
  else if round < 60 then 0x8f1bbcdc
  else 0xca62c1d6

/-- Turns the state once. -/
def turn (s : State) (round : Nat) (word : UInt32) : State :=
  ⟨rotate 5 s.a + mix round s.b s.c s.d + s.e + constant round + word, s.a, rotate 30 s.b, s.c, s.d⟩

/-- The state behind a block. -/
def compress (s : State) (block : List UInt32) : State :=
  let w := schedule block
  let t := (List.range 80).foldl (fun t round => turn t round (w.getD round 0)) s
  ⟨s.a + t.a, s.b + t.b, s.c + t.c, s.d + t.d, s.e + t.e⟩

/-- The state behind `count` blocks. -/
def compressAll : (count : Nat) → State → List UInt32 → State
  | 0, s, _ => s
  | count + 1, s, ws => compressAll count (compress s (ws.take 16)) (ws.drop 16)

/-- The digest of a message. -/
def digest (bs : Octets) : Octets :=
  let ws := words (padded bs)
  let s := compressAll (ws.length / 16) initial ws
  [s.a, s.b, s.c, s.d, s.e].flatMap fun w => Octets.ofNat 4 w.toNat

theorem length_digest (bs : Octets) : (digest bs).length = 20 := by
  simp [digest]

end ResourcePki.Sha1
