/-
# SHA-256 of a text

The digest of the UTF-8 bytes of a text, as the standard library computes it, in lower-case
hexadecimal.  Words are natural numbers below `2 ^ 32`, and every operation that can leave that
range reduces modulo `2 ^ 32`.

The function is written so that it evaluates in the kernel: blocks and rounds are folds over lists
of numbers, and the schedule keeps a window of sixteen words.  Nothing is proved about it here.
Where a result needs that two digests differ because their inputs do, the digest is a parameter with
that hypothesis; this definition is what the parameter is at a concrete input.
-/
import Mathlib

namespace Lib.Sha256

/-! ## 1. Words -/

/-- The modulus of a word. -/
def word : Nat := 2 ^ 32

/-- Rotate a word to the right. -/
def rotr (n x : Nat) : Nat := (x >>> n) ||| ((x <<< (32 - n)) % word)

/-- The bitwise complement of a word. -/
def inv (x : Nat) : Nat := word - 1 - x

def bigSigma0 (x : Nat) : Nat := rotr 2 x ^^^ rotr 13 x ^^^ rotr 22 x
def bigSigma1 (x : Nat) : Nat := rotr 6 x ^^^ rotr 11 x ^^^ rotr 25 x
def smallSigma0 (x : Nat) : Nat := rotr 7 x ^^^ rotr 18 x ^^^ (x >>> 3)
def smallSigma1 (x : Nat) : Nat := rotr 17 x ^^^ rotr 19 x ^^^ (x >>> 10)
def choose (x y z : Nat) : Nat := (x &&& y) ^^^ (inv x &&& z)
def majority (x y z : Nat) : Nat := (x &&& y) ^^^ (x &&& z) ^^^ (y &&& z)

/-- The round constants. -/
def roundConstants : List Nat :=
  [0x428a2f98, 0x71374491, 0xb5c0fbcf, 0xe9b5dba5, 0x3956c25b, 0x59f111f1, 0x923f82a4,
   0xab1c5ed5, 0xd807aa98, 0x12835b01, 0x243185be, 0x550c7dc3, 0x72be5d74, 0x80deb1fe,
   0x9bdc06a7, 0xc19bf174, 0xe49b69c1, 0xefbe4786, 0x0fc19dc6, 0x240ca1cc, 0x2de92c6f,
   0x4a7484aa, 0x5cb0a9dc, 0x76f988da, 0x983e5152, 0xa831c66d, 0xb00327c8, 0xbf597fc7,
   0xc6e00bf3, 0xd5a79147, 0x06ca6351, 0x14292967, 0x27b70a85, 0x2e1b2138, 0x4d2c6dfc,
   0x53380d13, 0x650a7354, 0x766a0abb, 0x81c2c92e, 0x92722c85, 0xa2bfe8a1, 0xa81a664b,
   0xc24b8b70, 0xc76c51a3, 0xd192e819, 0xd6990624, 0xf40e3585, 0x106aa070, 0x19a4c116,
   0x1e376c08, 0x2748774c, 0x34b0bcb5, 0x391c0cb3, 0x4ed8aa4a, 0x5b9cca4f, 0x682e6ff3,
   0x748f82ee, 0x78a5636f, 0x84c87814, 0x8cc70208, 0x90befffa, 0xa4506ceb, 0xbef9a3f7,
   0xc67178f2]

/-! ## 2. Blocks

Padding, schedule and rounds in the order of the standard. -/

/-- The eight words a digest is carried in. -/
structure Digest where
  a : Nat
  b : Nat
  c : Nat
  d : Nat
  e : Nat
  f : Nat
  g : Nat
  h : Nat

def start : Digest :=
  ⟨0x6a09e667, 0xbb67ae85, 0x3c6ef372, 0xa54ff53a, 0x510e527f, 0x9b05688c, 0x1f83d9ab, 0x5be0cd19⟩

/-- One round with its constant `k` and its schedule word `w`. -/
def round (s : Digest) (k w : Nat) : Digest :=
  let t1 := s.h + bigSigma1 s.e + choose s.e s.f s.g + k + w
  let t2 := bigSigma0 s.a + majority s.a s.b s.c
  ⟨(t1 + t2) % word, s.a, s.b, s.c, (s.d + t1) % word, s.e, s.f, s.g⟩

/-- The message schedule: `window` holds the last sixteen words, oldest first. -/
def schedule : Nat → List Nat → List Nat
  | 0, _ => []
  | n + 1, window =>
    let next := (smallSigma1 (window.getD 14 0) + window.getD 9 0 +
      smallSigma0 (window.getD 1 0) + window.getD 0 0) % word
    window.getD 0 0 :: schedule n (window.drop 1 ++ [next])

/-- Take one block of sixteen words into the digest. -/
def compress (s : Digest) (block : List Nat) : Digest :=
  let t := (List.zip roundConstants (schedule 64 block)).foldl (fun s p => round s p.1 p.2) s
  ⟨(s.a + t.a) % word, (s.b + t.b) % word, (s.c + t.c) % word, (s.d + t.d) % word,
    (s.e + t.e) % word, (s.f + t.f) % word, (s.g + t.g) % word, (s.h + t.h) % word⟩

/-- The bytes of a number, most significant first. -/
def bigEndian : Nat → Nat → List Nat
  | 0, _ => []
  | n + 1, x => (x / 256 ^ n) % 256 :: bigEndian n x

/-- The message with the padding that makes its length a multiple of sixty-four bytes. -/
def pad (bytes : List Nat) : List Nat :=
  let zeros := (119 - bytes.length % 64) % 64
  bytes ++ 0x80 :: (List.replicate zeros 0 ++ bigEndian 8 (8 * bytes.length))

/-- Four bytes to a word. -/
def words : List Nat → List Nat
  | a :: b :: c :: d :: bs => (((a * 256 + b) * 256 + c) * 256 + d) :: words bs
  | _ => []

/-- Take `n` blocks of words into the digest. -/
def blocks : Nat → Digest → List Nat → Digest
  | 0, s, _ => s
  | n + 1, s, ws => blocks n (compress s (ws.take 16)) (ws.drop 16)

/-- The digest of some bytes, as a number. -/
def sumBytes (bytes : List UInt8) : BitVec 256 :=
  let ws := words (pad (bytes.map UInt8.toNat))
  let s := blocks (ws.length / 16) start ws
  BitVec.ofNat 256 ([s.a, s.b, s.c, s.d, s.e, s.f, s.g, s.h].foldl (fun n x => n * word + x) 0)

/-! ## 3. Texts -/

/-- The UTF-8 bytes of a text. -/
def utf8 (text : String) : List Nat :=
  text.toList.flatMap fun c => (String.utf8EncodeChar c).map UInt8.toNat

/-- A hexadecimal digit. -/
def hexDigit (n : Nat) : Char :=
  if n < 10 then Char.ofNat ('0'.toNat + n) else Char.ofNat ('a'.toNat + (n - 10))

/-- The digest of a text, in hexadecimal. -/
def sum256 (text : String) : List Char :=
  let ws := words (pad (utf8 text))
  let s := blocks (ws.length / 16) start ws
  [s.a, s.b, s.c, s.d, s.e, s.f, s.g, s.h].flatMap fun x =>
    (bigEndian 4 x).flatMap fun b => [hexDigit (b / 16), hexDigit (b % 16)]

/-- The digest as a string. -/
def sha256Hex (text : String) : String := String.ofList (sum256 text)

example : sha256Hex "abc" =
    "ba7816bf8f01cfea414140de5dae2223b00361a396177a9cb410ff61f20015ad" := by decide +kernel

end Lib.Sha256
