import Mathlib

/-!
# SHA-256

The hash of FIPS 180-4 over bytes, as one 256-bit number. Content addresses
and checksums of files are compared as such numbers.
-/

namespace Strk20.Sha256

abbrev Word := BitVec 32

def roundConstants : List Word :=
  [0x428a2f98, 0x71374491, 0xb5c0fbcf, 0xe9b5dba5, 0x3956c25b, 0x59f111f1, 0x923f82a4, 0xab1c5ed5,
    0xd807aa98, 0x12835b01, 0x243185be, 0x550c7dc3, 0x72be5d74, 0x80deb1fe, 0x9bdc06a7, 0xc19bf174,
    0xe49b69c1, 0xefbe4786, 0x0fc19dc6, 0x240ca1cc, 0x2de92c6f, 0x4a7484aa, 0x5cb0a9dc, 0x76f988da,
    0x983e5152, 0xa831c66d, 0xb00327c8, 0xbf597fc7, 0xc6e00bf3, 0xd5a79147, 0x06ca6351, 0x14292967,
    0x27b70a85, 0x2e1b2138, 0x4d2c6dfc, 0x53380d13, 0x650a7354, 0x766a0abb, 0x81c2c92e, 0x92722c85,
    0xa2bfe8a1, 0xa81a664b, 0xc24b8b70, 0xc76c51a3, 0xd192e819, 0xd6990624, 0xf40e3585, 0x106aa070,
    0x19a4c116, 0x1e376c08, 0x2748774c, 0x34b0bcb5, 0x391c0cb3, 0x4ed8aa4a, 0x5b9cca4f, 0x682e6ff3,
    0x748f82ee, 0x78a5636f, 0x84c87814, 0x8cc70208, 0x90befffa, 0xa4506ceb, 0xbef9a3f7, 0xc67178f2]

/-- The eight working variables. -/
structure State where
  a : Word
  b : Word
  c : Word
  d : Word
  e : Word
  f : Word
  g : Word
  h : Word

def initial : State :=
  ⟨0x6a09e667, 0xbb67ae85, 0x3c6ef372, 0xa54ff53a, 0x510e527f, 0x9b05688c, 0x1f83d9ab, 0x5be0cd19⟩

/-- A one bit, zeros up to 8 bytes short of a whole block, and the bit length. -/
def pad (msg : List UInt8) : List Nat :=
  msg.map UInt8.toNat ++ 0x80 :: List.replicate ((119 - msg.length % 64) % 64) 0 ++
    (List.range 8).map fun i => 8 * msg.length / 256 ^ (7 - i) % 256

def words : List Nat → List Word
  | a :: b :: c :: d :: rest => BitVec.ofNat 32 (((a * 256 + b) * 256 + c) * 256 + d) :: words rest
  | _ => []

/-- The message schedule, latest word first: `n` words on top of a block. -/
def schedule : Nat → List Word → List Word
  | 0, w => w
  | n + 1, w =>
      let x := w.getD 1 0
      let y := w.getD 14 0
      let s₁ := x.rotateRight 17 ^^^ x.rotateRight 19 ^^^ x >>> 10
      let s₀ := y.rotateRight 7 ^^^ y.rotateRight 18 ^^^ y >>> 3
      schedule n ((w.getD 15 0 + s₀ + w.getD 6 0 + s₁) :: w)

def round (s : State) (kw : Word × Word) : State :=
  let s₁ := s.e.rotateRight 6 ^^^ s.e.rotateRight 11 ^^^ s.e.rotateRight 25
  let ch := (s.e &&& s.f) ^^^ (~~~ s.e &&& s.g)
  let t₁ := s.h + s₁ + ch + kw.1 + kw.2
  let s₀ := s.a.rotateRight 2 ^^^ s.a.rotateRight 13 ^^^ s.a.rotateRight 22
  let maj := (s.a &&& s.b) ^^^ (s.a &&& s.c) ^^^ (s.b &&& s.c)
  ⟨t₁ + (s₀ + maj), s.a, s.b, s.c, s.d + t₁, s.e, s.f, s.g⟩

/-- One block of sixteen words. -/
def compress (s : State) (block : List Word) : State :=
  let r := (roundConstants.zip (schedule 48 block.reverse).reverse).foldl round s
  ⟨s.a + r.a, s.b + r.b, s.c + r.c, s.d + r.d, s.e + r.e, s.f + r.f, s.g + r.g, s.h + r.h⟩

/-- Compresses `n` blocks off the front of the words. -/
def blocks : Nat → State → List Word → State
  | 0, s, _ => s
  | n + 1, s, w => blocks n (compress s (w.take 16)) (w.drop 16)

theorem digest_ne_zero : NeZero (2 ^ 256) := ⟨by decide⟩

def sha256 (bytes : ByteArray) : Fin (2 ^ 256) :=
  let w := words (pad bytes.data.toList)
  let s := blocks (w.length / 16) initial w
  @Fin.ofNat (2 ^ 256) digest_ne_zero
    ([s.a, s.b, s.c, s.d, s.e, s.f, s.g, s.h].foldl (fun n x => n * 2 ^ 32 + x.toNat) 0)

example : (sha256 ⟨#[0x61, 0x62, 0x63]⟩).val =
    0xba7816bf8f01cfea414140de5dae2223b00361a396177a9cb410ff61f20015ad := by
  decide +kernel

end Strk20.Sha256
