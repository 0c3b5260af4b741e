import OpenCryptoki.Lib.BlockPass
import OpenCryptoki.Lib.Xor

/-!
# `OpenCryptoki.Lib.Cbc`: cipher block chaining

Cipher block chaining of byte strings over a permutation of blocks. The chaining value is the
block of ciphertext in front, and `iv` in front of the first block. `cbcDecrypt_append` is how a
message is decrypted in parts: the last block of one part is the chaining value of the next one.
-/

set_option autoImplicit false

namespace OpenCryptoki.Lib

variable {n : Nat} (p : BlockPerm UInt8 n)

/-- A block of plaintext, encrypted, and the next chaining value. -/
def cbcEncStep (s b : List UInt8) : List UInt8 × List UInt8 :=
  (p.enc (xorBytes b s), p.enc (xorBytes b s))

/-- A block of ciphertext, decrypted, and the next chaining value. -/
def cbcDecStep (s b : List UInt8) : List UInt8 × List UInt8 := (xorBytes (p.dec b) s, b)

def cbcEncrypt (iv xs : List UInt8) : List UInt8 := (mapBlocks n (cbcEncStep p) iv xs).1

def cbcDecrypt (iv xs : List UInt8) : List UInt8 := (mapBlocks n (cbcDecStep p) iv xs).1

/-- The chaining value behind `xs`. -/
def cbcChain (iv xs : List UInt8) : List UInt8 := (mapBlocks n (cbcDecStep p) iv xs).2

section
variable {p} {iv b xs ys : List UInt8} (hn : 0 < n)

/-- Encryption of no blocks. -/
@[simp] theorem cbcEncrypt_nil : cbcEncrypt p iv [] = [] := by rw [cbcEncrypt, mapBlocks_nil]

/-- Decryption of no blocks. -/
@[simp] theorem cbcDecrypt_nil : cbcDecrypt p iv [] = [] := by rw [cbcDecrypt, mapBlocks_nil]

/-- Without blocks the chaining value is kept. -/
@[simp] theorem cbcChain_nil : cbcChain p iv [] = iv := by rw [cbcChain, mapBlocks_nil]

include hn

/-- The first block is encrypted, and its ciphertext chains the others. -/
theorem cbcEncrypt_cons (hb : b.length = n) (hxs : n ∣ xs.length) :
    cbcEncrypt p iv (b ++ xs)
      = p.enc (xorBytes b iv) ++ cbcEncrypt p (p.enc (xorBytes b iv)) xs := by
  rw [cbcEncrypt, mapBlocks_cons hn hb hxs]
  rfl

/-- The first block is decrypted, and it chains the others itself. -/
theorem cbcDecrypt_cons (hb : b.length = n) (hxs : n ∣ xs.length) :
    cbcDecrypt p iv (b ++ xs) = xorBytes (p.dec b) iv ++ cbcDecrypt p b xs := by
  rw [cbcDecrypt, mapBlocks_cons hn hb hxs]
  rfl

/-- Decryption in two parts, with the chaining value in between. -/
theorem cbcDecrypt_append (hxs : n ∣ xs.length) (hys : n ∣ ys.length) :
    cbcDecrypt p iv (xs ++ ys) = cbcDecrypt p iv xs ++ cbcDecrypt p (cbcChain p iv xs) ys := by
  rw [cbcDecrypt, mapBlocks_append hn hxs hys]
  rfl

/-- The chaining value after two parts. -/
theorem cbcChain_append (hxs : n ∣ xs.length) (hys : n ∣ ys.length) :
    cbcChain p iv (xs ++ ys) = cbcChain p (cbcChain p iv xs) ys := by
  rw [cbcChain, mapBlocks_append hn hxs hys]
  rfl

/-- The chaining value is the last ciphertext block. -/
theorem cbcChain_block (hb : b.length = n) : cbcChain p iv b = b := by
  rw [cbcChain, mapBlocks_block hn hb]
  rfl

/-- The chaining value is the last block of ciphertext. -/
theorem cbcChain_concat (hxs : n ∣ xs.length) (hb : b.length = n) :
    cbcChain p iv (xs ++ b) = b := by
  have hdvd : n ∣ b.length := hb ▸ dvd_refl n
  rw [cbcChain_append hn hxs hdvd, cbcChain_block hn hb]

section
variable (hiv : iv.length = n) (hxs : n ∣ xs.length)
include hiv hxs

/-- A chaining value is one block. -/
theorem length_cbcChain : (cbcChain p iv xs).length = n := by
  induction xs, hxs using blocks_induction generalizing iv with
  | nil => rwa [cbcChain_nil]
  | block b xs hb hxs ih =>
    have hdvd : n ∣ b.length := hb ▸ dvd_refl n
    rw [cbcChain_append hn hdvd hxs, cbcChain, cbcChain, mapBlocks_block hn hb]
    exact ih hb

/-- Decryption keeps the length. -/
theorem length_cbcDecrypt : (cbcDecrypt p iv xs).length = xs.length := by
  induction xs, hxs using blocks_induction generalizing iv with
  | nil => rw [cbcDecrypt_nil]
  | block b xs hb hxs ih =>
    have hdec := p.length_dec b hb
    rw [cbcDecrypt_cons hn hb hxs, List.length_append, ih hb, length_xorBytes, hdec, hiv,
      List.length_append, hb, min_self]

/-- Encryption keeps the length. -/
theorem length_cbcEncrypt : (cbcEncrypt p iv xs).length = xs.length := by
  induction xs, hxs using blocks_induction generalizing iv with
  | nil => rw [cbcEncrypt_nil]
  | block b xs hb hxs ih =>
    have henc := p.length_enc (xorBytes b iv) (by rw [length_xorBytes, hb, hiv, min_self])
    rw [cbcEncrypt_cons hn hb hxs, List.length_append, ih henc, henc, List.length_append, hb]

/-- Decryption undoes encryption. -/
theorem cbcDecrypt_cbcEncrypt : cbcDecrypt p iv (cbcEncrypt p iv xs) = xs := by
  induction xs, hxs using blocks_induction generalizing iv with
  | nil => rw [cbcEncrypt_nil, cbcDecrypt_nil]
  | block b xs hb hxs ih =>
    have hxor : (xorBytes b iv).length = n := by rw [length_xorBytes, hb, hiv, min_self]
    have henc := p.length_enc (xorBytes b iv) hxor
    rw [cbcEncrypt_cons hn hb hxs, cbcDecrypt_cons hn henc (by rwa [length_cbcEncrypt hn henc hxs]),
      p.dec_enc _ hxor, ih henc, xorBytes_xorBytes (hiv.trans hb.symm)]

/-- Encryption undoes decryption. -/
theorem cbcEncrypt_cbcDecrypt : cbcEncrypt p iv (cbcDecrypt p iv xs) = xs := by
  induction xs, hxs using blocks_induction generalizing iv with
  | nil => rw [cbcDecrypt_nil, cbcEncrypt_nil]
  | block b xs hb hxs ih =>
    have hdec := p.length_dec b hb
    have hxor : (xorBytes (p.dec b) iv).length = n := by
      rw [length_xorBytes, hdec, hiv, min_self]
    rw [cbcDecrypt_cons hn hb hxs, cbcEncrypt_cons hn hxor (by rwa [length_cbcDecrypt hn hb hxs]),
      xorBytes_xorBytes (hiv.trans hdec.symm), p.enc_dec b hb, ih hb]

end

end

end OpenCryptoki.Lib
