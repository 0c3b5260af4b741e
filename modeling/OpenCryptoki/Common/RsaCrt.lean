import OpenCryptoki.Common.Pkcs11
import OpenCryptoki.Kmip.Bignum

/-!
# `OpenCryptoki.Common.RsaCrt`: the CRT components of an RSA key

The model of `calc_rsa_crt_from_me` in `usr/lib/common/mech_openssl.c`, which finds the primes of
a private key from its modulus and exponents. The steps have the numbers of the source.

Steps 2 and 3d are loops that need not end. Each gets a budget, the number of times that its body
may run, and `none` says that the loop was not done by then. A pass of step 3d, or step 3e after
it, is one modular squaring.

Allocations succeed, and OpenSSL fails only where the numbers make it fail.
-/

set_option autoImplicit false

namespace OpenCryptoki.Common

open Lib Kmip

/-! ### Finding a square root of one -/

/-- `BN_rand_range`, where the generator has the number `random` to offer. -/
def bnRandRange (random range : Nat) : Except CkRv Nat :=
  if range = 0 then .error .functionFailed else .ok (random % range)

/-- Step 2, which halves `r` until it is odd, and at least once. -/
def halveLoop : (budget r t : Nat) → Option (Nat × Nat)
  | 0, _, _ => none
  | budget + 1, r, t =>
    if r / 2 % 2 = 1 then some (r / 2, t + 1) else halveLoop budget (r / 2) (t + 1)

/-- Where a round of step 3 goes. -/
inductive RoundEnd
  | step3g
  | step5 (y : Nat)

/-- Steps 3d to 3f, and what `t` is after them: the loop over `j` adds to `t`, not to `j`. -/
def squareLoop (n j : Nat) : (budget t y : Nat) → Option (Nat × RoundEnd)
  | 0, _, _ => none
  | budget + 1, t, y =>
    let x := y ^ 2 % n
    if j < t then
      if x = 1 then some (t, .step5 y)
      else if x = n - 1 then some (t, .step3g)
      else squareLoop n j budget (t + 1) x
    else if x = 1 then some (t, .step5 y)
    else some (t, .step3g)

/-- A round of step 3 with the random number `g`. -/
def step3Round (squarings n r t g : Nat) : Option (Nat × RoundEnd) :=
  let y := g ^ r % n
  if y = 1 ∨ y = n - 1 then some (t, .step3g) else squareLoop n 1 squarings t y

/-- Step 3, with what the generator has to offer for each of the rounds that are left. -/
def step3 (squarings n r : Nat) : (randoms : List Nat) → (t : Nat) → Option (Except CkRv Nat)
  | [], _ => some (.error .functionFailed)
  | random :: randoms, t =>
    match bnRandRange random n with
    | .error rc => some (.error rc)
    | .ok g =>
      match step3Round squarings n r t g with
      | none               => none
      | some (_, .step5 y) => some (.ok y)
      | some (t, .step3g)  => step3 squarings n r randoms t

/-- Steps 1 to 3, up to the `y` that step 5 starts from. `k` is `-1` when an exponent is zero. -/
def primeFactorRecovery (halvings squarings n e d : Nat) (randoms : List Nat) :
    Option (Except CkRv Nat) :=
  let k : Int := d * e - 1
  if k % 2 = 1 then some (.error .functionFailed)
  else (halveLoop halvings k.toNat 0).bind fun (r, t) => step3 squarings n r randoms t

/-! ### The components -/

/-- The values of the attributes that are returned. -/
structure CrtComponents (α : Type) where
  prime1 : α
  prime2 : α
  exponent1 : α
  exponent2 : α
  coef : α
  deriving DecidableEq

namespace CrtComponents

def map {α β : Type} (f : α → β) (c : CrtComponents α) : CrtComponents β :=
  ⟨f c.prime1, f c.prime2, f c.exponent1, f c.exponent2, f c.coef⟩

/-- All components have `len` bytes. -/
def OfLength (c : CrtComponents Nat) (len : Nat) : Prop :=
  c.map (fun v : Nat => bnNumBytes v) = ⟨len, len, len, len, len⟩

/-- The lengths of components can be compared. -/
instance (c : CrtComponents Nat) (len : Nat) : Decidable (c.OfLength len) :=
  inferInstanceAs (Decidable (_ = _))

end CrtComponents

/-- `BN_mod_inverse`. -/
def bnModInverse (a n : Nat) : Except CkRv Nat :=
  match (List.range n).find? fun x => a * x % n = 1 with
  | none   => .error .functionFailed
  | some x => .ok x

/-- The components for two factors. `BN_div` refuses to divide by zero. -/
def crtOfFactors (d p q : Nat) : Except CkRv (CrtComponents Nat) :=
  if p - 1 = 0 ∨ q - 1 = 0 then .error .functionFailed
  else (bnModInverse q p).map fun invq => ⟨p, q, d % (p - 1), d % (q - 1), invq⟩

/-- Step 5, and the calculation of the components from the factors, the larger one first. -/
def step5 (n d y : Nat) : Except CkRv (CrtComponents Nat) :=
  let p := Nat.gcd (y - 1) n
  let q := n / p
  if p < q then crtOfFactors d q p else crtOfFactors d p q

/-- `BN_bn2bin` and `build_attribute` for each component in turn. A number that does not fill the
buffer of `prime_len` bytes ends the function, with the same return value for all of them. -/
def buildCrtAttributes (c : CrtComponents Nat) : Except CkRv (CrtComponents (List UInt8)) :=
  let primeLen := bnNumBytes c.prime1
  if c.OfLength primeLen then .ok (c.map (wordBytes .big primeLen)) else .error .functionFailed

/-- `calc_rsa_crt_from_me`. In round `i` the generator has the number `random i` to offer. -/
def calcRsaCrtFromMe (halvings squarings : Nat) (modulus pubExp privExp : List UInt8)
    (random : Nat → Nat) : Option (Except CkRv (CrtComponents (List UInt8))) :=
  let n := wordValue .big modulus
  let e := wordValue .big pubExp
  let d := wordValue .big privExp
  (primeFactorRecovery halvings squarings n e d ((List.range 100).map random)).map fun found => do
    let y ← found
    let c ← step5 n d y
    buildCrtAttributes c

end OpenCryptoki.Common
