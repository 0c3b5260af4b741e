import Mathlib.Data.List.ReduceOption
import OpenCryptoki.Common.Asn1Keys

/-!
# `OpenCryptoki.Common.RsaWrap`: the attributes of an RSA key that is wrapped

The model of `rsa_priv_wrap_get_data` in `usr/lib/common/key.c`, and of how `calc_rsa_crt_from_me`
in `mech_openssl.c` builds the attributes for it and cleans up. Five variables point to attributes
of the template where these are found, and to new attributes once they have been calculated.
-/

set_option autoImplicit false

namespace OpenCryptoki.Common

/-- The attributes of a template, by type. -/
abbrev TemplateValues := Nat → Option (List UInt8)

/-- An attribute in memory: one of the template, or one that `build_attribute` has allocated. -/
inductive AttrPtr
  | ofTemplate (type : Nat)
  | built (type : Nat)
  deriving DecidableEq

/-- The values in memory, and what has been allocated and freed, in turn. -/
structure AttrMemory where
  value : AttrPtr → List UInt8
  allocated : List AttrPtr
  freed : List AttrPtr

/-- The memory before the call. -/
def AttrMemory.initial (tmpl : TemplateValues) : AttrMemory where
  value
    | .ofTemplate type => (tmpl type).getD []
    | .built _ => []
  allocated := []
  freed := []

/-- A new attribute. -/
def AttrMemory.allocate (m : AttrMemory) (type : Nat) (bytes : List UInt8) : AttrMemory :=
  { m with
    value := Function.update m.value (.built type) bytes
    allocated := m.allocated ++ [.built type] }

/-- `OPENSSL_cleanse` of the value and `free`. -/
def AttrMemory.release (m : AttrMemory) (p : AttrPtr) : AttrMemory :=
  { m with
    value := Function.update m.value p (List.replicate (m.value p).length 0)
    freed := m.freed ++ [p] }

/-- `template_attribute_get_non_empty`: what it returns, and what it makes the variable point to. -/
def templateAttributeGetNonEmpty (tmpl : TemplateValues) (type : Nat) : CkRv × Option AttrPtr :=
  match tmpl type with
  | none    => (.templateIncomplete, none)
  | some [] => (.attributeValueInvalid, none)
  | some _  => (.ok, some (.ofTemplate type))

def requiredTypes : List Nat := [CKA_MODULUS, CKA_PUBLIC_EXPONENT, CKA_PRIVATE_EXPONENT]

def crtTypes : List Nat :=
  [CKA_PRIME_1, CKA_PRIME_2, CKA_EXPONENT_1, CKA_EXPONENT_2, CKA_COEFFICIENT]

/-- The attributes are built one by one. `crt` is what the calculation, `BN_bn2bin` and
`build_attribute` make of each. A variable is set only if they succeed. -/
def buildCrt (crt : Nat → Except CkRv (List UInt8)) (var : Nat → Option AttrPtr) :
    (types : List Nat) → AttrMemory → Except CkRv Unit × List (Option AttrPtr) × AttrMemory
  | [], m => (.ok (), [], m)
  | type :: types, m =>
    match crt type with
    | .error rc => (.error rc, (type :: types).map var, m)
    | .ok bytes =>
      let (result, ptrs, m) := buildCrt crt var types (m.allocate type bytes)
      (result, some (.built type) :: ptrs, m)

/-- The clean-up of attributes: every variable that is not `NULL`. -/
def releaseAll (ptrs : List (Option AttrPtr)) (m : AttrMemory) : AttrMemory :=
  ptrs.reduceOption.foldl .release m

/-- `calc_rsa_crt_from_me`, with the five variables before and after it. It returns at once, without
a clean-up, if there is no context for the numbers. Where it fails later, but before it builds an
attribute, `crt` fails for the first one. -/
def calcCrtAttributes (bnCtx : Bool) (crt : Nat → Except CkRv (List UInt8))
    (var : Nat → Option AttrPtr) (m : AttrMemory) :
    Except CkRv (List (Option AttrPtr)) × AttrMemory :=
  if bnCtx = false then (.error .functionFailed, m)
  else
    match buildCrt crt var crtTypes m with
    | (.ok (), ptrs, m)    => (.ok ptrs, m)
    | (.error rc, ptrs, m) => (.error rc, releaseAll ptrs m)

/-- `rsa_priv_wrap_get_data`, where `encode` is `ber_encode_RSAPrivateKey` on the eight values. -/
def rsaPrivWrapGetData {δ : Type} (tmpl : TemplateValues) (bnCtx : Bool)
    (crt : Nat → Except CkRv (List UInt8)) (encode : List (List UInt8) → Except CkRv δ) :
    Except CkRv δ × AttrMemory :=
  let m := AttrMemory.initial tmpl
  let var := fun type => (templateAttributeGetNonEmpty tmpl type).2
  let data := fun (ptrs : List (Option AttrPtr)) (m : AttrMemory) =>
    encode ((requiredTypes.map var ++ ptrs).reduceOption.map m.value)
  match requiredTypes.find? fun type => (templateAttributeGetNonEmpty tmpl type).1 ≠ .ok with
  | some type => (.error (templateAttributeGetNonEmpty tmpl type).1, m)
  | none =>
    if none ∈ crtTypes.map var then
      match calcCrtAttributes bnCtx crt var m with
      | (.ok ptrs, m)  => (data ptrs m, releaseAll ptrs m)
      | (.error rc, m) => (.error rc, m)
    else (data (crtTypes.map var) m, m)

end OpenCryptoki.Common
