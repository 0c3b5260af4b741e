import OpenCryptoki.Common.Pkcs11

/-!
# `OpenCryptoki.Common.AesKeyWrap`: AES key wrap, without and with padding

The model of `aeskw_wrap`, `aeskw_unwrap_raw`, `aeskw_unwrap`, `aeskw_wrap_pad`,
`aeskw_unwrap_pad` and `ckm_aes_key_wrap` in `usr/lib/common/mech_aes.c`.

The comments of the source allow the input and the output to overlap. So there is one memory,
a `Buf`, and `in_data` and `out_data` are addresses in it. `memmove` reads the range and then
writes it. The local arrays `A`, `B`, `C`, `buff` and `aiv` are lists.

`t_aes_ecb` is given for a key. It turns a block into a block and sets `*out_data_len` to the
length of a block. The counter `t` is a `CK_ULONG`.
-/

set_option autoImplicit false

namespace OpenCryptoki.Common

open Lib

def AES_KEY_WRAP_BLOCK_SIZE : Nat := 8
def AES_KEY_WRAP_IV_SIZE : Nat := AES_KEY_WRAP_BLOCK_SIZE
def AES_KEY_WRAP_KWP_IV_SIZE : Nat := 4
def UINT32_MAX : Nat := 2 ^ 32 - 1

def aeskwDefaultIv : Vector UInt8 AES_KEY_WRAP_IV_SIZE :=
  #v[0xA6, 0xA6, 0xA6, 0xA6, 0xA6, 0xA6, 0xA6, 0xA6]

def aeskwDefaultAiv : Vector UInt8 AES_KEY_WRAP_KWP_IV_SIZE := #v[0xA6, 0x59, 0x59, 0xA6]

/-- `t_aes_ecb` on one block, for a key. The first argument is `encrypt`. -/
abbrev AesEcb := Bool → List UInt8 → Except Failure (List UInt8)

/-- `A[7] ^= t & 0xff`, and for a larger counter the three bytes in front of it too. -/
def xorCounter (a : List UInt8) (t : UInt64) : List UInt8 :=
  let a := a.modify 7 (· ^^^ (t &&& 0xff).toUInt8)
  if t > 0xff then
    let a := a.modify 6 (· ^^^ ((t >>> 8) &&& 0xff).toUInt8)
    let a := a.modify 5 (· ^^^ ((t >>> 16) &&& 0xff).toUInt8)
    a.modify 4 (· ^^^ ((t >>> 24) &&& 0xff).toUInt8)
  else a

/-- What the loops change: `A`, and the memory that `R` points into. -/
structure KwState where
  a : List UInt8
  mem : Buf

/-! ### The loops -/

/-- The body of the inner loop of `aeskw_wrap`. -/
def wrapStep (ecb : AesEcb) (t : UInt64) (r : Nat) (s : KwState) :
    Except (Failure × KwState) KwState :=
  match ecb true (s.a ++ s.mem.read r AES_KEY_WRAP_BLOCK_SIZE) with
  | .error f => .error (f, s)
  | .ok c    =>
    .ok { a := xorCounter (c.take AES_KEY_WRAP_BLOCK_SIZE) t
          mem := s.mem.write r (c.drop AES_KEY_WRAP_BLOCK_SIZE) }

/-- The inner loop of `aeskw_wrap`, over a number of blocks from `R` on. -/
def wrapPass (ecb : AesEcb) : Nat → UInt64 → Nat → KwState → Except (Failure × KwState) KwState
  | 0, _, _, s     => .ok s
  | n + 1, t, r, s => do
    let s ← wrapStep ecb t r s
    wrapPass ecb n (t + 1) (r + AES_KEY_WRAP_BLOCK_SIZE) s

/-- The outer loop of `aeskw_wrap`, which has `rounds` rounds left. -/
def wrapRounds (ecb : AesEcb) (blocks r : Nat) :
    Nat → UInt64 → KwState → Except (Failure × KwState) KwState
  | 0, _, s          => .ok s
  | rounds + 1, t, s => do
    let s ← wrapPass ecb blocks t r s
    wrapRounds ecb blocks r rounds (t + .ofNat blocks) s

/-- The body of the inner loop of `aeskw_unwrap_raw`. -/
def unwrapStep (ecb : AesEcb) (t : UInt64) (r : Nat) (s : KwState) :
    Except (Failure × KwState) KwState :=
  let a := xorCounter s.a t
  match ecb false (a ++ s.mem.read r AES_KEY_WRAP_BLOCK_SIZE) with
  | .error f => .error (f, { s with a := a })
  | .ok c    =>
    .ok { a := c.take AES_KEY_WRAP_BLOCK_SIZE
          mem := s.mem.write r (c.drop AES_KEY_WRAP_BLOCK_SIZE) }

/-- The inner loop of `aeskw_unwrap_raw`, over a number of blocks from `R` down. -/
def unwrapPass (ecb : AesEcb) : Nat → UInt64 → Nat → KwState → Except (Failure × KwState) KwState
  | 0, _, _, s     => .ok s
  | n + 1, t, r, s => do
    let s ← unwrapStep ecb t r s
    unwrapPass ecb n (t - 1) (r - AES_KEY_WRAP_BLOCK_SIZE) s

/-- The outer loop of `aeskw_unwrap_raw`, which has `rounds` rounds left. -/
def unwrapRounds (ecb : AesEcb) (blocks r : Nat) :
    Nat → UInt64 → KwState → Except (Failure × KwState) KwState
  | 0, _, s          => .ok s
  | rounds + 1, t, s => do
    let s ← unwrapPass ecb blocks t r s
    unwrapRounds ecb blocks r rounds (t - .ofNat blocks) s

/-! ### Key wrap -/

/-- `aeskw_wrap`. -/
def aeskwWrap (ecb : AesEcb) (mem : Buf) (inData inDataLen outData outDataLen : Nat)
    (iv : Option (Vector UInt8 AES_KEY_WRAP_IV_SIZE)) : MemResult :=
  if inDataLen % AES_KEY_WRAP_BLOCK_SIZE ≠ 0 ∨ inDataLen < 2 * AES_KEY_WRAP_BLOCK_SIZE ∨
      inDataLen > UINT32_MAX then ⟨.dataLenRange, mem, outDataLen⟩
  else if outDataLen < inDataLen + AES_KEY_WRAP_BLOCK_SIZE then
    ⟨.bufferTooSmall, mem, outDataLen⟩
  else
    let mem := mem.write (outData + AES_KEY_WRAP_BLOCK_SIZE) (mem.read inData inDataLen)
    let a := (iv.getD aeskwDefaultIv).toList
    match wrapRounds ecb (inDataLen / AES_KEY_WRAP_BLOCK_SIZE)
        (outData + AES_KEY_WRAP_BLOCK_SIZE) 6 1 { a := a, mem := mem } with
    | .error (f, s) => ⟨f.rc, s.mem, outDataLen⟩
    | .ok s => ⟨.ok, s.mem.write outData s.a, inDataLen + AES_KEY_WRAP_BLOCK_SIZE⟩

/-- What `aeskw_unwrap_raw` leaves when it succeeds: the memory, `*out_data_len`, and `iv`. -/
structure RawResult where
  mem : Buf
  outDataLen : Nat
  iv : List UInt8

/-- `aeskw_unwrap_raw`. An error comes with the memory at that time; `*out_data_len` is as
before. -/
def aeskwUnwrapRaw (ecb : AesEcb) (mem : Buf) (inData inDataLen outData outDataLen : Nat) :
    Except (CkRv × Buf) RawResult :=
  if inDataLen % AES_KEY_WRAP_BLOCK_SIZE ≠ 0 ∨ inDataLen < 3 * AES_KEY_WRAP_BLOCK_SIZE ∨
      inDataLen > UINT32_MAX then .error (.dataLenRange, mem)
  else if outDataLen < inDataLen - AES_KEY_WRAP_BLOCK_SIZE then .error (.bufferTooSmall, mem)
  else
    let len := inDataLen - AES_KEY_WRAP_BLOCK_SIZE
    let t : UInt64 := 6 * .ofNat (len / AES_KEY_WRAP_BLOCK_SIZE)
    let a := mem.read inData AES_KEY_WRAP_BLOCK_SIZE
    let mem := mem.write outData (mem.read (inData + AES_KEY_WRAP_BLOCK_SIZE) len)
    match unwrapRounds ecb (len / AES_KEY_WRAP_BLOCK_SIZE)
        (outData + len - AES_KEY_WRAP_BLOCK_SIZE) 6 t { a := a, mem := mem } with
    | .error (f, s) => .error (f.rc, s.mem)
    | .ok s         => .ok { mem := s.mem, outDataLen := len, iv := s.a }

/-- `OPENSSL_cleanse`. -/
def cleanse (mem : Buf) (addr len : Nat) : Buf := mem.write addr (List.replicate len 0)

/-- `aeskw_unwrap`. -/
def aeskwUnwrap (ecb : AesEcb) (mem : Buf) (inData inDataLen outData outDataLen : Nat)
    (iv : Option (Vector UInt8 AES_KEY_WRAP_IV_SIZE)) : MemResult :=
  match aeskwUnwrapRaw ecb mem inData inDataLen outData outDataLen with
  | .error (rc, mem) => ⟨rc, mem, outDataLen⟩
  | .ok r =>
    if r.iv ≠ (iv.getD aeskwDefaultIv).toList then
      ⟨.encryptedDataInvalid, cleanse r.mem outData r.outDataLen, r.outDataLen⟩
    else ⟨.ok, r.mem, r.outDataLen⟩

/-! ### Key wrap with padding -/

/-- The four bytes of the length in the alternative initial value. -/
def aivLength (len : Nat) : Vector UInt8 4 :=
  #v[UInt8.ofNat ((len >>> 24) &&& 0xFF), UInt8.ofNat ((len >>> 16) &&& 0xFF),
    UInt8.ofNat ((len >>> 8) &&& 0xFF), UInt8.ofNat (len &&& 0xFF)]

/-- `aiv` in `aeskw_wrap_pad`. -/
def makeAiv (iv : Option (Vector UInt8 AES_KEY_WRAP_KWP_IV_SIZE)) (len : Nat) :
    Vector UInt8 AES_KEY_WRAP_IV_SIZE :=
  iv.getD aeskwDefaultAiv ++ aivLength len

/-- `ptext_len`, from the last four bytes of the alternative initial value. -/
def ptextLen (aiv : List UInt8) : Nat :=
  ((aiv.getD 4 0).toUInt32 <<< 24 ||| (aiv.getD 5 0).toUInt32 <<< 16
    ||| (aiv.getD 6 0).toUInt32 <<< 8 ||| (aiv.getD 7 0).toUInt32).toNat

/-- `aeskw_wrap_pad`. -/
def aeskwWrapPad (ecb : AesEcb) (mem : Buf) (inData inDataLen outData outDataLen : Nat)
    (iv : Option (Vector UInt8 AES_KEY_WRAP_KWP_IV_SIZE)) : MemResult :=
  let paddedLen := (inDataLen + 7) / 8 * 8
  let paddingLen := paddedLen - inDataLen
  if inDataLen = 0 ∨ inDataLen > UINT32_MAX then ⟨.dataLenRange, mem, outDataLen⟩
  else if outDataLen < paddedLen + AES_KEY_WRAP_BLOCK_SIZE then ⟨.bufferTooSmall, mem, outDataLen⟩
  else
    let aiv := makeAiv iv inDataLen
    if paddedLen = AES_KEY_WRAP_BLOCK_SIZE then
      if inDataLen > AES_KEY_WRAP_BLOCK_SIZE then ⟨.dataLenRange, mem, outDataLen⟩
      else
        -- One block: no rounds, the block is encrypted as it is.
        let buff := aiv.toList ++ (mem.read inData inDataLen ++ List.replicate paddingLen 0)
        match ecb true buff with
        | .error f => ⟨f.rc, mem, outDataLen⟩
        | .ok c    => ⟨.ok, mem.write outData c, AES_BLOCK_SIZE⟩
    else
      let mem := mem.write outData (mem.read inData inDataLen)
      let mem := mem.write (outData + inDataLen) (List.replicate paddingLen 0)
      aeskwWrap ecb mem outData paddedLen outData outDataLen (some aiv)

/-- The memory, `*out_data_len`, `padded_len` and `aiv` before the checks of
`aeskw_unwrap_pad`. -/
structure PaddedResult where
  mem : Buf
  outDataLen : Nat
  paddedLen : Nat
  aiv : List UInt8

/-- `aeskw_unwrap_pad` up to the checks of what has come out. -/
def unwrapPadded (ecb : AesEcb) (mem : Buf) (inData inDataLen outData outDataLen : Nat) :
    Except MemResult PaddedResult :=
  if inDataLen = 16 then
    match ecb false (mem.read inData AES_BLOCK_SIZE) with
    | .error f => .error ⟨f.rc, mem, outDataLen⟩
    | .ok buff =>
      .ok { mem := mem.write outData (buff.drop AES_KEY_WRAP_IV_SIZE)
            outDataLen := outDataLen
            paddedLen := AES_KEY_WRAP_BLOCK_SIZE
            aiv := buff.take AES_KEY_WRAP_IV_SIZE }
  else
    let paddedLen := inDataLen - AES_KEY_WRAP_BLOCK_SIZE
    match aeskwUnwrapRaw ecb mem inData inDataLen outData outDataLen with
    | .error (rc, mem) => .error ⟨rc, mem, outDataLen⟩
    | .ok r =>
      if paddedLen ≠ r.outDataLen then
        .error ⟨.encryptedDataInvalid, cleanse r.mem outData r.outDataLen, r.outDataLen⟩
      else
        .ok { mem := r.mem, outDataLen := r.outDataLen, paddedLen := paddedLen, aiv := r.iv }

/-- `aeskw_unwrap_pad`. -/
def aeskwUnwrapPad (ecb : AesEcb) (mem : Buf) (inData inDataLen outData outDataLen : Nat)
    (iv : Option (Vector UInt8 AES_KEY_WRAP_KWP_IV_SIZE)) : MemResult :=
  let n := inDataLen / AES_KEY_WRAP_BLOCK_SIZE - 1
  if inDataLen % AES_KEY_WRAP_BLOCK_SIZE ≠ 0 ∨ inDataLen < 2 * AES_KEY_WRAP_BLOCK_SIZE ∨
      inDataLen > UINT32_MAX then ⟨.dataLenRange, mem, outDataLen⟩
  else if outDataLen < inDataLen - AES_KEY_WRAP_BLOCK_SIZE then
    ⟨.bufferTooSmall, mem, outDataLen⟩
  else
    match unwrapPadded ecb mem inData inDataLen outData outDataLen with
    | .error r => r
    | .ok r =>
      let invalid : MemResult :=
        ⟨.encryptedDataInvalid, cleanse r.mem outData r.outDataLen, r.outDataLen⟩
      if r.aiv.take AES_KEY_WRAP_KWP_IV_SIZE ≠ (iv.getD aeskwDefaultAiv).toList then invalid
      else if AES_KEY_WRAP_BLOCK_SIZE * (n - 1) ≥ ptextLen r.aiv ∨
          ptextLen r.aiv > AES_KEY_WRAP_BLOCK_SIZE * n then invalid
      else
        let paddingLen := r.paddedLen - ptextLen r.aiv
        if r.mem.read (outData + ptextLen r.aiv) paddingLen ≠ List.replicate paddingLen 0 then
          invalid
        else ⟨.ok, r.mem, ptextLen r.aiv⟩

/-- The `iv` of `ckm_aes_key_wrap`: a pointer, which may be `NULL`, and a length. -/
def checkIv (n : Nat) (iv : Option (List UInt8)) : Except CkRv (Option (Vector UInt8 n)) :=
  match iv with
  | none    => .ok none
  | some iv =>
    if h : iv.length = n then .ok (some ⟨iv.toArray, h⟩) else .error .mechanismParamInvalid

/-- `ckm_aes_key_wrap`. `t_aes_ecb` may be `NULL`. -/
def ckmAesKeyWrap (tAesEcb : Option AesEcb) (mem : Buf)
    (inData inDataLen outData outDataLen : Nat) (iv : Option (List UInt8)) (encrypt pad : Bool) :
    MemResult :=
  match tAesEcb with
  | none     => ⟨.mechanismInvalid, mem, outDataLen⟩
  | some ecb =>
    if pad then
      match checkIv AES_KEY_WRAP_KWP_IV_SIZE iv with
      | .error rc => ⟨rc, mem, outDataLen⟩
      | .ok iv =>
        (if encrypt then aeskwWrapPad else aeskwUnwrapPad) ecb mem inData inDataLen outData
          outDataLen iv
    else
      match checkIv AES_KEY_WRAP_IV_SIZE iv with
      | .error rc => ⟨rc, mem, outDataLen⟩
      | .ok iv =>
        (if encrypt then aeskwWrap else aeskwUnwrap) ecb mem inData inDataLen outData
          outDataLen iv

end OpenCryptoki.Common
