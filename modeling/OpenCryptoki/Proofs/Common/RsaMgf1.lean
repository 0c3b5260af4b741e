import OpenCryptoki.Common.RsaMgf1

/-!
# `OpenCryptoki.Proofs.Common.RsaMgf1`: what `mgf1` writes

`maskBytes` is the mask on lists: the digests of the seed with a counter, cut to the length of
the mask. For a hash that does not fail, `mgf1_eq` says that `mgf1` writes it to the place of
the mask and changes nothing else, as long as there are at most `2 ^ 31` digests. With more
digests the counter leaves the range of `int`, and then `mgf1` does not return
(`mgf1_ok_cond`).
-/

set_option autoImplicit false

namespace OpenCryptoki.Proofs.Common

open Lib OpenCryptoki.Common

/-- A hash function for each mechanism. -/
abbrev Hash := (m : DigestMechanism) → List UInt8 → Vector UInt8 (getShaSize m)

/-- `compute_sha` with hash functions that do not fail. -/
def shaToken (h : Hash) : HashToken where
  computeSha m bytes := .ok (h m bytes)

/-- The token computes the hash. -/
theorem computeSha_shaToken (h : Hash) (m : DigestMechanism) (bytes : List UInt8) :
    orReturn ((shaToken h).computeSha m bytes) = .ok (h m bytes) := rfl

/-- Digests are not empty. -/
theorem getShaSize_pos (m : DigestMechanism) : 0 < getShaSize m := by
  cases m <;> decide

/-- Digests have at most 64 bytes. -/
theorem getShaSize_le (m : DigestMechanism) : getShaSize m ≤ 64 := by
  cases m <;> decide

/-! ### Accesses that the encodings share -/

/-- The random bytes go over `ys`. -/
theorem rngGenerateAt_eq (xs ys zs : List UInt8) {salt : List UInt8} (h : salt.length = ys.length) :
    rngGenerateAt salt (xs ++ (ys ++ zs)) xs.length salt.length = .ok (xs ++ (salt ++ zs)) := by
  rw [rngGenerateAt, h, readAt_middle, ← h, rngGenerate, if_pos le_rfl, List.take_length,
    List.drop_length]
  show access (writeAt (xs ++ (ys ++ zs)) xs.length salt) = _
  rw [writeAt_middle xs ys zs h]
  rfl

/-- The mask goes onto `ys`. -/
theorem xorAt_eq (xs ys zs us mask vs : List UInt8) {off cOff n : Nat} (hoff : off = xs.length)
    (hcOff : cOff = us.length) (hn : n = ys.length) (hmask : mask.length = ys.length) :
    xorAt (xs ++ (ys ++ zs)) off (us ++ (mask ++ vs)) cOff n
      = .ok (xs ++ (xorBytes ys mask ++ zs)) := by
  have hys : readAt (xs ++ (ys ++ zs)) off n = some ys := readAt_of_eq xs ys zs rfl hoff hn
  have hread : readAt (us ++ (mask ++ vs)) cOff n = some mask :=
    readAt_of_eq us mask vs rfl hcOff (hn.trans hmask.symm)
  have hwrite : writeAt (xs ++ (ys ++ zs)) off (xorBytes ys mask)
      = some (xs ++ (xorBytes ys mask ++ zs)) :=
    writeAt_of_eq xs ys zs rfl hoff (length_xorBytes_of_eq hmask)
  rw [xorAt, hys, hread]
  show access (writeAt (xs ++ (ys ++ zs)) off (xorBytes ys mask)) = _
  rw [hwrite]
  rfl

/-! ### The mask -/

/-- The digests from the `i`-th one on, `tLen` bytes of them. -/
def maskBytes (h : Hash) (m : DigestMechanism) (seed : List UInt8) : (rounds i tLen : Nat) →
    List UInt8
  | 0, _, _ => []
  | rounds + 1, i, tLen =>
    if tLen = 0 then []
    else
      (h m (seed ++ mgf1Counter i)).toList.take (min tLen (getShaSize m))
        ++ maskBytes h m seed rounds (i + 1) (tLen - min tLen (getShaSize m))

/-- The rounds make as many bytes as are left. -/
theorem length_maskBytes (h : Hash) (m : DigestMechanism) (seed : List UInt8) {rounds tLen : Nat}
    (i : Nat) (hrounds : tLen ≤ rounds) : (maskBytes h m seed rounds i tLen).length = tLen := by
  have hpos := getShaSize_pos m
  induction rounds generalizing i tLen with
  | zero => simp [maskBytes, Nat.le_zero.mp hrounds]
  | succ rounds ih =>
    rw [maskBytes]
    split
    · next hzero => rw [hzero, List.length_nil]
    · rw [List.length_append, List.length_take, Vector.length_toList, ih (i + 1) (by omega)]
      omega

/-- The mask of `maskLen` bytes that `mgf1` makes from a seed. -/
def mgfMask (h : Hash) (m : DigestMechanism) (seed : List UInt8) (maskLen : Nat) : List UInt8 :=
  maskBytes h m seed maskLen 0 maskLen

/-- The mask has its length. -/
@[simp] theorem length_mgfMask (h : Hash) (m : DigestMechanism) (seed : List UInt8)
    (maskLen : Nat) : (mgfMask h m seed maskLen).length = maskLen :=
  length_maskBytes h m seed 0 le_rfl

section
variable (h : Hash) (m : DigestMechanism) (seed : List UInt8)

/-- While there are bytes left, there were fewer than `2 ^ 31` digests. -/
theorem digests_le {m : DigestMechanism} {i tLen : Nat} (hzero : tLen ≠ 0)
    (hint : i * getShaSize m + tLen ≤ 2 ^ 31 * getShaSize m) : ¬ INT_MAX < i := by
  intro hlt
  have : 2 ^ 31 * getShaSize m ≤ i * getShaSize m := Nat.mul_le_mul_right _ (by
    simp only [INT_MAX] at hlt
    omega)
  omega

/-- The loop of `mgf1` writes the rest of the mask over `ys`. -/
theorem mgf1Loop_eq {maskOff rounds i tLen : Nat} {xs ys : List UInt8} (zs : List UInt8)
    (hrounds : tLen ≤ rounds) (hxs : xs.length = maskOff + i * getShaSize m)
    (hys : ys.length = tLen) (hint : i * getShaSize m + tLen ≤ 2 ^ 31 * getShaSize m) :
    mgf1Loop (shaToken h) m (.ok seed) maskOff rounds i tLen (xs ++ (ys ++ zs))
      = .ok (xs ++ (maskBytes h m seed rounds i tLen ++ zs)) := by
  induction rounds generalizing i tLen xs ys with
  | zero =>
    rw [Nat.le_zero.mp hrounds, List.length_eq_zero_iff] at hys
    rw [hys]
    rfl
  | succ rounds ih =>
    rw [mgf1Loop, maskBytes]
    by_cases hzero : tLen = 0
    · rw [hzero, List.length_eq_zero_iff] at hys
      rw [if_pos hzero, if_pos hzero, hys]
    · rw [if_neg hzero, if_neg (digests_le hzero hint), if_neg hzero]
      -- The next digest, or what is needed of it, goes over the start of `ys`.
      let n := min tLen (getShaSize m)
      let digest := (h m (seed ++ mgf1Counter i)).toList.take n
      have hdigest : digest.length = n := by
        simp only [digest, n, List.length_take, Vector.length_toList]
        omega
      have htake : (ys.take n).length = n := List.length_take_of_le (by omega)
      have hwrite : writeAt (xs ++ (ys ++ zs)) (maskOff + i * getShaSize m) digest
          = some (xs ++ (digest ++ (ys.drop n ++ zs))) := by
        conv_lhs => rw [← List.take_append_drop n ys, List.append_assoc, ← hxs]
        exact writeAt_middle xs _ _ (hdigest.trans htake.symm)
      show (access (writeAt (xs ++ (ys ++ zs)) (maskOff + i * getShaSize m) digest) >>= _) = _
      rw [hwrite]
      show mgf1Loop _ m _ maskOff rounds (i + 1) (tLen - n) _ = _
      by_cases hlast : tLen ≤ getShaSize m
      · -- This was the last digest.
        have hrest : tLen - n = 0 := by omega
        have hdrop : ys.drop n = [] := List.drop_of_length_le (by omega)
        have hdone : ∀ mask, mgf1Loop (shaToken h) m (.ok seed) maskOff rounds (i + 1) 0 mask
            = .ok mask := by
          intro mask
          cases rounds <;> rfl
        have hempty : maskBytes h m seed rounds (i + 1) 0 = [] := by cases rounds <;> rfl
        rw [hrest, hdone, hdrop, hempty, List.append_nil, List.nil_append]
      · have hnext : mgf1Loop (shaToken h) m (.ok seed) maskOff rounds (i + 1) (tLen - n)
            ((xs ++ digest) ++ (ys.drop n ++ zs))
              = .ok ((xs ++ digest) ++ (maskBytes h m seed rounds (i + 1) (tLen - n) ++ zs)) :=
          ih (by omega) (by rw [List.length_append, hdigest, hxs, add_mul]; omega)
            (by rw [List.length_drop, hys]) (by rw [add_mul]; omega)
        rw [List.append_assoc] at hnext
        rw [hnext, List.append_assoc, List.append_assoc]

/-- `mgf1` writes the mask over `ys`. -/
theorem mgf1_eq (hm : m ≠ .md5) (xs zs : List UInt8) {ys : List UInt8} {maskLen : Nat}
    (hys : ys.length = maskLen) (hint : maskLen ≤ 2 ^ 31 * getShaSize m) :
    mgf1 (shaToken h) true (.ok seed) (xs ++ (ys ++ zs)) xs.length maskLen (some m)
      = .ok (xs ++ (mgfMask h m seed maskLen ++ zs)) := by
  have hmech : getMgfMech (some m) = .ok m := if_neg hm
  rw [mgf1, hmech]
  show mgf1Loop _ m _ _ _ _ _ _ = _
  exact mgf1Loop_eq h m seed zs le_rfl (by omega) hys (by omega)

end

/-! ### Too many digests -/

section
variable (tok : HashToken) (m : DigestMechanism)

section
variable {seed : Except Stop (List UInt8)} {mask mask' : List UInt8}

/-- The loop of `mgf1` returns only if the counter stays in the range of `int`. -/
theorem mgf1Loop_ok_le {maskOff rounds i tLen : Nat} (hrounds : tLen ≤ rounds)
    (hok : mgf1Loop tok m seed maskOff rounds i tLen mask = .ok mask') :
    tLen = 0 ∨ i * getShaSize m + tLen ≤ 2 ^ 31 * getShaSize m := by
  have hpos := getShaSize_pos m
  induction rounds generalizing i tLen mask with
  | zero => exact .inl (Nat.le_zero.mp hrounds)
  | succ rounds ih =>
    rw [mgf1Loop] at hok
    split at hok
    · next hzero => exact .inl hzero
    · split at hok
      · cases hok
      · next hi =>
        obtain ⟨bytes, -, hok⟩ := bind_eq_ok.mp hok
        obtain ⟨digest, -, hok⟩ := bind_eq_ok.mp hok
        obtain ⟨mask'', -, hok⟩ := bind_eq_ok.mp hok
        have hle : (i + 1) * getShaSize m ≤ 2 ^ 31 * getShaSize m := Nat.mul_le_mul_right _ (by
          simp only [INT_MAX] at hi
          omega)
        rw [add_mul] at hle
        have hnext := ih (by omega) hok
        rw [add_mul] at hnext
        omega

/-- `mgf1` succeeds only for a mask generation function that there is, and with few digests. -/
theorem mgf1_ok_cond {alloc : Bool} {maskOff maskLen : Nat}
    (hok : mgf1 tok alloc seed mask maskOff maskLen (some m) = .ok mask') :
    m ≠ .md5 ∧ maskLen ≤ 2 ^ 31 * getShaSize m := by
  rw [mgf1, getMgfMech] at hok
  split at hok
  · cases hok
  · next mech hmech =>
    split at hmech
    · cases hmech
    · next hm =>
      cases hmech
      obtain ⟨-, -, hok⟩ := bind_eq_ok.mp hok
      have hle := mgf1Loop_ok_le tok m le_rfl hok
      exact ⟨hm, by omega⟩

end

end

end OpenCryptoki.Proofs.Common
