import OpenCryptoki.Common.Sign
import OpenCryptoki.Proofs.Common.RsaPss

/-!
# `OpenCryptoki.Proofs.Common.RsaPssBounds`: memory accesses of RSA-PSS

What `check_pss_params` accepts does not keep `emsa_pss_encode` and `emsa_pss_verify` inside
their buffers. `pss_params_in_bounds_iff` says for which parameters they stay inside, whatever
the token, the allocations, the random bytes and the data are.

* `modlen - 2 - hlen` wraps around for a modulus that is shorter than `hlen + 2`. Then a salt
  length just below `2 ^ 64` is accepted, and `hlen + sLen + 2` wraps around as well, so that the
  length check of both functions lets it through.
* `mgf1` counts the digests in an `int`. For a modulus of more than `2 ^ 31` digests the
  counter overflows.
-/

set_option autoImplicit false

namespace OpenCryptoki.Proofs.Common

open Lib OpenCryptoki.Common
open List (length_replicate)

/-! ### Parts that stay inside their buffers -/

/-- A call of the token touches no memory of the caller. -/
theorem safe_orReturn {α : Type} (x : Except Failure α) : Safe (orReturn x) fun _ => True := by
  cases x with
  | error f => exact Safe.rc f.rc
  | ok a => trivial

variable {b rand : List UInt8} {off : Nat}

/-- Random bytes stay inside the buffer. -/
theorem safe_rngGenerateAt (rand : List UInt8) {n : Nat} (h : off + n ≤ b.length) :
    Safe (rngGenerateAt rand b off n) fun b' => b'.length = b.length := by
  refine (Safe.read h).bind fun _ _ => ?_
  rw [rngGenerate]
  split
  · next rc hrng => exact Safe.rc rc
  · next bytes rest hrng =>
    split at hrng
    · next hn =>
      cases hrng
      exact Safe.write (by rw [List.length_take_of_le hn]; exact h)
    · cases hrng

/-- The exclusive or stays inside both buffers. -/
theorem safe_xorAt {c : List UInt8} {cOff n : Nat} (hb : off + n ≤ b.length)
    (hc : cOff + n ≤ c.length) : Safe (xorAt b off c cOff n) fun b' => b'.length = b.length := by
  refine (Safe.read hb).bind fun xs hxs => (Safe.read hc).bind fun ys hys => ?_
  exact Safe.write (by rw [length_xorBytes]; omega)

/-- A byte is changed inside the buffer. -/
theorem safe_andAt {i : Nat} (mask : UInt8) (h : i < b.length) :
    Safe (andAt b i mask) fun b' => b'.length = b.length := by
  refine (Safe.read (by omega)).bind fun xs hxs => ?_
  exact Safe.write (by rw [List.length_map]; omega)

section
variable (tok : HashToken) {seed : Except Stop (List UInt8)} {mask : List UInt8}

/-- The loop of `mgf1` stays inside the mask. -/
theorem safe_mgf1Loop (m : DigestMechanism) {maskOff rounds i tLen : Nat}
    (hseed : Safe seed fun _ => True) (hint : i * getShaSize m + tLen ≤ 2 ^ 31 * getShaSize m)
    (hmask : maskOff + i * getShaSize m + tLen ≤ mask.length) :
    Safe (mgf1Loop tok m seed maskOff rounds i tLen mask) fun mask' =>
      mask'.length = mask.length := by
  induction rounds generalizing i tLen mask with
  | zero => rfl
  | succ rounds ih =>
    rw [mgf1Loop]
    by_cases hzero : tLen = 0
    · rw [if_pos hzero]
      rfl
    rw [if_neg hzero, if_neg (digests_le hzero hint)]
    refine hseed.bind fun bytes _ => ?_
    refine (safe_orReturn _).bind fun hash _ => ?_
    refine (Safe.write ?_).bind fun mask' hlen => ?_
    · rw [List.length_take, Vector.length_toList]
      omega
    · by_cases hlast : tLen ≤ getShaSize m
      · rw [min_eq_left hlast, Nat.sub_self]
        cases rounds <;> exact hlen
      · refine (ih ?_ ?_).mono fun _ h => h.trans hlen
        all_goals
          rw [add_mul]
          omega

/-- `mgf1` stays inside the mask. -/
theorem safe_mgf1 (m : DigestMechanism) (alloc : Bool) {maskLen : Nat}
    (hseed : Safe seed fun _ => True) (hint : maskLen ≤ 2 ^ 31 * getShaSize m)
    (hmask : maskLen ≤ mask.length) :
    Safe (mgf1 tok alloc seed mask 0 maskLen (some m)) fun mask' => mask'.length = mask.length := by
  rw [mgf1, getMgfMech]
  split
  · exact Safe.rc _
  · next mech hmech =>
    split at hmech
    · cases hmech
    · cases hmech
      exact (Safe.check _).bind fun _ _ => safe_mgf1Loop tok m hseed (by omega) (by omega)

end

/-! ### Encoding and verification -/

section
variable (tok : HashToken) (alloc : Nat → Bool) {p : PssParams} {n k : Nat} (inData : List UInt8)

/-- `emsa_pss_encode` stays inside its buffers. -/
theorem safe_emsaPssEncode (rand : List UInt8) {em : List UInt8} (l : PssLengths p n em.length)
    (hint : n + 1 + p.sLen ≤ 2 ^ 31 * getShaSize p.mgf) :
    Safe (emsaPssEncode tok alloc rand p inData em em.length) fun _ => True := by
  have hk := l.k_eq
  have hsucc : ulongAdd n 1 = n + 1 := l.small (by omega)
  unfold emsaPssEncode
  simp only [pssEmLen_eq, l.dbLen, l.mLen, l.psLen, l.last, hsucc]
  -- The helper buffer has room for `M'` and for the mask.
  generalize hbuflen : (if n + 1 + p.sLen < 8 + getShaSize p.hashAlg + p.sLen then
    8 + getShaSize p.hashAlg + p.sLen else n + 1 + p.sLen) = buflen
  have hM : 8 + getShaSize p.hashAlg + p.sLen ≤ buflen := by
    split at hbuflen <;> omega
  have hmask : n + 1 + p.sLen ≤ buflen := by
    split at hbuflen <;> omega
  refine (Safe.check _).bind fun _ _ => (Safe.check _).bind fun _ hdata => ?_
  refine (Safe.check _).bind fun _ _ => ?_
  refine (Safe.write (by simp)).bind fun em₁ hem₁ => ?_
  rw [hdata]
  have hsalt : Safe (if p.sLen > 0 then rngGenerateAt rand (List.replicate buflen 0)
      (8 + getShaSize p.hashAlg) p.sLen else .ok (List.replicate buflen 0))
        fun buf => buf.length = buflen := by
    split
    · refine (safe_rngGenerateAt rand ?_).mono fun buf hbuf => ?_
      · rwa [length_replicate]
      · rwa [length_replicate] at hbuf
    · exact length_replicate
  refine hsalt.bind fun buf₁ hbuf₁ => ?_
  refine (Safe.write (by omega)).bind fun buf₂ hbuf₂ => ?_
  refine (Safe.read (by omega)).bind fun m _ => ?_
  refine (safe_orReturn _).bind fun h _ => ?_
  refine (Safe.write (by rw [Vector.length_toList]; omega)).bind fun em₂ hem₂ => ?_
  refine (Safe.write (by rw [List.length_singleton]; omega)).bind fun em₃ hem₃ => ?_
  refine (Safe.read (by omega)).bind fun salt hsalt => ?_
  refine (Safe.write (by omega)).bind fun em₄ hem₄ => ?_
  have hseed : Safe (access (readAt em₄ (n + 1 + p.sLen) (getShaSize p.hashAlg)) :
      Except Stop (List UInt8)) fun _ => True := (Safe.read (by omega)).mono fun _ _ => trivial
  refine (safe_mgf1 tok p.mgf _ hseed hint (by rwa [length_replicate])).bind
    fun buf₃ hbuf₃ => ?_
  rw [length_replicate] at hbuf₃
  refine (safe_xorAt (by omega) (by omega)).bind fun em₅ hem₅ => ?_
  refine (safe_andAt _ (by omega)).bind fun em₆ hem₆ => ?_
  exact (Safe.write (by rw [List.length_singleton]; omega)).bind fun _ _ => trivial

/-- The checks on the data block stay inside the buffer. -/
theorem safe_pssCheckDb {buf : List UInt8} {h : Except Stop (List UInt8)} (l : PssLengths p n k)
    (hbuf : buf.length = n + 1 + p.sLen + (8 + getShaSize p.hashAlg + p.sLen))
    (hdata : inData.length = getShaSize p.hashAlg) (hh : Safe h fun _ => True) :
    Safe (pssCheckDb tok p inData buf n h) fun _ => True := by
  have hk := l.k_eq
  have hsafe : Safe (skipZeros buf n 0) fun _ => True := by
    obtain ⟨j, hj, -⟩ := skipZeros_spec buf n 0 (by omega)
    rw [hj]
    trivial
  refine hsafe.bind fun i _ => ?_
  refine (Safe.check _).bind fun _ hi => ?_
  subst hi
  refine (Safe.read (by omega)).bind fun one _ => (Safe.check _).bind fun _ _ => ?_
  obtain ⟨hadd, haddM, haddHash, haddSalt⟩ := l.offsets (i := i) (by omega)
  simp only [l.mLen, hadd, haddM, haddHash, hdata, haddSalt]
  refine (Safe.write (by rw [length_replicate]; omega)).bind fun buf₁ hbuf₁ => ?_
  refine (Safe.write (by omega)).bind fun buf₂ hbuf₂ => ?_
  refine (Safe.read (by omega)).bind fun salt hsalt => ?_
  refine (Safe.write (by omega)).bind fun buf₃ hbuf₃ => ?_
  refine (Safe.read (by omega)).bind fun m _ => (safe_orReturn _).bind fun hash _ => ?_
  exact hh.bind fun _ _ => (Safe.check _).mono fun _ _ => trivial

/-- `emsa_pss_verify` stays inside its buffers. -/
theorem safe_emsaPssVerify {sig : List UInt8} (l : PssLengths p n sig.length)
    (hint : n + 1 + p.sLen ≤ 2 ^ 31 * getShaSize p.mgf) :
    Safe (emsaPssVerify tok alloc p inData sig sig.length) fun _ => True := by
  have hk := l.k_eq
  have hbuflen : ulongAdd (n + 1 + p.sLen) (8 + getShaSize p.hashAlg + p.sLen)
      = n + 1 + p.sLen + (8 + getShaSize p.hashAlg + p.sLen) := l.small (by omega)
  have hseed : Safe (access (readAt sig (n + 1 + p.sLen) (getShaSize p.hashAlg)) :
      Except Stop (List UInt8)) fun _ => True := (Safe.read (by omega)).mono fun _ _ => trivial
  unfold emsaPssVerify
  simp only [pssEmLen_eq, l.dbLen, l.mLen, l.plen, l.last, hbuflen]
  refine (Safe.check _).bind fun _ _ => (Safe.check _).bind fun _ hdata => ?_
  refine (Safe.check _).bind fun _ _ => ?_
  refine (Safe.read (by omega)).bind fun last _ => (Safe.check _).bind fun _ _ => ?_
  refine (Safe.read (by omega)).bind fun first _ => (Safe.check _).bind fun _ _ => ?_
  refine (safe_mgf1 tok p.mgf _ hseed hint (by rw [length_replicate]; omega)).bind
    fun buf₁ hbuf₁ => ?_
  rw [length_replicate] at hbuf₁
  refine (safe_xorAt (by omega) (by omega)).bind fun buf₂ hbuf₂ => ?_
  refine (safe_andAt _ (by omega)).bind fun buf₃ hbuf₃ => ?_
  exact safe_pssCheckDb tok inData l (by omega) hdata hseed

end

/-! ### When the accesses leave the buffers -/

section
variable (h : Hash) (m : DigestMechanism) {seed : Except Stop (List UInt8)}

/-- With a hash that works, the loop of `mgf1` returns no error. -/
theorem noRc_mgf1Loop (hseed : NoRc seed) (maskOff rounds i tLen : Nat) (mask : List UInt8) :
    NoRc (mgf1Loop (shaToken h) m seed maskOff rounds i tLen mask) := by
  induction rounds generalizing i tLen mask with
  | zero => exact NoRc.ok mask
  | succ rounds ih =>
    rw [mgf1Loop]
    split
    · exact NoRc.ok mask
    · split
      · intro rc hrc
        cases hrc
      · exact hseed.bind fun bytes => (NoRc.ok (h m (bytes ++ mgf1Counter i))).bind fun hash =>
          (NoRc.access _).bind fun mask' => ih _ _ _

/-- With a hash that works, `mgf1` returns no error. -/
theorem noRc_mgf1 (hm : m ≠ .md5) (hseed : NoRc seed) (maskOff maskLen : Nat)
    (mask : List UInt8) : NoRc (mgf1 (shaToken h) true seed mask maskOff maskLen (some m)) := by
  have hmech : getMgfMech (some m) = .ok m := if_neg hm
  rw [mgf1, hmech]
  exact (NoRc.ok ()).bind fun _ => noRc_mgf1Loop h m hseed _ _ _ _ _

end

/-- With everything in its favour, `emsa_pss_encode` returns no error after the length check. -/
theorem noRc_emsaPssEncode (h : Hash) {p : PssParams} {k : Nat} {inData : List UInt8}
    (hm : p.mgf ≠ .md5) (hroom : ¬ k < ulongAdd (ulongAdd (getShaSize p.hashAlg) p.sLen) 2)
    (hdata : inData.length = getShaSize p.hashAlg) (hrand : p.sLen ≤ rand.length)
    (em : List UInt8) : NoRc (emsaPssEncode (shaToken h) (fun _ => true) rand p inData em k) := by
  unfold emsaPssEncode
  simp only [pssEmLen_eq, check_of hroom, check_of hdata, check_true, ok_bind]
  refine (NoRc.access _).bind fun em₁ => ?_
  have hsalt : ∀ buf : List UInt8, NoRc (if p.sLen > 0 then
      rngGenerateAt rand buf (8 + inData.length) p.sLen else .ok buf) := by
    intro buf
    split
    · refine (NoRc.access _).bind fun _ => ?_
      rw [rngGenerate, if_pos hrand]
      exact NoRc.access _
    · exact NoRc.ok buf
  refine (hsalt _).bind fun buf => (NoRc.access _).bind fun buf => (NoRc.access _).bind fun m => ?_
  refine (NoRc.ok (h p.hashAlg m)).bind fun hash => ?_
  refine (NoRc.access _).bind fun em => (NoRc.access _).bind fun em => ?_
  refine (NoRc.access _).bind fun salt => (NoRc.access _).bind fun em => ?_
  refine (noRc_mgf1 h p.mgf hm (NoRc.access _) _ _ _).bind fun mask => ?_
  have hxor : ∀ b off c cOff n, NoRc (xorAt b off c cOff n) := fun b off c cOff n =>
    (NoRc.access _).bind fun _ => (NoRc.access _).bind fun _ => NoRc.access _
  have hand : ∀ b i mask, NoRc (andAt b i mask) := fun b i mask =>
    (NoRc.access _).bind fun _ => NoRc.access _
  refine (hxor _ _ _ _ _).bind fun em => (hand _ _ _).bind fun em => ?_
  exact (NoRc.access _).bind fun em => NoRc.ok _

/-- `emsa_pss_encode` returns `CKR_OK` only if the salt is inside the helper buffer. -/
theorem emsaPssEncode_ok_salt (tok : HashToken) (alloc : Nat → Bool) {p : PssParams} {k k' : Nat}
    {inData em em' : List UInt8}
    (hok : emsaPssEncode tok alloc rand p inData em k = .ok (em', k')) :
    p.sLen = 0 ∨ inData.length + p.sLen + 8 < 2 ^ 64 := by
  simp only [emsaPssEncode, bind_eq_ok] at hok
  obtain ⟨_, -, _, -, _, -, _, -, buf, hsalt, -⟩ := hok
  split at hsalt
  · simp only [rngGenerateAt, bind_eq_ok] at hsalt
    obtain ⟨xs, hread, -⟩ := hsalt
    have hle := readAt_le (access_eq_ok.mp hread)
    rw [length_replicate] at hle
    -- The size of the helper buffer is a `CK_ULONG`.
    have hlt : ∀ a b c d, (if ulongSub a b < ulongAdd c d then ulongAdd c d else ulongSub a b)
        < 2 ^ 64 := by
      intro a b c d
      split <;> exact Nat.mod_lt _ (by decide)
    have hbuflen := hlt (ulongSub (pssEmLen k) (getShaSize p.hashAlg)) 1
      (8 + getShaSize p.hashAlg) p.sLen
    omega
  · exact .inl (by omega)

/-- What `check_pss_params` has checked. -/
theorem checkPssParams_eq_ok {digest : Option DigestMechanism} {ulParameterLen modlen : Nat}
    {pParameter : Option PssParams} {p : PssParams}
    (hok : checkPssParams digest ulParameterLen pParameter modlen = .ok p) :
    p.mgf ≠ .md5 ∧ p.hashAlg = p.mgf ∧
      p.sLen ≤ ulongSub (ulongSub modlen 2) (getShaSize p.hashAlg) := by
  cases pParameter with
  | none => cases hok
  | some q =>
    simp only [checkPssParams, bind_eq_ok] at hok
    obtain ⟨_, -, _, hm, _, hdigest, _, hsalt, hp⟩ := hok
    cases hp
    exact ⟨require_eq_ok.mp hm, (require_eq_ok.mp hdigest).2, require_eq_ok.mp hsalt⟩

/-- For parameters that `check_pss_params` accepts, `emsa_pss_encode` and `emsa_pss_verify` stay
inside their buffers if and only if `hlen + sLen + 2` is a `CK_ULONG` and the mask has at most
`2 ^ 31` digests. -/
theorem pss_params_in_bounds_iff {digest : Option DigestMechanism} {ulParameterLen modlen : Nat}
    {pParameter : Option PssParams} {p : PssParams} (hpos : 0 < modlen) (hmod : modlen < 2 ^ 64)
    (hsLen : p.sLen < 2 ^ 64)
    (hcheck : checkPssParams digest ulParameterLen pParameter modlen = .ok p) :
    (∀ (tok : HashToken) (alloc : Nat → Bool) (rand inData em : List UInt8), em.length = modlen →
        emsaPssEncode tok alloc rand p inData em modlen ≠ .error .fault ∧
          emsaPssVerify tok alloc p inData em modlen ≠ .error .fault) ↔
      getShaSize p.hashAlg + p.sLen + 2 < 2 ^ 64 ∧
        modlen ≤ 2 ^ 31 * getShaSize p.hashAlg + getShaSize p.hashAlg + 1 := by
  obtain ⟨hm, halg, hsalt⟩ := checkPssParams_eq_ok hcheck
  have hhlen := getShaSize_le p.hashAlg
  by_cases hroom : modlen < ulongAdd (ulongAdd (getShaSize p.hashAlg) p.sLen) 2
  · -- Both functions return after the length check, which has not wrapped around.
    refine iff_of_true (fun tok alloc rand inData em _ => ⟨?_, ?_⟩) ?_
    · rw [emsaPssEncode, pssEmLen_eq, check_bind_not (not_not.mpr hroom)]
      intro hfault
      cases hfault
    · rw [emsaPssVerify, pssEmLen_eq, check_bind_not (not_not.mpr hroom)]
      intro hfault
      cases hfault
    · simp only [ulongSub, ulongAdd] at hsalt hroom
      omega
  constructor
  · intro hsafe
    -- With a token, allocations and random bytes that do not fail, encoding gets to its end.
    have hdata : (List.replicate (getShaSize p.hashAlg) (0 : UInt8)).length
        = getShaSize p.hashAlg := length_replicate
    have hnoRc := noRc_emsaPssEncode (fun m _ => Vector.replicate (getShaSize m) 0) hm hroom hdata
      (le_of_eq (length_replicate (a := (0 : UInt8))).symm) (List.replicate modlen 0)
    obtain ⟨⟨em, k⟩, hok⟩ := hnoRc.exists_eq_ok (hsafe _ _ _ _ _ length_replicate).1
    have hend := emsaPssEncode_ok_salt _ _ hok
    have hint := (emsaPssEncode_ok_cond _ _ hok).2
    rw [hdata] at hend
    rw [← halg] at hint
    simp only [ulongSub, ulongAdd] at hint hroom
    omega
  · rintro ⟨hwrap, hint⟩ tok alloc rand inData em rfl
    simp only [ulongAdd] at hroom
    have l : PssLengths p (em.length - (p.sLen + getShaSize p.hashAlg + 2)) em.length :=
      ⟨by omega, by omega⟩
    have hmask : em.length - (p.sLen + getShaSize p.hashAlg + 2) + 1 + p.sLen
        ≤ 2 ^ 31 * getShaSize p.mgf := by
      rw [← halg]
      omega
    exact ⟨(safe_emsaPssEncode tok alloc inData rand l hmask).ne_fault,
      (safe_emsaPssVerify tok alloc inData l hmask).ne_fault⟩

/-- A modulus of 256 bytes with SHA-256 and a salt of 32 bytes. -/
theorem pss_params_in_bounds_rsa2048 :
    checkPssParams none SIZEOF_CK_RSA_PKCS_PSS_PARAMS (some ⟨.sha256, .sha256, 32⟩) 256
        = .ok ⟨.sha256, .sha256, 32⟩ ∧
      ∀ (tok : HashToken) (alloc : Nat → Bool) (rand inData em : List UInt8), em.length = 256 →
        emsaPssEncode tok alloc rand ⟨.sha256, .sha256, 32⟩ inData em 256 ≠ .error .fault ∧
          emsaPssVerify tok alloc ⟨.sha256, .sha256, 32⟩ inData em 256 ≠ .error .fault := by
  have hcheck : checkPssParams none SIZEOF_CK_RSA_PKCS_PSS_PARAMS (some ⟨.sha256, .sha256, 32⟩) 256
      = .ok ⟨.sha256, .sha256, 32⟩ := rfl
  exact ⟨hcheck, (pss_params_in_bounds_iff (by decide) (by decide) (by decide) hcheck).mpr
    ⟨by decide, by decide⟩⟩

/-- A modulus of 33 bytes with SHA-256 and a salt length of `2 ^ 64 - 1`: the parameters are
accepted, and `emsa_pss_encode` writes the salt behind a helper buffer of 39 bytes. -/
theorem pss_salt_leaves_buffer :
    checkPssParams none SIZEOF_CK_RSA_PKCS_PSS_PARAMS (some ⟨.sha256, .sha256, 2 ^ 64 - 1⟩) 33
        = .ok ⟨.sha256, .sha256, 2 ^ 64 - 1⟩ ∧
      emsaPssEncode (shaToken fun m _ => .replicate (getShaSize m) 0) (fun _ => true) []
        ⟨.sha256, .sha256, 2 ^ 64 - 1⟩ (List.replicate 32 0) (List.replicate 33 0) 33
          = .error .fault :=
  ⟨rfl, rfl⟩

end OpenCryptoki.Proofs.Common
