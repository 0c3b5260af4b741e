import OpenCryptoki.Api.Policy

/-!
# `OpenCryptoki.Proofs.Api.Policy`: advertised key sizes and accepted keys

`policy_update_mech_info` advertises the sizes from the threshold of the required level on, and
`policy_store_object_strength` accepts a key that meets the threshold of any level that is strong
enough. `policyStoreObjectStrength_iff` states the second one without the search for the first
level, and `reported_iff` the first one.

Both agree on a key size exactly under `SizesMatch`: the required level has to be in the
configuration (or a stronger one is met anyway), and the conversion of its threshold to the unit of
the mechanism must not lose anything (`advertised_iff_accepted_iff`).
-/

set_option autoImplicit false

namespace OpenCryptoki.Proofs.Api

open OpenCryptoki.Api

/-! ### Keys of a size -/

/-- The key has the size `k`, in the unit that the mechanism uses. A modulus or a prime is stored
in full bytes, and a curve has a size in bits. -/
def KeyOfSize (kind : MechKind) (k : UInt64) (key : KeyData) : Prop :=
  match kind with
  | .symmetricBytes false => key = .aes k ∨ key = .genericSecret k
  | .symmetricBytes true  => key = .aesXts k
  | .symmetricBits        => ∃ n, key = .genericSecret n ∧ n.toNat * 8 = k.toNat
  | .des size             =>
    size = 56 ∧ key = .des ∨ size = 80 ∧ key = .des2 ∨ size = 112 ∧ key = .des3
  | .modexp               =>
    ∃ n, (key = .rsa n ∨ key = .dsa n ∨ key = .dh n ∨ key = .x942Dh n) ∧ n.toNat = (k.toNat + 7) / 8
  | .ec                   => ∃ c, key = .ec c ∧ c.primeBits = k

/-- The restriction to some curves does not forbid the key. -/
def CurveAllowed (pp : PolicyPrivate) : KeyData → Prop
  | .ec curve => policyCheckEcAllowed pp curve.data = true
  | _         => True

/-- What a key for the mechanism is compared with. -/
def targetOf : MechKind → CompareTarget
  | .symmetricBytes _ | .symmetricBits | .des _ => .symmetric
  | .modexp                                     => .modexp
  | .ec                                         => .ecc

/-- The size in bits that a key of the size `k` is compared by. -/
def bitsOf : MechKind → UInt64 → Nat
  | .symmetricBytes false, k => k.toNat * 8 % 2 ^ 64
  | .symmetricBytes true, k  => k.toNat * 8 % 2 ^ 64 / 2
  | .symmetricBits, k        => k.toNat
  | .des size, _             => size.toNat
  | .modexp, k               => (k.toNat + 7) / 8 * 8 % 2 ^ 64
  | .ec, k                   => k.toNat

variable {kind : MechKind} {k : UInt64} {key : KeyData} {pp : PolicyPrivate}
  {info info' : MechanismInfo} {checkSig : PolicyPrivate → Mechanism → UInt64 → UInt64 → Bool}
  {mech : Mechanism}

/-- What the policy compares for a key of size `k`. -/
theorem policyExtractKeyData_eq (h : KeyOfSize kind k key) :
    (policyExtractKeyData key).1 = targetOf kind ∧
      (policyExtractKeyData key).2.1.toNat = bitsOf kind k := by
  cases kind with
  | symmetricBytes isaesxts =>
    cases isaesxts with
    | false =>
      obtain rfl | rfl := h
      all_goals exact ⟨rfl, UInt64.toNat_mul k 8⟩
    | true =>
      cases h
      refine ⟨rfl, ?_⟩
      show (k * 8 / 2).toNat = _
      rw [UInt64.toNat_div, UInt64.toNat_mul]
      rfl
  | symmetricBits =>
    obtain ⟨n, rfl, hn⟩ := h
    refine ⟨rfl, ?_⟩
    show (n * 8).toNat = k.toNat
    rw [UInt64.toNat_mul]
    have hk := k.toNat_lt
    exact (Nat.mod_eq_of_lt (hn.trans_lt hk)).trans hn
  | des size =>
    obtain ⟨rfl, rfl⟩ | ⟨rfl, rfl⟩ | ⟨rfl, rfl⟩ := h <;> exact ⟨rfl, rfl⟩
  | modexp =>
    obtain ⟨n, hkey, hn⟩ := h
    have hsize : (n * 8).toNat = bitsOf .modexp k := by
      rw [UInt64.toNat_mul, hn]
      rfl
    obtain rfl | rfl | rfl | rfl := hkey <;> exact ⟨rfl, hsize⟩
  | ec =>
    obtain ⟨c, rfl, rfl⟩ := h
    exact ⟨rfl, rfl⟩

/-! ### Acceptance -/

/-- The first level that has a property is at most `r` exactly if some level up to `r` has it. -/
theorem find_range_getD_le_iff (p : Nat → Bool) (n r : Nat) :
    ((List.range n).find? p).getD n ≤ r ↔ n ≤ r ∨ ∃ i ≤ r, i < n ∧ p i = true := by
  cases hfind : (List.range n).find? p with
  | none =>
    have hnone : ∀ i < n, ¬ p i = true := by simpa using hfind
    refine ⟨.inl, ?_⟩
    rintro (h | ⟨i, -, hi, hp⟩)
    · exact h
    · exact absurd hp (hnone i hi)
  | some j =>
    obtain ⟨hp, hj, hmin⟩ := List.find?_range_eq_some.mp hfind
    rw [List.mem_range] at hj
    constructor
    · exact fun h => .inr ⟨j, h, hj, hp⟩
    · rintro (h | ⟨i, hir, -, hpi⟩)
      · exact hj.le.trans h
      · -- The first level does not come after `i`.
        by_contra hlt
        have hij : i < j := hir.trans_lt (not_le.mp hlt)
        have hnot := hmin i hij
        rw [hpi] at hnot
        cases hnot

/-- A configured level up to the required one has a threshold of at most `size`. -/
def Met (pp : PolicyPrivate) (ct : CompareTarget) (size : Nat) : Prop :=
  ∃ i ≤ pp.minstrengthidx, i < NUM_SUPPORTED_STRENGTHS ∧
    ∃ s, pp.level i = some s ∧ (s.arr ct).toNat ≤ size

/-- A key is strong enough if no level is required or one is met. -/
theorem policyComputeStrength_le_iff (pp : PolicyPrivate) (size : UInt64) (ct : CompareTarget) :
    policyComputeStrength pp size ct ≤ pp.minstrengthidx ↔
      NUM_SUPPORTED_STRENGTHS ≤ pp.minstrengthidx ∨ Met pp ct size.toNat := by
  unfold policyComputeStrength Met
  rw [find_range_getD_le_iff]
  simp only [Option.any_eq_true, decide_eq_true_eq, ge_iff_le, UInt64.le_iff_toNat_le]

/-- `policy_store_object_strength` accepts a key that meets some level that is strong enough. -/
theorem policyStoreObjectStrength_iff (hkey : KeyOfSize kind k key) (hcurve : CurveAllowed pp key) :
    policyStoreObjectStrength pp key = true ↔
      NUM_SUPPORTED_STRENGTHS ≤ pp.minstrengthidx ∨ Met pp (targetOf kind) (bitsOf kind k) := by
  obtain ⟨htarget, hbits⟩ := policyExtractKeyData_eq hkey
  have hallowed : (if (policyExtractKeyData key).1 = .ecc then
      policyCheckEcAllowed pp (policyExtractKeyData key).2.2 else true) = true := by
    cases key with
    | ec curve => exact hcurve
    | _ => rfl
  unfold policyStoreObjectStrength
  dsimp only
  rw [hallowed, htarget, ← hbits, ← policyComputeStrength_le_iff]
  unfold policyIsKeyAllowedI
  split
  · exact iff_of_false (by decide) (not_le.mpr (by assumption))
  · exact iff_of_true rfl (not_lt.mp (by assumption))

/-! ### Advertised sizes -/

/-- The mechanism is advertised with a range of key sizes that has `k`. -/
def Reported (checkSig : PolicyPrivate → Mechanism → UInt64 → UInt64 → Bool) (pp : PolicyPrivate)
    (mech : Mechanism) (info : MechanismInfo) (k : UInt64) : Prop :=
  ∃ info', policyUpdateMechInfo checkSig pp mech info = some info' ∧
    info'.ulMinKeySize ≤ k ∧ k ≤ info'.ulMaxKeySize

/-- Nothing but the key sizes blocks the mechanism: it is allowed, and the signature size leaves it
a feature. -/
def Available (checkSig : PolicyPrivate → Mechanism → UInt64 → UInt64 → Bool) (pp : PolicyPrivate)
    (mech : Mechanism) (info : MechanismInfo) : Prop :=
  pp.allowedmechs mech = true ∧
    (updateFlags (checkSig pp mech info.ulMaxKeySize info.flags) info).isSome = true

/-- The range of a mechanism has the size `k`. -/
def HasSize (info : MechanismInfo) (k : UInt64) : Prop :=
  info.ulMinKeySize ≤ k ∧ k ≤ info.ulMaxKeySize

/-- A size is left by the update exactly if it is not below the minimum. -/
theorem updateMinsize_has {minsize : UInt64} (hk : HasSize info k) :
    (∃ info', updateMinsize minsize info = some info' ∧ HasSize info' k) ↔ minsize ≤ k := by
  unfold updateMinsize
  split
  · rename_i hmax
    constructor
    · rintro ⟨info', h, -⟩
      cases h
    · exact fun hle => absurd (UInt64.le_trans hle hk.2) (UInt64.not_le.mpr hmax)
  · split
    · constructor
      · rintro ⟨info', h, hhas⟩
        cases h
        exact hhas.1
      · exact fun hle => ⟨_, rfl, hle, hk.2⟩
    · rename_i hmin
      exact iff_of_true ⟨info, rfl, hk⟩ (UInt64.le_trans (UInt64.not_lt.mp hmin) hk.1)

/-- The adjustment of the sizes keeps what the other checks read. -/
theorem updateMinsize_keeps {minsize : UInt64} (h : updateMinsize minsize info = some info') :
    info'.ulMaxKeySize = info.ulMaxKeySize ∧ info'.flags = info.flags := by
  unfold updateMinsize at h
  split at h
  · cases h
  · split at h <;> cases h <;> exact ⟨rfl, rfl⟩

/-- The smallest size that a level asks for, in the unit of the mechanism. -/
def minsizeOf (s : Strength) : MechKind → UInt64
  | .symmetricBytes isaesxts => symmetricMinsize s.symmetric true isaesxts
  | .symmetricBits           => symmetricMinsize s.symmetric false false
  | .des _                   => 0
  | .modexp                  => s.modexp
  | .ec                      => s.ecc

/-- The `switch` adjusts the sizes of all mechanisms but DES to the required level. -/
theorem updateSizes_eq (hcurves : kind = .ec → pp.allowedcurves ≠ some [])
    (hdes : ∀ size, kind ≠ .des size) (info : MechanismInfo) :
    updateSizes pp kind info =
      pp.required.elim (some info) fun s => updateMinsize (minsizeOf s kind) info := by
  cases kind with
  | des size => exact absurd rfl (hdes size)
  | ec =>
    refine (if_neg (hcurves rfl)).trans ?_
    cases pp.required <;> rfl
  | symmetricBytes isaesxts | symmetricBits =>
    unfold updateSizes policyUpdateSymmetric
    cases pp.required <;> rfl
  | modexp =>
    unfold updateSizes policyUpdateModexp
    cases pp.required <;> rfl

/-- The update of the sizes keeps the upper end and the flags. -/
theorem updateSizes_keeps (h : updateSizes pp kind info = some info') :
    info'.ulMaxKeySize = info.ulMaxKeySize ∧ info'.flags = info.flags := by
  have hsome : ∀ {minsize : Strength → UInt64}, (pp.required.elim (some info) fun s =>
      updateMinsize (minsize s) info) = some info' →
      info'.ulMaxKeySize = info.ulMaxKeySize ∧ info'.flags = info.flags := by
    intro minsize h
    cases hreq : pp.required with
    | none =>
      rw [hreq] at h
      cases h
      exact ⟨rfl, rfl⟩
    | some s =>
      rw [hreq] at h
      exact updateMinsize_keeps h
  by_cases hdes : ∀ size, kind ≠ .des size
  · by_cases hcurves : kind = .ec → pp.allowedcurves ≠ some []
    · exact hsome (updateSizes_eq hcurves hdes info ▸ h)
    · obtain ⟨rfl, hempty⟩ := Classical.not_imp.mp hcurves
      rw [updateSizes, policyUpdateEc, if_pos (not_not.mp hempty)] at h
      cases h
  · obtain ⟨size, hsize⟩ := not_forall.mp hdes
    rw [not_not.mp hsize] at h
    unfold updateSizes at h
    dsimp only at h
    split at h <;> cases h
    exact ⟨rfl, rfl⟩

/-- The update of the flags keeps the sizes. -/
theorem updateFlags_has {sigOk : Bool} (h : updateFlags sigOk info = some info') :
    info'.ulMinKeySize = info.ulMinKeySize ∧ info'.ulMaxKeySize = info.ulMaxKeySize := by
  unfold updateFlags at h
  split at h
  · cases h
    exact ⟨rfl, rfl⟩
  · dsimp only at h
    split at h <;> cases h
    exact ⟨rfl, rfl⟩

/-- Whether a feature is left depends on the flags only. -/
theorem updateFlags_isSome {sigOk : Bool} (hflags : info'.flags = info.flags) :
    (updateFlags sigOk info').isSome = (updateFlags sigOk info).isSome := by
  cases sigOk with
  | true => rfl
  | false =>
    unfold updateFlags
    rw [if_neg Bool.false_ne_true, if_neg Bool.false_ne_true]
    dsimp only
    rw [hflags]
    split <;> rfl

/-- For a mechanism that is available, only the sizes count. -/
theorem reported_iff (hav : Available checkSig pp mech info) (k : UInt64) :
    Reported checkSig pp mech info k ↔
      ∃ info', updateSizes pp mech.kind info = some info' ∧ HasSize info' k := by
  have hmech : ¬ pp.allowedmechs mech = false := by simp [hav.1]
  unfold Reported policyUpdateMechInfo
  rw [if_neg hmech]
  cases hsizes : updateSizes pp mech.kind info with
  | none =>
    constructor
    all_goals
      rintro ⟨info', h, -⟩
      cases h
  | some sized =>
    obtain ⟨hmax, hflags⟩ := updateSizes_keeps hsizes
    have hsome := hav.2
    rw [← updateFlags_isSome hflags, ← hmax, ← hflags] at hsome
    obtain ⟨final, hfinal⟩ := Option.isSome_iff_exists.mp hsome
    obtain ⟨hfmin, hfmax⟩ := updateFlags_has hfinal
    constructor
    · rintro ⟨info', h, hhas⟩
      cases hfinal.symm.trans h
      rw [hfmin, hfmax] at hhas
      exact ⟨sized, rfl, hhas⟩
    · rintro ⟨info', h, hhas⟩
      cases h
      refine ⟨final, hfinal, ?_⟩
      rw [hfmin, hfmax]
      exact hhas

/-! ### Agreement -/

/-- The thresholds do not increase towards weaker levels. -/
def NonIncreasing (pp : PolicyPrivate) : Prop :=
  ∀ i j s t, i ≤ j → pp.level i = some s → pp.level j = some t → ∀ ct, t.arr ct ≤ s.arr ct

/-- The threshold of the required level means the same for both sides at the size `k`. Symmetric
keys in bytes of at least the rounded-down threshold are accepted. A modulus of less bits than the
threshold does not reach it by its last byte. -/
def Converts (threshold k : UInt64) : MechKind → Prop
  | .symmetricBytes false            =>
    threshold.toNat ≤ k.toNat * 8 % 2 ^ 64 ∨ k.toNat < threshold.toNat / 8
  | .symmetricBytes true             =>
    threshold.toNat ≤ k.toNat * 8 % 2 ^ 64 / 2 ∨ k.toNat < threshold.toNat / 8 * 2
  | .symmetricBits | .des _ | .ec    => True
  | .modexp                          =>
    threshold.toNat ≤ k.toNat ↔ threshold.toNat ≤ (k.toNat + 7) / 8 * 8 % 2 ^ 64

/-- The condition under which a size is advertised exactly if it is accepted: no strength is
required, or the required level is configured and its threshold converts, or it is not configured
and a stronger level is met. DES keys have one size. -/
def SizesMatch (pp : PolicyPrivate) (kind : MechKind) (k : UInt64) : Prop :=
  NUM_SUPPORTED_STRENGTHS ≤ pp.minstrengthidx ∨ (∃ size, kind = .des size) ∨
    (∃ s, pp.level pp.minstrengthidx = some s ∧ Converts (s.arr (targetOf kind)) k kind) ∨
    pp.level pp.minstrengthidx = none ∧ Met pp (targetOf kind) (bitsOf kind k)

/-- The comparison in the unit of the mechanism against the one in bits. -/
theorem converts_iff {s : Strength} (hdes : ∀ size, kind ≠ .des size) (k : UInt64) :
    (minsizeOf s kind ≤ k ↔ (s.arr (targetOf kind)).toNat ≤ bitsOf kind k) ↔
      Converts (s.arr (targetOf kind)) k kind := by
  have hthr := (s.arr (targetOf kind)).toNat_lt
  rw [UInt64.le_iff_toNat_le]
  cases kind with
  | des size => exact absurd rfl (hdes size)
  | symmetricBytes isaesxts =>
    cases isaesxts with
    | false =>
      have hmin : (minsizeOf s (.symmetricBytes false)).toNat = s.symmetric.toNat / 8 := by
        show (s.symmetric / 8).toNat = _
        rw [UInt64.toNat_div]
        rfl
      rw [hmin]
      simp only [targetOf, Strength.arr, bitsOf, Converts] at hthr ⊢
      omega
    | true =>
      have hmin : (minsizeOf s (.symmetricBytes true)).toNat = s.symmetric.toNat / 8 * 2 := by
        show (s.symmetric / 8 * 2).toNat = _
        rw [UInt64.toNat_mul, UInt64.toNat_div]
        have hlt := s.symmetric.toNat_lt
        exact Nat.mod_eq_of_lt (by show s.symmetric.toNat / 8 * 2 < 2 ^ 64; omega)
      rw [hmin]
      simp only [targetOf, Strength.arr, bitsOf, Converts] at hthr ⊢
      omega
  | symmetricBits | ec => exact iff_of_true Iff.rfl trivial
  | modexp => exact Iff.rfl

/-- A larger key meets what a smaller one meets. -/
theorem Met.mono {ct : CompareTarget} {m n : Nat} (h : Met pp ct m) (hle : m ≤ n) :
    Met pp ct n := by
  obtain ⟨i, hi, hlt, s, hs, hsize⟩ := h
  exact ⟨i, hi, hlt, s, hs, hsize.trans hle⟩

/-- A mechanism for curves is not blocked if some curve is allowed. -/
theorem CurveAllowed.ne_nil (hkey : KeyOfSize kind k key) (hcurve : CurveAllowed pp key) :
    kind = .ec → pp.allowedcurves ≠ some [] := by
  rintro rfl hempty
  obtain ⟨c, rfl, -⟩ := hkey
  have hany : policyCheckEcAllowed pp c.data = true := hcurve
  simp [policyCheckEcAllowed, hempty] at hany

/-- For DES, whose keys have one size, the size is reported exactly if the key is accepted. -/
theorem match_iff_des (hav : Available checkSig pp mech info) (hk : HasSize info k)
    (hkey : KeyOfSize mech.kind k key) (hcurve : CurveAllowed pp key) {size : UInt64}
    (hdes : mech.kind = .des size) :
    Reported checkSig pp mech info k ↔ policyStoreObjectStrength pp key = true := by
  rw [reported_iff hav, policyStoreObjectStrength_iff hkey hcurve, hdes]
  show _ ↔ NUM_SUPPORTED_STRENGTHS ≤ pp.minstrengthidx ∨ Met pp .symmetric size.toNat
  rw [← policyComputeStrength_le_iff]
  unfold updateSizes policyIsKeyAllowedI
  dsimp only
  by_cases hgt : policyComputeStrength pp size .symmetric > pp.minstrengthidx
  · rw [if_pos hgt]
    refine iff_of_false ?_ (not_le.mpr hgt)
    rintro ⟨info', h, -⟩
    cases h
  · rw [if_neg hgt]
    exact iff_of_true ⟨info, rfl, hk⟩ (not_lt.mp hgt)

/-- Both sides agree on a size exactly if the sizes match. -/
theorem agree_iff (hmono : NonIncreasing pp) (hav : Available checkSig pp mech info)
    (hk : HasSize info k) (hkey : KeyOfSize mech.kind k key) (hcurve : CurveAllowed pp key) :
    (Reported checkSig pp mech info k ↔ policyStoreObjectStrength pp key = true) ↔
      SizesMatch pp mech.kind k := by
  by_cases hdes : ∃ size, mech.kind = .des size
  · obtain ⟨size, hsize⟩ := hdes
    exact iff_of_true (match_iff_des hav hk hkey hcurve hsize) (.inr (.inl ⟨size, hsize⟩))
  · have hnot : ∀ size, mech.kind ≠ .des size := fun size h => hdes ⟨size, h⟩
    rw [reported_iff hav, policyStoreObjectStrength_iff hkey hcurve,
      updateSizes_eq (hcurve.ne_nil hkey) hnot]
    unfold SizesMatch PolicyPrivate.required
    by_cases hr : pp.minstrengthidx < NUM_SUPPORTED_STRENGTHS
    · have hr' : ¬ NUM_SUPPORTED_STRENGTHS ≤ pp.minstrengthidx := not_le.mpr hr
      rw [if_pos hr]
      cases hs : pp.level pp.minstrengthidx with
      | none =>
        -- The range stays as it is, and only the stronger levels can accept the key.
        have hrange : ∃ info', (none : Option Strength).elim (some info)
            (fun s => updateMinsize (minsizeOf s mech.kind) info) = some info' ∧ HasSize info' k :=
          ⟨info, rfl, hk⟩
        simp only [hrange, hr', hdes, false_or, true_iff, reduceCtorEq, false_and, exists_false,
          true_and]
      | some s =>
        have hupdate : (∃ info', (some s).elim (some info)
            (fun s => updateMinsize (minsizeOf s mech.kind) info) = some info' ∧ HasSize info' k) ↔
            minsizeOf s mech.kind ≤ k := updateMinsize_has hk
        -- The thresholds do not increase, so only the required level counts.
        have hmet : Met pp (targetOf mech.kind) (bitsOf mech.kind k) ↔
            (s.arr (targetOf mech.kind)).toNat ≤ bitsOf mech.kind k := by
          constructor
          · rintro ⟨i, hi, -, t, ht, hle⟩
            have hst := UInt64.le_iff_toNat_le.mp (hmono i _ t s hi ht hs (targetOf mech.kind))
            exact hst.trans hle
          · exact fun hle => ⟨_, le_rfl, hr, s, hs, hle⟩
        rw [hupdate, hmet]
        simp only [hr', hdes, false_or, reduceCtorEq, false_and, or_false, Option.some.injEq,
          exists_eq_left']
        exact converts_iff hnot k
    · rw [if_neg hr]
      have hr' : NUM_SUPPORTED_STRENGTHS ≤ pp.minstrengthidx := not_lt.mp hr
      exact iff_of_true (iff_of_true ⟨info, rfl, hk⟩ (.inl hr')) (.inl hr')

/-! ### Larger keys -/

/-- The largest size in bits that a key with a length in bytes is compared by. -/
def maxBitsOf : MechKind → Option Nat
  | .symmetricBytes false | .modexp => some (2 ^ 64 - 8)
  | .symmetricBytes true            => some (2 ^ 63 - 4)
  | .symmetricBits | .des _ | .ec   => none

/-- A larger key is accepted if a smaller one is. A length in bytes that does not fit when it is
converted to bits is the exception, unless its size does not matter. -/
def GrowsWithSize (pp : PolicyPrivate) (kind : MechKind) : Prop :=
  NUM_SUPPORTED_STRENGTHS ≤ pp.minstrengthidx ∨
    ∀ bits, maxBitsOf kind = some bits → Met pp (targetOf kind) 0 ∨ ¬ Met pp (targetOf kind) bits

/-- No key of the kind has more bits. -/
theorem bits_le_maxBits {bits : Nat} (hmax : maxBitsOf kind = some bits) (k : UInt64) :
    bitsOf kind k ≤ bits := by
  cases kind with
  | symmetricBytes isaesxts =>
    cases isaesxts with
    | false =>
      cases hmax
      show k.toNat * 8 % 2 ^ 64 ≤ 2 ^ 64 - 8
      omega
    | true =>
      cases hmax
      show k.toNat * 8 % 2 ^ 64 / 2 ≤ 2 ^ 63 - 4
      omega
  | modexp =>
    cases hmax
    show (k.toNat + 7) / 8 * 8 % 2 ^ 64 ≤ 2 ^ 64 - 8
    omega
  | _ => cases hmax

/-- The largest key and a larger one whose length overflows. -/
theorem exists_overflow {bits : Nat} (hmax : maxBitsOf kind = some bits) (pp : PolicyPrivate) :
    ∃ k k' key key', k ≤ k' ∧ KeyOfSize kind k key ∧ KeyOfSize kind k' key' ∧
      CurveAllowed pp key ∧ CurveAllowed pp key' ∧ bitsOf kind k = bits ∧ bitsOf kind k' = 0 := by
  cases kind with
  | symmetricBytes isaesxts =>
    cases isaesxts with
    | false =>
      cases hmax
      exact ⟨0x1fffffffffffffff, 0x2000000000000000, _, _, by decide, .inl rfl, .inl rfl, trivial,
        trivial, by decide, by decide⟩
    | true =>
      cases hmax
      exact ⟨0x1fffffffffffffff, 0x2000000000000000, _, _, by decide, rfl, rfl, trivial, trivial,
        by decide, by decide⟩
  | modexp =>
    cases hmax
    exact ⟨0xfffffffffffffff8, 0xffffffffffffffff, .rsa 0x1fffffffffffffff,
      .rsa 0x2000000000000000, by decide, ⟨_, .inl rfl, by decide⟩, ⟨_, .inl rfl, by decide⟩,
      trivial, trivial, by decide, by decide⟩
  | _ => cases hmax

/-- Larger keys are accepted too, exactly under `GrowsWithSize`. -/
theorem grows_iff (pp : PolicyPrivate) (kind : MechKind) :
    (∀ k k' key key', k ≤ k' → KeyOfSize kind k key → KeyOfSize kind k' key' →
      CurveAllowed pp key → CurveAllowed pp key' → policyStoreObjectStrength pp key = true →
      policyStoreObjectStrength pp key' = true) ↔ GrowsWithSize pp kind := by
  constructor
  · intro hgrows
    by_cases hr : NUM_SUPPORTED_STRENGTHS ≤ pp.minstrengthidx
    · exact .inl hr
    · refine .inr fun bits hmax => or_iff_not_imp_right.mpr fun hmet => ?_
      obtain ⟨k, k', key, key', hle, hkey, hkey', hcurve, hcurve', hbits, hzero⟩ :=
        exists_overflow hmax pp
      have hacc : policyStoreObjectStrength pp key = true :=
        (policyStoreObjectStrength_iff hkey hcurve).mpr (.inr (hbits ▸ not_not.mp hmet))
      have hacc' := hgrows k k' key key' hle hkey hkey' hcurve hcurve' hacc
      rw [policyStoreObjectStrength_iff hkey' hcurve', hzero] at hacc'
      exact hacc'.resolve_left hr
  · rintro hgrows k k' key key' hle hkey hkey' hcurve hcurve' hacc
    rw [policyStoreObjectStrength_iff hkey hcurve] at hacc
    rw [policyStoreObjectStrength_iff hkey' hcurve']
    rcases hgrows with hr | hbits
    · exact .inl hr
    · refine hacc.imp id fun hmet => ?_
      cases hmax : maxBitsOf kind with
      | none =>
        -- A larger key has at least the same size in bits, or its length in bytes overflows.
        have hmono : bitsOf kind k ≤ bitsOf kind k' := by
          have h := UInt64.le_iff_toNat_le.mp hle
          cases kind with
          | symmetricBytes isaesxts => cases isaesxts <;> cases hmax
          | modexp => cases hmax
          | des size => exact le_rfl
          | symmetricBits | ec => exact h
        exact hmet.mono hmono
      | some bits =>
        rcases hbits bits hmax with hzero | hnot
        · exact hzero.mono zero_le
        · exact absurd (hmet.mono (bits_le_maxBits hmax k)) hnot

/-- For every policy with thresholds that do not increase towards weaker levels, and every
mechanism: a key size in the range of the token is advertised if and only if a key of that size is
accepted, exactly under `SizesMatch`, and a larger key is accepted if a smaller one is, exactly
under `GrowsWithSize`. -/
theorem advertised_iff_accepted_iff
    (checkSig : PolicyPrivate → Mechanism → UInt64 → UInt64 → Bool) (pp : PolicyPrivate)
    (hmono : NonIncreasing pp) (mech : Mechanism) :
    (∀ info k key, Available checkSig pp mech info → HasSize info k → KeyOfSize mech.kind k key →
      CurveAllowed pp key →
      ((Reported checkSig pp mech info k ↔ policyStoreObjectStrength pp key = true) ↔
        SizesMatch pp mech.kind k)) ∧
    ((∀ k k' key key', k ≤ k' → KeyOfSize mech.kind k key → KeyOfSize mech.kind k' key' →
      CurveAllowed pp key → CurveAllowed pp key' → policyStoreObjectStrength pp key = true →
      policyStoreObjectStrength pp key' = true) ↔ GrowsWithSize pp mech.kind) :=
  ⟨fun _ _ _ hav hk hkey hcurve => agree_iff hmono hav hk hkey hcurve, grows_iff pp mech.kind⟩

/-- A strength configuration with one level only, of 256 bits. -/
def oneLevelCfg : List ConfigNode :=
  [.fileversion true, .idxstruct "strength" 256 [.intval "MOD_EXP" 15360, .intval "ECC" 512,
      .intval "SYMMETRIC" 256, .intval "digest" 512, .intval "signature" 1024]]

/-- A strength configuration with one level only, of 112 bits, and an odd threshold. -/
def oddThresholdCfg : List ConfigNode :=
  [.fileversion true, .idxstruct "strength" 112 [.intval "SYMMETRIC" 100]]

/-- The policy with a strength configuration and a required strength, and without any other
restriction. -/
def strengthPolicy (cfg : List ConfigNode) (reqstrength : UInt64) : PolicyPrivate where
  allowedmechs _ := true
  allowedcurves := none
  minstrengthidx := minstrengthidx reqstrength
  strengths := (policyLoadStrengthCfg cfg).getD []

/-- A policy with one level, and AES keys of 32 bytes. -/
theorem advertised_oneLevel :
    NonIncreasing (strengthPolicy oneLevelCfg 256) ∧
    ((Reported (fun _ _ _ _ => true) (strengthPolicy oneLevelCfg 256) .aesCbc ⟨16, 32, 0⟩ 32 ↔
        policyStoreObjectStrength (strengthPolicy oneLevelCfg 256) (.aes 32) = true) ↔
      SizesMatch (strengthPolicy oneLevelCfg 256) (Mechanism.kind .aesCbc) 32) := by
  have hlevel : ∀ i s, (strengthPolicy oneLevelCfg 256).level i = some s →
      s = ⟨15360, 512, 256, 512, 1024, true⟩ := by
    intro i s h
    have hall : ∀ s ∈ (strengthPolicy oneLevelCfg 256).strengths, s.set = true →
        s = ⟨15360, 512, 256, 512, 1024, true⟩ := by decide +kernel
    obtain ⟨hget, hset⟩ := Option.filter_eq_some_iff.mp h
    exact hall s (List.mem_of_getElem? hget) hset
  have hmono : NonIncreasing (strengthPolicy oneLevelCfg 256) := by
    intro i j s t _ hs ht ct
    rw [hlevel i s hs, hlevel j t ht]
    exact UInt64.le_refl _
  exact ⟨hmono, (advertised_iff_accepted_iff (fun _ _ _ _ => true) _ hmono .aesCbc).1 ⟨16, 32, 0⟩ 32
    (.aes 32) ⟨rfl, rfl⟩ ⟨by decide, by decide⟩ (.inl rfl) trivial⟩

/-- With a configuration of the 256 bit level only and a required strength of 128 bits, AES keys of
16 bytes are advertised and refused. With a threshold of 100 bits, AES keys of 12 bytes are. -/
theorem absent_level_advertised :
    policyLoadStrengthCfg oneLevelCfg ≠ none ∧
    policyUpdateMechInfo (fun _ _ _ _ => true) (strengthPolicy oneLevelCfg 128) .aesCbc
      ⟨16, 32, 0⟩ = some ⟨16, 32, 0⟩ ∧
    policyStoreObjectStrength (strengthPolicy oneLevelCfg 128) (.aes 16) = false ∧
    policyLoadStrengthCfg oddThresholdCfg ≠ none ∧
    policyUpdateMechInfo (fun _ _ _ _ => true) (strengthPolicy oddThresholdCfg 112) .aesCbc
      ⟨8, 32, 0⟩ = some ⟨12, 32, 0⟩ ∧
    policyStoreObjectStrength (strengthPolicy oddThresholdCfg 112) (.aes 12) = false := by
  decide +kernel

end OpenCryptoki.Proofs.Api
