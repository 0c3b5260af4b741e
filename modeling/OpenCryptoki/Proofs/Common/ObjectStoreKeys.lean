import OpenCryptoki.Common.ObjectStore
import OpenCryptoki.Lib.Run

/-!
# `OpenCryptoki.Proofs.Common.ObjectStoreKeys`: the keys and IVs of private objects

`KeysSound` says of a history of saves that every key that was used to seal was random or came out
of the file of the object, and that two plaintexts in renamed files that were sealed with the same
key and IV are the same.

* `store_keys_sound_iff`: if no random key comes twice, then all states of a history are sound
  exactly if the random numbers could be generated at every save that needed a new key and used
  it. The result of `rng_generate` is not looked at.
* `uninitialised_key`: a save that seals with a key that was never written.

The invariant `KeysInv` ties the counter in a file to the history: a key that a file has was used
only with smaller counters, and by that file only. So the next counter is new (`value_inc32`), and
so is every random key.
-/

set_option autoImplicit false

namespace OpenCryptoki.Proofs.Common

open OpenCryptoki.Common Lib

/-! ### The layout of a file -/

variable {off totalLen : Nat} {bytes file plain : List UInt8} {name : Vector UInt8 8} {io : SaveIo}
  {files : ObjectFiles} {s s' : StoreHistory} {call : SaveCall}

/-- The middle of three parts. -/
theorem slice_append_middle {as bs cs : List UInt8} {len : Nat} (ha : as.length = off)
    (hb : bs.length = len) : slice (as ++ (bs ++ cs)) off len = bs := by
  rw [slice, List.drop_left' ha, List.take_left' hb]

section Header

variable {v : ByteOrder} {k : ObjKey} (len : Nat) (rest : List UInt8)

/-- The wrapped key in a header. -/
theorem slice_privateHeader_wrapped (hw : k.wrapped.length = 40) :
    slice (privateHeader v k len ++ rest) 8 40 = k.wrapped := by
  have hsplit : privateHeader v k len ++ rest =
      (wordBytes v 4 TOK_NEW_DATA_STORE ++ [1] ++ [0, 0, 0]) ++
        (k.wrapped ++ (k.iv ++ (wordBytes v 4 len ++ rest))) := by
    simp only [privateHeader, List.append_assoc]
  rw [hsplit]
  exact slice_append_middle (by simp) hw

/-- The IV in a header. -/
theorem slice_privateHeader_iv (hw : k.wrapped.length = 40) (hi : k.iv.length = 12) :
    slice (privateHeader v k len ++ rest) 48 12 = k.iv := by
  have hsplit : privateHeader v k len ++ rest =
      (wordBytes v 4 TOK_NEW_DATA_STORE ++ [1] ++ [0, 0, 0] ++ k.wrapped) ++
        (k.iv ++ (wordBytes v 4 len ++ rest)) := by
    simp only [privateHeader, List.append_assoc]
  rw [hsplit]
  exact slice_append_middle (by simp [hw]) hi

/-- A header has its fixed length. -/
theorem length_privateHeader (hw : k.wrapped.length = 40) (hi : k.iv.length = 12) :
    (privateHeader v k len).length = HEADER_LEN := by
  simp [privateHeader, hw, hi, HEADER_LEN]

end Header

/-- A part of the first bytes of a file. -/
theorem slice_take {n len : Nat} (h : off + len ≤ n) :
    slice (bytes.take n) off len = slice bytes off len := by
  rw [slice, slice, List.drop_take, List.take_take, min_eq_left (by omega)]

/-- A slice without its first bytes. -/
theorem slice_drop (bytes : List UInt8) (off len n : Nat) :
    (slice bytes off len).drop n = slice bytes (off + n) (len - n) := by
  rw [slice, slice, List.drop_take, List.drop_drop]

/-! ### The counter -/

/-- The increment goes from the last byte to the first. -/
theorem inc32_cons (b : UInt8) (bs : List UInt8) :
    inc32 (b :: bs) = (UInt8.ofNat ((inc32 bs).2 + b.toNat) :: (inc32 bs).1,
      ((inc32 bs).2 + b.toNat) / 256) := rfl

/-- The increment keeps the length. -/
@[simp] theorem length_inc32 (bs : List UInt8) : (inc32 bs).1.length = bs.length := by
  induction bs with
  | nil => rfl
  | cons b bs ih => rw [inc32_cons, List.length_cons, List.length_cons, ih]

/-- The counter goes up by one, and the carry is what does not fit. -/
theorem value_inc32 (bs : List UInt8) :
    wordValue .big (inc32 bs).1 + 256 ^ bs.length * (inc32 bs).2 = wordValue .big bs + 1 := by
  induction bs with
  | nil => rfl
  | cons b bs ih =>
    have hcons : ∀ (x : UInt8) (xs : List UInt8),
        wordValue .big (x :: xs) = wordValue .big xs + 256 ^ xs.length * x.toNat := by
      intro x xs
      simp [wordValue, leValue_append, leValue]
    have hbyte : (UInt8.ofNat ((inc32 bs).2 + b.toNat)).toNat = ((inc32 bs).2 + b.toNat) % 256 :=
      rfl
    rw [inc32_cons, hcons, hcons, hbyte, length_inc32, List.length_cons, pow_succ]
    have hdiv := Nat.div_add_mod ((inc32 bs).2 + b.toNat) 256
    generalize ((inc32 bs).2 + b.toNat) / 256 = q at hdiv ⊢
    generalize ((inc32 bs).2 + b.toNat) % 256 = r at hdiv ⊢
    generalize 256 ^ bs.length = w at ih ⊢
    calc wordValue .big (inc32 bs).1 + w * r + w * 256 * q
        = wordValue .big (inc32 bs).1 + w * (256 * q + r) := by
          rw [mul_add, mul_assoc]
          omega
      _ = wordValue .big (inc32 bs).1 + w * (inc32 bs).2 + w * b.toNat := by
          rw [hdiv, mul_add]
          omega
      _ = wordValue .big bs + w * b.toNat + 1 := by omega

/-! ### The key of a save -/

/-- The counter of an IV. -/
def ivCounter (iv : List UInt8) : Nat := wordValue .big (iv.drop 8)

variable {c : StoreCrypto} {masterKey : Aes256Key}

/-- A save needs a new key: there is no file, or an empty one, or its counter overflows. -/
def NeedsNewKey (files : ObjectFiles) (name : Vector UInt8 8) (totalLen : Nat) (io : SaveIo) :
    Prop :=
  match if io.openOld then files (fileName name) else none with
  | none => True
  | some file => io.fstat = true ∧ (file.length = 0 ∨
      min HEADER_LEN file.length ≤ totalLen ∧ io.fread = true ∧ HEADER_LEN ≤ file.length ∧
        (inc32 (slice file 56 4)).2 ≠ 0)

/-- A new key. -/
structure NewKey (c : StoreCrypto) (masterKey : Aes256Key) (name : Vector UInt8 8) (io : SaveIo)
    (k : ObjKey) : Prop where
  wrap : io.wrap = none
  key : io.rng = some k.key ∧ k.source = .random ∨ io.rng = none ∧ k.source = .uninitialised
  iv : k.iv = name.toList ++ [0, 0, 0, 1]
  wrapped : k.wrapped = c.aes256Wrap masterKey k.key

/-- The key in a file, with the next IV. -/
structure FileKey (c : StoreCrypto) (masterKey : Aes256Key) (file : List UInt8) (k : ObjKey) :
    Prop where
  length : HEADER_LEN ≤ file.length
  key : c.aes256Unwrap masterKey (slice file 8 40) = .ok k.key
  source : k.source = .unwrapped
  wrapped : k.wrapped = slice file 8 40
  iv : k.iv = (slice file 48 12).take 8 ++ (inc32 (slice file 56 4)).1
  carry : (inc32 (slice file 56 4)).2 = 0

/-- A key that was made anew. -/
theorem newObjKey_cases {k : ObjKey} (h : newObjKey c masterKey name io = .ok k) :
    NewKey c masterKey name io k := by
  unfold newObjKey at h
  cases hwrap : io.wrap with
  | some e => simp [hwrap] at h
  | none =>
    cases hrng : io.rng with
    | some key =>
      simp only [hrng, hwrap, Except.ok.injEq] at h
      subst h
      exact ⟨hwrap, .inl ⟨hrng, rfl⟩, rfl, rfl⟩
    | none =>
      simp only [hrng, hwrap, Except.ok.injEq] at h
      subst h
      exact ⟨hwrap, .inr ⟨hrng, rfl⟩, rfl, rfl⟩

/-- A new key is not refused if it can be wrapped. -/
theorem newObjKey_ok (c : StoreCrypto) (masterKey : Aes256Key) (name : Vector UInt8 8)
    (h : io.wrap = none) :
    ∃ k, newObjKey c masterKey name io = .ok k := by
  unfold newObjKey
  rw [h]
  exact ⟨_, rfl⟩

/-- The key of a file, or a new one if its counter is used up. -/
theorem oldObjKey_cases {k : ObjKey} (hlen : HEADER_LEN ≤ file.length)
    (h : oldObjKey c masterKey name (file.take HEADER_LEN) io = .ok k) :
    (inc32 (slice file 56 4)).2 ≠ 0 ∧ newObjKey c masterKey name io = .ok k ∨
      FileKey c masterKey file k := by
  have hiv : slice (file.take HEADER_LEN) 48 12 = slice file 48 12 := slice_take (by decide)
  have hkey : slice (file.take HEADER_LEN) 8 40 = slice file 8 40 := slice_take (by decide)
  have hctr : (slice file 48 12).drop 8 = slice file 56 4 := slice_drop file 48 12 8
  unfold oldObjKey at h
  simp only [hiv, hkey, hctr] at h
  split at h
  · rename_i hcarry
    exact .inl ⟨hcarry, h⟩
  · rename_i hcarry
    cases hun : io.unwrap with
    | some e => simp [hun] at h
    | none =>
      cases hk : c.aes256Unwrap masterKey (slice file 8 40) with
      | error e => simp [hun, hk] at h
      | ok key =>
        simp only [hun, hk, Except.ok.injEq] at h
        subst h
        exact .inr ⟨hlen, hk, rfl, rfl, rfl, not_not.mp hcarry⟩

/-- A save has a new key if it needs one, and otherwise the key in the file. -/
theorem objKey_cases {k : ObjKey} (h : objKey c masterKey files name totalLen io = .ok k) :
    NeedsNewKey files name totalLen io ∧ NewKey c masterKey name io k ∨
      ∃ file, files (fileName name) = some file ∧ FileKey c masterKey file k := by
  unfold objKey at h
  unfold NeedsNewKey
  cases hold : if io.openOld then files (fileName name) else none with
  | none =>
    rw [hold] at h
    exact .inl ⟨trivial, newObjKey_cases h⟩
  | some file =>
    rw [hold] at h
    dsimp only at h ⊢
    have hfile : files (fileName name) = some file := by
      cases hopen : io.openOld <;> simp_all
    obtain ⟨hstat, h⟩ := ite_error_left_eq_ok.mp h
    split at h
    · rename_i hempty
      exact .inl ⟨⟨Bool.eq_true_of_not_eq_false hstat, .inl hempty⟩, newObjKey_cases h⟩
    · obtain ⟨hroom, h⟩ := ite_error_left_eq_ok.mp h
      obtain ⟨hread, h⟩ := ite_error_right_eq_ok.mp h
      simp only [Bool.and_eq_true, decide_eq_true_eq] at hread
      rcases oldObjKey_cases hread.2 h with ⟨hcarry, hnew⟩ | hkey
      · refine .inl ⟨⟨Bool.eq_true_of_not_eq_false hstat, .inr ⟨not_lt.mp hroom,
          hread.1, hread.2, hcarry⟩⟩, newObjKey_cases hnew⟩
      · exact .inr ⟨file, hfile, hkey⟩

/-- A save that needs a new key has one if it can be wrapped. -/
theorem objKey_of_needsNewKey (c : StoreCrypto) (masterKey : Aes256Key)
    (h : NeedsNewKey files name totalLen io) (hwrap : io.wrap = none) :
    ∃ k, objKey c masterKey files name totalLen io = .ok k ∧ NewKey c masterKey name io k := by
  obtain ⟨k, hk⟩ := newObjKey_ok c masterKey name hwrap
  refine ⟨k, ?_, newObjKey_cases hk⟩
  unfold objKey
  unfold NeedsNewKey at h
  cases hold : if io.openOld then files (fileName name) else none with
  | none => exact hk
  | some file =>
    rw [hold] at h
    dsimp only at h ⊢
    obtain ⟨hstat, hempty | ⟨hroom, hread, hlen, hcarry⟩⟩ := h
    · rw [if_neg (by simp [hstat]), if_pos hempty, hk]
    · have hne : file.length ≠ 0 := by
        have : 0 < HEADER_LEN := by decide
        omega
      have hiv : slice (file.take HEADER_LEN) 48 12 = slice file 48 12 := slice_take (by decide)
      have hctr : (slice file 48 12).drop 8 = slice file 56 4 := slice_drop file 48 12 8
      rw [if_neg (by simp [hstat]), if_neg hne, if_neg hroom.not_gt,
        if_pos (by simp [hread, hlen]), oldObjKey]
      simp only [hiv, hctr]
      rw [if_pos hcarry, hk]

/-! ### One save -/

variable {o : ByteOrder}

/-- The low 32 bits of a length. -/
def len32 (len : Nat) : Nat := len % 2 ^ 32

/-- The size of the buffer for the file. -/
def bufferLen (len : Nat) : Nat := (HEADER_LEN + len32 len + FOOTER_LEN) % 2 ^ 32

/-- The save got to `aes_256_gcm_seal`. -/
structure Seals (c : StoreCrypto) (masterKey : Aes256Key) (o : ByteOrder) (files : ObjectFiles)
    (call : SaveCall) (k : ObjKey) (data : List UInt8) (len : Nat) : Prop where
  flatten : objectFlatten o call.obj = some (data, len)
  malloc : call.io.malloc = true
  key : objKey c masterKey files call.obj.name (bufferLen len) call.io = .ok k
  room : HEADER_LEN + len32 len + FOOTER_LEN ≤ bufferLen len

/-- Replacing a file does not fault. -/
theorem replaceFile_ne_fault (files : ObjectFiles) (name : Vector UInt8 8) (data : List UInt8)
    (io : SaveIo) : replaceFile files name data io ≠ .error .fault := by
  unfold replaceFile
  split
  · exact nofun
  · split
    · exact nofun
    · split
      all_goals exact nofun

/-- Sealing and writing does not fault. -/
theorem sealAndWrite_ne_fault (files : ObjectFiles) (name : Vector UInt8 8) (k : ObjKey)
    (plain : List UInt8) (io : SaveIo) : sealAndWrite c files name k plain io ≠ .error .fault := by
  unfold sealAndWrite
  split
  · exact nofun
  · split
    · exact nofun
    · exact replaceFile_ne_fault files name _ io

/-- A file has the first bytes of what was written to it. -/
theorem closedFile_eq_take (fclose : Option Nat) (data : List UInt8) :
    ∃ n, closedFile fclose data = data.take n := by
  cases fclose with
  | none => exact ⟨data.length, data.take_length.symm⟩
  | some n => exact ⟨n, rfl⟩

/-- What a successful call has written, up to what `fclose` left of it. -/
theorem sealAndWrite_ok {new : ObjectFiles} {k : ObjKey}
    (h : sealAndWrite c files name k plain io = .ok new) :
    ∃ n rest, new = Function.update files (fileName name)
      (some ((privateHeader .big k plain.length ++ rest).take n)) := by
  unfold sealAndWrite at h
  split at h
  · cases h
  · split at h
    · cases h
    · unfold replaceFile at h
      split at h
      · cases h
      · split at h
        · cases h
        · split at h
          · cases h
            rw [List.append_assoc]
            exact (closedFile_eq_take io.fclose _).imp fun n hn => ⟨_, by rw [hn]⟩
          · cases h

/-- What a save that seals does to the history: the sealing is recorded, and if the file was renamed
it is stored. -/
structure Recorded (s s' : StoreHistory) (call : SaveCall) (k : ObjKey) (plain : List UInt8) :
    Prop where
  drawn : s'.drawn = s.drawn ++ call.io.rng.toList
  used : s'.used = s.used ++ [⟨k.key, k.source, k.iv, plain⟩]
  stored : s'.files = s.files ∧ s'.stored = s.stored ∨
    s'.stored = s.stored ++ [⟨k.key, k.source, k.iv, plain⟩] ∧
      ∃ n rest, s'.files = Function.update s.files (fileName call.obj.name)
        (some ((privateHeader .big k plain.length ++ rest).take n))

/-- A save that seals records what it has sealed. -/
theorem storeStep_of_seals {k : ObjKey} {data : List UInt8} {len : Nat}
    (h : Seals c masterKey o s.files call k data len) :
    ∃ s', s.step c masterKey o call = some s' ∧ Recorded s s' call k (data.take (len32 len)) := by
  have hkey := h.key
  have hroom := h.room.not_gt
  unfold bufferLen len32 at hkey hroom
  unfold StoreHistory.step savePrivateTokenObject savePrivateData
  simp only [h.flatten, h.malloc, hkey, if_neg hroom, Bool.true_eq_false, if_false]
  rw [← len32]
  cases hwrite : sealAndWrite c s.files call.obj.name k (data.take (len32 len)) call.io with
  | error e =>
    cases e with
    | fault => exact absurd hwrite (sealAndWrite_ne_fault _ _ _ _ _)
    | rc rc => exact ⟨_, rfl, ⟨rfl, rfl, .inl ⟨rfl, rfl⟩⟩⟩
  | ok new => exact ⟨_, rfl, ⟨rfl, rfl, .inr ⟨rfl, sealAndWrite_ok hwrite⟩⟩⟩

/-- A save without a key may lose the file of the object. -/
theorem eq_some_of_filesWithoutKey {n : List UInt8}
    (h : filesWithoutKey files name io n = some file) : files n = some file := by
  unfold filesWithoutKey at h
  split at h
  · by_cases hn : n = fileName name
    · rw [hn, Function.update_self] at h
      cases h
    · rwa [Function.update_of_ne hn] at h
  · exact h

/-- A save seals, or it only draws a random key and may lose a file. -/
theorem storeStep_cases (h : s.step c masterKey o call = some s') :
    (∃ files, s' = { s with files := files, drawn := s.drawn ++ call.io.rng.toList } ∧
        ∀ n file, files n = some file → s.files n = some file) ∨
      ∃ k data len, Seals c masterKey o s.files call k data len := by
  unfold StoreHistory.step savePrivateTokenObject at h
  cases hflat : objectFlatten o call.obj with
  | none => simp [hflat] at h
  | some p =>
    obtain ⟨data, len⟩ := p
    simp only [hflat, savePrivateData] at h
    cases hmalloc : call.io.malloc with
    | false =>
      simp only [hmalloc, if_true, Option.toList_none, List.append_nil, Option.some.injEq] at h
      exact .inl ⟨s.files, h.symm, fun _ _ h => h⟩
    | true =>
      simp only [hmalloc, Bool.true_eq_false, if_false] at h
      cases hkey : objKey c masterKey s.files call.obj.name (bufferLen len) call.io with
      | error e =>
        unfold bufferLen len32 at hkey
        simp only [hkey] at h
        cases e with
        | fault => cases h
        | rc rc =>
          simp only [Option.toList_none, List.append_nil, Option.some.injEq] at h
          exact .inl ⟨_, h.symm, fun _ _ => eq_some_of_filesWithoutKey⟩
      | ok k =>
        by_cases hroom : HEADER_LEN + len32 len + FOOTER_LEN ≤ bufferLen len
        · exact .inr ⟨k, data, len, hflat, hmalloc, hkey, hroom⟩
        · unfold bufferLen len32 at hkey hroom
          simp only [hkey, if_pos (not_le.mp hroom)] at h
          cases h

/-! ### Histories -/

/-- Every key that was used was random or unwrapped, and no two plaintexts in renamed files have the
same key and IV. -/
structure KeysSound (s : StoreHistory) : Prop where
  sources : ∀ e ∈ s.used, e.source ≠ .uninitialised
  unique : ∀ a ∈ s.stored, ∀ b ∈ s.stored, a.key = b.key → a.iv = b.iv → a.plain = b.plain

/-- A random key is a new one. -/
def FreshKey (s : StoreHistory) (call : SaveCall) : Prop :=
  ∀ key, call.io.rng = some key → key ∉ s.drawn

/-- The random numbers can be generated if the save needs a new key and gets to use it. -/
def KeyGenerated (o : ByteOrder) (s : StoreHistory) (call : SaveCall) : Prop :=
  ∀ data len, objectFlatten o call.obj = some (data, len) → call.io.malloc = true →
    NeedsNewKey s.files call.obj.name (bufferLen len) call.io → call.io.wrap = none →
    HEADER_LEN + len32 len + FOOTER_LEN ≤ bufferLen len → call.io.rng ≠ none

/-- The key in a file. -/
def HasKey (c : StoreCrypto) (masterKey : Aes256Key) (s : StoreHistory) (name : List UInt8)
    (key : Aes256Key) (counter : Nat) : Prop :=
  ∃ file, s.files name = some file ∧ HEADER_LEN ≤ file.length ∧
    c.aes256Unwrap masterKey (slice file 8 40) = .ok key ∧ ivCounter (slice file 48 12) = counter

/-- What ties the files to the history. -/
structure KeysInv (c : StoreCrypto) (masterKey : Aes256Key) (s : StoreHistory) : Prop where
  sources : ∀ e ∈ s.used, e.source ≠ .uninitialised
  stored : ∀ e ∈ s.stored, e.key ∈ s.drawn
  files : ∀ name key counter, HasKey c masterKey s name key counter → key ∈ s.drawn ∧
    ∀ e ∈ s.stored, e.key = key → ivCounter e.iv ≤ counter
  owner : ∀ name name' key counter counter', HasKey c masterKey s name key counter →
    HasKey c masterKey s name' key counter' → name = name'
  nodup : (s.stored.map fun e => (e.key, e.iv)).Nodup

section
variable (h : KeysInv c masterKey s)
include h

/-- The invariant makes a history sound. -/
theorem keysSound_of_inv : KeysSound s := by
  refine ⟨h.sources, fun a ha b hb hkey hiv => ?_⟩
  have hab : a = b := List.inj_on_of_nodup_map h.nodup ha hb (by rw [hkey, hiv])
  rw [hab]

omit h in
/-- A slice inside the bytes has its length. -/
theorem length_slice {len : Nat} (h : off + len ≤ bytes.length) :
    (slice bytes off len).length = len := by
  rw [slice, List.length_take, List.length_drop]
  omega

/-- A key that can be used next for an object: it is the key of no other file, and it was used with
smaller counters only. -/
structure NextKey (c : StoreCrypto) (masterKey : Aes256Key) (s : StoreHistory) (name : List UInt8)
    (drawn : List Aes256Key) (k : ObjKey) : Prop where
  source : k.source ≠ .uninitialised
  drawn : k.key ∈ drawn
  counter : ∀ e ∈ s.stored, e.key = k.key → ivCounter e.iv < ivCounter k.iv
  owner : ∀ name' counter, HasKey c masterKey s name' k.key counter → name' = name
  wrapped : c.aes256Unwrap masterKey k.wrapped = .ok k.key
  length_wrapped : k.wrapped.length = 40
  length_iv : k.iv.length = 12

variable {k : ObjKey}

/-- A random key is a next key. -/
theorem nextKey_new (hk : NewKey c masterKey name io k) (hrng : io.rng ≠ none)
    (hfresh : ∀ key, io.rng = some key → key ∉ s.drawn) :
    NextKey c masterKey s (fileName name) (s.drawn ++ io.rng.toList) k := by
  obtain ⟨hkey, hsource⟩ | ⟨hnone, -⟩ := hk.key
  · have hnew : k.key ∉ s.drawn := hfresh k.key hkey
    refine ⟨?_, ?_, fun e he heq => ?_, fun name' counter hhas => ?_, ?_, ?_, ?_⟩
    · rw [hsource]
      exact KeySource.noConfusion
    · simp [hkey]
    · exact absurd (heq ▸ h.stored e he) hnew
    · exact absurd (h.files _ _ _ hhas).1 hnew
    · rw [hk.wrapped, c.unwrap_wrap]
    · rw [hk.wrapped, c.length_wrap]
    · simp [hk.iv]
  · exact absurd hnone hrng

/-- The key of a file, with the incremented IV, is a next key. -/
theorem nextKey_file {name : List UInt8} (hfile : s.files name = some file)
    (hk : FileKey c masterKey file k) (drawn : List Aes256Key) :
    NextKey c masterKey s name (s.drawn ++ drawn) k := by
  have hlen : 64 ≤ file.length := hk.length
  have htake : ((slice file 48 12).take 8).length = 8 := by
    rw [List.length_take, length_slice (by omega)]
    rfl
  have hold : ivCounter (slice file 48 12) = wordValue .big (slice file 56 4) := by
    rw [ivCounter, slice_drop]
  have hnext : ivCounter k.iv = ivCounter (slice file 48 12) + 1 := by
    have hinc := value_inc32 (slice file 56 4)
    rw [hk.carry] at hinc
    rw [hold, ivCounter, hk.iv, List.drop_left' htake]
    omega
  have hhas : HasKey c masterKey s name k.key (ivCounter (slice file 48 12)) :=
    ⟨file, hfile, hk.length, hk.key, rfl⟩
  refine ⟨?_, ?_, fun e he heq => ?_, fun name' counter hhas' => ?_, ?_, ?_, ?_⟩
  · rw [hk.source]
    exact KeySource.noConfusion
  · exact List.mem_append_left _ (h.files _ _ _ hhas).1
  · have := (h.files _ _ _ hhas).2 e he heq
    omega
  · exact h.owner _ _ _ _ _ hhas' hhas
  · rw [hk.wrapped, hk.key]
  · rw [hk.wrapped, length_slice (by omega)]
  · rw [hk.iv, List.length_append, htake, length_inc32, length_slice (by omega)]

omit h in
/-- The keys of the files after a file was replaced. -/
theorem hasKey_update {name name' rest : List UInt8} {key : Aes256Key} {counter len n : Nat}
    {drawn : List Aes256Key} (hk : NextKey c masterKey s name drawn k)
    (hfiles : s'.files = Function.update s.files name
      (some ((privateHeader .big k len ++ rest).take n)))
    (h : HasKey c masterKey s' name' key counter) :
    name' = name ∧ key = k.key ∧ counter = ivCounter k.iv ∨
      name' ≠ name ∧ HasKey c masterKey s name' key counter := by
  obtain ⟨file, hfile, hlen, hkey, hcounter⟩ := h
  rw [hfiles] at hfile
  by_cases hname : name' = name
  · rw [hname, Function.update_self, Option.some.injEq] at hfile
    -- the file was not cut off in its header
    have hn : 64 ≤ n := by
      rw [← hfile, List.length_take] at hlen
      exact hlen.trans (min_le_left _ _)
    rw [← hfile, slice_take (by omega),
      slice_privateHeader_wrapped len rest hk.length_wrapped, hk.wrapped] at hkey
    rw [← hfile, slice_take (by omega),
      slice_privateHeader_iv len rest hk.length_wrapped hk.length_iv] at hcounter
    exact .inl ⟨hname, (Except.ok.inj hkey).symm, hcounter.symm⟩
  · rw [Function.update_of_ne hname] at hfile
    exact .inr ⟨hname, file, hfile, hlen, hkey, hcounter⟩

/-- Recording a sealing under a next key keeps the invariant. -/
theorem keysInv_recorded (hrec : Recorded s s' call k plain)
    (hk : NextKey c masterKey s (fileName call.obj.name) s'.drawn k) : KeysInv c masterKey s' := by
  have hdrawn : ∀ key ∈ s.drawn, key ∈ s'.drawn := fun key hkey => by
    rw [hrec.drawn]
    exact List.mem_append_left _ hkey
  have hsources : ∀ e ∈ s'.used, e.source ≠ .uninitialised := by
    intro e he
    rw [hrec.used] at he
    rcases List.mem_append.mp he with he | he
    · exact h.sources e he
    · rw [List.mem_singleton.mp he]
      exact hk.source
  rcases hrec.stored with ⟨hfiles, hstored⟩ | ⟨hstored, n, rest, hfiles⟩
  · -- the file was not replaced
    refine ⟨hsources, fun e he => ?_, fun name key counter hhas => ?_,
      fun name name' key counter counter' hhas hhas' => ?_, ?_⟩
    · rw [hstored] at he
      exact hdrawn _ (h.stored e he)
    · rw [HasKey, hfiles] at hhas
      rw [hstored]
      exact ⟨hdrawn _ (h.files name key counter hhas).1, (h.files name key counter hhas).2⟩
    · rw [HasKey, hfiles] at hhas hhas'
      exact h.owner name name' key counter counter' hhas hhas'
    · rw [hstored]
      exact h.nodup
  · refine ⟨hsources, fun e he => ?_, fun name key counter hhas => ?_,
      fun name name' key counter counter' hhas hhas' => ?_, ?_⟩
    · rw [hstored] at he
      rcases List.mem_append.mp he with he | he
      · exact hdrawn _ (h.stored e he)
      · rw [List.mem_singleton.mp he]
        exact hk.drawn
    · rw [hstored]
      rcases hasKey_update hk hfiles hhas with ⟨-, rfl, rfl⟩ | ⟨hne, hhas⟩
      · refine ⟨hk.drawn, fun e he heq => ?_⟩
        rcases List.mem_append.mp he with he | he
        · exact le_of_lt (hk.counter e he heq)
        · rw [List.mem_singleton.mp he]
      · refine ⟨hdrawn _ (h.files name key counter hhas).1, fun e he heq => ?_⟩
        rcases List.mem_append.mp he with he | he
        · exact (h.files name key counter hhas).2 e he heq
        · rw [List.mem_singleton.mp he] at heq
          subst heq
          exact absurd (hk.owner name counter hhas) hne
    · rcases hasKey_update hk hfiles hhas with ⟨rfl, rfl, -⟩ | ⟨hne, hhas⟩
      · rcases hasKey_update hk hfiles hhas' with ⟨rfl, -⟩ | ⟨-, hhas'⟩
        · rfl
        · exact (hk.owner name' counter' hhas').symm
      · rcases hasKey_update hk hfiles hhas' with ⟨rfl, rfl, -⟩ | ⟨-, hhas'⟩
        · exact hk.owner name counter hhas
        · exact h.owner name name' key counter counter' hhas hhas'
    · rw [hstored, List.map_append]
      refine List.Nodup.append h.nodup (List.nodup_singleton _) (List.disjoint_singleton.mpr ?_)
      intro hmem
      obtain ⟨e, he, heq⟩ := List.mem_map.mp hmem
      have hpair := Prod.mk.inj heq
      have hlt := hk.counter e he hpair.1
      rw [hpair.2] at hlt
      exact hlt.false

/-- A save that can generate its key keeps the invariant. -/
theorem keysInv_step (hfresh : FreshKey s call) (hgen : KeyGenerated o s call)
    (hstep : s.step c masterKey o call = some s') :
    KeysInv c masterKey s' := by
  rcases storeStep_cases hstep with ⟨files, rfl, hfiles⟩ | ⟨k, data, len, hseals⟩
  · have hold : ∀ {name key counter}, HasKey c masterKey
        { s with files := files, drawn := s.drawn ++ call.io.rng.toList } name key counter →
        HasKey c masterKey s name key counter :=
      fun ⟨file, hfile, hrest⟩ => ⟨file, hfiles _ _ hfile, hrest⟩
    exact ⟨h.sources, fun e he => List.mem_append_left _ (h.stored e he), fun name key counter hh =>
      ⟨List.mem_append_left _ (h.files name key counter (hold hh)).1,
        (h.files name key counter (hold hh)).2⟩,
      fun name name' key counter counter' hh hh' => h.owner _ _ _ _ _ (hold hh) (hold hh'), h.nodup⟩
  · obtain ⟨s'', hs'', hrec⟩ := storeStep_of_seals hseals
    rw [hstep, Option.some.injEq] at hs''
    subst hs''
    refine keysInv_recorded h hrec ?_
    rw [hrec.drawn]
    rcases objKey_cases hseals.key with ⟨hneeds, hnew⟩ | ⟨file, hfile, hkey⟩
    · have hrng := hgen data len hseals.flatten hseals.malloc hneeds hnew.wrap hseals.room
      exact nextKey_new h hnew hrng hfresh
    · exact nextKey_file h hfile hkey _

end

/-- A save that seals with a key that was never written is recorded. -/
theorem keyGenerated_of_sound (hstep : s.step c masterKey o call = some s')
    (hsound : KeysSound s') :
    KeyGenerated o s call := by
  intro data len hflat hmalloc hneeds hwrap hroom hnone
  obtain ⟨k, hkey, hnew⟩ := objKey_of_needsNewKey c masterKey hneeds hwrap
  obtain ⟨s'', hs'', hrec⟩ := storeStep_of_seals ⟨hflat, hmalloc, hkey, hroom⟩
  rw [hstep, Option.some.injEq] at hs''
  subst hs''
  have hsource := hsound.sources ⟨k.key, k.source, k.iv, data.take (len32 len)⟩
    (by simp [hrec.used])
  rcases hnew.key with ⟨hsome, -⟩ | ⟨-, huninit⟩
  · rw [hnone] at hsome
    cases hsome
  · exact hsource huninit

/-- A save that faults does not get to use a key. -/
theorem keyGenerated_of_fault (hstep : s.step c masterKey o call = none) :
    KeyGenerated o s call := by
  intro data len hflat hmalloc hneeds hwrap hroom
  obtain ⟨k, hkey, -⟩ := objKey_of_needsNewKey c masterKey hneeds hwrap
  obtain ⟨s', hs', -⟩ := storeStep_of_seals ⟨hflat, hmalloc, hkey, hroom⟩
  rw [hstep] at hs'
  cases hs'

/-- The invariant holds before the first save. -/
theorem keysInv_init (c : StoreCrypto) (masterKey : Aes256Key) (names : List UInt8 → Bool) :
    KeysInv c masterKey (StoreHistory.init names) := by
  have hnone : ∀ name key counter,
    ¬ HasKey c masterKey (StoreHistory.init names) name key counter := by
    rintro name key counter ⟨file, hfile, hlen, -⟩
    simp only [StoreHistory.init] at hfile
    split at hfile
    · cases hfile
      exact absurd hlen (by decide)
    · cases hfile
  exact ⟨fun e he => absurd he List.not_mem_nil, fun e he => absurd he List.not_mem_nil,
    fun _ _ _ h => absurd h (hnone _ _ _), fun _ _ _ _ _ h => absurd h (hnone _ _ _),
    List.nodup_nil⟩

/-- If no random key comes twice, every state of a history of saves is sound exactly if the random
numbers could be generated at every save that needed a new key and used it. -/
theorem store_keys_sound_iff (c : StoreCrypto) (masterKey : Aes256Key) (o : ByteOrder)
    (names : List UInt8 → Bool) (calls : List SaveCall)
    (hfresh : Guarded (StoreHistory.step c masterKey o) FreshKey (StoreHistory.init names) calls) :
    (∀ s ∈ trace (StoreHistory.step c masterKey o) (StoreHistory.init names) calls, KeysSound s) ↔
      Guarded (StoreHistory.step c masterKey o) (KeyGenerated o) (StoreHistory.init names) calls :=
  forall_trace_iff_of_invariant (fun _ => keysSound_of_inv) (fun _ _ => keyGenerated_of_fault)
    (fun _ _ _ => keysInv_step) (fun _ _ _ _ _ => keyGenerated_of_sound)
    (keysInv_init c masterKey names) hfresh

/-- Functions that keep the laws: a wrapped key is the key with zeros, and a seal is the plaintext
with a tag of zeros. -/
def openCrypto : StoreCrypto where
  aes256Wrap _ key := key.toList ++ List.replicate 8 0
  aes256Unwrap _ wrapped := .ok (Vector.ofFn fun i => wrapped.getD i 0)
  sealMax := 2 ^ 31 - 1
  aes256GcmSeal _ _ _ plain := (plain, List.replicate 16 0)
  aes256GcmUnseal _ _ _ cipher _ := .ok cipher
  length_wrap := fun _ key => by
    rw [List.length_append, Vector.length_toList, List.length_replicate]
  unwrap_wrap := by
    intro kek key
    refine congrArg Except.ok (Vector.ext fun i hi => ?_)
    rw [Vector.getElem_ofFn, List.getD_append _ _ _ _ (by simpa using hi),
      List.getD_eq_getElem _ _ (by simpa using hi), Vector.getElem_toList]
  length_seal := fun _ _ _ _ => ⟨rfl, List.length_replicate⟩
  unseal_seal := fun _ _ _ _ => rfl

/-- An object without attributes. -/
def emptyObject : CkObject := ⟨3, Vector.replicate 8 65, []⟩

/-- All calls of a save succeed, except that there may be no random numbers. -/
def saveIo (rng : Option Aes256Key) : SaveIo where
  malloc := true
  openOld := true
  fstat := true
  fread := true
  unwrap := none
  rng := rng
  uninit := Vector.replicate 32 0
  wrap := none
  gcm := none
  openNew := true
  perm := none
  fwrite := true
  fclose := none
  rename := true
  remove := true
  index := none

/-- Two saves of an object, each with a random key at hand. -/
def twoSaves : List SaveCall :=
  [⟨emptyObject, saveIo (some (Vector.replicate 32 1))⟩,
    ⟨emptyObject, saveIo (some (Vector.replicate 32 2))⟩]

/-- An object is created and changed. -/
theorem store_keys_sound_update :
    Guarded (StoreHistory.step openCrypto (Vector.replicate 32 9) .little) FreshKey
        (StoreHistory.init fun _ => false) twoSaves ∧
      ∀ s ∈ trace (StoreHistory.step openCrypto (Vector.replicate 32 9) .little)
        (StoreHistory.init fun _ => false) twoSaves, KeysSound s := by
  have hfresh : Guarded (StoreHistory.step openCrypto (Vector.replicate 32 9) .little) FreshKey
      (StoreHistory.init fun _ => false) twoSaves := by
    refine ⟨fun key _ => List.not_mem_nil, fun s hs => ⟨fun key hkey => ?_, fun _ _ => trivial⟩⟩
    cases hs
    cases hkey
    decide
  refine ⟨hfresh, ?_⟩
  refine (store_keys_sound_iff openCrypto (Vector.replicate 32 9) .little _ _ hfresh).mpr ?_
  refine guarded_of_mem fun call hcall s data len _ _ _ _ _ => ?_
  simp only [twoSaves, List.mem_cons, List.not_mem_nil, or_false] at hcall
  rcases hcall with rfl | rfl
  all_goals exact Option.some_ne_none _

/-- An object is created when there are no random numbers. -/
theorem uninitialised_key :
    Guarded (StoreHistory.step openCrypto (Vector.replicate 32 9) .little) FreshKey
        (StoreHistory.init fun _ => false) [⟨emptyObject, saveIo none⟩] ∧
      ¬ ∀ s ∈ trace (StoreHistory.step openCrypto (Vector.replicate 32 9) .little)
          (StoreHistory.init fun _ => false) [⟨emptyObject, saveIo none⟩], KeysSound s := by
  refine ⟨⟨fun key hkey => absurd hkey.symm (Option.some_ne_none key), fun _ _ => trivial⟩,
    fun h => ?_⟩
  have hsound := h _ (mem_trace_of_exec rfl)
  exact hsound.sources _ List.mem_cons_self rfl

end OpenCryptoki.Proofs.Common
