import OpenCryptoki.Common.Template

/-!
# `OpenCryptoki.Common.Reencipher`: re-enciphering a secure key

`obj_mgr_reencipher_secure_key` and its finalize and cancel steps (`obj_mgr.c`), with the parts of
`object_mgr_check_shm` and `object_mgr_save_token_object` that they need.

A template is a map from attribute types to values: `template_update_attribute` and
`template_remove_attribute` keep at most one attribute of a type. A token object exists twice, in
the memory of the process and in the object store, and each copy has a count. The copy in memory is
taken to be current when the counts agree. The count in the shared memory is shorter than the one in
the object.

A step can fail at several places. `FailPoint` names them, and a step is given the place at which it
fails this time, if any. The re-encipher function of the token is an arbitrary function that keeps
the length.
-/

set_option autoImplicit false

namespace OpenCryptoki.Common

open Lib

def CKA_IBM_OPAQUE : Nat := CKA_VENDOR_DEFINED + 1
def CKA_IBM_OPAQUE_REENC : Nat := CKA_VENDOR_DEFINED + 3
def CKA_IBM_OPAQUE_OLD : Nat := CKA_VENDOR_DEFINED + 4

def CKK_AES_XTS : Nat := 0x35

/-- The attributes of a template. -/
abbrev AttrMap := Nat → Option (List UInt8)

/-- `template_update_attribute`. -/
def AttrMap.update (m : AttrMap) (type : Nat) (value : List UInt8) : AttrMap :=
  Function.update m type (some value)

/-- `template_remove_attribute`. -/
def AttrMap.remove (m : AttrMap) (type : Nat) : AttrMap := Function.update m type none

/-- `template_attribute_get_ulong` of `CKA_KEY_TYPE`. -/
def AttrMap.keyType (m : AttrMap) (order : ByteOrder) : Option Nat :=
  (m CKA_KEY_TYPE).bind fun value =>
    if value.length = SIZEOF_CK_ULONG then some (wordValue order value) else none

/-- The count of a token object. `count_hi` and `count_lo` of an `OBJECT` are `CK_ULONG`s. -/
structure ObjCount where
  hi : UInt64
  lo : UInt64
  deriving DecidableEq

/-- `count_lo++`, with the carry to `count_hi`. -/
def ObjCount.next (c : ObjCount) : ObjCount :=
  ⟨if c.lo + 1 = 0 then c.hi + 1 else c.hi, c.lo + 1⟩

/-- What a `TOK_OBJ_ENTRY` keeps of a count: its members are `CK_ULONG_32`s. -/
def ObjCount.entry (c : ObjCount) : ObjCount :=
  ⟨c.hi.toUInt32.toUInt64, c.lo.toUInt32.toUInt64⟩

/-- A key object. For a token object, `stored` is what the object store has and `entryCount` is the
count in the shared memory. -/
structure SecureKey where
  isToken : Bool
  tmpl : AttrMap
  count : ObjCount
  stored : AttrMap
  entryCount : ObjCount
  /-- The object file is gone. -/
  removed : Bool

/-- Where a step fails. -/
inductive FailPoint
  /-- `object_mgr_check_shm` fails. -/
  | check (f : ErrorRv)
  /-- The re-encipher function fails. -/
  | reenc (f : ErrorRv)
  /-- `build_attribute` of `CKA_IBM_OPAQUE_OLD` has no memory. -/
  | buildOld
  /-- `template_update_attribute` of `CKA_IBM_OPAQUE_OLD` has no memory for the list node. -/
  | insertOld
  /-- `build_attribute` of the attribute with the new blob has no memory. -/
  | build
  /-- `template_update_attribute` of the attribute with the new blob has no memory for the list
  node. -/
  | insert
  /-- `object_mgr_save_token_object` fails before the file is replaced. -/
  | save (f : ErrorRv)
  /-- `save_private_token_object` cannot read the old file, and removes it. -/
  | fileLost (f : ErrorRv)
  /-- `save_token_object` has replaced the file and fails at the index file. -/
  | index (f : ErrorRv)
  /-- `object_mgr_save_token_object` cannot release the process lock at its end. -/
  | unlock (f : ErrorRv)

/-- `object_mgr_check_shm`: reload the object if its count is not the one in the shared memory. -/
def SecureKey.refresh (o : SecureKey) : SecureKey :=
  if o.isToken && o.count ≠ o.entryCount then { o with tmpl := o.stored, count := o.entryCount }
  else o

/-- The object would have to be reloaded from a file that is gone. -/
def SecureKey.unloadable (o : SecureKey) : Bool :=
  o.isToken && o.count ≠ o.entryCount && o.removed

/-- `object_mgr_save_token_object`, which the steps call for token objects only. -/
def SecureKey.save (o : SecureKey) (fail : Option FailPoint) : CkRv × SecureKey :=
  if o.isToken then
    let o := { o with count := o.count.next }
    let o' := { o with stored := o.tmpl, removed := false }
    match fail with
    | some (.save f)     => (f.rc, o)
    | some (.fileLost f) => (f.rc, { o with removed := true })
    | some (.index f)    => (f.rc, o')
    | some (.unlock f)   => (f.rc, { o' with entryCount := o.count.entry })
    | _                  => (.ok, { o' with entryCount := o.count.entry })
  else (.ok, o)

/-- The re-encipher function of a token. It writes as many bytes as it is given. -/
structure Reenc where
  f : List UInt8 → Except ErrorRv (List UInt8)
  length_eq : ∀ blob blob', f blob = .ok blob' → blob'.length = blob.length

/-- The value of `reenc_attr`. It starts as a copy of the blob. For an AES-XTS key both calls of the
re-encipher function write to its start. -/
def Reenc.apply (r : Reenc) (xts : Bool) (blob : List UInt8) : Except ErrorRv (List UInt8) :=
  if xts then do
    let half := blob.length / 2
    let first ← r.f (blob.take half)
    let reenc := first ++ blob.drop first.length
    let second ← r.f ((blob.drop half).take half)
    return second ++ reenc.drop second.length
  else r.f blob

/-- `template_update_attribute` of the attribute with the new blob. When there is no memory for the
list node, the attribute has been removed. -/
def SecureKey.insert (o : SecureKey) (type : Nat) (value : List UInt8) (fail : Option FailPoint)
    (next : SecureKey → CkRv × SecureKey) : CkRv × SecureKey :=
  match fail with
  | some .insert => (.hostMemory, { o with tmpl := o.tmpl.remove type })
  | _            => next { o with tmpl := o.tmpl.update type value }

/-- The call of `object_mgr_check_shm` at the start of a step. -/
def SecureKey.checkShm (o : SecureKey) (fail : Option FailPoint)
    (next : SecureKey → CkRv × SecureKey) : CkRv × SecureKey :=
  match fail with
  | some (.check f) => if o.isToken then (f.rc, o) else next o.refresh
  | _               => if o.unloadable then (.functionFailed, o) else next o.refresh

variable (order : ByteOrder)

/-- `obj_mgr_reencipher_secure_key`. -/
def objMgrReencipherSecureKey (r : Reenc) (o : SecureKey) (fail : Option FailPoint) :
    CkRv × SecureKey :=
  o.checkShm fail fun o =>
    match o.tmpl.keyType order, o.tmpl CKA_IBM_OPAQUE with
    | some keyType, some blob =>
        match fail with
        | some .build     => (.hostMemory, o)
        | some (.reenc f) => (f.rc, o)
        | _ =>
            match r.apply (keyType = CKK_AES_XTS) blob with
            | .error f => (f.rc, o)
            | .ok reenc => o.insert CKA_IBM_OPAQUE_REENC reenc fail fun o => o.save fail
    | _, _ => (.attributeTypeInvalid, o)

/-- Copy the current blob to `CKA_IBM_OPAQUE_OLD` and build the attribute with the new blob. -/
def SecureKey.moveOld (o : SecureKey) (blob : List UInt8) (fail : Option FailPoint)
    (next : SecureKey → CkRv × SecureKey) : CkRv × SecureKey :=
  match fail with
  | some .buildOld  => (.hostMemory, o)
  | some .insertOld => (.hostMemory, { o with tmpl := o.tmpl.remove CKA_IBM_OPAQUE_OLD })
  | some .build     => (.hostMemory, { o with tmpl := o.tmpl.update CKA_IBM_OPAQUE_OLD blob })
  | _               => next { o with tmpl := o.tmpl.update CKA_IBM_OPAQUE_OLD blob }

/-- The label `remove` of `obj_mgr_reencipher_secure_key_finalize`. -/
def SecureKey.removeReenc (o : SecureKey) (fail : Option FailPoint) : CkRv × SecureKey :=
  { o with tmpl := o.tmpl.remove CKA_IBM_OPAQUE_REENC }.save fail

/-- The part of the blob that `is_blob_new_mk_cb` is given. -/
def checkedPart (xts : Bool) (blob : List UInt8) : List UInt8 :=
  if xts then blob.take (blob.length / 2) else blob

/-- `obj_mgr_reencipher_secure_key_finalize`. The callback `is_blob_new_mk_cb` is a function that
answers `false` when there is none. -/
def objMgrReencipherSecureKeyFinalize (isBlobNewMk : List UInt8 → Bool) (o : SecureKey)
    (fail : Option FailPoint) : CkRv × SecureKey :=
  o.checkShm fail fun o =>
    match o.tmpl.keyType order, o.tmpl CKA_IBM_OPAQUE_REENC, o.tmpl CKA_IBM_OPAQUE with
    | some keyType, some reenc, some blob =>
        if isBlobNewMk (checkedPart (keyType = CKK_AES_XTS) blob) then
          { o with tmpl := o.tmpl.remove CKA_IBM_OPAQUE_REENC }.removeReenc fail
        else
          o.moveOld blob fail fun o =>
            o.insert CKA_IBM_OPAQUE reenc fail fun o => o.removeReenc fail
    | _, _, _ => (.attributeTypeInvalid, o)

/-- `obj_mgr_reencipher_secure_key_cancel`. -/
def objMgrReencipherSecureKeyCancel (o : SecureKey) (fail : Option FailPoint) : CkRv × SecureKey :=
  o.checkShm fail fun o =>
    { o with tmpl := (o.tmpl.remove CKA_IBM_OPAQUE_REENC).remove CKA_IBM_OPAQUE_OLD }.save fail

end OpenCryptoki.Common
