import OpenCryptoki.Common.Pkcs11

/-!
# `OpenCryptoki.Common.KeyAttributes`: which attributes of a key can be set

The attribute checks of `key.c` and `template.c`, and the two calls that change the attributes of a
key: `C_SetAttributeValue` (`object_mgr_set_attribute_values`) and `C_CopyObject`
(`object_mgr_copy`).

An attribute has a type and a value of bytes; a `CK_BBOOL` is one byte, and any byte can be given. A
template has at most one attribute of each type, so that of an object is a partial function. The
attributes of a call are first collected in a temporary template, which is a list, because its
attributes are checked in order. A check may put another attribute into that list.

The attributes that make up the value of a key (`AttrType.component`) are checked by the functions
of each key type; what they accept is a parameter, `KeyEnv.validateComponent`. Parameters are also
the table of defined attribute types, the check of attribute arrays, and the hook with which a token
updates its key blob. Memory for templates can always be allocated.
-/

set_option autoImplicit false

namespace OpenCryptoki.Common

/-- The parts of a key. The private and secret ones are those that the functions
`..._check_exportability` name. -/
inductive KeyComponent
  | value
  | modulus
  | privateExponent
  | prime1
  | prime2
  | exponent1
  | exponent2
  | coefficient
  | mlDsaSeed
  | mlDsaTr
  | mlDsaS1
  | mlDsaS2
  | mlDsaT0
  | mlDsaPrivateSeed
  | mlKemSk
  | mlKemPrivateSeed
  | seed
  /-- Public parts: exponents, primes and bases, points, lengths, parameters of the key. -/
  | publicPart (type : Nat)
  deriving DecidableEq, Repr

/-- Attribute types `CKA_...`. `cls`, `isPrivate` and `isLocal` are `CKA_CLASS`, `CKA_PRIVATE` and
`CKA_LOCAL`. -/
inductive AttrType
  | cls
  | token
  | isPrivate
  | label
  | uniqueId
  | modifiable
  | copyable
  | destroyable
  | hidden
  | ibmOpaque
  | ibmOpaqueReenc
  | ibmOpaqueOld
  | ibmOpaquePkey
  | keyType
  | id
  | startDate
  | endDate
  | derive
  | isLocal
  | keyGenMechanism
  | allowedMechanisms
  | ibmProtkeyExtractable
  | ibmProtkeyNeverExtractable
  | ibmAttrbound
  | ibmUseAsData
  | subject
  | encrypt
  | decrypt
  | sign
  | signRecover
  | verify
  | verifyRecover
  | wrap
  | unwrap
  | encapsulate
  | decapsulate
  | trusted
  | sensitive
  | wrapWithTrusted
  | extractable
  | alwaysSensitive
  | neverExtractable
  | alwaysAuthenticate
  | checkValue
  | publicKeyInfo
  | wrapTemplate
  | unwrapTemplate
  | deriveTemplate
  | encapsulateTemplate
  | decapsulateTemplate
  | component (c : KeyComponent)
  | other (type : Nat)
  deriving DecidableEq, Repr

/-- `CK_ATTRIBUTE`. -/
structure Attribute where
  type : AttrType
  value : List UInt8
  deriving DecidableEq

/-- The attributes of an object. -/
abbrev KeyTemplate := AttrType → Option (List UInt8)

/-- `template_attribute_find` in a list of attributes. -/
def valueOf (attrs : List Attribute) : KeyTemplate :=
  fun type => (attrs.find? fun attr => attr.type = type).map Attribute.value

/-- `template_attribute_get_bool`: the byte of a `CK_BBOOL`. -/
def templateAttributeGetBool (tmpl : KeyTemplate) (type : AttrType) : Option UInt8 :=
  match tmpl type with
  | some [b] => some b
  | _        => none

/-- `MODE_...`: what a template is for. -/
inductive AttrMode
  | copy
  | create
  | keygen
  | modify
  | derive
  | unwrap
  | encaps
  | decaps
  | extract
  deriving DecidableEq, Repr

/-- The classes of keys. -/
inductive KeyClass
  | publicKey
  | privateKey
  | secretKey
  deriving DecidableEq, Repr

/-- The key types `CKK_...` that the functions for templates know. -/
inductive KeyType
  | rsa
  | dsa
  | dh
  | x942Dh
  | ec
  | ecEdwards
  | ecMontgomery
  | ibmPqcDilithium
  | ibmPqcKyber
  | ibmMlDsa
  | ibmMlKem
  | mlDsa
  | mlKem
  | genericSecret
  /-- `CKK_SHA_1_HMAC` to `CKK_SHA512_256_HMAC`. -/
  | shaHmac (type : Nat)
  | des
  | des2
  | des3
  | aes
  | aesXts
  | other (type : Nat)
  deriving DecidableEq, Repr

/-- The cases of the switches in `template_validate_attribute`. -/
def KeyClass.knows : KeyClass → KeyType → Bool
  | .publicKey, t | .privateKey, t =>
      match t with
      | .rsa | .dsa | .ec | .ecEdwards | .ecMontgomery | .dh | .ibmPqcDilithium | .ibmPqcKyber
      | .ibmMlDsa | .ibmMlKem | .mlDsa | .mlKem => true
      | _ => false
  | .secretKey, t =>
      match t with
      | .genericSecret | .shaHmac _ | .des | .des2 | .des3 | .aes | .aesXts => true
      | _ => false

/-- What the checks depend on. -/
structure KeyEnv where
  isAttributeDefined : AttrType → Bool
  /-- `validate_attribute_array`, for the bytes of an attribute array. -/
  validateAttributeArray : List UInt8 → Option ErrorRv
  /-- `tweak_vector.allow_key_mods`. -/
  allowKeyMods : Bool
  /-- The cases for the parts of a key in the functions of the key types, like
  `rsa_priv_validate_attribute`. Numbers lose leading zeros (`p11_attribute_trim`). -/
  validateComponent : KeyClass → KeyType → KeyComponent → AttrMode → List UInt8 →
    Except ErrorRv (List UInt8)
  /-- `token_specific.secure_key_token`. -/
  secureKeyToken : Bool

/-! ### Checks -/

/-- What a check does to the template that the attribute is in. -/
inductive AttrEffect
  | keeps
  /-- `template_update_attribute` with another attribute. -/
  | adds (attr : Attribute)
  /-- The value of the attribute is replaced. -/
  | trims (value : List UInt8)

/-- The test of a `CK_BBOOL`. -/
def boolValue (attr : Attribute) : Except CkRv UInt8 :=
  match attr.value with
  | [b] => .ok b
  | _   => .error .attributeValueInvalid

/-- The attribute can be set only under a condition. -/
def allowedIf (p : Prop) [Decidable p] : Except CkRv AttrEffect :=
  if p then .ok .keeps else .error .attributeReadOnly

/-- The modes in which an object comes into being. -/
def AttrMode.creating : AttrMode → Bool
  | .create | .derive | .keygen | .unwrap | .encaps | .decaps | .extract => true
  | .copy | .modify => false

/-- `template_validate_base_attribute`. -/
def templateValidateBaseAttribute (attr : Attribute) (mode : AttrMode) : Except CkRv AttrEffect :=
  match attr.type with
  | .cls => do
      require (attr.value.length = 8) .attributeValueInvalid
      allowedIf (mode.creating)
  | .token | .isPrivate | .modifiable => do
      let _ ← boolValue attr
      allowedIf (mode.creating ∨ mode = .copy)
  | .label => .ok .keeps
  | .ibmOpaque | .ibmOpaqueReenc | .ibmOpaqueOld =>
      allowedIf (mode ∈ [.create, .copy, .modify, .extract])
  | .destroyable => do
      let _ ← boolValue attr
      .ok .keeps
  | .copyable => do
      let value ← boolValue attr
      allowedIf (mode.creating ∨ value = 0)
  | .uniqueId => .error .attributeReadOnly
  | .hidden => allowedIf (mode.creating)
  | _ => .error .attributeTypeInvalid

/-- `key_object_validate_attribute`. The value that it puts into
`CKA_IBM_PROTKEY_NEVER_EXTRACTABLE` is `ck_false`, which is initialised with `TRUE`. -/
def keyObjectValidateAttribute (attr : Attribute) (mode : AttrMode) : Except CkRv AttrEffect :=
  match attr.type with
  | .keyType => do
      require (attr.value.length = 8) .attributeValueInvalid
      allowedIf (mode.creating)
  | .id | .startDate | .endDate => .ok .keeps
  | .allowedMechanisms => do
      require (attr.value.length % 8 = 0) .attributeValueInvalid
      allowedIf (mode.creating)
  | .derive => do
      let _ ← boolValue attr
      .ok .keeps
  | .keyGenMechanism | .isLocal => allowedIf (mode = .extract)
  | .ibmProtkeyExtractable => do
      let value ← boolValue attr
      require (mode.creating ∨ value = 0) .attributeReadOnly
      .ok (if value = 1 then .adds ⟨.ibmProtkeyNeverExtractable, [1]⟩ else .keeps)
  | .ibmProtkeyNeverExtractable => .error .attributeReadOnly
  | .ibmAttrbound | .ibmUseAsData => do
      let _ ← boolValue attr
      allowedIf (mode.creating)
  | _ => templateValidateBaseAttribute attr mode

variable (env : KeyEnv)

/-- The flags for what a key can be used for. -/
def validateUsage (attr : Attribute) (mode : AttrMode) : Except CkRv AttrEffect := do
  let _ ← boolValue attr
  allowedIf (mode ≠ .modify ∨ env.allowKeyMods)

/-- The attribute arrays, which can be set in some modes. -/
def validateArray (attr : Attribute) (allowed : Bool) : Except CkRv AttrEffect :=
  match env.validateAttributeArray attr.value with
  | some e => .error e.rc
  | none   => allowedIf (allowed = true)

/-- `CKA_TRUSTED` can be set to `TRUE` only if there is a session of the SO. -/
def validateTrusted (soSession : Bool) (attr : Attribute) : Except CkRv AttrEffect := do
  let value ← boolValue attr
  require (value ≠ 1 ∨ soSession = true) .userNotLoggedIn
  .ok .keeps

/-- `publ_key_validate_attribute`. In the mode `MODE_MODIFY` the length of the usage flags is not
looked at. -/
def publKeyValidateAttribute (soSession : Bool) (attr : Attribute) (mode : AttrMode) :
    Except CkRv AttrEffect :=
  match attr.type with
  | .subject => .ok .keeps
  | .encrypt | .verify | .verifyRecover | .wrap | .encapsulate =>
      if mode = .modify then allowedIf (env.allowKeyMods)
      else do
        let _ ← boolValue attr
        .ok .keeps
  | .trusted => validateTrusted soSession attr
  | .publicKeyInfo => allowedIf (mode ∈ [.create, .unwrap, .encaps, .decaps, .extract])
  | .wrapTemplate | .encapsulateTemplate => validateArray env attr (mode.creating)
  | _ => keyObjectValidateAttribute attr mode

/-- The case `CKA_EXTRACTABLE`: after the creation of a key it can only be set to `FALSE`. With
`TRUE` the key gets `CKA_NEVER_EXTRACTABLE` with `FALSE`. -/
def validateExtractable (attr : Attribute) (creating : Bool) : Except CkRv AttrEffect := do
  let value ← boolValue attr
  require (creating ∨ value = 0) .attributeReadOnly
  .ok (if value = 1 then .adds ⟨.neverExtractable, [0]⟩ else .keeps)

/-- `priv_key_validate_attribute`. The temporary template `tmpl` is used for `CKA_PRIVATE`. -/
def privKeyValidateAttribute (tmpl : List Attribute) (attr : Attribute) (mode : AttrMode) :
    Except CkRv AttrEffect :=
  match attr.type with
  | .subject => .ok .keeps
  | .decrypt | .sign | .signRecover | .unwrap | .decapsulate => validateUsage env attr mode
  | .sensitive | .wrapWithTrusted => do
      let value ← boolValue attr
      allowedIf (mode ∈ [.create, .keygen, .unwrap, .encaps, .decaps] ∨ value = 1)
  | .extractable => validateExtractable attr (mode ∈ [.create, .keygen, .unwrap, .encaps])
  | .alwaysSensitive | .neverExtractable => .error .attributeReadOnly
  | .publicKeyInfo => .error .attributeTypeInvalid
  | .unwrapTemplate | .deriveTemplate | .decapsulateTemplate =>
      validateArray env attr (mode ∈ [.create, .keygen, .derive, .unwrap, .encaps, .decaps])
  | .alwaysAuthenticate => do
      let value ← boolValue attr
      require (mode ≠ .modify ∧ mode ≠ .copy) .attributeReadOnly
      let isPrivate := templateAttributeGetBool (valueOf tmpl) .isPrivate
      require (value = 0 ∨ (isPrivate ≠ none ∧ isPrivate ≠ some 0)) .attributeValueInvalid
      .ok .keeps
  | _ => keyObjectValidateAttribute attr mode

/-- `secret_key_validate_attribute`. -/
def secretKeyValidateAttribute (soSession : Bool) (attr : Attribute) (mode : AttrMode) :
    Except CkRv AttrEffect :=
  match attr.type with
  | .encrypt | .decrypt | .sign | .verify | .wrap | .unwrap => validateUsage env attr mode
  | .trusted => validateTrusted soSession attr
  | .sensitive | .wrapWithTrusted => do
      let value ← boolValue attr
      allowedIf (mode ∈ [.create, .derive, .keygen, .unwrap, .encaps, .decaps] ∨ value = 1)
  | .extractable =>
      validateExtractable attr (mode ∈ [.create, .derive, .keygen, .unwrap, .encaps, .decaps])
  | .alwaysSensitive | .neverExtractable => .error .attributeReadOnly
  | .checkValue => allowedIf (mode = .create)
  | .wrapTemplate | .unwrapTemplate | .deriveTemplate =>
      validateArray env attr (mode ∈ [.create, .keygen, .derive, .unwrap, .encaps, .decaps])
  | _ => keyObjectValidateAttribute attr mode

/-- `template_validate_attribute` for keys, with the functions of the key types. -/
def templateValidateAttribute (soSession : Bool) (cls : KeyClass) (keyType : KeyType)
    (tmpl : List Attribute) (attr : Attribute) (mode : AttrMode) : Except CkRv AttrEffect :=
  if cls.knows keyType = false then .error .attributeValueInvalid
  else
    match attr.type with
    | .component c =>
        match env.validateComponent cls keyType c mode attr.value with
        | .error e  => .error e.rc
        | .ok value => .ok (.trims value)
    | _ =>
        match cls with
        | .publicKey  => publKeyValidateAttribute env soSession attr mode
        | .privateKey => privKeyValidateAttribute env tmpl attr mode
        | .secretKey  => secretKeyValidateAttribute env soSession attr mode

/-! ### Temporary templates -/

/-- `template_update_attribute`: the attribute of the same type, of which there is at most one, is
removed. -/
def updateAttribute (tmpl : List Attribute) (attr : Attribute) : List Attribute :=
  attr :: tmpl.filter (·.type ≠ attr.type)

/-- `template_add_attributes`, to a template that may have attributes already. -/
def templateAddAttributes : List Attribute → List Attribute → Except CkRv (List Attribute)
  | tmpl, []            => .ok tmpl
  | tmpl, attr :: attrs =>
      if env.isAttributeDefined attr.type then
        templateAddAttributes (updateAttribute tmpl attr) attrs
      else .error .attributeTypeInvalid

/-- The walk of `template_validate_attributes`. `done` are the attributes in front of the current
one. A new attribute comes in front, and an older one of its type is removed (`gone`); the walk does
not get to it any more. -/
def validateFrom (soSession : Bool) (cls : KeyClass) (keyType : KeyType) (mode : AttrMode)
    (gone : List AttrType) (done : List Attribute) :
    List Attribute → Except CkRv (List Attribute)
  | [] => .ok done
  | attr :: todo =>
      if attr.type ∈ gone then validateFrom soSession cls keyType mode gone done todo
      else
        let tmpl := done ++ (attr :: todo).filter (·.type ∉ gone)
        match templateValidateAttribute env soSession cls keyType tmpl attr mode with
        | .error rc => .error rc
        | .ok .keeps => validateFrom soSession cls keyType mode gone (done ++ [attr]) todo
        | .ok (.trims value) =>
            validateFrom soSession cls keyType mode gone
              (done ++ [{ attr with value := value }]) todo
        | .ok (.adds new) =>
            validateFrom soSession cls keyType mode (new.type :: gone)
              (updateAttribute done new ++ [attr]) todo

/-- `template_validate_attributes`. -/
def templateValidateAttributes (soSession : Bool) (cls : KeyClass) (keyType : KeyType)
    (mode : AttrMode) (tmpl : List Attribute) : Except CkRv (List Attribute) :=
  validateFrom env soSession cls keyType mode [] [] tmpl

/-- `template_merge`. -/
def keyTemplateMerge (tmpl : KeyTemplate) (attrs : List Attribute) : KeyTemplate :=
  attrs.foldl (fun tmpl attr => Function.update tmpl attr.type (some attr.value)) tmpl

/-! ### Keys -/

/-- A key. Its class and type are those that `template_get_class` finds in its template; they cannot
be changed. -/
structure KeyObj where
  cls : KeyClass
  keyType : KeyType
  template : KeyTemplate

/-- `object_is_modifiable`, `object_is_copyable` and others: the byte of a flag, or a default. -/
def KeyObj.flag (key : KeyObj) (type : AttrType) (default : UInt8) : UInt8 :=
  (templateAttributeGetBool key.template type).getD default

/-- `object_is_session_object`. -/
def KeyObj.isSessionObject (key : KeyObj) : Bool := key.flag .token 0 = 0

/-- `object_is_private`. -/
def KeyObj.isPrivate (key : KeyObj) : Bool := key.flag .isPrivate 1 ≠ 0

/-- `object_mgr_check_session`. -/
def objectMgrCheckSession (state : CkState) (privObj sessObj : Bool) : Except CkRv Unit :=
  match state with
  | .roPublicSession => do
      require (privObj = false) .userNotLoggedIn
      require (sessObj = true) .sessionReadOnly
  | .roUserFunctions => require (sessObj = true) .sessionReadOnly
  | .rwPublicSession | .rwSoFunctions => require (privObj = false) .userNotLoggedIn
  | .rwUserFunctions => .ok ()

/-- The attributes in which a token keeps its key blob. -/
def BlobAttr (type : AttrType) : Prop :=
  type ∈ [.ibmOpaque, .ibmOpaqueReenc] ∨ ∃ n, type = .component (.publicPart n)

/-- What `t_set_attribute_values` does, if the token has it: it updates its key blob in the object
or in the new attributes, or it fails. -/
structure BlobUpdate where
  object : List Attribute
  new : List Attribute
  error : Option ErrorRv
  blob : ∀ attr ∈ object ++ new, BlobAttr attr.type

/-- A store of the object in the token that fails. The new attributes may be in the file of the
object already. -/
structure StoreFailure where
  error : ErrorRv
  written : Bool

/-- The session and the answers of the token for a call. -/
structure AttrCall where
  state : CkState
  soSession : Bool
  hook : BlobUpdate
  /-- The failure of the checks and of the store after the attributes have been set. -/
  store : Option StoreFailure

/-- The checks of a list of attributes, and the merge, in `object_set_attribute_values` and in
`object_copy`: the template after it, and the result. That `template_merge` fails for want of
memory is left out. -/
def setAttributes (call : AttrCall) (key : KeyObj) (attrs : List Attribute) (mode : AttrMode) :
    KeyTemplate × Except CkRv Unit :=
  match do
    let tmpl ← templateAddAttributes env [] attrs
    templateValidateAttributes env call.soSession key.cls key.keyType mode tmpl with
  | .error rc => (key.template, .error rc)
  | .ok new =>
      let tmpl := keyTemplateMerge key.template call.hook.object
      match call.hook.error with
      | some e => (tmpl, .error e.rc)
      | none   => (keyTemplateMerge tmpl (call.hook.new.foldl updateAttribute new), .ok ())

/-- `modifiable_override`. -/
def modifiableOverride (attrs : List Attribute) : Bool :=
  env.secureKeyToken && attrs.all fun attr =>
    attr.type ∈ [AttrType.ibmOpaque, .ibmOpaqueReenc, .ibmOpaqueOld]

/-- `object_mgr_set_attribute_values`: the key as the next call finds it, and the result. A token
key is stored after its attributes have been changed. Its count has been raised by then, so if the
store fails, `object_mgr_find_in_map1` of the next call loads the key from its file again. -/
def objectMgrSetAttributeValues (call : AttrCall) (key : KeyObj) (attrs : List Attribute) :
    KeyObj × Except CkRv Unit :=
  if key.flag .modifiable 1 = 0 ∧ modifiableOverride env attrs = false then
    (key, .error .actionProhibited)
  else
    match objectMgrCheckSession call.state key.isPrivate key.isSessionObject with
    | .error rc => (key, .error rc)
    | .ok () =>
        let (tmpl, result) := setAttributes env call key attrs .modify
        let new := { key with template := tmpl }
        match result with
        | .error rc => (new, .error rc)
        | .ok () =>
            if key.isSessionObject then (new, .ok ())
            else
              match call.store with
              | some failure => (if failure.written then new else key, .error failure.error.rc)
              | none         => (new, .ok ())

/-- `UNIQUE_ID_LEN`. -/
def UNIQUE_ID_LEN : Nat := 32

/-- `template_copy`: the copy has an identifier of its own, which is `none` if the random number
generator fails. -/
def templateCopy (tmpl : KeyTemplate) (uniqueId : Option (Vector UInt8 (2 * UNIQUE_ID_LEN))) :
    Except CkRv KeyTemplate :=
  match tmpl .uniqueId with
  | none     => .ok tmpl
  | some old =>
      if old.length < 2 * UNIQUE_ID_LEN then .error .attributeValueInvalid
      else
        match uniqueId with
        | none    => .error .functionFailed
        | some id => .ok (Function.update tmpl .uniqueId (some id.toList))

/-- `object_copy`. -/
def objectCopy (call : AttrCall) (key : KeyObj) (attrs : List Attribute)
    (uniqueId : Option (Vector UInt8 (2 * UNIQUE_ID_LEN))) : Except CkRv KeyObj := do
  let tmpl ← templateCopy key.template uniqueId
  let (tmpl, result) := setAttributes env call { key with template := tmpl } attrs .copy
  result
  .ok { key with template := tmpl }

/-- `object_mgr_copy`: the new key. -/
def objectMgrCopy (call : AttrCall) (key : KeyObj) (attrs : List Attribute)
    (uniqueId : Option (Vector UInt8 (2 * UNIQUE_ID_LEN))) : Except CkRv KeyObj := do
  require (key.flag .copyable 1 ≠ 0) .actionProhibited
  let new ← objectCopy env call key attrs uniqueId
  objectMgrCheckSession call.state new.isPrivate new.isSessionObject
  match call.store with
  | some failure => .error failure.error.rc
  | none         => .ok new

end OpenCryptoki.Common
