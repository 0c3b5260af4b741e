import OpenCryptoki.Common.Template

/-!
# `OpenCryptoki.Common.ObjectStore`: the files of token objects

Saving and loading token objects in `loadsave.c`, for the data store of version 3.12. A public
object is a file with a header of 16 bytes and the flattened object. A private object is sealed with
AES-GCM under a key of its own: the header of 64 bytes has the key, wrapped with the master key, and
the IV, and a footer has the tag. The IV is the name of the object and a counter of 32 bits, which
is incremented with every save. When the counter overflows, the object gets a new key.

The cryptographic functions are parameters, with the laws that unwrapping inverts wrapping and
unsealing inverts sealing. Which of the calls of a save fail is a parameter of the save (`SaveIo`).
The part of a restore that enters the object into the trees of the process and into the shared
memory is not modelled here.
-/

set_option autoImplicit false

namespace OpenCryptoki.Common

open Lib

def TOK_NEW_DATA_STORE : Nat := 0x0003000c
def OCK_MAX_TOKEN_OBJ_SIZE : Nat := 0x80000000
def HEADER_LEN : Nat := 64
def FOOTER_LEN : Nat := 16
def PUB_HEADER_LEN : Nat := 16
def HEADER_COMMON_LEN : Nat := 5
def CKA_PRIVATE : Nat := 0x00000002

/-- Bytes of a list, from an offset on. -/
def slice (bytes : List UInt8) (off len : Nat) : List UInt8 := (bytes.drop off).take len

/-! ### Keys and seals -/

/-- A key of 256 bits. -/
abbrev Aes256Key := Vector UInt8 32

/-- AES key wrap and AES-GCM. Plaintexts longer than `sealMax` are refused. -/
structure StoreCrypto where
  aes256Wrap : (kek key : Aes256Key) → List UInt8
  aes256Unwrap : (kek : Aes256Key) → (wrapped : List UInt8) → Except ErrorRv Aes256Key
  sealMax : Nat
  aes256GcmSeal : (key : Aes256Key) → (iv aad plain : List UInt8) → List UInt8 × List UInt8
  aes256GcmUnseal : (key : Aes256Key) → (iv aad cipher tag : List UInt8) →
    Except ErrorRv (List UInt8)
  length_wrap : ∀ kek key, (aes256Wrap kek key).length = 40
  unwrap_wrap : ∀ kek key, aes256Unwrap kek (aes256Wrap kek key) = .ok key
  length_seal : ∀ key iv aad plain, (aes256GcmSeal key iv aad plain).1.length = plain.length ∧
    (aes256GcmSeal key iv aad plain).2.length = FOOTER_LEN
  unseal_seal : ∀ key iv aad plain, aes256GcmUnseal key iv aad (aes256GcmSeal key iv aad plain).1
    (aes256GcmSeal key iv aad plain).2 = .ok plain

/-- `inc32`: increment a big-endian counter, from its last byte to its first one. The second
component is the carry. -/
def inc32 : List UInt8 → List UInt8 × Nat
  | []      => ([], 1)
  | b :: bs =>
      let (bs, c) := inc32 bs
      (UInt8.ofNat (c + b.toNat) :: bs, (c + b.toNat) / 256)

/-- Where an object key comes from. -/
inductive KeySource
  | random
  | unwrapped
  | uninitialised
  deriving DecidableEq

/-- The key, the IV and the wrapped key with which an object is sealed. -/
structure ObjKey where
  key : Aes256Key
  source : KeySource
  iv : List UInt8
  wrapped : List UInt8

/-- How the calls of a save go. A call that is `true` or `none` succeeds. -/
structure SaveIo where
  malloc : Bool
  openOld : Bool
  fstat : Bool
  fread : Bool
  unwrap : Option ErrorRv
  /-- The random bytes, if they could be generated. -/
  rng : Option Aes256Key
  /-- What is in the memory for the key before it is written. -/
  uninit : Aes256Key
  wrap : Option ErrorRv
  gcm : Option ErrorRv
  openNew : Bool
  perm : Option ErrorRv
  fwrite : Bool
  /-- How many bytes get into the new file, if `fclose` cannot write the rest. -/
  fclose : Option Nat
  rename : Bool
  remove : Bool
  index : Option ErrorRv

/-- Files by name. -/
abbrev ObjectFiles := List UInt8 → Option (List UInt8)

/-- The file name of an object: its name as a C string. -/
def fileName (name : Vector UInt8 8) : List UInt8 := name.toList.takeWhile (· ≠ 0)

variable (c : StoreCrypto) (masterKey : Aes256Key)

/-- The branch `new` of `save_private_token_object`. The result of `rng_generate` is not looked
at. -/
def newObjKey (name : Vector UInt8 8) (io : SaveIo) : Except Stop ObjKey :=
  let (key, source) : Aes256Key × KeySource :=
    match io.rng with
    | some key => (key, .random)
    | none     => (io.uninit, .uninitialised)
  match io.wrap with
  | some e => .error (.rc e.rc)
  | none   => .ok
      { key := key
        source := source
        iv := name.toList ++ [0, 0, 0, 1]
        wrapped := c.aes256Wrap masterKey key }

/-- The key of an object whose file has the header `header`. -/
def oldObjKey (name : Vector UInt8 8) (header : List UInt8) (io : SaveIo) : Except Stop ObjKey :=
  let iv := slice header 48 12
  let (counter, carry) := inc32 (iv.drop 8)
  if carry ≠ 0 then newObjKey c masterKey name io
  else
    match io.unwrap with
    | some e => .error (.rc e.rc)
    | none =>
        match c.aes256Unwrap masterKey (slice header 8 40) with
        | .error e => .error (.rc e.rc)
        | .ok key  => .ok
            { key := key
              source := .unwrapped
              iv := iv.take 8 ++ counter
              wrapped := slice header 8 40 }

/-- The key with which `save_private_token_object` seals. The old header is read into the buffer of
`totalLen` bytes for the new file. -/
def objKey (files : ObjectFiles) (name : Vector UInt8 8) (totalLen : Nat) (io : SaveIo) :
    Except Stop ObjKey :=
  match if io.openOld then files (fileName name) else none with
  | none => newObjKey c masterKey name io
  | some file =>
      if io.fstat = false then .error (.rc .functionFailed)
      else if file.length = 0 then newObjKey c masterKey name io
      else if totalLen < min HEADER_LEN file.length then .error .fault
      else if io.fread && HEADER_LEN ≤ file.length then
        oldObjKey c masterKey name (file.take HEADER_LEN) io
      else .error (.rc .functionFailed)

/-- `save_private_token_object` fails while the old file is open: its size or its header cannot be
read. -/
def oldFileUnread (files : ObjectFiles) (name : Vector UInt8 8) (io : SaveIo) : Bool :=
  match if io.openOld then files (fileName name) else none with
  | none      => false
  | some file => !io.fstat || (file.length ≠ 0 && !(io.fread && HEADER_LEN ≤ file.length))

/-- The files after `close_token_file_new`, when no key was found. It removes the file that is open,
which is the one of the object. -/
def filesWithoutKey (files : ObjectFiles) (name : Vector UInt8 8) (io : SaveIo) : ObjectFiles :=
  if oldFileUnread files name io && io.remove then Function.update files (fileName name) none
  else files

/-! ### Saving -/

/-- What was sealed. -/
structure Sealing where
  key : Aes256Key
  source : KeySource
  iv : List UInt8
  plain : List UInt8

/-- The result of a save: the files, and what was sealed in it. -/
structure SaveResult where
  result : Except Stop Unit
  files : ObjectFiles
  sealing : Option Sealing

/-- The header of a private object, with the version and the size in the byte order `v`. They are
saved in big-endian order. Versions 3.12 to 3.14 saved them in the order of the machine. -/
def privateHeader (v : ByteOrder) (k : ObjKey) (len : Nat) : List UInt8 :=
  wordBytes v 4 TOK_NEW_DATA_STORE ++ [1] ++ [0, 0, 0] ++ k.wrapped ++ k.iv ++ wordBytes v 4 len

/-- The header of a public object. -/
def publicHeader (v : ByteOrder) (len : Nat) : List UInt8 :=
  wordBytes v 4 TOK_NEW_DATA_STORE ++ [0] ++ List.replicate 7 0 ++ wordBytes v 4 len

/-- What is in a file after `fclose`. -/
def closedFile (fclose : Option Nat) (data : List UInt8) : List UInt8 :=
  match fclose with
  | none   => data
  | some n => data.take n

/-- Write the new file and rename it (`open_token_object_path_new` to `close_token_file_new`). The
result of `fclose` is not looked at. -/
def replaceFile (files : ObjectFiles) (name : Vector UInt8 8) (data : List UInt8) (io : SaveIo) :
    Except Stop ObjectFiles :=
  if io.openNew = false then .error (.rc .functionFailed)
  else
    match io.perm with
    | some e => .error (.rc e.rc)
    | none =>
        if io.fwrite && io.rename then
          .ok (Function.update files (fileName name) (some (closedFile io.fclose data)))
        else .error (.rc .functionFailed)

/-- The end of `save_private_token_object`: seal the plaintext and write the file. -/
def sealAndWrite (files : ObjectFiles) (name : Vector UInt8 8) (k : ObjKey) (plain : List UInt8)
    (io : SaveIo) : Except Stop ObjectFiles :=
  if c.sealMax < plain.length then .error (.rc .generalError)
  else
    match io.gcm with
    | some e => .error (.rc e.rc)
    | none =>
        let header := privateHeader .big k plain.length
        let (cipher, tag) := c.aes256GcmSeal k.key k.iv header plain
        replaceFile files name (header ++ cipher ++ tag) io

/-- `save_private_token_object` for flattened data of `len` bytes. The length and the size of the
file are numbers of 32 bits. -/
def savePrivateData (files : ObjectFiles) (name : Vector UInt8 8) (data : List UInt8) (len : Nat)
    (io : SaveIo) : SaveResult :=
  let len32 := len % 2 ^ 32
  let totalLen := (HEADER_LEN + len32 + FOOTER_LEN) % 2 ^ 32
  if io.malloc = false then ⟨.error (.rc .hostMemory), files, none⟩
  else
    match objKey c masterKey files name totalLen io with
    | .error e => ⟨.error e, filesWithoutKey files name io, none⟩
    | .ok k =>
        -- header, ciphertext and tag are written to the buffer
        if totalLen < HEADER_LEN + len32 + FOOTER_LEN then ⟨.error .fault, files, none⟩
        else
          let sealing : Sealing := ⟨k.key, k.source, k.iv, data.take len32⟩
          match sealAndWrite c files name k (data.take len32) io with
          | .error e => ⟨.error e, files, some sealing⟩
          | .ok new  => ⟨.ok (), new, some sealing⟩

/-- `save_private_token_object`. -/
def savePrivateTokenObject (o : ByteOrder) (files : ObjectFiles) (obj : CkObject) (io : SaveIo) :
    SaveResult :=
  match objectFlatten o obj with
  | none             => ⟨.error .fault, files, none⟩
  | some (data, len) => savePrivateData c masterKey files obj.name data len io

/-- `save_public_token_object`. Nothing is written, and `fwrite` reports an error, when the low 32
bits of the length are 0. -/
def savePublicTokenObject (o : ByteOrder) (files : ObjectFiles) (obj : CkObject) (io : SaveIo) :
    SaveResult :=
  match objectFlatten o obj with
  | none => ⟨.error .fault, files, none⟩
  | some (data, len) =>
      let len32 := len % 2 ^ 32
      if io.malloc = false then ⟨.error (.rc .hostMemory), files, none⟩
      else if len32 = 0 then ⟨.error (.rc .functionFailed), files, none⟩
      else
        match replaceFile files obj.name (publicHeader .big len32 ++ data.take len32) io with
        | .error e => ⟨.error e, files, none⟩
        | .ok new  => ⟨.ok (), new, none⟩

/-- `template_attribute_find`. -/
def templateAttributeFind (tmpl : List CkAttribute) (type : Nat) : Option CkAttribute :=
  tmpl.find? fun a => a.type = type

/-- `object_is_private`. -/
def objectIsPrivate (obj : CkObject) : UInt8 :=
  match templateAttributeFind obj.template CKA_PRIVATE with
  | some (.plain _ [value] _) => value
  | _                         => 1

/-- `save_token_object`: save the object and enter its name into the index file. -/
def saveTokenObject (o : ByteOrder) (files : ObjectFiles) (obj : CkObject) (io : SaveIo) :
    SaveResult :=
  let r := if objectIsPrivate obj = 1 then savePrivateTokenObject c masterKey o files obj io
    else savePublicTokenObject o files obj io
  match r.result, io.index with
  | .ok (), some e => { r with result := .error (.rc e.rc) }
  | _, _           => r

/-! ### Loading -/

/-- The bytes as a buffer. -/
def bufferOf (bytes : List UInt8) : Buf := fun i => bytes.getD i 0

/-- The size in a header: it is in the byte order of the machine if the version is. -/
def headerSize (o : ByteOrder) (header : List UInt8) (off : Nat) : Nat :=
  if wordValue o (slice header 0 4) = TOK_NEW_DATA_STORE then wordValue o (slice header off 4)
  else wordValue .big (slice header off 4)

/-- `restore_private_token_object`. -/
def restorePrivateTokenObject (o : ByteOrder) (header data footer : List UInt8)
    (old : Option CkObject) (path : List UInt8) : Except CkRv CkObject :=
  match c.aes256Unwrap masterKey (slice header 8 40) with
  | .error _ => .error .functionFailed
  | .ok key =>
      match c.aes256GcmUnseal key (slice header 48 12) header data footer with
      | .error _  => .error .functionFailed
      | .ok plain => objectRestoreWithSize o (bufferOf plain) data.length (some path) old

/-- The path of an object file in the directory `dir`. -/
def objectPath (dir : List UInt8) (name : Vector UInt8 8) : List UInt8 := dir ++ 47 :: fileName name

variable (dir : List UInt8)

/-- `reload_token_object`. -/
def reloadTokenObject (o : ByteOrder) (files : ObjectFiles) (obj : CkObject) :
    Except CkRv CkObject :=
  match files (fileName obj.name) with
  | none => .error .functionFailed
  | some file =>
      if file.length < HEADER_COMMON_LEN then .error .functionFailed
      else if file.getD 4 0 ≠ 0 then
        let size := headerSize o file 60
        if file.length < HEADER_LEN then .error .functionFailed
        else if size = 0 ∨ OCK_MAX_TOKEN_OBJ_SIZE ≤ size then .error .functionFailed
        else if file.length < HEADER_LEN + size + FOOTER_LEN then .error .functionFailed
        else
          restorePrivateTokenObject c masterKey o (file.take HEADER_LEN)
            (slice file HEADER_LEN size) (slice file (HEADER_LEN + size) FOOTER_LEN) (some obj)
            (objectPath dir obj.name)
      else
        let size := headerSize o file 12
        if file.length < PUB_HEADER_LEN then .error .functionFailed
        else if size = 0 ∨ OCK_MAX_TOKEN_OBJ_SIZE ≤ size then .error .functionFailed
        else if file.length < PUB_HEADER_LEN + size then .error .functionFailed
        else
          objectRestoreWithSize o (bufferOf (slice file PUB_HEADER_LEN size)) size
            (some (objectPath dir obj.name)) (some obj)

/-- What `load_public_token_objects` does for a name of the index file: `none` is a file that it
ignores. -/
def loadPublicTokenObject (o : ByteOrder) (files : ObjectFiles) (name : Vector UInt8 8) :
    Option CkObject :=
  match files (fileName name) with
  | none => none
  | some file =>
      let size := headerSize o file 12
      if file.length < PUB_HEADER_LEN ∨ file.getD 4 0 = 1 then none
      else if OCK_MAX_TOKEN_OBJ_SIZE ≤ size then none
      else if size = 0 ∨ file.length < PUB_HEADER_LEN + size then none
      else
        match objectRestoreWithSize o (bufferOf (slice file PUB_HEADER_LEN size)) size
            (some (objectPath dir name)) none with
        | .error _ => none
        | .ok obj  => some obj

/-- What `load_private_token_objects` does for a name of the index file: it ignores the file, or it
restores the object, or it stops with an error. -/
def loadPrivateTokenObject (o : ByteOrder) (files : ObjectFiles) (name : Vector UInt8 8) :
    Except CkRv (Option CkObject) :=
  match files (fileName name) with
  | none => .ok none
  | some file =>
      let size := wordValue .big (slice file 60 4)
      if file.length < HEADER_LEN ∨ file.getD 4 0 = 0 then .ok none
      else if size = 0 ∨ OCK_MAX_TOKEN_OBJ_SIZE ≤ size then .ok none
      else if file.length < HEADER_LEN + size + FOOTER_LEN then .ok none
      else
        (restorePrivateTokenObject c masterKey o (file.take HEADER_LEN)
          (slice file HEADER_LEN size) (slice file (HEADER_LEN + size) FOOTER_LEN) none
          (objectPath dir name)).map some

/-- `load_public_token_objects`, for the names in the index file: the objects that it restores. -/
def loadPublicTokenObjects (o : ByteOrder) (files : ObjectFiles) (names : List (Vector UInt8 8)) :
    List (Vector UInt8 8 × CkObject) :=
  names.filterMap fun name => (loadPublicTokenObject dir o files name).map (name, ·)

/-- `load_private_token_objects`: the objects that it restores, and what it returns. -/
def loadPrivateTokenObjects (o : ByteOrder) (files : ObjectFiles) :
    (names : List (Vector UInt8 8)) → List (Vector UInt8 8 × CkObject) × CkRv
  | [] => ([], .ok)
  | name :: names =>
      match loadPrivateTokenObject c masterKey dir o files name with
      | .error rc => ([], rc)
      | .ok found =>
          let (objs, rc) := loadPrivateTokenObjects o files names
          ((found.map (name, ·)).toList ++ objs, rc)

/-! ### Histories of private objects -/

/-- The object store, with what happened so far: the random keys that were generated, the calls of
`aes_256_gcm_seal`, and what was sealed in the files that were renamed. -/
structure StoreHistory where
  files : ObjectFiles
  drawn : List Aes256Key
  used : List Sealing
  stored : List Sealing

/-- A call of `save_private_token_object`. -/
structure SaveCall where
  obj : CkObject
  io : SaveIo

/-- No object is stored yet. The names in `names` have the empty files that `mkstemp` made. -/
def StoreHistory.init (names : List UInt8 → Bool) : StoreHistory where
  files name := if names name then some [] else none
  drawn := []
  used := []
  stored := []

/-- One call. Nothing is known after a fault. -/
def StoreHistory.step (o : ByteOrder) (s : StoreHistory) (call : SaveCall) : Option StoreHistory :=
  let r := savePrivateTokenObject c masterKey o s.files call.obj call.io
  match r.result with
  | .error .fault => none
  | .error (.rc _) => some
      { s with
        files := r.files
        drawn := s.drawn ++ call.io.rng.toList
        used := s.used ++ r.sealing.toList }
  | .ok () => some
      { files := r.files
        drawn := s.drawn ++ call.io.rng.toList
        used := s.used ++ r.sealing.toList
        stored := s.stored ++ r.sealing.toList }

end OpenCryptoki.Common
