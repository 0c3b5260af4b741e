import OpenCryptoki.Common.Reencipher

/-!
# `OpenCryptoki.Common.TokenObject`: a token object that several processes change

`object_mgr_set_attribute_values` and `object_mgr_get_attribute_values` (`obj_mgr.c`) for one token
object and any number of processes. A process takes the process lock twice when it sets attributes:
`object_mgr_find_in_map1` reloads the object if its count is not the one in the shared memory, and
`object_mgr_save_token_object` stores the whole object with the next count. Each of the two is one
step, and other processes can move in between. Inside a process the write lock of the object is held
over both.
-/

set_option autoImplicit false

namespace OpenCryptoki.Common

/-- `template_merge`. -/
def templateMerge (m : AttrMap) (attrs : List (Nat × List UInt8)) : AttrMap :=
  attrs.foldl (fun m attr => m.update attr.1 attr.2) m

/-- A token object in the object store, with its count in the shared memory, and the copies that the
processes have. -/
structure TokenObject (Proc : Type) where
  stored : AttrMap
  entryCount : ObjCount
  tmpl : Proc → AttrMap
  count : Proc → ObjCount
  /-- The process has passed `object_mgr_find_in_map1` in `object_mgr_set_attribute_values`. -/
  setting : Proc → Bool
  /-- The values of the calls of `C_SetAttributeValue` that succeeded. The code does not have
  this. -/
  effective : AttrMap

inductive TokenObjectAction (Proc : Type)
  /-- Read attributes. -/
  | get (p : Proc)
  /-- Start to set attributes. -/
  | find (p : Proc)
  /-- Set the attributes in memory and save the object. -/
  | save (p : Proc) (attrs : List (Nat × List UInt8))
  /-- The attributes are refused. -/
  | refuse (p : Proc)
  /-- `template_merge` fails at an attribute of type `type` after it has set `attrs`. The attribute
  is removed then. -/
  | noMemory (p : Proc) (attrs : List (Nat × List UInt8)) (type : Nat)

section

variable {Proc : Type} [DecidableEq Proc]

/-- Every process has the object `m`. -/
def TokenObject.init (m : AttrMap) : TokenObject Proc where
  stored := m
  entryCount := ⟨0, 0⟩
  tmpl _ := m
  count _ := ⟨0, 0⟩
  setting _ := false
  effective := m

/-- The object as a process works on it. -/
def TokenObject.copy (s : TokenObject Proc) (p : Proc) : SecureKey where
  isToken := true
  tmpl := s.tmpl p
  count := s.count p
  stored := s.stored
  entryCount := s.entryCount
  removed := false

/-- The system after a process has changed its object, the store or the shared memory. -/
def TokenObject.put (s : TokenObject Proc) (p : Proc) (o : SecureKey) : TokenObject Proc :=
  { s with
    stored := o.stored
    entryCount := o.entryCount
    tmpl := Function.update s.tmpl p o.tmpl
    count := Function.update s.count p o.count }

def TokenObject.setSetting (s : TokenObject Proc) (p : Proc) (b : Bool) : TokenObject Proc :=
  { s with setting := Function.update s.setting p b }

/-- One step of a process. -/
def TokenObject.step (s : TokenObject Proc) : TokenObjectAction Proc → Option (TokenObject Proc)
  | .get p => if s.setting p then none else some (s.put p (s.copy p).refresh)
  | .find p => if s.setting p then none else some ((s.put p (s.copy p).refresh).setSetting p true)
  | .save p attrs =>
      if s.setting p then
        let o := { s.copy p with tmpl := templateMerge (s.tmpl p) attrs }
        some { (s.put p (o.save none).2).setSetting p false with
          effective := templateMerge s.effective attrs }
      else none
  | .refuse p => if s.setting p then some (s.setSetting p false) else none
  | .noMemory p attrs type =>
      if s.setting p then
        let o := { s.copy p with tmpl := (templateMerge (s.tmpl p) attrs).remove type }
        some ((s.put p o).setSetting p false)
      else none

end

end OpenCryptoki.Common
